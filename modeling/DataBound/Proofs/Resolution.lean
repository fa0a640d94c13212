-- SUMMARY: What holds of the services of a resolution holds of the resolution.
import DataBound.Resolution
import DataBound.Proofs.Action
import DataBound.Proofs.Path.Shape

/-!
# Resolution as a program over its services

Resolving a path is put together from three services by sequencing and by naming the path in errors. A property of the
services that sequences keep is therefore one of the whole resolution. Only in trees that no text spells a node without a
text can be asked for one; such a tree needs the property of failing then, too. The taps on nodes are programs over the
same services and the state, and their property is asked for separately.
-/

namespace DataBound

variable {σ : Type} {P : ∀ {α : Type}, Action σ α → Prop}

/-- Every service has the property. -/
structure Services.All (P : ∀ {α : Type}, Action σ α → Prop) (services : Services σ) : Prop where
  valueAt (path : DataPath) : P (services.valueAt path)
  evaluate (source : String) : P (services.evaluate source)
  textOf (value : Option Value) : P (services.textOf value)

/-- Failing because a node has no text has the property. -/
def Action.Refuses (P : ∀ {α : Type}, Action σ α → Prop) : Prop :=
  ∀ {α : Type} (kindName : String), P (throw (.unsupportedNode kindName) : Action σ α)

theorem Action.Sequential.refuses (hP : Action.Sequential P) : Action.Refuses P := fun _ => hP.throw _

namespace Services

theorem followed_all (hP : Action.Composed P) {services : Services σ} (hs : services.All P) (path : DataPath) :
    P (services.followed path) := by
  apply hP.mapError
  · intro e
    rfl
  · apply hP.bind (hs.valueAt path)
    intro value
    exact hs.textOf value

theorem evaluated_all (hP : Action.Composed P) {services : Services σ} (hs : services.All P) (source : String) :
    P (services.evaluated source) := by
  apply hP.mapError
  · intro e
    rfl
  · apply hP.bind (hs.evaluate source)
    intro value
    exact hs.textOf value

mutual

theorem resolveNode_all (hP : Action.Composed P) {services : Services σ} (hs : services.All P) (r : Resolved) :
    ∀ node, Action.Refuses P ∨ node.WellFormed → P (services.resolveNode r node)
  | .literal text quoted, _ => by
    simp only [resolveNode]
    exact hP.pure _
  | .reference path, h => by
    simp only [resolveNode]
    apply hP.bind (resolveNodes_all hP hs .empty path (h.imp_right fun (.reference hpath) => hpath))
    intro inner
    apply hP.bind (followed_all hP hs inner.path)
    intro text
    exact hP.pure _
  | .expression source, _ => by
    simp only [resolveNode]
    apply hP.bind (evaluated_all hP hs source)
    intro text
    exact hP.pure _
  | .query key value, h => by
    simp only [resolveNode]
    apply hP.bind (hs.valueAt r.path)
    intro target
    apply hP.bind (nodeText_all hP hs r.updates key (h.imp_right fun (.query hkey hkey' _ _) => ⟨hkey, hkey'⟩))
    intro keyed
    apply hP.bind (wantedText_all hP hs keyed.2 value
      (h.imp_right fun (.query _ _ hvalue hvalue') wanted hwanted => ⟨hvalue wanted hwanted, hvalue' wanted hwanted⟩))
    intro wanted
    exact hP.pure _
  | .joined parts, h => by
    simp only [resolveNode]
    apply hP.bind (partsText_all hP hs r.updates parts
      (h.imp_right fun (.joined _ _ hparts hparts') part hpart => ⟨hparts part hpart, hparts' part hpart⟩))
    intro joined
    exact hP.pure _

theorem resolveNodes_all (hP : Action.Composed P) {services : Services σ} (hs : services.All P) (r : Resolved) :
    ∀ nodes, (Action.Refuses P ∨ ∀ node ∈ nodes, node.WellFormed) → P (services.resolveNodes r nodes)
  | [], _ => by
    simp only [resolveNodes]
    exact hP.pure _
  | node :: rest, h => by
    simp only [resolveNodes]
    apply hP.bind (resolveNode_all hP hs r node (h.imp_right fun hall => hall node List.mem_cons_self))
    intro next
    exact resolveNodes_all hP hs next rest (h.imp_right fun hall other hmem => hall other (List.mem_cons_of_mem _ hmem))

theorem nodeText_all (hP : Action.Composed P) {services : Services σ} (hs : services.All P) (updates : Updates) :
    ∀ node, Action.Refuses P ∨ (node.givesText ∧ node.WellFormed) → P (services.nodeText updates node)
  | .literal text quoted, _ => by
    simp only [nodeText]
    exact hP.pure _
  | .reference path, h => by
    simp only [nodeText]
    apply hP.bind (resolveNodes_all hP hs .empty path (h.imp_right fun ⟨_, .reference hpath⟩ => hpath))
    intro inner
    apply hP.bind (followed_all hP hs inner.path)
    intro text
    exact hP.pure _
  | .expression source, _ => by
    simp only [nodeText]
    apply hP.bind (evaluated_all hP hs source)
    intro text
    exact hP.pure _
  | .query key value, h => by
    simp only [nodeText]
    exact h.elim (fun hrefuses => hrefuses _) fun hnode => nomatch hnode.1
  | .joined parts, h => by
    simp only [nodeText]
    exact h.elim (fun hrefuses => hrefuses _) fun hnode => nomatch hnode.1

theorem wantedText_all (hP : Action.Composed P) {services : Services σ} (hs : services.All P) (updates : Updates) :
    ∀ value, (Action.Refuses P ∨ ∀ wanted ∈ value, wanted.givesText ∧ wanted.WellFormed) →
      P (services.wantedText updates value)
  | none, _ => by
    simp only [wantedText]
    exact hP.pure _
  | some node, h => by
    simp only [wantedText]
    apply hP.bind (nodeText_all hP hs updates node (h.imp_right fun hwanted => hwanted node rfl))
    intro text
    exact hP.pure _

theorem partsText_all (hP : Action.Composed P) {services : Services σ} (hs : services.All P) (updates : Updates) :
    ∀ parts, (Action.Refuses P ∨ ∀ part ∈ parts, part.givesText ∧ part.WellFormed) → P (services.partsText updates parts)
  | [], _ => by
    simp only [partsText]
    exact hP.pure _
  | part :: rest, h => by
    simp only [partsText]
    apply hP.bind (nodeText_all hP hs updates part (h.imp_right fun hall => hall part List.mem_cons_self))
    intro first
    apply hP.bind (partsText_all hP hs first.2 rest
      (h.imp_right fun hall other hmem => hall other (List.mem_cons_of_mem _ hmem)))
    intro more
    exact hP.pure _

end

/-- What a tap does when it is told about a node has the property. -/
def TapAll (P : ∀ {α : Type}, Action σ α → Prop) (services : Services σ) (tap : NodeTap σ) : Prop :=
  ∀ node resolved, P (liftM (tap node ⟨resolved, services⟩) : Action σ Node)

theorem threaded_all (hP : Action.Sequential P) {services : Services σ} (resolved : Resolved) :
    ∀ (taps : List (Tap (NodeTap σ))) (node : Node), (∀ tap ∈ taps, TapAll P services tap.handler) →
      P (liftM (Hook.thread ⟨taps⟩ node fun tap current => tap current ⟨resolved, services⟩ : Run σ Node) :
        Action σ Node)
  | [], node, _ => by
    simp only [Hook.thread, List.foldlM_nil, liftM_pure]
    exact hP.pure node
  | tap :: taps, node, htaps => by
    simp only [Hook.thread, List.foldlM_cons, liftM_bind]
    apply hP.bind (htaps tap List.mem_cons_self node resolved)
    intro next
    exact threaded_all hP resolved taps next fun other hmem => htaps other (List.mem_cons_of_mem _ hmem)

/-- A resolution has every sequential property that its services and taps have. -/
theorem resolve_all (hP : Action.Sequential P) {services : Services σ} (hs : services.All P)
    {taps : Hook (NodeTap σ)} (htaps : ∀ tap ∈ taps.taps, TapAll P services tap.handler) (path : List Node) :
    P (services.resolve taps path) := by
  unfold resolve
  -- the nodes before have left any path and updates behind
  suffices h : ∀ r : Resolved, P (path.foldlM
      (fun r node => do
        let node ← (taps.thread node fun tap current => tap current ⟨r, services⟩ : Run σ Node)
        services.resolveNode r node) r) from h .empty
  induction path with
  | nil =>
    intro r
    exact hP.pure r
  | cons node rest ih =>
    intro r
    rw [List.foldlM_cons]
    apply hP.bind
    · apply hP.bind (threaded_all hP r taps.taps node htaps)
      intro next
      exact resolveNode_all hP.toComposed hs r next (.inl hP.refuses)
    · intro next
      exact ih next

theorem resolveNodes_append (services : Services σ) (r : Resolved) (nodes more : List Node) :
    services.resolveNodes r (nodes ++ more) = (do
      let r ← services.resolveNodes r nodes
      services.resolveNodes r more) := by
  induction nodes generalizing r with
  | nil => simp [resolveNodes]
  | cons node nodes ih => simp [resolveNodes, ih]

/-- Without taps the nodes are resolved one after the other. -/
theorem resolve_of_no_taps (services : Services σ) (path : List Node) :
    services.resolve ⟨[]⟩ path = services.resolveNodes .empty path := by
  unfold resolve
  generalize Resolved.empty = r
  induction path generalizing r with
  | nil => simp only [List.foldlM_nil, resolveNodes]
  | cons node rest ih =>
    simp only [List.foldlM_cons, Hook.thread, List.foldlM_nil, liftM_pure, pure_bind, resolveNodes]
    exact bind_congr fun next => ih next

end Services

end DataBound
