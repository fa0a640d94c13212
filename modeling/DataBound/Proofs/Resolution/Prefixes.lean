-- SUMMARY: Resolving more nodes keeps what the first nodes gave: their path and the keys of their updates come first.
import DataBound.Proofs.Resolution
import DataBound.Proofs.Resolution.Misses
import DataBound.Document

/-!
# Resolution, node by node

The nodes of a path are resolved one after the other, and no node takes anything back: it appends to the path and to
the keys of the updates (`resolveNode_extends`). So the resolution of a beginning of the path is a beginning of its
resolution. To compare two runs the answers must not depend on what was asked before, which `Action.Steady` says; it
survives sequencing, so that a resolution over steady services is steady itself.
-/

namespace DataBound

/-! ## Answers that do not depend on the state -/

namespace Action

variable {σ α β : Type} {I : σ → Prop}

/-- What the action gives from a state, the state afterwards left aside. -/
def result (x : Action σ α) (s : σ) : Option (Except Error α) := (x.run.run s).map Prod.fst

/-- From all states with `I` the action gives the same, and it keeps `I`. -/
structure Steady (I : σ → Prop) (x : Action σ α) : Prop where
  keeps : Keeps I x
  same {s t : σ} : I s → I t → x.result s = x.result t

theorem result_eq_some_iff {x : Action σ α} {s : σ} {r : Except Error α} :
    x.result s = some r ↔ ∃ s', x.Ends s r s' := by
  rw [result, Option.map_eq_some_iff]
  constructor
  · rintro ⟨⟨_, s'⟩, hrun, rfl⟩
    exact ⟨s', hrun⟩
  · rintro ⟨s', hends⟩
    exact ⟨(r, s'), hends, rfl⟩

theorem Ends.result_eq {x : Action σ α} {s s' : σ} {r : Except Error α} (h : x.Ends s r s') : x.result s = some r :=
  result_eq_some_iff.2 ⟨s', h⟩

/-- Two actions give the same from two states if each ending of the one has a counterpart of the other. -/
theorem result_eq_of_ends {x : Action σ α} {s t : σ}
    (hst : ∀ r s', x.Ends s r s' → ∃ t', x.Ends t r t')
    (hts : ∀ r t', x.Ends t r t' → ∃ s', x.Ends s r s') :
    x.result s = x.result t := by
  apply Option.ext
  intro r
  rw [result_eq_some_iff, result_eq_some_iff]
  exact ⟨fun ⟨s', h⟩ => hst r s' h, fun ⟨t', h⟩ => hts r t' h⟩

/-- An action is steady if what it ends with from one state it ends with from all. -/
theorem Steady.of_ends {x : Action σ α} (hkeeps : Keeps I x)
    (hends : ∀ s t r s', I s → I t → x.Ends s r s' → ∃ t', x.Ends t r t') : Steady I x where
  keeps := hkeeps
  same hs ht := result_eq_of_ends (fun r s' h => hends _ _ r s' hs ht h) fun r t' h => hends _ _ r t' ht hs h

theorem Steady.ends {x : Action σ α} (hx : Steady I x) {s t s' : σ} {r : Except Error α} (hs : I s) (ht : I t)
    (h : x.Ends s r s') : ∃ t', x.Ends t r t' :=
  result_eq_some_iff.1 ((hx.same hs ht).symm.trans h.result_eq)

theorem steady_ofState {step : σ → α × σ} (hkeeps : ∀ s, I s → I (step s).2) (hsame : ∀ s t, (step s).1 = (step t).1) :
    Steady I (ofState step) :=
  .of_ends (keeps_ofState hkeeps) fun s t _ _ _ _ h =>
    ⟨(step t).2, ofState_ends.2 ⟨(ofState_ends.1 h).1.trans (congrArg _ (hsame s t)), rfl⟩⟩

theorem steady_sequential (I : σ → Prop) : Sequential (fun x => Steady I x) where
  pure a := .of_ends (keeps_sequential.pure a) fun s t r s' _ _ h => ⟨t, pure_ends.2 ⟨(pure_ends.1 h).1, rfl⟩⟩
  throw e := .of_ends (keeps_sequential.throw e) fun s t r s' _ _ h => ⟨t, throw_ends.2 ⟨(throw_ends.1 h).1, rfl⟩⟩
  exhausted := .of_ends keeps_sequential.exhausted fun s t r s' _ _ h => absurd h not_exhausted_ends
  bind hx hf := by
    refine .of_ends (keeps_sequential.bind hx.keeps fun a => (hf a).keeps) fun s t r s' hs ht h => ?_
    rcases bind_ends.1 h with ⟨e, hxe, rfl⟩ | ⟨a, s₁, hxa, hfa⟩
    · obtain ⟨t', hxe'⟩ := hx.ends hs ht hxe
      exact ⟨t', hxe'.bind_error⟩
    · obtain ⟨t₁, hxa'⟩ := hx.ends hs ht hxa
      obtain ⟨t', hfa'⟩ := (hf a).ends (hx.keeps _ _ _ hs hxa) (hx.keeps _ _ _ ht hxa') hfa
      exact ⟨t', hxa'.bind hfa'⟩
  mapError hchange hx := by
    refine .of_ends (keeps_sequential.mapError hchange hx.keeps) fun s t r s' hs ht h => ?_
    obtain ⟨r₁, hx₁, rfl⟩ := mapError_ends.1 h
    obtain ⟨t', hx₁'⟩ := hx.ends hs ht hx₁
    exact ⟨t', mapError_ends.2 ⟨r₁, hx₁', rfl⟩⟩
  attempt hx := by
    refine .of_ends (keeps_sequential.attempt hx.keeps) fun s t r s' hs ht h => ?_
    obtain ⟨r₁, hx₁, rfl⟩ := lift_ends.1 h
    obtain ⟨t', hx₁'⟩ := hx.ends hs ht hx₁
    exact ⟨t', lift_ends.2 ⟨r₁, hx₁', rfl⟩⟩

end Action

/-! ## What is resolved only grows -/

theorem Updates.keys_prefix_insert (updates : Updates) (path : DataPath) (value : Value) :
    keys updates <+: keys (insert updates path value) := by
  rw [keys_insert]
  split
  · exact List.prefix_rfl
  · exact List.prefix_append _ _

theorem Updates.keys_prefix_merge (updates other : Updates) : keys updates <+: keys (merge updates other) := by
  induction other generalizing updates with
  | nil => exact List.prefix_rfl
  | cons update rest ih => exact (keys_prefix_insert updates update.path update.value).trans (ih _)

namespace Resolved

/-- The other has more at the end of its path, and after its keys of updates. -/
structure Extends (r r' : Resolved) : Prop where
  path : r.path <+: r'.path
  keys : r.updates.keys <+: r'.updates.keys

theorem Extends.refl (r : Resolved) : Extends r r := ⟨List.prefix_rfl, List.prefix_rfl⟩

theorem Extends.trans {r r' r'' : Resolved} (h : Extends r r') (h' : Extends r' r'') : Extends r r'' :=
  ⟨h.path.trans h'.path, h.keys.trans h'.keys⟩

theorem select_extends (r : Resolved) (items : List Value) (key : String) (quoted : Bool) (wanted : Option String) :
    Extends r (r.select items key quoted wanted) where
  path := by
    unfold select
    split <;> exact List.prefix_append _ _
  keys := by
    rw [Miss.select_updates]
    exact Updates.keys_prefix_merge _ _

end Resolved

namespace Services

open DataBound.Action

variable {σ : Type} (services : Services σ) {s s' : σ}

theorem nodeText_keys {updates updates' : Updates} {text : String} (node : Node)
    (h : (services.nodeText updates node).Ends s (.ok (text, updates')) s') : updates.keys <+: updates'.keys := by
  cases node with
  | literal text quoted =>
    simp only [nodeText, pure_ends] at h
    cases h.1
    exact List.prefix_rfl
  | reference path =>
    simp only [nodeText] at h
    obtain ⟨inner, s₁, -, h⟩ := bind_ends_ok.1 h
    obtain ⟨text, s₂, -, h⟩ := bind_ends_ok.1 h
    cases (pure_ends.1 h).1
    exact Updates.keys_prefix_merge _ _
  | expression source =>
    simp only [nodeText] at h
    obtain ⟨text, s₁, -, h⟩ := bind_ends_ok.1 h
    cases (pure_ends.1 h).1
    exact List.prefix_rfl
  | query key value =>
    simp only [nodeText, throw_ends] at h
    cases h.1
  | joined parts =>
    simp only [nodeText, throw_ends] at h
    cases h.1

theorem wantedText_keys {updates updates' : Updates} {wanted : Option String} (value : Option Node)
    (h : (services.wantedText updates value).Ends s (.ok (wanted, updates')) s') :
    updates.keys <+: updates'.keys := by
  cases value with
  | none =>
    simp only [wantedText, pure_ends] at h
    cases h.1
    exact List.prefix_rfl
  | some node =>
    simp only [wantedText] at h
    obtain ⟨⟨text, updates₁⟩, s₁, hnode, h⟩ := bind_ends_ok.1 h
    cases (pure_ends.1 h).1
    exact services.nodeText_keys node hnode

theorem partsText_keys {updates updates' : Updates} {text : String} (parts : List Node)
    (h : (services.partsText updates parts).Ends s (.ok (text, updates')) s') : updates.keys <+: updates'.keys := by
  induction parts generalizing updates updates' text s s' with
  | nil =>
    simp only [partsText, pure_ends] at h
    cases h.1
    exact List.prefix_rfl
  | cons part rest ih =>
    simp only [partsText] at h
    obtain ⟨⟨first, updates₁⟩, s₁, hpart, h⟩ := bind_ends_ok.1 h
    obtain ⟨⟨more, updates₂⟩, s₂, hrest, h⟩ := bind_ends_ok.1 h
    cases (pure_ends.1 h).1
    exact (services.nodeText_keys part hpart).trans (ih hrest)

/-- A node takes nothing back of what is resolved before it. -/
theorem resolveNode_extends {r r' : Resolved} (node : Node) (h : (services.resolveNode r node).Ends s (.ok r') s') :
    r.Extends r' := by
  cases node with
  | literal text quoted =>
    simp only [resolveNode, pure_ends] at h
    cases h.1
    exact ⟨List.prefix_append _ _, List.prefix_rfl⟩
  | reference path =>
    simp only [resolveNode] at h
    obtain ⟨inner, s₁, -, h⟩ := bind_ends_ok.1 h
    obtain ⟨text, s₂, -, h⟩ := bind_ends_ok.1 h
    cases (pure_ends.1 h).1
    exact ⟨List.prefix_append _ _, Updates.keys_prefix_merge _ _⟩
  | expression source =>
    simp only [resolveNode] at h
    obtain ⟨text, s₁, -, h⟩ := bind_ends_ok.1 h
    cases (pure_ends.1 h).1
    exact ⟨List.prefix_append _ _, List.prefix_rfl⟩
  | query key value =>
    simp only [resolveNode] at h
    obtain ⟨target, s₁, -, h⟩ := bind_ends_ok.1 h
    obtain ⟨⟨keyText, updates₁⟩, s₂, hkey, h⟩ := bind_ends_ok.1 h
    obtain ⟨⟨wanted, updates₂⟩, s₃, hwanted, h⟩ := bind_ends_ok.1 h
    cases (pure_ends.1 h).1
    have hkeys := (services.nodeText_keys key hkey).trans (services.wantedText_keys value hwanted)
    have hwanted : r.Extends { r with updates := updates₂ } := ⟨List.prefix_rfl, hkeys⟩
    exact hwanted.trans (Resolved.select_extends _ _ _ _ _)
  | joined parts =>
    simp only [resolveNode] at h
    obtain ⟨⟨text, updates₁⟩, s₁, hparts, h⟩ := bind_ends_ok.1 h
    cases (pure_ends.1 h).1
    exact ⟨List.prefix_append _ _, services.partsText_keys parts hparts⟩

theorem resolveNodes_extends {r r' : Resolved} (nodes : List Node)
    (h : (services.resolveNodes r nodes).Ends s (.ok r') s') : r.Extends r' := by
  induction nodes generalizing r s with
  | nil =>
    simp only [resolveNodes, pure_ends] at h
    cases h.1
    exact .refl _
  | cons node rest ih =>
    simp only [resolveNodes] at h
    obtain ⟨next, s₁, hnode, h⟩ := bind_ends_ok.1 h
    exact (services.resolveNode_extends node hnode).trans (ih h)

/-! ## Beginnings of a path -/

/-- Literals are appended, each with the segments of its own text, and ask for nothing. -/
theorem resolveNodes_literals (r : Resolved) (literals : List (String × Bool)) :
    services.resolveNodes r (literals.map fun l => .literal l.1 l.2) =
      pure ⟨r.path ++ literals.flatMap fun l => Resolved.segmentsOf l.1 !l.2, r.updates⟩ := by
  induction literals generalizing r with
  | nil => simp only [List.map_nil, resolveNodes, List.flatMap_nil, List.append_nil]
  | cons l rest ih =>
    rw [List.map_cons, resolveNodes, resolveNode, pure_bind, ih, List.flatMap_cons]
    simp only [Resolved.append, List.append_assoc]

theorem resolve_append_ends {a b : List Node} {r : Except Error Resolved} :
    (services.resolve ⟨[]⟩ (a ++ b)).Ends s r s' ↔
      (∃ e, (services.resolve ⟨[]⟩ a).Ends s (.error e) s' ∧ r = .error e) ∨
      ∃ first s₁, (services.resolve ⟨[]⟩ a).Ends s (.ok first) s₁ ∧ (services.resolveNodes first b).Ends s₁ r s' := by
  simp only [resolve_of_no_taps, resolveNodes_append]
  exact bind_ends

theorem resolve_steady {I : σ → Prop} (hs : services.All (Steady I)) (path : List Node) :
    Steady I (services.resolve ⟨[]⟩ path) :=
  resolve_all (steady_sequential I) hs (fun _ hmem => absurd hmem List.not_mem_nil) path

/-- Over a host that answers the same question the same way, resolving more nodes adds to what the first nodes give: to
the path, and to the keys of the updates. An error of the first nodes stays the error. Literals add the segments of their
texts to the path, and nothing else. -/
theorem resolve_append {I : σ → Prop} (hs : services.All (Steady I)) (a b : List Node) {s t : σ} (hI : I s) (hI' : I t) :
    (∀ last, (services.resolve ⟨[]⟩ (a ++ b)).result s = some (.ok last) →
      ∃ first, (services.resolve ⟨[]⟩ a).result t = some (.ok first) ∧
        first.path <+: last.path ∧ first.updates.keys <+: last.updates.keys) ∧
    (∀ e, (services.resolve ⟨[]⟩ a).result t = some (.error e) →
      (services.resolve ⟨[]⟩ (a ++ b)).result s = some (.error e)) ∧
    ∀ literals : List (String × Bool), b = literals.map (fun l => .literal l.1 l.2) →
      ∀ first, (services.resolve ⟨[]⟩ a).result t = some (.ok first) →
        (services.resolve ⟨[]⟩ (a ++ b)).result s =
          some (.ok ⟨first.path ++ literals.flatMap fun l => Resolved.segmentsOf l.1 !l.2, first.updates⟩) := by
  have hsame : (services.resolve ⟨[]⟩ a).result t = (services.resolve ⟨[]⟩ a).result s :=
    (services.resolve_steady hs a).same hI' hI
  rw [hsame]
  refine ⟨?longer, ?error, ?literals⟩
  case longer =>
    intro last hlast
    obtain ⟨s', hends⟩ := result_eq_some_iff.1 hlast
    rcases services.resolve_append_ends.1 hends with ⟨e, -, heq⟩ | ⟨first, s₁, hfirst, hrest⟩
    · cases heq
    · have hextends := services.resolveNodes_extends b hrest
      exact ⟨first, hfirst.result_eq, hextends.path, hextends.keys⟩
  case error =>
    intro e he
    obtain ⟨s', hends⟩ := result_eq_some_iff.1 he
    exact (services.resolve_append_ends.2 (.inl ⟨e, hends, rfl⟩)).result_eq
  case literals =>
    rintro literals rfl first hfirst
    obtain ⟨s₁, hends⟩ := result_eq_some_iff.1 hfirst
    have hliterals := services.resolveNodes_literals first literals
    exact (services.resolve_append_ends.2 (.inr ⟨first, s₁, hends, hliterals ▸ pure_ends_self _ s₁⟩)).result_eq

/-- A host that answers from a document, takes the texts of scalars as they are, and counts the questions. -/
def counting (document : Value) : Services Nat where
  valueAt := fun path => ofState fun asked => (document.get? path, asked + 1)
  evaluate := fun source => ofState fun asked => (document.get? (.ofText source), asked + 1)
  textOf := fun value =>
    match (value.getD .null).pathText with
    | .ok text => pure text
    | .error e => throw e

theorem counting_all_steady (document : Value) : (counting document).All (Steady fun _ => True) where
  valueAt path := by
    simp only [counting]
    exact steady_ofState (fun _ _ => trivial) fun _ _ => rfl
  evaluate source := by
    simp only [counting]
    exact steady_ofState (fun _ _ => trivial) fun _ _ => rfl
  textOf value := by
    simp only [counting]
    split
    · exact (steady_sequential _).pure _
    · exact (steady_sequential _).throw _

/-- In `users[id={{who}}].'name.0'.1` the query finds nobody and asks for an element; the literals behind it are
appended, the quoted one without an index. -/
theorem resolve_append_users :
    let services := counting (.object [("users", .array [.null]), ("who", .string "ann")])
    let query := [.literal "users" false, .query (.literal "id" false) (some (.reference [.literal "who" false]))]
    let names := [.literal "name.0" true, .literal "1" false]
    let path : DataPath := [.key "users", .index 1]
    let updates : Updates := [.of (path ++ [.key "id"]) (.string "ann")]
    services.All (Steady fun _ => True) ∧
    (services.resolve ⟨[]⟩ query).result 7 = some (.ok ⟨path, updates⟩) ∧
    (services.resolve ⟨[]⟩ (query ++ names)).result 0 =
      some (.ok ⟨path ++ [.key "name", .key "0", .index 1], updates⟩) := by
  intro services query names path updates
  have hsteady := counting_all_steady (.object [("users", .array [.null]), ("who", .string "ann")])
  have hquery : (services.resolve ⟨[]⟩ query).result 7 = some (.ok ⟨path, updates⟩) := rfl
  exact ⟨hsteady, hquery, ((services.resolve_append hsteady query names (s := 0) trivial trivial).2.2
    [("name.0", true), ("1", false)] rfl _ hquery)⟩

end Services

end DataBound
