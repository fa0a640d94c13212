-- SUMMARY: Resolution with the queries that found no element noted down, and how its updates come from them.
import DataBound.Proofs.Resolution
import DataBound.Proofs.Updates

/-!
# Missed queries

Resolving a path keeps its updates under the dotted text of their paths, so they do not tell how many queries found
nothing. `Noting.resolveNodes` resolves a path in the same way and notes every missed query down. Without the notes it
is the resolution itself, and the updates are what one gets by writing for the noted queries one after the other.
-/

namespace DataBound

/-- A query that found no element among the items at its base. -/
structure Miss where
  base : DataPath
  items : List Value
  key : String
  quoted : Bool
  wanted : Option String
  missed : findElement? items key wanted = none

namespace Miss

/-- Where the query's value belongs: the base, the position after the items, and the key. -/
def path (miss : Miss) : DataPath :=
  miss.base ++ .ofPosition miss.items.length :: Resolved.segmentsOf miss.key !miss.quoted

/-- The query's value; null if it has none. -/
def value (miss : Miss) : Value :=
  match miss.wanted with
  | some text => .string text
  | none => .null

/-- The write that the query asks for. -/
def update (miss : Miss) : Update := .of miss.path miss.value

/-- The writes for the misses, one after the other. -/
def writes (misses : List Miss) : Updates := misses.map update

theorem own_key_writes (misses : List Miss) : ∀ write ∈ writes misses, write.key = write.path.text :=
  List.forall_mem_map.2 fun _ _ => rfl

theorem merge_writes_append (updates : Updates) (misses more : List Miss) :
    Updates.merge updates (writes (misses ++ more)) = Updates.merge (Updates.merge updates (writes misses)) (writes more) := by
  rw [writes, List.map_append, Updates.merge_append]
  rfl

/-- What is noted for a query: nothing if it finds an element. -/
def ofQuery (base : DataPath) (items : List Value) (key : String) (quoted : Bool) (wanted : Option String) : List Miss :=
  match h : findElement? items key wanted with
  | some _ => []
  | none => [⟨base, items, key, quoted, wanted, h⟩]

variable {base : DataPath} {items : List Value} {key : String} {quoted : Bool} {wanted : Option String}

theorem ofQuery_of_hit {i : Nat} (h : findElement? items key wanted = some i) :
    ofQuery base items key quoted wanted = [] := by
  unfold ofQuery
  split
  · rfl
  · rename_i hmiss
    rw [h] at hmiss
    cases hmiss

theorem ofQuery_of_miss (h : findElement? items key wanted = none) :
    ofQuery base items key quoted wanted = [⟨base, items, key, quoted, wanted, h⟩] := by
  unfold ofQuery
  split
  · rename_i hhit
    rw [h] at hhit
    cases hhit
  · rfl

theorem select_updates (r : Resolved) (items : List Value) (key : String) (quoted : Bool) (wanted : Option String) :
    (r.select items key quoted wanted).updates =
      Updates.merge r.updates (writes (ofQuery r.path items key quoted wanted)) := by
  unfold Resolved.select
  cases hfind : findElement? items key wanted with
  | some i => rw [ofQuery_of_hit hfind]; rfl
  | none =>
    rw [ofQuery_of_miss hfind]
    simp only [Resolved.push, Resolved.append, List.append_assoc, List.singleton_append]
    rfl

end Miss

/-- What is noted down while a text is resolved: the misses of the texts of values that are done by then, and those of
the text itself. -/
structure Noted where
  texts : List Miss
  own : List Miss

namespace Noted

/-- No misses. -/
def nothing : Noted := ⟨[], []⟩

/-- Misses of the texts of values. -/
def ofTexts (texts : List Miss) : Noted := ⟨texts, []⟩

/-- Misses of the text itself. -/
def ofOwn (own : List Miss) : Noted := ⟨[], own⟩

instance : Append Noted := ⟨fun noted more => ⟨noted.texts ++ more.texts, noted.own ++ more.own⟩⟩

@[simp] theorem append_texts (noted more : Noted) : (noted ++ more).texts = noted.texts ++ more.texts := rfl

@[simp] theorem append_own (noted more : Noted) : (noted ++ more).own = noted.own ++ more.own := rfl

@[simp] theorem nothing_append (noted : Noted) : nothing ++ noted = noted := rfl

@[simp] theorem append_nothing (noted : Noted) : noted ++ nothing = noted := by
  change Noted.mk (noted.texts ++ []) (noted.own ++ []) = noted
  rw [List.append_nil, List.append_nil]

/-- All misses, text by text, a text after those whose values it needs. -/
def all (noted : Noted) : List Miss := noted.texts ++ noted.own

end Noted

/-! ## Programs that take notes -/

namespace Action

variable {σ α β ν : Type}

/-- Without its notes, `x` is `y`. -/
def Annotates (x : Action σ (α × ν)) (y : Action σ α) : Prop := Prod.fst <$> x = y

theorem annotates_pure (a : α) (noted : ν) : Annotates (pure (a, noted) : Action σ (α × ν)) (pure a) := map_pure _ _

theorem Annotates.bind {ν' : Type} {x : Action σ (α × ν)} {y : Action σ α} {f : α × ν → Action σ (β × ν')}
    {g : α → Action σ β} (hx : x.Annotates y) (hf : ∀ a noted, (f (a, noted)).Annotates (g a)) :
    (x >>= f).Annotates (y >>= g) := by
  rw [Annotates, map_bind, ← hx, bind_map_left]
  exact bind_congr fun a => hf a.1 a.2

theorem annotates_bind {x : Action σ α} {f : α → Action σ (β × ν)} {g : α → Action σ β}
    (hf : ∀ a, (f a).Annotates (g a)) : (x >>= f).Annotates (x >>= g) := by
  rw [Annotates, map_bind]
  exact bind_congr hf

theorem Annotates.mapError {change : Error → Error} {x : Action σ (α × ν)} {y : Action σ α} (h : x.Annotates y) :
    (mapError change x).Annotates (mapError change y) := by
  subst h
  apply ExceptT.ext
  simp only [ExceptT.run_map, Action.mapError, ExceptT.run_mk, map_bind, bind_map_left]
  apply bind_congr
  rintro (e | a)
  · rfl
  · rfl

/-- A program gives what it gives with notes. -/
theorem Annotates.ends_ok {x : Action σ (α × ν)} {y : Action σ α} (h : x.Annotates y) {s s' : σ} {a : α} :
    y.Ends s (.ok a) s' ↔ ∃ noted, x.Ends s (.ok (a, noted)) s' := by
  subst h
  rw [map_eq_pure_bind, bind_ends_ok]
  constructor
  · rintro ⟨⟨_, noted⟩, s₁, hx, heq⟩
    obtain ⟨heq, rfl⟩ := pure_ends.1 heq
    cases heq
    exact ⟨noted, hx⟩
  · rintro ⟨noted, hx⟩
    exact ⟨(a, noted), s', hx, pure_ends_self _ _⟩

end Action

/-- Services of a resolution that note down the misses of the texts of values. -/
structure Noting (σ : Type) where
  valueAt : DataPath → Action σ (Option Value)
  evaluate : String → Action σ (Option Value)
  textOf : Option Value → Action σ (String × List Miss)

namespace Noting

variable {σ : Type}

/-- The services without the notes. -/
def services (n : Noting σ) : Services σ := ⟨n.valueAt, n.evaluate, fun value => Prod.fst <$> n.textOf value⟩

/-- The text of the value at a resolved reference. -/
def followed (n : Noting σ) (path : DataPath) : Action σ (String × List Miss) :=
  Action.mapError (.unresolvedSegment path.text) do
    n.textOf (← n.valueAt path)

/-- The text of an expression's value. -/
def evaluated (n : Noting σ) (source : String) : Action σ (String × List Miss) :=
  Action.mapError (.unresolvedSegment source) do
    n.textOf (← n.evaluate source)

mutual

/-- The resolution of `node` after what is resolved already. -/
def resolveNode (n : Noting σ) (r : Resolved) : Node → Action σ (Resolved × Noted)
  | .literal text quoted => pure (r.append text !quoted, .nothing)
  | .reference path => do
    let (inner, noted) ← resolveNodes n .empty path
    let (text, texts) ← n.followed inner.path
    pure ({ r with updates := Updates.merge r.updates inner.updates }.append text true, noted ++ .ofTexts texts)
  | .expression source => do
    let (text, texts) ← n.evaluated source
    pure (r.append text true, .ofTexts texts)
  | .query key value => do
    let target ← n.valueAt r.path
    let ((keyText, updates), noted) ← nodeText n r.updates key
    let ((wanted, updates), more) ← wantedText n updates value
    let items := Resolved.elements target
    pure ({ r with updates }.select items keyText key.isQuoted wanted,
      noted ++ more ++ .ofOwn (Miss.ofQuery r.path items keyText key.isQuoted wanted))
  | .joined parts => do
    let ((text, updates), noted) ← partsText n r.updates parts
    pure ({ r with updates }.push (.key text), noted)

/-- The resolution of all nodes, one after the other. -/
def resolveNodes (n : Noting σ) (r : Resolved) : List Node → Action σ (Resolved × Noted)
  | [] => pure (r, .nothing)
  | node :: rest => do
    let (r, noted) ← resolveNode n r node
    let (r, more) ← resolveNodes n r rest
    pure (r, noted ++ more)

/-- The text that a node gives to a segment, and the writes so far. -/
def nodeText (n : Noting σ) (updates : Updates) : Node → Action σ ((String × Updates) × Noted)
  | .literal text _ => pure ((text, updates), .nothing)
  | .reference path => do
    let (inner, noted) ← resolveNodes n .empty path
    let (text, texts) ← n.followed inner.path
    pure ((text, Updates.merge updates inner.updates), noted ++ .ofTexts texts)
  | .expression source => do
    let (text, texts) ← n.evaluated source
    pure ((text, updates), .ofTexts texts)
  | .query .. => throw (.unsupportedNode "Query")
  | .joined _ => throw (.unsupportedNode "Concatenated")

/-- The text that a query wants, if it wants any. -/
def wantedText (n : Noting σ) (updates : Updates) : Option Node → Action σ ((Option String × Updates) × Noted)
  | none => pure ((none, updates), .nothing)
  | some node => do
    let ((text, updates), noted) ← nodeText n updates node
    pure ((some text, updates), noted)

/-- The texts of the parts, one after the other. -/
def partsText (n : Noting σ) (updates : Updates) : List Node → Action σ ((String × Updates) × Noted)
  | [] => pure (("", updates), .nothing)
  | part :: rest => do
    let ((text, updates), noted) ← nodeText n updates part
    let ((more, updates), noted') ← partsText n updates rest
    pure ((text ++ more, updates), noted ++ noted')

end

/-! ## Without the notes -/

theorem followed_annotates (n : Noting σ) (path : DataPath) : (n.followed path).Annotates (n.services.followed path) :=
  .mapError (Action.annotates_bind fun _ => rfl)

theorem evaluated_annotates (n : Noting σ) (source : String) :
    (n.evaluated source).Annotates (n.services.evaluated source) :=
  .mapError (Action.annotates_bind fun _ => rfl)

mutual

theorem resolveNode_annotates (n : Noting σ) (r : Resolved) :
    ∀ node, (n.resolveNode r node).Annotates (n.services.resolveNode r node)
  | .literal text quoted => by
    simp only [resolveNode, Services.resolveNode]
    exact Action.annotates_pure _ _
  | .reference path => by
    simp only [resolveNode, Services.resolveNode]
    refine (resolveNodes_annotates n .empty path).bind fun inner noted => ?_
    exact (n.followed_annotates inner.path).bind fun text texts => Action.annotates_pure _ _
  | .expression source => by
    simp only [resolveNode, Services.resolveNode]
    exact (n.evaluated_annotates source).bind fun text texts => Action.annotates_pure _ _
  | .query key value => by
    simp only [resolveNode, Services.resolveNode]
    refine Action.annotates_bind fun target => ?_
    refine (nodeText_annotates n r.updates key).bind fun keyed noted => ?_
    exact (wantedText_annotates n keyed.2 value).bind fun wanted more => Action.annotates_pure _ _
  | .joined parts => by
    simp only [resolveNode, Services.resolveNode]
    exact (partsText_annotates n r.updates parts).bind fun joined noted => Action.annotates_pure _ _

theorem resolveNodes_annotates (n : Noting σ) (r : Resolved) :
    ∀ nodes, (n.resolveNodes r nodes).Annotates (n.services.resolveNodes r nodes)
  | [] => by
    simp only [resolveNodes, Services.resolveNodes]
    exact Action.annotates_pure _ _
  | node :: rest => by
    simp only [resolveNodes, Services.resolveNodes]
    refine (resolveNode_annotates n r node).bind fun next noted => ?_
    rw [← bind_pure (n.services.resolveNodes next rest)]
    exact (resolveNodes_annotates n next rest).bind fun last more => Action.annotates_pure _ _

theorem nodeText_annotates (n : Noting σ) (updates : Updates) :
    ∀ node, (n.nodeText updates node).Annotates (n.services.nodeText updates node)
  | .literal text quoted => by
    simp only [nodeText, Services.nodeText]
    exact Action.annotates_pure _ _
  | .reference path => by
    simp only [nodeText, Services.nodeText]
    refine (resolveNodes_annotates n .empty path).bind fun inner noted => ?_
    exact (n.followed_annotates inner.path).bind fun text texts => Action.annotates_pure _ _
  | .expression source => by
    simp only [nodeText, Services.nodeText]
    exact (n.evaluated_annotates source).bind fun text texts => Action.annotates_pure _ _
  | .query key value => by
    simp only [nodeText, Services.nodeText]
    rfl
  | .joined parts => by
    simp only [nodeText, Services.nodeText]
    rfl

theorem wantedText_annotates (n : Noting σ) (updates : Updates) :
    ∀ value, (n.wantedText updates value).Annotates (n.services.wantedText updates value)
  | none => by
    simp only [wantedText, Services.wantedText]
    exact Action.annotates_pure _ _
  | some node => by
    simp only [wantedText, Services.wantedText]
    exact (nodeText_annotates n updates node).bind fun text noted => Action.annotates_pure _ _

theorem partsText_annotates (n : Noting σ) (updates : Updates) :
    ∀ parts, (n.partsText updates parts).Annotates (n.services.partsText updates parts)
  | [] => by
    simp only [partsText, Services.partsText]
    exact Action.annotates_pure _ _
  | part :: rest => by
    simp only [partsText, Services.partsText]
    refine (nodeText_annotates n updates part).bind fun first noted => ?_
    exact (partsText_annotates n first.2 rest).bind fun more noted' => Action.annotates_pure _ _

end

/-! ## Updates from the notes -/

/-- The state keeps pending updates: asking for values leaves them as they are, and the text of a value adds the writes
for its misses. -/
structure Collects (n : Noting σ) (pending : σ → Updates) : Prop where
  valueAt (path : DataPath) {s s' : σ} {value : Option Value} :
    (n.valueAt path).Ends s (.ok value) s' → pending s' = pending s
  evaluate (source : String) {s s' : σ} {value : Option Value} :
    (n.evaluate source).Ends s (.ok value) s' → pending s' = pending s
  textOf (value : Option Value) {s s' : σ} {text : String} {texts : List Miss} :
    (n.textOf value).Ends s (.ok (text, texts)) s' → pending s' = Updates.merge (pending s) (Miss.writes texts)

/-- From one state and its updates to the next the writes for the noted misses were made. -/
structure Gathered (pending : σ → Updates) (before : Updates) (s : σ) (after : Updates) (s' : σ) (noted : Noted) :
    Prop where
  own : after = Updates.merge before (Miss.writes noted.own)
  texts : pending s' = Updates.merge (pending s) (Miss.writes noted.texts)

variable {n : Noting σ} {pending : σ → Updates} {s s₁ s₂ s' : σ} {before middle after : Updates} {noted more : Noted}

theorem Gathered.nothing (updates : Updates) (s : σ) : Gathered pending updates s updates s .nothing := ⟨rfl, rfl⟩

theorem Gathered.trans (h : Gathered pending before s middle s₁ noted)
    (hmore : Gathered pending middle s₁ after s' more) : Gathered pending before s after s' (noted ++ more) where
  own := by
    rw [hmore.own, h.own, Noted.append_own, Miss.merge_writes_append]
  texts := by
    rw [hmore.texts, h.texts, Noted.append_texts, Miss.merge_writes_append]

/-- The updates of a reference are merged into those around it. -/
theorem Gathered.inner (h : Gathered pending [] s after s' noted) (before : Updates) :
    Gathered pending before s (Updates.merge before after) s' noted where
  own := by rw [h.own, Updates.merge_merge_nil]
  texts := h.texts

theorem Collects.followed (h : n.Collects pending) {path : DataPath} {text : String} {texts : List Miss}
    (updates : Updates) (hends : (n.followed path).Ends s (.ok (text, texts)) s') :
    Gathered pending updates s updates s' (.ofTexts texts) := by
  obtain ⟨value, s₁, hvalue, htext⟩ := Action.bind_ends_ok.1 (Action.mapError_ends_ok.1 hends)
  exact ⟨rfl, by rw [h.textOf value htext, h.valueAt path hvalue]; rfl⟩

theorem Collects.evaluated (h : n.Collects pending) {source text : String} {texts : List Miss}
    (updates : Updates) (hends : (n.evaluated source).Ends s (.ok (text, texts)) s') :
    Gathered pending updates s updates s' (.ofTexts texts) := by
  obtain ⟨value, s₁, hvalue, htext⟩ := Action.bind_ends_ok.1 (Action.mapError_ends_ok.1 hends)
  exact ⟨rfl, by rw [h.textOf value htext, h.evaluate source hvalue]; rfl⟩

mutual

theorem Collects.resolveNode (h : n.Collects pending) (r : Resolved) {r' : Resolved} {s s' : σ} {noted : Noted} :
    ∀ node, (n.resolveNode r node).Ends s (.ok (r', noted)) s' →
      Gathered pending r.updates s r'.updates s' noted
  | .literal text quoted, hends => by
    simp only [Noting.resolveNode, Action.pure_ends] at hends
    obtain ⟨heq, rfl⟩ := hends
    cases heq
    exact .nothing _ _
  | .reference path, hends => by
    simp only [Noting.resolveNode] at hends
    obtain ⟨⟨inner, noted₁⟩, s₁, hinner, hends⟩ := Action.bind_ends_ok.1 hends
    obtain ⟨⟨text, texts⟩, s₂, htext, hends⟩ := Action.bind_ends_ok.1 hends
    obtain ⟨heq, rfl⟩ := Action.pure_ends.1 hends
    cases heq
    exact ((h.resolveNodes .empty path hinner).inner r.updates).trans (h.followed _ htext)
  | .expression source, hends => by
    simp only [Noting.resolveNode] at hends
    obtain ⟨⟨text, texts⟩, s₁, htext, hends⟩ := Action.bind_ends_ok.1 hends
    obtain ⟨heq, rfl⟩ := Action.pure_ends.1 hends
    cases heq
    exact h.evaluated _ htext
  | .query key value, hends => by
    simp only [Noting.resolveNode] at hends
    obtain ⟨target, s₁, htarget, hends⟩ := Action.bind_ends_ok.1 hends
    obtain ⟨⟨⟨keyText, updates₁⟩, noted₁⟩, s₂, hkey, hends⟩ := Action.bind_ends_ok.1 hends
    obtain ⟨⟨⟨wanted, updates₂⟩, noted₂⟩, s₃, hwanted, hends⟩ := Action.bind_ends_ok.1 hends
    obtain ⟨heq, rfl⟩ := Action.pure_ends.1 hends
    cases heq
    have hasked : Gathered pending r.updates s r.updates s₁ .nothing := ⟨rfl, h.valueAt r.path htarget⟩
    have hselected := Miss.select_updates { r with updates := updates₂ } (Resolved.elements target) keyText
      key.isQuoted wanted
    have hmissed : Gathered pending updates₂ s' _ s' (.ofOwn _) := ⟨hselected, rfl⟩
    exact ((hasked.trans (h.nodeText r.updates key hkey)).trans (h.wantedText updates₁ value hwanted)).trans hmissed
  | .joined parts, hends => by
    simp only [Noting.resolveNode] at hends
    obtain ⟨⟨⟨text, updates₁⟩, noted₁⟩, s₁, hparts, hends⟩ := Action.bind_ends_ok.1 hends
    obtain ⟨heq, rfl⟩ := Action.pure_ends.1 hends
    cases heq
    exact h.partsText r.updates parts hparts

theorem Collects.resolveNodes (h : n.Collects pending) (r : Resolved) {r' : Resolved} {s s' : σ} {noted : Noted} :
    ∀ nodes, (n.resolveNodes r nodes).Ends s (.ok (r', noted)) s' →
      Gathered pending r.updates s r'.updates s' noted
  | [], hends => by
    simp only [Noting.resolveNodes, Action.pure_ends] at hends
    obtain ⟨heq, rfl⟩ := hends
    cases heq
    exact .nothing _ _
  | node :: rest, hends => by
    simp only [Noting.resolveNodes] at hends
    obtain ⟨⟨next, noted₁⟩, s₁, hnode, hends⟩ := Action.bind_ends_ok.1 hends
    obtain ⟨⟨last, noted₂⟩, s₂, hrest, hends⟩ := Action.bind_ends_ok.1 hends
    obtain ⟨heq, rfl⟩ := Action.pure_ends.1 hends
    cases heq
    exact (h.resolveNode r node hnode).trans (h.resolveNodes next rest hrest)

theorem Collects.nodeText (h : n.Collects pending) (updates : Updates) {text : String} {after : Updates} {s s' : σ}
    {noted : Noted} :
    ∀ node, (n.nodeText updates node).Ends s (.ok ((text, after), noted)) s' →
      Gathered pending updates s after s' noted
  | .literal text quoted, hends => by
    simp only [Noting.nodeText, Action.pure_ends] at hends
    obtain ⟨heq, rfl⟩ := hends
    cases heq
    exact .nothing _ _
  | .reference path, hends => by
    simp only [Noting.nodeText] at hends
    obtain ⟨⟨inner, noted₁⟩, s₁, hinner, hends⟩ := Action.bind_ends_ok.1 hends
    obtain ⟨⟨text, texts⟩, s₂, htext, hends⟩ := Action.bind_ends_ok.1 hends
    obtain ⟨heq, rfl⟩ := Action.pure_ends.1 hends
    cases heq
    exact ((h.resolveNodes .empty path hinner).inner updates).trans (h.followed _ htext)
  | .expression source, hends => by
    simp only [Noting.nodeText] at hends
    obtain ⟨⟨text, texts⟩, s₁, htext, hends⟩ := Action.bind_ends_ok.1 hends
    obtain ⟨heq, rfl⟩ := Action.pure_ends.1 hends
    cases heq
    exact h.evaluated _ htext
  | .query key value, hends => by
    simp only [Noting.nodeText, Action.throw_ends] at hends
    exact nomatch hends.1
  | .joined parts, hends => by
    simp only [Noting.nodeText, Action.throw_ends] at hends
    exact nomatch hends.1

theorem Collects.wantedText (h : n.Collects pending) (updates : Updates) {text : Option String} {after : Updates}
    {s s' : σ} {noted : Noted} :
    ∀ value, (n.wantedText updates value).Ends s (.ok ((text, after), noted)) s' →
      Gathered pending updates s after s' noted
  | none, hends => by
    simp only [Noting.wantedText, Action.pure_ends] at hends
    obtain ⟨heq, rfl⟩ := hends
    cases heq
    exact .nothing _ _
  | some node, hends => by
    simp only [Noting.wantedText] at hends
    obtain ⟨⟨⟨text, updates₁⟩, noted₁⟩, s₁, hnode, hends⟩ := Action.bind_ends_ok.1 hends
    obtain ⟨heq, rfl⟩ := Action.pure_ends.1 hends
    cases heq
    exact h.nodeText updates node hnode

theorem Collects.partsText (h : n.Collects pending) (updates : Updates) {text : String} {after : Updates} {s s' : σ}
    {noted : Noted} :
    ∀ parts, (n.partsText updates parts).Ends s (.ok ((text, after), noted)) s' →
      Gathered pending updates s after s' noted
  | [], hends => by
    simp only [Noting.partsText, Action.pure_ends] at hends
    obtain ⟨heq, rfl⟩ := hends
    cases heq
    exact .nothing _ _
  | part :: rest, hends => by
    simp only [Noting.partsText] at hends
    obtain ⟨⟨⟨first, updates₁⟩, noted₁⟩, s₁, hpart, hends⟩ := Action.bind_ends_ok.1 hends
    obtain ⟨⟨⟨others, updates₂⟩, noted₂⟩, s₂, hrest, hends⟩ := Action.bind_ends_ok.1 hends
    obtain ⟨heq, rfl⟩ := Action.pure_ends.1 hends
    cases heq
    exact (h.nodeText updates part hpart).trans (h.partsText updates₁ rest hrest)

end

end Noting

end DataBound
