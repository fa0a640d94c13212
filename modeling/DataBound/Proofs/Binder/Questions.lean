-- SUMMARY: What a text asks of its host: its tree from left to right, each reference, query and expression once.
import DataBound.Proofs.Binder.Failures
import DataBound.Proofs.Binder.Splicing

/-!
# The questions of a parse

An `Interview` is what a host is asked, one question after the other, where a question may depend on the answers before
it. The tree of a text has an interview: its nodes from left to right, a reference after the path inside it, a query
before its key and its value. A parse that succeeds makes the calls of this interview and no others
(`parse_asks_in_order`), as long as what stands for references and expressions are plain texts, integers and
booleans. Other texts of values are paths themselves, which ask for more.
-/

namespace DataBound

/-! ## Interviews -/

/-- What a host can be asked for: the value at a path, or that of an expression. -/
inductive Question where
  | valueAt (path : DataPath)
  | evaluate (source : String)

/-- The call puts the question, and this is what the host answers. -/
def Call.Answers : Call → Question → Option Value → Prop
  | .get b answer, .valueAt path, value => b.path = path ∧ answer = .ok value
  | .evaluate source answer, .evaluate asked, value => source = asked ∧ answer = .ok value
  | _, _, _ => False

/-- The value that the call was answered with. -/
def Call.value? : Call → Option Value
  | .get _ (.ok value) | .evaluate _ (.ok value) => value
  | _ => none

theorem Call.Answers.value?_eq {c : Call} {question : Question} {value : Option Value} (h : c.Answers question value) :
    c.value? = value := by
  cases c with
  | get b answer =>
    cases question with
    | valueAt path =>
      obtain ⟨-, rfl⟩ := h
      rfl
    | evaluate source => exact h.elim
  | evaluate source answer =>
    cases question with
    | valueAt path => exact h.elim
    | evaluate asked =>
      obtain ⟨-, rfl⟩ := h
      rfl
  | set writes answer => exact h.elim

/-- Does the call ask for the value at a path? -/
def Call.isGet : Call → Bool
  | .get .. => true
  | _ => false

/-- Does the call ask for the value of an expression? -/
def Call.isEvaluate : Call → Bool
  | .evaluate .. => true
  | _ => false

/-- Questions to a host, one after the other, up to a result. -/
inductive Interview (α : Type) where
  | done (a : α)
  /-- Asks for the value that a query searches, which can be any value. -/
  | target (path : DataPath) (next : Option Value → Interview α)
  /-- Asks for a value that stands for a text. -/
  | text (question : Question) (next : String → Interview α)

namespace Interview

variable {α β : Type}

/-- One interview after the other. -/
def bind : Interview α → (α → Interview β) → Interview β
  | .done a, k => k a
  | .target path next, k => .target path fun value => (next value).bind k
  | .text question next, k => .text question fun text => (next text).bind k

instance : Monad Interview where
  pure := .done
  bind := bind

/-- With these calls the interview gets from one point to the other. The text that a value stands for is that of the path
that its own text spells. -/
inductive Leads : Interview α → List Call → Interview α → Prop
  | refl (q : Interview α) : Leads q [] q
  | target {path next c value rest q} :
      c.Answers (.valueAt path) value → Leads (next value) rest q → Leads (.target path next) (c :: rest) q
  | text {question next c value text rest q} :
      c.Answers question (some value) → value.HasText text → Leads (next (DataPath.ofText text).text) rest q →
      Leads (.text question next) (c :: rest) q

/-- Wherever the calls have led to a question for a text, the next one is answered with a plain text, an integer or a
boolean, if it is answered with a value. -/
def PlainlyAnswered (q : Interview α) (calls : List Call) : Prop :=
  ∀ before c after, calls = before ++ c :: after → ∀ question next, q.Leads before (.text question next) →
    ∀ value, c.value? = some value → ∃ text, value.HasText text

variable {q q' q'' : Interview α} {k : α → Interview β} {calls more : List Call}

theorem Leads.trans (h : q.Leads calls q') (h' : q'.Leads more q'') : q.Leads (calls ++ more) q'' := by
  induction h with
  | refl _ => exact h'
  | target hanswers _ ih => exact .target hanswers (ih h')
  | text hanswers htext _ ih => exact .text hanswers htext (ih h')

theorem Leads.bind (h : q.Leads calls q') (k : α → Interview β) : (q >>= k).Leads calls (q' >>= k) := by
  induction h with
  | refl _ => exact .refl _
  | target hanswers _ ih => exact .target hanswers ih
  | text hanswers htext _ ih => exact .text hanswers htext ih

/-- Two interviews one after the other come to their end if both do. -/
theorem Leads.bind_done {a : α} {q' : Interview β} (h : q.Leads calls (.done a)) (h' : (k a).Leads more q') :
    (q >>= k).Leads (calls ++ more) q' := (h.bind k).trans h'

theorem exists_of_leads_bind_done {b : β} (h : (q >>= k).Leads calls (.done b)) :
    ∃ a before rest, calls = before ++ rest ∧ q.Leads before (.done a) ∧ (k a).Leads rest (.done b) := by
  induction q generalizing calls with
  | done a => exact ⟨a, [], calls, rfl, .refl _, h⟩
  | target path next ih =>
    cases h with
    | target hanswers hrest =>
      obtain ⟨a, before, rest, rfl, hfirst, hlast⟩ := ih _ hrest
      exact ⟨a, _ :: before, rest, rfl, .target hanswers hfirst, hlast⟩
  | text question next ih =>
    cases h with
    | text hanswers htext hrest =>
      obtain ⟨a, before, rest, rfl, hfirst, hlast⟩ := ih _ hrest
      exact ⟨a, _ :: before, rest, rfl, .text hanswers htext hfirst, hlast⟩

theorem PlainlyAnswered.first (h : (q >>= k).PlainlyAnswered (calls ++ more)) : q.PlainlyAnswered calls := by
  rintro before c after rfl question next hleads
  exact h before c (after ++ more) (by simp) question _ (hleads.bind k)

theorem PlainlyAnswered.second {a : α} (h : (q >>= k).PlainlyAnswered (calls ++ more)) (hq : q.Leads calls (.done a)) :
    (k a).PlainlyAnswered more := by
  rintro before c after rfl question next hleads
  exact h (calls ++ before) c after (by simp) question next (hq.bind_done hleads)

end Interview

/-! ## The interview of a tree -/

mutual

/-- What is asked for a node behind the path, up to the path with the segments of the node. -/
def Node.interview (path : DataPath) : Node → Interview DataPath
  | .literal text quoted => pure (path ++ Resolved.segmentsOf text !quoted)
  | .reference nodes => do
    let inner ← interviewAll [] nodes
    let text ← .text (.valueAt inner) pure
    pure (path ++ Resolved.segmentsOf text true)
  | .expression source => do
    let text ← .text (.evaluate source) pure
    pure (path ++ Resolved.segmentsOf text true)
  | .query key value => do
    let items := Resolved.elements (← .target path pure)
    let keyText ← interviewText key
    let wanted ← interviewWanted value
    pure (path ++ [.ofPosition ((findElement? items keyText wanted).getD items.length)])
  | .joined parts => do
    let text ← interviewParts parts
    pure (path ++ [.key text])

/-- What is asked for the nodes of a path, from left to right. -/
def Node.interviewAll (path : DataPath) : List Node → Interview DataPath
  | [] => pure path
  | node :: rest => do
    let path ← node.interview path
    interviewAll path rest

/-- What is asked for a node that stands for a text. Queries and joined parts have no text. -/
def Node.interviewText : Node → Interview String
  | .literal text _ => pure text
  | .reference nodes => do
    let inner ← interviewAll [] nodes
    .text (.valueAt inner) pure
  | .expression source => .text (.evaluate source) pure
  | .query .. => pure ""
  | .joined _ => pure ""

/-- What is asked for the text that a query wants. -/
def Node.interviewWanted : Option Node → Interview (Option String)
  | none => pure none
  | some node => do
    let text ← interviewText node
    pure (some text)

/-- What is asked for the parts of a segment, from left to right. -/
def Node.interviewParts : List Node → Interview String
  | [] => pure ""
  | part :: rest => do
    let text ← interviewText part
    let more ← interviewParts rest
    pure (text ++ more)

end

/-! ## How often a host is asked -/

/-- Does the node need the value at a path? -/
def Node.needsValue : Node → Bool
  | .reference _ | .query .. => true
  | _ => false

/-- Is the node an expression? -/
def Node.isExpression : Node → Bool
  | .expression _ => true
  | _ => false

mutual

/-- How many nodes satisfy `p`: the node itself, and those below it. -/
def Node.count (p : Node → Bool) : Node → Nat
  | .literal text quoted => (p (.literal text quoted)).toNat
  | .reference nodes => (p (.reference nodes)).toNat + countAll p nodes
  | .expression source => (p (.expression source)).toNat
  | .query key value => (p (.query key value)).toNat + key.count p + countOption p value
  | .joined parts => (p (.joined parts)).toNat + countAll p parts

/-- How many of the nodes, and of those below them, satisfy `p`. -/
def Node.countAll (p : Node → Bool) : List Node → Nat
  | [] => 0
  | node :: rest => node.count p + countAll p rest

/-- How many nodes satisfy `p` if there is a node. -/
def Node.countOption (p : Node → Bool) : Option Node → Nat
  | none => 0
  | some node => node.count p

end

/-- The calls of a kind are made for the nodes that satisfy `p`. -/
structure Tallies (kind : Call → Bool) (p : Node → Bool) : Prop where
  literal (text : String) (quoted : Bool) : p (.literal text quoted) = false
  joined (parts : List Node) : p (.joined parts) = false
  reference (nodes : List Node) {c : Call} {path : DataPath} {value : Option Value} :
    c.Answers (.valueAt path) value → kind c = p (.reference nodes)
  query (key : Node) (wanted : Option Node) {c : Call} {path : DataPath} {value : Option Value} :
    c.Answers (.valueAt path) value → kind c = p (.query key wanted)
  expression (source : String) {c : Call} {asked : String} {value : Option Value} :
    c.Answers (.evaluate asked) value → kind c = p (.expression source)

theorem tallies_isGet : Tallies Call.isGet Node.needsValue where
  literal _ _ := rfl
  joined _ := rfl
  reference _ c _ _ h := by
    cases c with
    | get _ _ => rfl
    | evaluate _ _ | set _ _ => exact h.elim
  query _ _ c _ _ h := by
    cases c with
    | get _ _ => rfl
    | evaluate _ _ | set _ _ => exact h.elim
  expression _ c _ _ h := by
    cases c with
    | evaluate _ _ => rfl
    | get _ _ | set _ _ => exact h.elim

theorem tallies_isEvaluate : Tallies Call.isEvaluate Node.isExpression where
  literal _ _ := rfl
  joined _ := rfl
  reference _ c _ _ h := by
    cases c with
    | get _ _ => rfl
    | evaluate _ _ | set _ _ => exact h.elim
  query _ _ c _ _ h := by
    cases c with
    | get _ _ => rfl
    | evaluate _ _ | set _ _ => exact h.elim
  expression _ c _ _ h := by
    cases c with
    | evaluate _ _ => rfl
    | get _ _ | set _ _ => exact h.elim

namespace Interview

variable {α β : Type} {kind : Call → Bool} {p : Node → Bool}

/-- However it is answered, the whole interview has so many calls of the kind. -/
def Takes (kind : Call → Bool) (q : Interview α) (n : Nat) : Prop :=
  ∀ calls a, q.Leads calls (.done a) → calls.countP kind = n

theorem takes_done (kind : Call → Bool) (a : α) : Takes kind (pure a) 0 := by
  intro calls b h
  cases h
  rfl

theorem Takes.bind {q : Interview α} {k : α → Interview β} {n m : Nat} (hq : Takes kind q n)
    (hk : ∀ a, Takes kind (k a) m) : Takes kind (q >>= k) (n + m) := by
  intro calls b h
  obtain ⟨a, before, rest, rfl, hfirst, hlast⟩ := exists_of_leads_bind_done h
  rw [List.countP_append, hq _ _ hfirst, hk a _ _ hlast]

theorem takes_target {path : DataPath} {flag : Bool} (h : ∀ {c value}, c.Answers (.valueAt path) value → kind c = flag) :
    Takes kind (.target path pure) flag.toNat := by
  intro calls a hleads
  cases hleads with
  | target hanswers hrest =>
    cases hrest
    rw [List.countP_singleton, h hanswers]
    cases flag <;> rfl

theorem takes_text {question : Question} {flag : Bool} (h : ∀ {c value}, c.Answers question value → kind c = flag) :
    Takes kind (.text question pure) flag.toNat := by
  intro calls a hleads
  cases hleads with
  | text hanswers _ hrest =>
    cases hrest
    rw [List.countP_singleton, h hanswers]
    cases flag <;> rfl

end Interview

mutual

theorem Node.takes_interview {kind : Call → Bool} {p : Node → Bool} (h : Tallies kind p) (path : DataPath) :
    ∀ node : Node, node.WellFormed → Interview.Takes kind (node.interview path) (node.count p)
  | .literal text quoted, _ => by
    simp only [interview, count, h.literal]
    exact Interview.takes_done kind _
  | .reference nodes, .reference hnodes => by
    simp only [interview, count, Nat.add_comm _ (countAll p nodes)]
    refine (takes_interviewAll h [] nodes hnodes).bind fun inner => ?_
    exact (Interview.takes_text (h.reference nodes)).bind fun text => Interview.takes_done kind _
  | .expression source, _ => by
    simp only [interview, count]
    exact (Interview.takes_text (h.expression source)).bind fun text => Interview.takes_done kind _
  | .query key value, .query hkey hkey' hvalue hvalue' => by
    simp only [interview, count, Nat.add_assoc]
    refine (Interview.takes_target (h.query key value)).bind fun target => ?_
    refine (takes_interviewText h key hkey hkey').bind fun keyText => ?_
    refine (takes_interviewWanted h value fun wanted hmem => ⟨hvalue wanted hmem, hvalue' wanted hmem⟩).bind
      fun wanted => Interview.takes_done kind _
  | .joined parts, .joined _ _ hparts hparts' => by
    simp only [interview, count, h.joined, Bool.toNat_false, Nat.zero_add]
    exact (takes_interviewParts h parts fun part hmem => ⟨hparts part hmem, hparts' part hmem⟩).bind
      fun text => Interview.takes_done kind _

theorem Node.takes_interviewAll {kind : Call → Bool} {p : Node → Bool} (h : Tallies kind p) (path : DataPath) :
    ∀ nodes : List Node, (∀ node ∈ nodes, node.WellFormed) → Interview.Takes kind (interviewAll path nodes) (countAll p nodes)
  | [], _ => by
    simp only [interviewAll, countAll]
    exact Interview.takes_done kind path
  | node :: rest, hnodes => by
    simp only [interviewAll, countAll]
    exact (takes_interview h path node (hnodes node List.mem_cons_self)).bind fun next =>
      takes_interviewAll h next rest fun other hmem => hnodes other (List.mem_cons_of_mem _ hmem)

theorem Node.takes_interviewText {kind : Call → Bool} {p : Node → Bool} (h : Tallies kind p) :
    ∀ node : Node, node.givesText → node.WellFormed → Interview.Takes kind (interviewText node) (node.count p)
  | .literal text quoted, _, _ => by
    simp only [interviewText, count, h.literal]
    exact Interview.takes_done kind text
  | .reference nodes, _, .reference hnodes => by
    simp only [interviewText, count, Nat.add_comm _ (countAll p nodes)]
    exact (takes_interviewAll h [] nodes hnodes).bind fun inner => Interview.takes_text (h.reference nodes)
  | .expression source, _, _ => by
    simp only [interviewText, count]
    exact Interview.takes_text (h.expression source)

theorem Node.takes_interviewWanted {kind : Call → Bool} {p : Node → Bool} (h : Tallies kind p) :
    ∀ value : Option Node, (∀ wanted ∈ value, wanted.givesText ∧ wanted.WellFormed) →
      Interview.Takes kind (interviewWanted value) (countOption p value)
  | none, _ => by
    simp only [interviewWanted, countOption]
    exact Interview.takes_done kind none
  | some node, hwanted => by
    simp only [interviewWanted, countOption]
    obtain ⟨htext, hnode⟩ := hwanted node rfl
    exact (takes_interviewText h node htext hnode).bind fun text => Interview.takes_done kind _

theorem Node.takes_interviewParts {kind : Call → Bool} {p : Node → Bool} (h : Tallies kind p) :
    ∀ parts : List Node, (∀ part ∈ parts, part.givesText ∧ part.WellFormed) →
      Interview.Takes kind (interviewParts parts) (countAll p parts)
  | [], _ => by
    simp only [interviewParts, countAll]
    exact Interview.takes_done kind ""
  | part :: rest, hparts => by
    simp only [interviewParts, countAll]
    obtain ⟨htext, hpart⟩ := hparts part List.mem_cons_self
    refine (takes_interviewText h part htext hpart).bind fun text => ?_
    exact (takes_interviewParts h rest fun other hmem => hparts other (List.mem_cons_of_mem _ hmem)).bind
      fun more => Interview.takes_done kind _

end

/-! ## Conducting an interview -/

theorem Resolved.select_path (r : Resolved) (items : List Value) (key : String) (quoted : Bool)
    (wanted : Option String) :
    (r.select items key quoted wanted).path =
      r.path ++ [.ofPosition ((findElement? items key wanted).getD items.length)] := by
  unfold select
  cases findElement? items key wanted with
  | none => rfl
  | some i => rfl

namespace Binder

variable {σ α β γ δ : Type}

/-- Whenever the action succeeds, it has made the calls of the interview, as long as these are answered plainly. -/
def Conducts (x : Action (State (Recorded σ)) β) (q : Interview α) (out : β → α) : Prop :=
  ∀ s b s', s.Sound → x.Ends s (.ok b) s' → s'.Sound ∧ ∃ made, s'.host.calls = s.host.calls ++ made ∧
    (q.PlainlyAnswered made → q.Leads made (.done (out b)))

theorem conducts_pure {b : β} {a : α} {out : β → α} (h : out b = a) :
    Conducts (pure b : Action (State (Recorded σ)) β) (pure a) out := by
  intro s b' s' hs hends
  obtain ⟨hb, rfl⟩ := Action.pure_ends.1 hends
  cases hb
  exact ⟨hs, [], (List.append_nil _).symm, fun _ => h ▸ .refl _⟩

theorem conducts_throw {e : Error} {q : Interview α} {out : β → α} :
    Conducts (throw e : Action (State (Recorded σ)) β) q out := by
  intro s b s' hs hends
  cases (Action.throw_ends.1 hends).1

theorem Conducts.bind {x : Action (State (Recorded σ)) β} {f : β → Action (State (Recorded σ)) δ} {q : Interview α}
    {k : α → Interview γ} {out : β → α} {out' : δ → γ} (hx : Conducts x q out)
    (hf : ∀ b, Conducts (f b) (k (out b)) out') : Conducts (x >>= f) (q >>= k) out' := by
  intro s d s' hs hends
  obtain ⟨b, s₁, hb, hd⟩ := Action.bind_ends_ok.1 hends
  obtain ⟨hs₁, made, hmade, hleads⟩ := hx s b s₁ hs hb
  obtain ⟨hs', more, hmore, hleads'⟩ := hf b s₁ d s' hs₁ hd
  refine ⟨hs', made ++ more, ?_, fun hplain => ?_⟩
  · rw [hmore, hmade, List.append_assoc]
  · have hfirst := hleads hplain.first
    exact hfirst.bind_done (hleads' (hplain.second hfirst))

theorem Conducts.map {x : Action (State (Recorded σ)) β} {q : Interview α} {out : β → α} (hx : Conducts x q out)
    {g : β → δ} {out' : δ → α} (h : ∀ b, out' (g b) = out b) : Conducts (x >>= fun b => pure (g b)) q out' := by
  intro s d s' hs hends
  obtain ⟨r, hb, hr⟩ := Action.bind_pure_ends.1 hends
  cases r with
  | error e => cases hr
  | ok b =>
    cases hr
    rw [h]
    exact hx s b s' hs hb

section

variable {w host : Host σ} {limit : Nat}

/-- The services of a resolution that is told by the host. -/
def asking (w host : Host σ) (limit : Nat) : Services (State (Recorded σ)) :=
  services host.recorded ((Wiring.ofHost w).binder.normalize host.recorded limit)

theorem asking_truthful : (asking w host limit).All (Truthful host) :=
  (truthful_primitives (w := Wiring.ofHost w) rfl host).services_all truthful_composed
    (fun hfinds => truthful_throw hfinds.rootCause) (truthful_normalize rfl host limit)

theorem valueAt_answered {path : DataPath} {s s' : State (Recorded σ)} {value : Option Value} (hs : s.Sound)
    (h : ((asking w host limit).valueAt path).Ends s (.ok value) s') :
    s'.Sound ∧ ∃ c, s'.host.calls = s.host.calls ++ [c] ∧ c.Answers (.valueAt path) value := by
  obtain ⟨b, interner, hintern, hsound, hpath⟩ := hs.intern_ends path
  have hcall := (hintern.bind_iff (f := fun b => call (host.recorded.get b))).1 h
  refine ⟨keeps_sound_call _ _ _ _ hsound hcall, .get b (.ok value), ?_, hpath, rfl⟩
  rw [(call_recorded_ends.1 hcall).2]

theorem evaluate_answered {source : String} {s s' : State (Recorded σ)} {value : Option Value} (hs : s.Sound)
    (h : ((asking w host limit).evaluate source).Ends s (.ok value) s') :
    s'.Sound ∧ ∃ c, s'.host.calls = s.host.calls ++ [c] ∧ c.Answers (.evaluate source) value := by
  refine ⟨keeps_sound_call _ _ _ _ hs h, .evaluate source (.ok value), ?_, rfl, rfl⟩
  rw [(call_recorded_ends.1 h).2]

theorem conducts_valueAt (path : DataPath) :
    Conducts ((asking w host limit).valueAt path) (.target path pure) id := by
  intro s value s' hs h
  obtain ⟨hs', c, hcalls, hanswers⟩ := valueAt_answered hs h
  exact ⟨hs', [c], hcalls, fun _ => .target hanswers (.refl _)⟩

/-- A plain text, an integer or a boolean stands for its text, and nothing more is asked for it. -/
theorem textOf_plain {value : Value} {text : String} {s s' : State (Recorded σ)} {found : String} (hs : s.Sound)
    (hv : value.HasText text) (h : ((asking w host limit).textOf (some value)).Ends s (.ok found) s') :
    found = (DataPath.ofText text).text ∧ s'.host.calls = s.host.calls := by
  cases limit with
  | zero =>
    rcases (textOf_ends_iff hv.pathText_eq).1 h with ⟨e, -, he⟩ | ⟨_, _, hnormalize, -⟩
    · cases he
    · exact absurd hnormalize Action.not_exhausted_ends
  | succ limit =>
    obtain ⟨trees, hends, -⟩ := @textOf_hasText_ends _ _ _ host _ w limit hv hs
    obtain ⟨hfound, rfl⟩ := h.unique hends
    cases hfound
    exact ⟨rfl, rfl⟩

/-- The text that stands for an answer is one more step of the interview, and the last one if the answer is plain. -/
theorem conducts_textOf {x : Action (State (Recorded σ)) (Option Value)} {question : Question} {change : Error → Error}
    (hx : ∀ s value s', s.Sound → x.Ends s (.ok value) s' →
      s'.Sound ∧ ∃ c, s'.host.calls = s.host.calls ++ [c] ∧ c.Answers question value) :
    Conducts (Action.mapError change (x >>= (asking w host limit).textOf)) (.text question pure) id := by
  intro s found s' hs h
  obtain ⟨value, s₁, hvalue, htext⟩ := Action.bind_ends_ok.1 (Action.mapError_ends_ok.1 h)
  obtain ⟨hs₁, c, hcalls, hanswers⟩ := hx s value s₁ hs hvalue
  obtain ⟨hs', more, hmore, -⟩ := asking_truthful.textOf value s₁ _ s' hs₁ htext
  refine ⟨hs', c :: more, by rw [hmore, hcalls, List.append_assoc]; rfl, fun hplain => ?_⟩
  cases value with
  | none =>
    have hthrow : (throw .undefined : Action (State (Recorded σ)) String).Ends s₁ (.ok found) s' := htext
    cases (Action.throw_ends.1 hthrow).1
  | some v =>
    obtain ⟨text, hhas⟩ := hplain [] c more rfl question _ (.refl _) v hanswers.value?_eq
    obtain ⟨rfl, hsame⟩ := textOf_plain hs₁ hhas htext
    have hnone : more = [] := List.append_right_eq_self.1 (hmore.symm.trans hsame)
    rw [hnone]
    exact .text hanswers hhas (.refl _)

theorem conducts_followed (path : DataPath) :
    Conducts ((asking w host limit).followed path) (.text (.valueAt path) pure) id :=
  conducts_textOf fun _ _ _ hs h => valueAt_answered hs h

theorem conducts_evaluated (source : String) :
    Conducts ((asking w host limit).evaluated source) (.text (.evaluate source) pure) id :=
  conducts_textOf fun _ _ _ hs h => evaluate_answered hs h

end

mutual

theorem conducts_resolveNode (w host : Host σ) (limit : Nat) (r : Resolved) :
    ∀ node, Conducts ((asking w host limit).resolveNode r node) (node.interview r.path) Resolved.path
  | .literal text quoted => by
    simp only [Services.resolveNode, Node.interview]
    exact conducts_pure rfl
  | .reference path => by
    simp only [Services.resolveNode, Node.interview]
    refine (conducts_resolveNodes w host limit .empty path).bind fun inner => ?_
    exact (conducts_followed inner.path).bind fun text => conducts_pure rfl
  | .expression source => by
    simp only [Services.resolveNode, Node.interview]
    exact (conducts_evaluated source).bind fun text => conducts_pure rfl
  | .query key value => by
    simp only [Services.resolveNode, Node.interview]
    refine (conducts_valueAt r.path).bind fun target => ?_
    refine (conducts_nodeText w host limit r.updates key).bind fun keyed => ?_
    refine (conducts_wantedText w host limit keyed.2 value).bind fun wanted => ?_
    exact conducts_pure (Resolved.select_path _ _ _ _ _)
  | .joined parts => by
    simp only [Services.resolveNode, Node.interview]
    exact (conducts_partsText w host limit r.updates parts).bind fun joined => conducts_pure rfl

theorem conducts_resolveNodes (w host : Host σ) (limit : Nat) (r : Resolved) :
    ∀ nodes, Conducts ((asking w host limit).resolveNodes r nodes) (Node.interviewAll r.path nodes) Resolved.path
  | [] => by
    simp only [Services.resolveNodes, Node.interviewAll]
    exact conducts_pure rfl
  | node :: rest => by
    simp only [Services.resolveNodes, Node.interviewAll]
    exact (conducts_resolveNode w host limit r node).bind fun next => conducts_resolveNodes w host limit next rest

theorem conducts_nodeText (w host : Host σ) (limit : Nat) (updates : Updates) :
    ∀ node, Conducts ((asking w host limit).nodeText updates node) (Node.interviewText node) Prod.fst
  | .literal text quoted => by
    simp only [Services.nodeText, Node.interviewText]
    exact conducts_pure rfl
  | .reference path => by
    simp only [Services.nodeText, Node.interviewText]
    exact (conducts_resolveNodes w host limit .empty path).bind fun inner =>
      (conducts_followed inner.path).map fun text => rfl
  | .expression source => by
    simp only [Services.nodeText, Node.interviewText]
    exact (conducts_evaluated source).map fun text => rfl
  | .query key value => by
    simp only [Services.nodeText]
    exact conducts_throw
  | .joined parts => by
    simp only [Services.nodeText]
    exact conducts_throw

theorem conducts_wantedText (w host : Host σ) (limit : Nat) (updates : Updates) :
    ∀ value, Conducts ((asking w host limit).wantedText updates value) (Node.interviewWanted value) Prod.fst
  | none => by
    simp only [Services.wantedText, Node.interviewWanted]
    exact conducts_pure rfl
  | some node => by
    simp only [Services.wantedText, Node.interviewWanted]
    exact (conducts_nodeText w host limit updates node).bind fun text => conducts_pure rfl

theorem conducts_partsText (w host : Host σ) (limit : Nat) (updates : Updates) :
    ∀ parts, Conducts ((asking w host limit).partsText updates parts) (Node.interviewParts parts) Prod.fst
  | [] => by
    simp only [Services.partsText, Node.interviewParts]
    exact conducts_pure rfl
  | part :: rest => by
    simp only [Services.partsText, Node.interviewParts]
    refine (conducts_nodeText w host limit updates part).bind fun first => ?_
    exact (conducts_partsText w host limit first.2 rest).bind fun more => conducts_pure rfl

end

/-! ## Parsing -/

/-- A text that is read by the grammar is normalized by the interview of its tree. -/
theorem conducts_normalize (w host : Host σ) (limit : Nat) {raw : String} {tree : List Node}
    (hgrammar : isPlain raw = false) (hread : Path.read raw = .ok tree) :
    Conducts ((Wiring.ofHost w).binder.normalize host.recorded limit raw) (Node.interviewAll [] tree) Resolved.path := by
  intro s found s' hs h
  cases limit with
  | zero => exact absurd h Action.not_exhausted_ends
  | succ limit =>
    obtain ⟨trees, hsound, hnormalize⟩ :=
      normalize_read_ends (rfl : (Wiring.ofHost w).binder.beforeNode = ∅) host.recorded limit hgrammar hread hs
    obtain ⟨r, hresolve, hr⟩ := hnormalize.1 h
    cases r with
    | error e => cases hr
    | ok r =>
      cases hr
      have hconducts := conducts_resolveNodes w host limit .empty tree { s with trees } found s' hsound hresolve
      exact hconducts

/-- The host is asked once per reference, in order. A text that is read by the grammar, to the tree `t`, is parsed
without taps. If the parse succeeds, and what the host answers for references and expressions are plain texts, integers
and booleans, then the calls that ask for values are those of the interview of `t`, up to the path of the binding. So
there is one call to get a value for each reference and each query of `t`, however deep, and one call to evaluate for
each expression. -/
theorem parse_asks_in_order (host : Host σ) (limit : Nat) (parts : Host.Overrides σ) {raw : String} {t : List Node}
    (hgrammar : isPlain raw = false) (hread : Path.read raw = .ok t) {s s' : State (Recorded σ)} {b : Binding}
    (hs : Reachable s)
    (h : ((Wiring.ofHost host).binder.parseWith limit parts.recorded (.text raw)).Ends s (.ok b) s') :
    ∃ made asks, s'.host.calls = s.host.calls ++ made ∧ asks = made.filter Call.isAsk ∧
      ((Node.interviewAll [] t).PlainlyAnswered asks →
        (Node.interviewAll [] t).Leads asks (.done b.path) ∧
        asks.countP Call.isGet = Node.countAll Node.needsValue t ∧
        asks.countP Call.isEvaluate = Node.countAll Node.isExpression t) := by
  have hparsed : ∀ b, PathSource.text raw ≠ .binding b := nofun
  rw [parseWith_eq (Wiring.ofHost host) limit parts hparsed] at h
  obtain ⟨found, s₁, hresolve, hconclude⟩ := Action.bind_ends_ok.1 h
  have hreset : ({ s with pending := [] } : State (Recorded σ)).Sound := ⟨hs.sound.trees, hs.sound.interner⟩
  obtain ⟨hs₁, ⟨asks, hcalls, hasks⟩, hnodup⟩ := resolveSource_asks hs.sound hresolve
  -- what follows the resolution does not ask
  obtain ⟨r, s₂, sets, hends, hsets, hnone, hending⟩ :=
    conclude_ending (host.override parts) hs₁ (hnodup found rfl)
  obtain ⟨rfl, rfl⟩ := hends.unique hconclude
  have hpath : b.path = found.path := (hending [] nofun).path_eq
  have hfilter : (asks ++ sets).filter Call.isAsk = asks := by
    rw [List.filter_append, hnone, List.append_nil, List.filter_eq_self.2 hasks]
  refine ⟨asks ++ sets, asks, by rw [hsets, hcalls, List.append_assoc], hfilter.symm, fun hplain => ?_⟩
  obtain ⟨r, hnormalize, hr⟩ := normalize_of_resolveText hresolve
  cases r with
  | error e => cases hr
  | ok normalized =>
    cases hr
    obtain ⟨-, made, hmade, hleads⟩ :=
      conducts_normalize host (host.override parts) limit hgrammar hread _ _ _ hreset hnormalize
    obtain rfl : asks = made := List.append_cancel_left (hcalls.symm.trans hmade)
    have hdone := hleads hplain
    have hshape := Path.wellFormed_of_read hread
    exact ⟨hpath ▸ hdone, Node.takes_interviewAll tallies_isGet [] t hshape _ _ hdone,
      Node.takes_interviewAll tallies_isEvaluate [] t hshape _ _ hdone⟩

/-- A value that is followed to a plain text, an integer or a boolean takes one call. -/
theorem followed_plain_ends (w : Host σ) {host : Host σ} (limit : Nat) (path : DataPath) {value : Value} {text : String}
    {world : σ} {s : State (Recorded σ)} (hs : s.Sound) (hv : value.HasText text)
    (hget : (host.get (s.interner.intern path).1).run.run s.host.world = (.ok (some value), world)) :
    ∃ s', ((asking w host (limit + 1)).followed path).Ends s (.ok (DataPath.ofText text).text) s' ∧ s'.Sound ∧
      s'.host = ⟨world, s.host.calls ++ [.get (s.interner.intern path).1 (.ok (some value))]⟩ := by
  obtain ⟨s₁, hvalue, hsound₁, -, hhost⟩ :=
    hs.valueAt_ends hget ((Wiring.ofHost w).binder.normalize host.recorded (limit + 1))
  obtain ⟨trees, htext, hsound⟩ := @textOf_hasText_ends _ _ _ host _ w limit hv hsound₁
  exact ⟨_, (followed_ends_iff hvalue).2 ⟨_, htext, rfl⟩, hsound, hhost⟩

theorem evaluated_plain_ends (w : Host σ) {host : Host σ} (limit : Nat) (source : String) {value : Value} {text : String}
    {world : σ} {s : State (Recorded σ)} (hs : s.Sound) (hv : value.HasText text)
    (hevaluate : (host.evaluate source).run.run s.host.world = (.ok (some value), world)) :
    ∃ s', ((asking w host (limit + 1)).evaluated source).Ends s (.ok (DataPath.ofText text).text) s' ∧ s'.Sound ∧
      s'.host = ⟨world, s.host.calls ++ [.evaluate source (.ok (some value))]⟩ := by
  let s₁ : State (Recorded σ) := { s with host := ⟨world, s.host.calls ++ [.evaluate source (.ok (some value))]⟩ }
  have hcall : ((asking w host (limit + 1)).evaluate source).Ends s (.ok (some value)) s₁ := by
    refine call_recorded_ends.2 ⟨?_, ?_⟩
    · rw [hevaluate]
    · rw [hevaluate]
  have hsound₁ : s₁.Sound := ⟨hs.trees, hs.interner⟩
  obtain ⟨trees, htext, hsound⟩ := @textOf_hasText_ends _ _ _ host _ w limit hv hsound₁
  exact ⟨_, Action.mapError_ends_ok.2 (hcall.bind htext), hsound, rfl⟩

/-- A host that counts what it is asked for and gives the count, except for the users, which are a text. -/
def counter : Host Nat where
  get := fun b => do
    let n ← getThe Nat
    set (n + 1)
    pure (some (if b.path = [.key "users"] then .string "[" else .ofInt64 (Int64.ofNat n)))
  set := fun _ => pure ()
  evaluate := fun _ => pure (some (.bool true))
  readOnly := true

theorem counter_get {b : Binding} {path : DataPath} (hb : b.path = path) (n : Nat) : (counter.get b).run.run n =
    (.ok (some (if path = [.key "users"] then .string "[" else .ofInt64 (Int64.ofNat n))), n + 1) := by
  subst hb
  rfl

/-- A query that wants the text of a reference, and an expression behind it. -/
def mixedText : String := "users[id=\x7b\x7bn\x7d\x7d].`e`"

/-- The tree of the text. -/
def mixedTree : List Node :=
  [.literal "users" false, .query (.literal "id" false) (some (.reference [.literal "n" false])), .expression "e"]

theorem read_mixedText : Path.read mixedText = .ok mixedTree := by
  have hname : ∀ name, name ∈ ["users", "id", "n"] → Path.IsName name := by decide +kernel
  have href : Path.PartText (referTo "n") (.reference [.literal "n" false]) :=
    .reference (.items (.last (hname "n" (by simp)).partText.itemText))
  have hbracket := Path.BracketText.query 0 0 0 0 0 (.part (hname "id" (by simp)).partText) (.operand (.part href))
  have husers := QueryText.itemText_name (hname "users" (by simp)) (.cons hbracket .nil)
  have hexpression : Path.PartText ['`', 'e', '`'] (.expression "e") :=
    @Path.PartText.expression ['e'] (by decide) (by decide)
  have hraw : mixedText.toList =
      "users".toList ++ ('[' :: ("id".toList ++ '=' :: (referTo "n" ++ [']'])) ++ []) ++ '.' :: ['`', 'e', '`'] := by
    decide +kernel
  apply Path.read_eq_ok_of_pathText
  rw [hraw]
  exact .items (.cons husers (.last hexpression.itemText))

theorem resolveNodes_mixedTree (services : Services σ) :
    services.resolveNodes .empty mixedTree = (do
      let target ← services.valueAt [.key "users"]
      let wanted ← services.followed [.key "n"]
      let text ← services.evaluated "e"
      pure ((Resolved.select ⟨[.key "users"], []⟩ (Resolved.elements target) "id" false (some wanted)).append text
        true)) := by
  have husers : Resolved.segmentsOf "users" true = [.key "users"] := by decide +kernel
  have hn : Resolved.segmentsOf "n" true = [.key "n"] := by decide +kernel
  simp [mixedTree, Services.resolveNodes, Services.resolveNode, Services.nodeText, Services.wantedText, Resolved.append,
    Resolved.empty, Node.isQuoted, husers, hn]

/-- The counter is asked for the users, for the wanted text, and for the expression. -/
theorem mixedText_ends :
    ∃ b s' users n, ((Wiring.ofHost counter).binder.parseWith 2 Host.Overrides.unchanged.recorded
        (.text mixedText)).Ends (.start .unbounded ⟨0, []⟩) (.ok b) s' ∧
      s'.host.calls = [.get users (.ok (some (.string "["))), .get n (.ok (some (.ofInt64 1))),
        .evaluate "e" (.ok (some (.bool true)))] := by
  let s : State (Recorded Nat) := .start .unbounded ⟨0, []⟩
  have hs : s.Sound := State.sound_start _ _
  have hplain : isPlain mixedText = false := by decide +kernel
  obtain ⟨trees, hsound, hnormalize⟩ := normalize_read_ends
    (rfl : (Wiring.ofHost counter).binder.beforeNode = ∅) counter.recorded 1 hplain read_mixedText hs
  obtain ⟨s₁, husers, hsound₁, -, hhost₁⟩ := hsound.valueAt_ends
    (counter_get (hsound.interner.intern_path [.key "users"]) 0)
    ((Wiring.ofHost counter).binder.normalize counter.recorded 1)
  obtain ⟨s₂, hn, hsound₂, hhost₂⟩ := followed_plain_ends counter 0 [.key "n"] hsound₁ (.integer 1) (by
    rw [hhost₁, counter_get (hsound₁.interner.intern_path [.key "n"])]
    rfl)
  obtain ⟨s₃, he, hsound₃, hhost₃⟩ := evaluated_plain_ends counter 0 "e" hsound₂ (.boolean true)
    (rfl : (counter.evaluate "e").run.run s₂.host.world = _)
  let found : Resolved := (Resolved.select ⟨[.key "users"], []⟩ (Resolved.elements (some (.string "["))) "id" false
    (some (DataPath.ofText (Segment.index 1).text).text)).append (DataPath.ofText "true").text true
  have hresolve : ((asking counter counter 1).resolveNodes .empty mixedTree).Ends { s with trees } (.ok found) s₃ := by
    rw [resolveNodes_mixedTree]
    exact husers.bind (hn.bind (he.bind (Action.pure_ends_self found s₃)))
  have hnormalized : ((Wiring.ofHost counter).binder.normalize counter.recorded 2 mixedText).Ends
      { s with pending := [] } (.ok found) s₃ := hnormalize.2 ⟨_, hresolve, rfl⟩
  have hleads := resolveText_ends_of_normalize hnormalized
  let last : Resolved := ⟨found.path, Updates.merge s₃.pending found.updates⟩
  have hquiet : (counter.override .unchanged).readOnly = true ∨ last.updates = [] := .inl rfl
  obtain ⟨b, s', hconclude, hhost, -⟩ := conclude_unwritten (counter.override .unchanged) hsound₃ hquiet
  refine ⟨b, s', (s.interner.intern [.key "users"]).1, (s₁.interner.intern [.key "n"]).1,
    parseWith_text_ends hleads hconclude, ?_⟩
  rw [hhost, hhost₃, hhost₂, hhost₁]
  rfl

/-- For the mixed text two values and one expression are asked for, although the users are no plain text. -/
theorem parse_asks_in_order_mixed :
    let s : State (Recorded Nat) := .start .unbounded ⟨0, []⟩
    let interview := Node.interviewAll [] mixedTree
    isPlain mixedText = false ∧ Path.read mixedText = .ok mixedTree ∧ Reachable s ∧ ∃ b s' asks,
      ((Wiring.ofHost counter).binder.parseWith 2 Host.Overrides.unchanged.recorded (.text mixedText)).Ends s (.ok b) s' ∧
      asks = s'.host.calls.filter Call.isAsk ∧ interview.PlainlyAnswered asks ∧
      interview.Leads asks (.done b.path) ∧ asks.countP Call.isGet = 2 ∧ asks.countP Call.isEvaluate = 1 := by
  intro s interview
  have hplain : isPlain mixedText = false := by decide +kernel
  obtain ⟨b, s', users, n, hends, hcalls⟩ := mixedText_ends
  obtain ⟨made, asks, hmade, hasks, hleads⟩ :=
    parse_asks_in_order counter 2 .unchanged hplain read_mixedText (.start _ _) hends
  obtain rfl : made = s'.host.calls := hmade.symm
  rw [hcalls] at hasks
  have hanswered : interview.PlainlyAnswered asks := by
    intro before c after hsplit question next hbefore value hvalue
    cases before with
    | nil =>
      -- the interview begins with the users
      obtain ⟨path, first, hfirst⟩ : ∃ path first, interview = .target path first := ⟨_, _, rfl⟩
      rw [hfirst] at hbefore
      cases hbefore
    | cons first before =>
      -- after the users come an integer and a boolean
      have htail : [Call.get n (.ok (some (.ofInt64 1))), .evaluate "e" (.ok (some (.bool true)))] =
          before ++ c :: after := (List.cons.inj (hasks.symm.trans hsplit)).2
      have hmem : c ∈ before ++ c :: after := List.mem_append_right _ List.mem_cons_self
      rw [← htail] at hmem
      rcases List.mem_pair.1 hmem with rfl | rfl
      · cases hvalue
        exact ⟨_, .integer 1⟩
      · cases hvalue
        exact ⟨_, .boolean true⟩
  obtain ⟨hdone, hgets, hevaluates⟩ := hleads hanswered
  exact ⟨hplain, read_mixedText, .start _ _, b, s', asks, hends, hcalls ▸ hasks, hanswered, hdone, hgets, hevaluates⟩

end Binder

end DataBound
