import StackScript.Value.Reader
import StackScript.Proofs.Capture
import StackScript.Proofs.Machine

namespace StackScript

-- The limit on evaluations has ended the run.
def Run.Exceeded (r : Run Fault κ α) : Prop :=
  ∃ n, r.result = .error (.evaluationsExceeded n)

-- Nothing comes after the limit.
theorem Run.Exceeded.bind {a : Op κ α} {f : α → Op κ β} (h : (a w s).Exceeded) :
    ((a >>= f) w s).Exceeded := by
  have ⟨n, hn⟩ := h
  cases hr : a w s
  case mk =>
    rw [hr] at hn
    cases hn
    exact ⟨n, by rw [Act.bind_error hr]⟩

-- A state in which `extra` more evaluations have been started.
def State.ahead (s : State) (extra : Nat) : State :=
  { s with count := s.count + extra }

def Run.ahead (r : Run ε κ α) (extra : Nat) : Run ε κ α :=
  { r with state := r.state.ahead extra }

namespace Coupling

variable {limits : Limits} {extra : Nat}

-- A computation that is ahead of another one takes the same course, unless it comes to the limit on
-- evaluations.
def ahead (limits : Limits) (extra : Nat) : Coupling Event Event where
  watch₁         := .events limits
  watch₂         := .events limits
  pre s₁ s₂      := s₁ = s₂.ahead extra
  post _ _ r₁ r₂ := r₁.Exceeded ∨ r₁ = r₂.ahead extra

theorem ahead_of {a : Op Event α}
    (h : ∀ s, a (.events limits) (s.ahead extra) = (a (.events limits) s).ahead extra) :
    (ahead limits extra).Holds a a
  | _, s, rfl => .inr (h s)

theorem ahead_bind {a₁ a₂ : Op Event α} {f₁ f₂ : α → Op Event β}
    (ha : (ahead limits extra).Holds a₁ a₂) (hf : ∀ x, (ahead limits extra).Holds (f₁ x) (f₂ x)) :
    (ahead limits extra).Holds (a₁ >>= f₁) (a₂ >>= f₂) := by
  rintro _ s rfl
  have ha := ha _ s rfl
  simp only [ahead] at ha ⊢
  cases ha
  case inl he => exact .inl he.bind
  case inr he =>
    cases hr : a₂ (.events limits) s
    case mk result t trace =>
      rw [hr] at he
      cases result
      case error => exact .inr (by rw [Act.bind_error hr, Act.bind_error he]; rfl)
      case ok x =>
        rw [Act.bind_ok hr, Act.bind_ok he]
        cases hf x _ t rfl
        case inl hf => exact .inl hf
        case inr hf =>
          simp only [ahead] at hf
          exact .inr (by rw [hf]; rfl)

theorem ahead_startEvaluation (v : Value) :
    (ahead limits extra).Holds (Op.startEvaluation v) (Op.startEvaluation v) := by
  rintro _ s rfl
  simp only [ahead, Op.startEvaluation_run]
  by_cases h : s.count + extra < limits.evaluations
  case neg => exact .inl ⟨s.count + extra, by simp [State.ahead, Watch.events, h]⟩
  case pos =>
    have hs : s.count < limits.evaluations := by omega
    refine .inr ?_
    simp [State.ahead, Run.ahead, Watch.events, h, hs, Event.ofNote?, Nat.add_right_comm]

theorem ahead_pop : (ahead limits extra).Holds Op.pop Op.pop := by
  refine ahead_of fun s => ?_
  cases h : s.stack.back? <;> simp [Op.pop_run, State.ahead, Run.ahead, h]
  rfl

theorem ahead_stable : (ahead limits extra).Stable where
  pure _            := ahead_of fun _ => rfl
  bind              := ahead_bind
  fail _            := ahead_of fun _ => rfl
  say _             := ahead_of fun _ => rfl
  startEvaluation   := ahead_startEvaluation
  push _            := ahead_of fun s => by
    by_cases h : s.stack.size < limits.stackSize <;>
      simp [Op.push_run, State.ahead, Run.ahead, Watch.events, Event.ofNote?, h]
  pop               := ahead_pop
  capture _ _ _ _ h := ahead_of (fun _ => rfl) _ _ h
  bindName name v   := ahead_of fun s => by
    have hb : (s.ahead extra).isBound name = s.isBound name := rfl
    cases h : s.isBound name <;> simp [Op.bindName_run, hb, h] <;> rfl
  put               := ahead_bind ahead_pop fun _ => ahead_of fun _ => rfl
  isEmpty h         := by rw [h]; rfl
  lookup? _ h       := by rw [h]; rfl

theorem ahead_closed : (ahead limits extra).Closed := by
  refine ahead_stable.closed (ahead_of fun s => ?_) (ahead_of fun _ => rfl) (ahead_of fun _ => rfl)
    (ahead_of fun _ => rfl)
  by_cases h : s.depth < limits.callDepth <;>
    simp [Op.enter_run, State.ahead, Run.ahead, Watch.events, Event.ofNote?, h]

end Coupling

namespace Draft

variable {older : Array (Array Value)} {body : Array Value}

-- The evaluations that reading a draft word by word takes beyond one for each of its values.
def overhead (d : Draft) : Nat :=
  Value.innerOfAll d.values.toList + Value.sizeOfAll (d.blocks.toList.flatMap (·.toList))

-- The values that are finished when a value is added.
def finishes (d : Draft) (v : Value) : List Value :=
  if d.blocks.isEmpty then [v] else []

-- The state of a machine that has taken the words of a draft, where `s` is the state that evaluating
-- the values of the draft has led to.
def onto (d : Draft) (s : State) : State :=
  { s with blocks := d.blocks, count := s.count + d.overhead }

theorem add_values (d : Draft) (v : Value) :
    (d.add v).values.toList = d.values.toList ++ d.finishes v := by
  unfold add finishes
  split <;> simp

theorem add_blocks_empty (d : Draft) (v : Value) (h : d.blocks = #[]) : (d.add v).blocks = #[] := by
  simp [add, h]

theorem add_blocks_push (d : Draft) (v : Value) (h : d.blocks = older.push body) :
    (d.add v).blocks = older.push (body.push v) := by
  simp [add, h]

theorem overhead_add_empty (d : Draft) (v : Value) (h : d.blocks = #[]) :
    (d.add v).overhead = d.overhead + v.inner := by
  simp [add, overhead, h]

theorem overhead_add_push (d : Draft) (v : Value) (h : d.blocks = older.push body) :
    (d.add v).overhead = d.overhead + v.inner + 1 := by
  have hv : (d.add v).overhead = d.overhead + v.size := by
    simp [add, overhead, h, Nat.add_assoc]
  rw [hv, v.size_eq, Nat.add_assoc]

theorem overhead_close (d : Draft) (h : d.blocks = older.push body) :
    d.overhead = { d with blocks := older }.overhead + (Value.block body.toList).inner := by
  simp [overhead, h, Value.inner, Nat.add_assoc]

end Draft

-- A run `r₁` over the words that lead to the draft `d`, next to a run `r₂` over its values.
structure Run.Matches (d : Draft) (r₁ r₂ : Run Fault Event Unit) : Prop where
  result  : r₁.result = r₂.result
  stack   : r₁.state.stack = r₂.state.stack
  scopes  : r₁.state.scopes = r₂.state.scopes
  depth   : r₁.state.depth = r₂.state.depth
  outputs : r₁.trace.filterMap Event.output? = r₂.trace.filterMap Event.output?
  onto    : r₁.result = .ok () → r₁.state = d.onto r₂.state ∧ r₂.state.blocks = #[]

namespace Run.Matches

variable {d d' : Draft} {r₁ r₂ : Run Fault Event Unit}

theorem append (h : r₁.Matches d r₂) (trace₁ trace₂ : List Event)
    (ht : trace₁.filterMap Event.output? = trace₂.filterMap Event.output?) :
    Matches d ⟨r₁.result, r₁.state, trace₁ ++ r₁.trace⟩
      ⟨r₂.result, r₂.state, trace₂ ++ r₂.trace⟩ := by
  have houtputs := h.outputs
  exact ⟨h.result, h.stack, h.scopes, h.depth, by simp [ht, houtputs], h.onto⟩

-- After a failure no more words are taken, so it does not matter which draft they would lead to.
theorem failed (h : r₁.Matches d r₂) (he : r₁.result = .error e) : r₁.Matches d' r₂ where
  result  := h.result
  stack   := h.stack
  scopes  := h.scopes
  depth   := h.depth
  outputs := h.outputs
  onto hr := by simp [he] at hr

end Run.Matches

namespace Op

variable {s : State} {older : Array (Array Value)} {body : Array Value} (limits : Limits)

theorem eval_ahead (v : Value) (extra : Nat) :
    let r := eval v (.events limits) (s.ahead extra)
    r.Exceeded ∨ r = (eval v (.events limits) s).ahead extra :=
  Coupling.ahead_closed.eval v _ s rfl

-- While no block is open, a value is evaluated in both runs.
theorem eval_finished (d : Draft) (v : Value) (hb : d.blocks = #[]) (hs : s.blocks = #[]) :
    let r := eval v (.events limits) ((d.onto s).ahead v.inner)
    r.Exceeded ∨ r.Matches (d.add v) (eval v (.events limits) s) := by
  intro r
  have ht : (d.onto s).ahead v.inner = s.ahead (d.add v).overhead := by
    simp [Draft.onto, State.ahead, d.overhead_add_empty v hb, hb, ← hs, Nat.add_assoc]
  have he := eval_ahead (s := s) limits v (d.add v).overhead
  rw [← ht] at he
  cases he
  case inl he => exact .inl he
  case inr he =>
    have hr : r = (eval v (.events limits) s).ahead (d.add v).overhead := he
    have hs := eval_blocks_empty (w := .events limits) v hs
    rw [hr]
    refine .inr ⟨rfl, rfl, rfl, rfl, rfl, fun _ => ⟨?_, hs⟩⟩
    simp [Run.ahead, State.ahead, Draft.onto, d.add_blocks_empty v hb, ← hs]

-- While a block is open, a value is captured in the one run, and the other stands still.
theorem eval_captured (d : Draft) (v : Value) (hb : d.blocks = older.push body)
    (hs : s.blocks = #[]) :
    let r := eval v (.events limits) ((d.onto s).ahead v.inner)
    r.Exceeded ∨ r.Matches (d.add v) ⟨.ok (), s, []⟩ := by
  intro r
  have hr : r = _ := eval_capture_run v hb
  rw [hr]
  split
  case isFalse => exact .inl ⟨_, rfl⟩
  case isTrue =>
    refine .inr ⟨rfl, rfl, rfl, rfl, rfl, fun _ => ⟨?_, hs⟩⟩
    simp [State.ahead, Draft.onto, d.overhead_add_push v hb, d.add_blocks_push v hb, Nat.add_assoc]

theorem eval_add (d : Draft) (v : Value) (hs : s.blocks = #[]) :
    let r := eval v (.events limits) ((d.onto s).ahead v.inner)
    r.Exceeded ∨ r.Matches (d.add v) ((d.finishes v).forM eval (.events limits) s) := by
  cases hb : d.blocks.back?
  case none =>
    have hb : d.blocks = #[] := by simpa using hb
    simpa [Draft.finishes, hb] using eval_finished limits d v hb hs
  case some body =>
    have ⟨older, hb⟩ := Array.back?_eq_some_iff.mp hb
    simpa [Draft.finishes, hb] using eval_captured limits d v hb hs

end Op

-- From the draft `d₁` to the draft `d₂`, the action `a` over words does what `b` does over values.
def Follows (limits : Limits) (d₁ d₂ : Draft) (a b : Op Event Unit) : Prop :=
  ∀ s : State, s.blocks = #[] →
    let r := a (.events limits) (d₁.onto s)
    r.Exceeded ∨ r.Matches d₂ (b (.events limits) s)

namespace Follows

variable {limits : Limits} {d₁ d₂ d₃ : Draft}

theorem refl (d : Draft) : Follows limits d d (pure ()) (pure ()) :=
  fun _ hs => .inr ⟨rfl, rfl, rfl, rfl, rfl, fun _ => ⟨rfl, hs⟩⟩

theorem seq {a₁ a₂ b₁ b₂ : Op Event Unit} (h₁ : Follows limits d₁ d₂ a₁ b₁)
    (h₂ : Follows limits d₂ d₃ a₂ b₂) :
    Follows limits d₁ d₃ (do a₁; a₂) (do b₁; b₂) := by
  intro s hs r
  cases h₁ s hs
  case inl he => exact .inl he.bind
  case inr hm =>
    cases ha : a₁ (.events limits) (d₁.onto s)
    case mk result t trace =>
      cases hb : b₁ (.events limits) s
      case mk result' u trace' =>
        rw [ha, hb] at hm
        have hresult : result = result' := hm.result
        subst hresult
        cases result
        case error =>
          have hr : r = _ := Act.bind_error ha
          rw [hr, Act.bind_error hb]
          exact .inr (hm.failed rfl)
        case ok =>
          have ⟨ht, hu⟩ := hm.onto rfl
          have hr : r = _ := Act.bind_ok ha
          rw [hr, Act.bind_ok hb]
          simp only at ht hu
          rw [ht]
          cases h₂ u hu
          case inl he  => exact .inl he
          case inr hm' => exact .inr (hm'.append trace trace' hm.outputs)

theorem after_say {a b : Op Event Unit} (d : Diagnostic) (h : Follows limits d₁ d₂ a b) :
    Follows limits d₁ d₂ (do Act.say d; a) b :=
  fun s hs => h s hs

theorem blank (d : Draft) : Follows limits d d (Act.note .changed) (pure ()) :=
  fun _ hs => .inr ⟨rfl, rfl, rfl, rfl, rfl, fun _ => ⟨rfl, hs⟩⟩

theorem openBlock (d : Draft) :
    Follows limits d { d with blocks := d.blocks.push #[] } Op.openBlock (pure ()) := by
  intro s hs
  have ho : { d with blocks := d.blocks.push #[] }.overhead = d.overhead := by
    simp [Draft.overhead]
  refine .inr ⟨rfl, rfl, rfl, rfl, rfl, fun _ => ⟨?_, hs⟩⟩
  simp [Op.openBlock, Act.change, Draft.onto, ho]

theorem eval (d : Draft) {v : Value} (hv : v.inner = 0) :
    Follows limits d (d.add v) (Op.eval v) ((d.finishes v).forM Op.eval) := by
  intro s hs
  have ht : (d.onto s).ahead v.inner = d.onto s := by rw [hv]; rfl
  rw [← ht]
  exact Op.eval_add limits d v hs

-- The evaluations that the values of a block took while it was open are those by which the finished
-- block is ahead.
theorem closeBlock (d : Draft) {older : Array (Array Value)} {body : Array Value}
    (hb : d.blocks = older.push body) :
    let d' := { d with blocks := older }
    Follows limits d (d'.add (.block body.toList)) (do Op.eval (.block (← Op.closeBlock)))
      ((d'.finishes (.block body.toList)).forM Op.eval) := by
  intro d' s hs r
  let t := (d'.onto s).ahead (Value.block body.toList).inner
  have ht : { d.onto s with blocks := older } = t := by
    simp [t, d', Draft.onto, State.ahead, d.overhead_close hb, Nat.add_assoc]
  have hc : Op.closeBlock (.events limits) (d.onto s) =
      ⟨.ok body.toList, t, [.state t.toSnapshot]⟩ := by
    have hb : (d.onto s).blocks = older.push body := hb
    simp only [Op.closeBlock_run, hb, Array.back?_push, Array.pop_push, ht]
    rfl
  have hr : r = _ := Act.bind_ok hc
  rw [hr]
  cases Op.eval_add limits d' (.block body.toList) hs
  case inl he => exact .inl he
  case inr hm => exact .inr (hm.append [.state t.toSnapshot] [] rfl)

end Follows

-- One case per meaning of a word.
theorem Op.step_follows (limits : Limits) {d d' : Draft} {token : Token} (h : d.read token = .ok d') :
    ∃ values, d'.values.toList = d.values.toList ++ values ∧
      Follows limits d d' (step token.text) (values.forM eval) := by
  unfold Draft.read at h
  unfold step
  cases hw : Lexeme.ofWord token.text <;> simp only [hw] at h ⊢
  case blank =>
    cases h
    exact ⟨[], by simp, .after_say _ (.blank _)⟩
  case opening =>
    cases h
    exact ⟨[], by simp, .after_say _ (.openBlock _)⟩
  case value v =>
    cases h
    exact ⟨_, d.add_values v, .after_say _ (.eval d (Lexeme.inner_ofWord hw))⟩
  case closing =>
    cases hb : d.blocks.back? <;> rw [hb] at h <;> cases h
    case some body =>
      have ⟨older, hb⟩ := Array.back?_eq_some_iff.mp hb
      simp only [hb, Array.pop_push]
      exact ⟨_, Draft.add_values _ _, .after_say _ (.closeBlock d hb)⟩

-- The run lemma, by induction on the tokens: the values of a text are those that its tokens finish.
theorem steps_follow (limits : Limits) {d d' : Draft} {tokens : List Token}
    (h : tokens.foldlM Draft.read d = .ok d') :
    ∃ values, d'.values.toList = d.values.toList ++ values ∧
      Follows limits d d' (tokens.forM (Op.step ·.text)) (values.forM Op.eval) := by
  induction tokens generalizing d
  case nil =>
    cases h
    exact ⟨[], by simp, .refl _⟩
  case cons token tokens hi =>
    simp only [List.foldlM_cons] at h
    cases hr : d.read token
    case error => rw [hr] at h; cases h
    case ok d₁ =>
      rw [hr] at h
      have ⟨values₁, hv₁, hf₁⟩ := Op.step_follows limits hr
      have ⟨values₂, hv₂, hf₂⟩ := hi h
      refine ⟨values₁ ++ values₂, by simp [hv₁, hv₂], ?_⟩
      simpa using hf₁.seq hf₂

-- A text is read by the draft that its words lead to, once no block of it is open.
theorem Value.readAll_ok {text : String} {values : List Value} (h : readAll text = .ok values) :
    ∃ d, (Token.ofSource text).foldlM Draft.read {} = .ok d ∧
      d.blocks = #[] ∧ d.values.toList = values := by
  unfold readAll at h
  cases hd : (Token.ofSource text).foldlM Draft.read {} <;> rw [hd] at h
  case error => cases h
  case ok d =>
    have h : d.finish = .ok values := h
    unfold Draft.finish at h
    split at h <;> cases h
    case isTrue hb => exact ⟨d, rfl, by simpa using hb, rfl⟩

namespace Machine

variable {limits : Limits}

theorem perform_outputs (op : Op Event Unit) :
    (({ limits } : Machine).perform op).2.outputs =
      (op (.events limits) .initial).trace.filterMap Event.output? := by
  simp [perform, outputs]

theorem stepping_refines_evaluation (limits : Limits) (text : String) (values : List Value)
    (h : Value.readAll text = .ok values) :
    let m : Machine := { limits }
    let a := m.drive ((Token.ofSource text).map (.step ·.text))
    let b := m.drive (values.map .eval)
    (∀ n, a.1 ≠ .error (.evaluationsExceeded n)) →
      a.1 = b.1 ∧
      a.2.state.stack = b.2.state.stack ∧
      a.2.state.scopes = b.2.state.scopes ∧
      a.2.state.depth = b.2.state.depth ∧
      a.2.outputs = b.2.outputs ∧
      (a.1 = .ok () →
        a.2.state.blocks = #[] ∧ b.2.state.blocks = #[] ∧
        a.2.state.count = b.2.state.count + Value.innerOfAll values) := by
  intro m a b hn
  have ⟨d, hd, hblocks, hvalues⟩ := Value.readAll_ok h
  have ⟨values', hv, hf⟩ := steps_follow limits hd
  have hv : values' = values := by simpa [hvalues] using hv.symm
  subst hv
  have ha : a = m.perform _ := m.drive_steps (Token.ofSource text)
  have hb : b = m.perform _ := m.drive_evals values'
  cases hf .initial rfl
  case inl he =>
    have ⟨n, he⟩ := he
    exact absurd (ha ▸ he) (hn n)
  case inr hm =>
    have hover : d.overhead = Value.innerOfAll values' := by
      simp [Draft.overhead, hblocks, hvalues]
    rw [ha, hb]
    refine ⟨hm.result, hm.stack, hm.scopes, hm.depth, ?_, fun hok => ?_⟩
    · rw [perform_outputs, perform_outputs]
      exact hm.outputs
    · have ⟨ho, hempty⟩ := hm.onto hok
      rw [← hover]
      exact ⟨(congrArg (·.blocks) ho).trans hblocks, hempty, congrArg (·.count) ho⟩

-- A program that defines a block, runs it, and puts out another one, with blocks inside both.
def nestedText : String :=
  "/p \x7b \x7b a \x7d puts \x7d def p \x7b b  \x7b c \x7d \x7d puts /z"

def nestedValues : List Value := [
  .symbol "p", .block [.block [.operator "a"], .operator "puts"], .operator "def",
  .operator "p", .block [.operator "b", .block [.operator "c"]], .operator "puts",
  .symbol "z"
]

theorem eq_ok_of_isOk {result : Except ε Unit} (h : result.isOk = true) : result = .ok () := by
  cases result
  case error => cases h
  case ok    => rfl

theorem nested_blocks_refined :
    let m : Machine := { limits := {} }
    let a := m.drive ((Token.ofSource nestedText).map (.step ·.text))
    let b := m.drive (nestedValues.map .eval)
    Value.readAll nestedText = .ok nestedValues ∧ (∀ n, a.1 ≠ .error (.evaluationsExceeded n)) ∧
    a.1 = .ok () ∧ b.1 = .ok () ∧ a.2.outputs = b.2.outputs ∧
    a.2.state.count = b.2.state.count + 6 := by
  have hread : Value.readAll nestedText = .ok nestedValues := by rfl
  have hinner : Value.innerOfAll nestedValues = 6 := by decide
  let words : List Call := (Token.ofSource nestedText).map (.step ·.text)
  have hok : (({ limits := {} } : Machine).drive words).1 = .ok () :=
    eq_ok_of_isOk (by decide +kernel +zetaReduce)
  have hn : ∀ n, (({ limits := {} } : Machine).drive words).1 ≠ .error (.evaluationsExceeded n) := by
    intro n h
    rw [hok] at h
    cases h
  have h := stepping_refines_evaluation {} nestedText nestedValues hread hn
  exact ⟨hread, hn, hok, h.1.symm.trans hok, h.2.2.2.2.1, hinner ▸ (h.2.2.2.2.2 hok).2.2⟩

end Machine
end StackScript
