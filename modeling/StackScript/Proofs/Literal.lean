import StackScript.Proofs.Nesting
import StackScript.Proofs.NetEffect

namespace StackScript

namespace Draft

variable {inner : Array (Array Value)} {last : Array Value}

-- The number of values in a draft, those inside other values included.
def weight (d : Draft) : Nat :=
  Value.sizeOfAll d.values.toList + Value.sizeOfAll (d.blocks.toList.flatMap (·.toList))

-- The state after the words of a draft, where `body` was the newest open block literal before them.
-- The finished values have been added to it, and the blocks of the draft are open above it.
def inside (d : Draft) (older : Array (Array Value)) (body : Array Value) (s : State) : State :=
  { s with blocks := older.push (body ++ d.values) ++ d.blocks, count := s.count + d.weight }

theorem inside_start {older : Array (Array Value)} {body : Array Value} {s : State}
    (h : s.blocks = older.push body) : ({} : Draft).inside older body s = s := by
  simp [inside, weight, ← h]

theorem weight_finished (values : List Value) :
    ({ values := values.toArray } : Draft).weight = Value.sizeOfAll values := by
  simp [weight]

theorem weight_add (d : Draft) (v : Value) : (d.add v).weight = d.weight + v.size := by
  cases hb : d.blocks.back?
  case none =>
    have hb : d.blocks = #[] := by simpa using hb
    simp [add, weight, hb]
  case some last =>
    obtain ⟨inner, hb⟩ := Array.back?_eq_some_iff.mp hb
    simp [add, weight, hb, Nat.add_assoc]

theorem weight_close (d : Draft) (h : d.blocks = inner.push last) :
    d.weight = { d with blocks := inner }.weight + (Value.block last.toList).inner := by
  simp [weight, h, Value.inner, Nat.add_assoc]

-- Once the values inside it have been counted, a value costs one more evaluation.
theorem count_add (d : Draft) (v : Value) (older : Array (Array Value)) (body : Array Value)
    (s : State) :
    s.count + (d.add v).weight = ((d.inside older body s).ahead v.inner).count + 1 := by
  simp only [weight_add, v.size_eq, State.ahead, inside, Nat.add_assoc]

-- A value is added to the newest block, be it one of the draft or the one that was open before it.
theorem inside_add (d : Draft) (v : Value) (older : Array (Array Value)) (body : Array Value)
    (s : State) :
    let t := (d.inside older body s).ahead v.inner
    ∃ outer newest, t.blocks = Array.push outer newest ∧
      (d.add v).inside older body s =
        { t with blocks := outer.push (newest.push v), count := t.count + 1 } := by
  intro t
  have hcount : s.count + (d.add v).weight = t.count + 1 := d.count_add v older body s
  cases hb : d.blocks.back?
  case none =>
    have hb : d.blocks = #[] := by simpa using hb
    refine ⟨older, body ++ d.values, by simp [t, State.ahead, inside, hb], ?_⟩
    rw [inside, hcount]
    simp [t, State.ahead, inside, add, hb]
  case some last =>
    obtain ⟨inner, hb⟩ := Array.back?_eq_some_iff.mp hb
    refine ⟨older.push (body ++ d.values) ++ inner, last, ?_, ?_⟩
    · simp only [t, State.ahead, inside, hb, Array.append_push]
    · rw [inside, hcount, d.add_blocks_push v hb, Array.append_push]
      simp [t, State.ahead, inside, add, hb]

end Draft

namespace Op

variable {w : Watch κ}

theorem eval_capture_ending {s : State} {older : Array (Array Value)} {body : Array Value}
    (v : Value) (h : s.blocks = older.push body) :
    (eval v w s).ending =
      if s.count < w.limits.evaluations then
        (.ok (), { s with blocks := older.push (body.push v), count := s.count + 1 })
      else
        (.error (.evaluationsExceeded s.count), { s with count := s.count + 1 }) := by
  rw [eval_capture_run v h]
  split <;> rfl

-- Evaluation adds a value where the draft does.
theorem eval_inside (d : Draft) (v : Value) (older : Array (Array Value)) (body : Array Value)
    (s : State) :
    let t := (d.inside older body s).ahead v.inner
    (eval v w t).ending =
      if t.count < w.limits.evaluations then (.ok (), (d.add v).inside older body s)
      else (.error (.evaluationsExceeded t.count), t.ahead 1) := by
  have ⟨_, _, hb, hadd⟩ := d.inside_add v older body s
  rw [hadd]
  exact eval_capture_ending v hb

end Op

-- A run from `s` was ended by the limit, and nothing but open blocks and the count has changed.
def State.Stopped (s : State) (ending : Except Fault Unit × State) : Prop :=
  ∃ n blocks count, ending = (.error (.evaluationsExceeded n), { s with blocks, count })

-- In an open block literal, the action `a` adds to the draft `d` what makes it the draft `d'`.
structure Gathers (w : Watch κ) (d d' : Draft) (a : Op κ Unit) : Prop where
  grows   : d.weight ≤ d'.weight
  filled  : ∀ older body (s : State),
            d'.weight = d.weight ∨ s.count + d'.weight ≤ w.limits.evaluations →
            (a w (d.inside older body s)).ending = (.ok (), d'.inside older body s)
  stopped : ∀ older body (s : State),
            d.weight < d'.weight → w.limits.evaluations < s.count + d'.weight →
            s.Stopped (a w (d.inside older body s)).ending

namespace Gathers

variable {w : Watch κ} {d d₁ d₂ d₃ : Draft}

-- What costs no evaluation cannot be stopped.
theorem of_free {a : Op κ Unit} (hw : d₂.weight = d₁.weight)
    (h : ∀ older body s, (a w (d₁.inside older body s)).ending = (.ok (), d₂.inside older body s)) :
    Gathers w d₁ d₂ a where
  grows                 := hw.ge
  filled older body s _ := h older body s
  stopped _ _ _ hlt     := absurd hw hlt.ne'

theorem refl (d : Draft) : Gathers w d d (pure ()) :=
  of_free rfl fun _ _ _ => rfl

theorem seq {a b : Op κ Unit} (ha : Gathers w d₁ d₂ a) (hb : Gathers w d₂ d₃ b) :
    Gathers w d₁ d₃ (do a; b) := by
  have h₁ := ha.grows
  have h₂ := hb.grows
  refine ⟨h₁.trans h₂, fun older body s h => ?_, fun older body s hlt h => ?_⟩
  · rw [Act.ending_bind_ok (ha.filled older body s (by omega))]
    exact hb.filled older body s (by omega)
  · by_cases hs : d₂.weight = d₁.weight ∨ s.count + d₂.weight ≤ w.limits.evaluations
    case pos =>
      rw [Act.ending_bind_ok (ha.filled older body s hs)]
      exact hb.stopped older body s (by omega) h
    case neg =>
      have ⟨n, blocks, count, hr⟩ := ha.stopped older body s (by omega) (by omega)
      exact ⟨n, blocks, count, Act.ending_bind_error hr⟩

theorem note (x : Note) (d : Draft) : Gathers w d d (Act.note x) :=
  of_free rfl fun _ _ _ => rfl

theorem openBlock (d : Draft) :
    Gathers w d { d with blocks := d.blocks.push #[] } Op.openBlock := by
  have hw : { d with blocks := d.blocks.push #[] }.weight = d.weight := by simp [Draft.weight]
  refine of_free hw fun older body s => ?_
  simp only [Draft.inside, hw, Array.append_push]
  rfl

-- An action that ends as the evaluation of a value does, where the values inside it were counted.
theorem of_eval {a : Op κ Unit} (v : Value) (hw : d₁.weight = d.weight + v.inner)
    (h : ∀ older body s, (a w (d₁.inside older body s)).ending =
      (Op.eval v w ((d.inside older body s).ahead v.inner)).ending) :
    Gathers w d₁ (d.add v) a := by
  have hv : (d.add v).weight = d₁.weight + 1 := by
    rw [d.weight_add, hw, v.size_eq, Nat.add_assoc]
  refine ⟨by omega, fun older body s hle => ?_, fun older body s _ hlt => ?_⟩
  · have hcount := d.count_add v older body s
    rw [h, Op.eval_inside, if_pos (by omega)]
  · have hcount := d.count_add v older body s
    rw [h, Op.eval_inside, if_neg (by omega)]
    exact ⟨_, _, _, rfl⟩

theorem eval (d : Draft) {v : Value} (hv : v.inner = 0) : Gathers w d (d.add v) (Op.eval v) :=
  of_eval v (by rw [hv]; rfl) fun _ _ _ => by rw [hv]; rfl

theorem closeBlock (d : Draft) {inner : Array (Array Value)} {last : Array Value}
    (hb : d.blocks = inner.push last) :
    Gathers w d ({ d with blocks := inner }.add (.block last.toList))
      (do Op.eval (.block (← Op.closeBlock))) := by
  refine of_eval _ (d.weight_close hb) fun older body s => ?_
  have hc : (Op.closeBlock w (d.inside older body s)).ending =
      (.ok last.toList, ({ d with blocks := inner }.inside older body s).ahead
        (Value.block last.toList).inner) := by
    have hpop : (d.inside older body s).blocks =
        (older.push (body ++ d.values) ++ inner).push last := by
      rw [Draft.inside, hb, Array.append_push]
    simp only [Op.closeBlock_run, hpop, Array.back?_push, Array.pop_push, Run.ending]
    simp only [Draft.inside, State.ahead, d.weight_close hb, Nat.add_assoc]
  rw [Act.ending_bind_ok hc]

end Gathers

-- One case per meaning of a word.
theorem Op.step_gathers {w : Watch κ} {d d' : Draft} {token : Token} (h : d.read token = .ok d') :
    Gathers w d d' (step token.text) := by
  unfold Draft.read at h
  refine .seq (.note _ d) ?_
  cases hw : Lexeme.ofWord token.text <;> simp only [hw] at h ⊢
  case blank =>
    cases h
    exact .note _ d
  case opening =>
    cases h
    exact .openBlock d
  case value v =>
    cases h
    exact .eval d (Lexeme.inner_ofWord hw)
  case closing =>
    cases hb : d.blocks.back? <;> rw [hb] at h <;> cases h
    case some last =>
      obtain ⟨inner, hb⟩ := Array.back?_eq_some_iff.mp hb
      simp only [hb, Array.pop_push]
      exact .closeBlock d hb

-- The run lemma, by induction on the tokens. It is about any draft, as the first token may stand
-- inside several blocks of the list.
theorem steps_gather {w : Watch κ} {d d' : Draft} {tokens : List Token}
    (h : tokens.foldlM Draft.read d = .ok d') :
    Gathers w d d' (tokens.forM (Op.step ·.text)) := by
  induction tokens generalizing d
  case nil =>
    cases h
    exact .refl _
  case cons token tokens hi =>
    rw [List.foldlM_cons] at h
    cases hr : d.read token <;> rw [hr] at h
    case error => cases h
    case ok    => exact (Op.step_gathers hr).seq (hi h)

theorem Value.sizeOfAll_eq_zero : {vs : List Value} → sizeOfAll vs = 0 ↔ vs = []
  | []     => by simp
  | v :: _ => by simp [v.size_eq]

-- Balanced braces leave no block open.
theorem Value.readTokens_of_balanced {tokens : List Token}
    (hn : Lexeme.Nested (Token.kinds tokens))
    (hb : (Token.kinds tokens).countP Lexeme.isOpening =
      (Token.kinds tokens).countP Lexeme.isClosing) :
    ∃ values, readTokens tokens = .ok values ∧
      tokens.foldlM Draft.read {} = .ok { values := values.toArray } := by
  have ⟨d, hd⟩ := Draft.nested_iff.mp hn
  have hsize := Draft.size_readTokens hd
  have hempty : d.blocks = #[] := Array.eq_empty_of_size_eq_zero (by omega)
  refine ⟨d.values.toList, ?_, ?_⟩
  · simp [readTokens_ok hd, Draft.finish, hempty]
  · rw [hd, ← hempty]

namespace Machine

theorem literal_only_gathers (m : Machine) (older : Array (Array Value)) (body : Array Value)
    (hopen : m.state.blocks = older.push body) (tokens : List Token)
    (hn : Lexeme.Nested (Token.kinds tokens))
    (hb : (Token.kinds tokens).countP Lexeme.isOpening =
      (Token.kinds tokens).countP Lexeme.isClosing) :
    ∃ values, Value.readTokens tokens = .ok values ∧
      let cost := Value.sizeOfAll values
      let r := m.drive (tokens.map (.step ·.text))
      (r.1 = .ok () ↔ values = [] ∨ m.state.count + cost ≤ m.limits.evaluations) ∧
      (r.1 = .ok () → r.2.state = { m.state with
        blocks := older.push (body ++ values.toArray), count := m.state.count + cost }) ∧
      (r.1 ≠ .ok () →
        (∃ n, r.1 = .error (.evaluationsExceeded n)) ∧
        r.2.state.stack = m.state.stack ∧
        r.2.state.scopes = m.state.scopes ∧
        r.2.state.depth = m.state.depth) := by
  have ⟨values, hread, hd⟩ := Value.readTokens_of_balanced hn hb
  refine ⟨values, hread, ?_⟩
  intro cost r
  have hg := steps_gather (w := .events m.limits) hd
  have hr : r = m.perform (tokens.forM (Op.step ·.text)) := m.drive_steps tokens
  have hzero : ({} : Draft).weight = 0 := rfl
  have hcost : ({ values := values.toArray } : Draft).weight = cost := Draft.weight_finished values
  have hempty : values = [] ↔ cost = 0 := Value.sizeOfAll_eq_zero.symm
  by_cases h : values = [] ∨ m.state.count + cost ≤ m.limits.evaluations
  case pos =>
    have he := hg.filled older body m.state (by rw [hzero, hcost, ← hempty]; exact h)
    rw [Draft.inside_start hopen] at he
    have ⟨hok, hstate⟩ := Prod.mk.inj he
    rw [hr]
    refine ⟨iff_of_true hok h, fun _ => hstate.trans ?_, fun hn => absurd hok hn⟩
    simp [Draft.inside, hcost]
  case neg =>
    have ⟨hne, hlt⟩ := not_or.mp h
    have hpos : 0 < cost := Nat.pos_of_ne_zero (mt hempty.mpr hne)
    have ⟨n, _, _, he⟩ := hg.stopped older body m.state (by omega) (hcost ▸ not_le.mp hlt)
    rw [Draft.inside_start hopen] at he
    have ⟨herror, hstate⟩ := Prod.mk.inj he
    have hne : r.1 ≠ .ok () := by
      rw [hr]
      exact fun hok => nomatch herror.symm.trans hok
    refine ⟨iff_of_false hne h, fun hok => absurd hok hne, fun _ => ?_⟩
    rw [hr]
    exact ⟨⟨n, herror⟩, congrArg (·.stack) hstate, congrArg (·.scopes) hstate,
      congrArg (·.depth) hstate⟩

-- Words of which none does the same outside a literal: one puts out, and one is undefined.
def gathered : List Token :=
  ["puts", "\x7b", "nil", "\x7b", "\x7d", "", "\x7d"].map (⟨·, 1, 1⟩)

-- A machine with two literals open and three evaluations done.
def gathering (evaluations : Nat) : Machine where
  limits := { evaluations }
  state  := { State.initial with blocks := #[#[.symbol "k"], #[.operator "x"]], count := 3 }

theorem nested_literal_gathered :
    let words := gathered.map (.step ·.text)
    ((gathering 7).drive words).2.state = { (gathering 7).state with
      blocks := #[#[.symbol "k"],
        #[.operator "x", .operator "puts", .block [.operator "nil", .block []]]],
      count  := 7 } ∧
    (∃ n, ((gathering 6).drive words).1 = .error (.evaluationsExceeded n)) ∧
    ((gathering 6).drive words).2.state.scopes = #[.base] := by
  intro words
  have hread : Value.readTokens gathered =
      .ok [.operator "puts", .block [.operator "nil", .block []]] := rfl
  have hn : Lexeme.Nested (Token.kinds gathered) := Draft.nested_iff.mpr ⟨_, rfl⟩
  have hg (evaluations : Nat) :=
    literal_only_gathers (gathering evaluations) #[#[.symbol "k"]] #[.operator "x"] rfl gathered hn
      (by decide)
  have ⟨vs, hv, hok, hstate, _⟩ := hg 7
  have ⟨ws, hw, hok', _, hstopped⟩ := hg 6
  cases hread.symm.trans hv
  cases hread.symm.trans hw
  have hfull : ((gathering 6).drive words).1 ≠ .ok () := by
    refine mt hok'.mp ?_
    rintro (h | h)
    · cases h
    · exact absurd h (by decide)
  have ⟨hexceeded, _, hscopes, _⟩ := hstopped hfull
  exact ⟨hstate (hok.mpr (.inr (by decide))), hexceeded, hscopes⟩

end Machine
end StackScript
