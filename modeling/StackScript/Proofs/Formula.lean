import StackScript.Proofs.Operands

namespace StackScript

-- The operations on two numbers.
inductive Arithmetic
  | add
  | subtract
  | multiply
  | divide
  | less

namespace Arithmetic

def native : Arithmetic → Native
  | add      => .add
  | subtract => .subtract
  | multiply => .multiply
  | divide   => .divide
  | less     => .less

def apply : Arithmetic → Float → Float → Float
  | add,      a, b => a + b
  | subtract, a, b => a - b
  | multiply, a, b => a * b
  | divide,   a, b => a / b
  | less,     a, b => if a < b then 1 else 0

end Arithmetic

inductive Formula
  | literal (x : Float)
  | apply (op : Arithmetic) (left right : Formula)

namespace Formula

-- The number that a formula stands for.
def value : Formula → Float
  | literal x           => x
  | apply op left right => op.apply left.value right.value

-- What is to be evaluated, each operator after its operands.
def sequence : Formula → List Value
  | literal x           => [.number x]
  | apply op left right => left.sequence ++ right.sequence ++ [.operator op.native.name]

def size : Formula → Nat
  | literal _          => 1
  | apply _ left right => left.size + right.size + 1

-- The room on the stack: the left operand is kept there while the right one is evaluated.
def need : Formula → Nat
  | literal _          => 1
  | apply _ left right => max left.need (1 + right.need)

def operations : Formula → List Arithmetic
  | literal _           => []
  | apply op left right => op :: (left.operations ++ right.operations)

theorem need_pos (e : Formula) : 0 < e.need := by
  cases e <;> simp only [need] <;> omega

end Formula

namespace State

variable {limits : Limits} {s : State} {room steps : Nat} {fault : Fault}

-- The state after `steps` evaluations that add one number to the stack.
def adding (s : State) (x : Float) (steps : Nat) : State :=
  { s with stack := s.stack.push (.number x), count := s.count + steps }

-- The limits leave `room` on the stack, and `steps` evaluations.
structure Affords (s : State) (limits : Limits) (room steps : Nat) : Prop where
  stack       : s.stack.size + room ≤ limits.stackSize
  evaluations : s.count + steps ≤ limits.evaluations

-- One of the limits does not leave as much, and the fault tells which.
inductive Lacks (s : State) (limits : Limits) (room steps : Nat) : Fault → Prop
  | stack (h : limits.stackSize < s.stack.size + room) :
    Lacks s limits room steps (.stackOverflow limits.stackSize)
  | evaluations (h : limits.evaluations < s.count + steps) :
    Lacks s limits room steps (.evaluationsExceeded (max s.count limits.evaluations))

theorem Lacks.not_affords (h : s.Lacks limits room steps fault) : ¬s.Affords limits room steps := by
  intro ha
  cases h
  case stack h       => exact absurd ha.stack (by omega)
  case evaluations h => exact absurd ha.evaluations (by omega)

theorem Lacks.mono (h : s.Lacks limits room steps fault) (hr : room ≤ room') (hs : steps ≤ steps') :
    s.Lacks limits room' steps' fault := by
  cases h
  case stack h       => exact .stack (by omega)
  case evaluations h => exact .evaluations (by omega)

-- What is lacking once a number was added was lacking before, by that number's own needs more.
theorem Lacks.of_adding (h : (s.adding x before).Lacks limits room steps fault)
    (ha : s.Affords limits room' before) : s.Lacks limits (1 + room) (before + steps) fault := by
  have hb := ha.evaluations
  cases h
  case stack h =>
    simp only [adding, Array.size_push] at h
    exact .stack (by omega)
  case evaluations h =>
    simp only [adding] at h ⊢
    rw [Nat.max_eq_right hb, ← Nat.max_eq_right (Nat.le_of_add_right_le hb)]
    exact .evaluations (by omega)

end State

-- A run adds a number to the stack if it is afforded, and lacks something otherwise.
inductive Run.Yields (limits : Limits) (s : State) (x : Float) (room steps : Nat) :
    Run Fault κ Unit → Prop
  | ok {trace : List κ} (h : s.Affords limits room steps) :
    Yields limits s x room steps ⟨.ok (), s.adding x steps, trace⟩
  | error {t : State} {trace : List κ} (h : s.Lacks limits room steps fault) :
    Yields limits s x room steps ⟨.error fault, t, trace⟩

namespace Run.Yields

theorem retrace {r : Run Fault κ Unit} {trace : List κ} (h : r.Yields limits s x room steps) :
    Yields limits s x room steps ⟨r.result, r.state, trace⟩ := by
  cases h
  case ok h    => exact .ok h
  case error h => exact .error h

-- What is lacking for a part is lacking for the whole.
theorem bind {a b : Op κ Unit} (ha : (a w t).Yields w.limits t x room steps)
    (hl : ∀ fault, t.Lacks w.limits room steps fault → s.Lacks w.limits room' steps' fault)
    (hb : t.Affords w.limits room steps →
      (b w (t.adding x steps)).Yields w.limits s y room' steps') :
    ((a >>= fun _ => b) w t).Yields w.limits s y room' steps' := by
  generalize hr : a w t = r at ha
  cases ha
  case error h =>
    rw [Act.bind_error hr]
    exact .error (hl _ h)
  case ok h =>
    rw [Act.bind_ok hr]
    exact (hb h).retrace

end Run.Yields

namespace Op

variable {κ : Type} {w : Watch κ} {s : State}

theorem eval_number_yields (x : Float) (hb : s.blocks = #[]) :
    (eval (.number x) w s).Yields w.limits s x 1 1 := by
  rw [eval_eq_putBack rfl hb, putBack]
  have hs := startEvaluation_run (w := w) (s := s) (.number x)
  split at hs
  case isFalse h =>
    have hc : s.count = max s.count w.limits.evaluations := by omega
    rw [Act.bind_error hs, hc]
    exact .error (.evaluations (by omega))
  case isTrue h =>
    rw [Act.bind_ok hs, push_run]
    split
    case isTrue hr  => exact .ok ⟨hr, h⟩
    case isFalse hr => exact .error (.stack (Nat.lt_succ_of_le (Nat.le_of_not_lt hr)))

theorem binary_run {below : Array Value} (op : Native) (f : Float → Float → Float)
    (hs : s.stack = (below.push (.number a)).push (.number b))
    (hr : below.size < w.limits.stackSize) :
    ∃ trace, binary op f w s =
      ⟨.ok (), { s with stack := below.push (.number (f a b)) }, trace⟩ := by
  let t := { s with stack := below.push (.number a) }
  let u := { s with stack := below }
  have h₁ : pop w s = ⟨.ok (.number b), t, w.keep (.popped (.number b)) t⟩ := by
    simp [pop_run, hs, t]
  have h₂ : pop w t = ⟨.ok (.number a), u, w.keep (.popped (.number a)) u⟩ := by
    simp [pop_run, t, u]
  simp [binary, Act.bind_ok h₁, Act.bind_ok h₂, push_run, hr, u]

theorem eval_arithmetic_eq {op : Arithmetic} (hb : s.blocks = #[])
    (hl : s.lookup? op.native.name = some (.native op.native)) :
    eval (.operator op.native.name) w s =
      (do startEvaluation (.operator op.native.name)
          Act.say (.applying op.native)
          binary op.native op.apply) w s := by
  have ⟨_, he⟩ := eval_bound_run (w := w) hb hl
  rw [he]
  cases op <;> rfl

-- The operands have made room for the result, so only the evaluations can run out.
theorem eval_arithmetic_yields {op : Arithmetic} (hb : s.blocks = #[])
    (hl : s.lookup? op.native.name = some (.native op.native))
    (hr : s.stack.size + room ≤ w.limits.stackSize) (hpos : 0 < room)
    (hc : s.count + i + j ≤ w.limits.evaluations) :
    (eval (.operator op.native.name) w ((s.adding a i).adding b j)).Yields w.limits s (op.apply a b)
      room (i + j + 1) := by
  let t := (s.adding a i).adding b j
  have ht : t.count = s.count + i + j := rfl
  have hs := startEvaluation_run (w := w) (s := t) (.operator op.native.name)
  rw [eval_arithmetic_eq (s := t) hb hl]
  split at hs
  case isFalse h =>
    have hm : t.count = max s.count w.limits.evaluations := by omega
    rw [Act.bind_error hs, hm]
    exact .error (.evaluations (by omega))
  case isTrue h =>
    let u := { t with count := t.count + 1 }
    have hsay : Act.say (ε := Fault) (.applying op.native) w u =
      ⟨.ok (), u, w.keep (.said (.applying op.native)) u ++ []⟩ := rfl
    have ⟨_, hf⟩ := binary_run (w := w) (s := u) op.native op.apply rfl (by omega)
    have hu : { u with stack := s.stack.push (.number (op.apply a b)) } =
        s.adding (op.apply a b) (i + j + 1) := by
      simp [u, t, State.adding, Nat.add_assoc]
    rw [Act.bind_ok hs, Act.bind_ok hsay, hf, hu]
    exact .ok ⟨hr, by omega⟩

end Op

-- By induction on the formula, for any stack below it.
theorem Formula.sequence_yields {w : Watch κ} (e : Formula) (hb : s.blocks = #[])
    (hl : ∀ op ∈ e.operations, s.lookup? op.native.name = some (.native op.native)) :
    (e.sequence.forM Op.eval w s).Yields w.limits s e.value e.need e.size := by
  induction e generalizing s
  case literal x =>
    have h := Op.eval_number_yields (w := w) x hb
    rw [sequence, List.forM_eq_forM, List.forM_cons, List.forM_nil, bind_pure]
    exact h
  case apply op left right hi₁ hi₂ =>
    have hn : 0 < (apply op left right).need := need_pos _
    have hl₀ := hl op List.mem_cons_self
    have hl₁ op hm := hl op (List.mem_cons_of_mem _ (List.mem_append_left _ hm))
    have hl₂ op hm := hl op (List.mem_cons_of_mem _ (List.mem_append_right _ hm))
    have hright := hi₂ (s := s.adding left.value left.size) hb hl₂
    rw [sequence, List.forM_eq_forM, List.forM_append, List.forM_append, bind_assoc, List.forM_cons,
      List.forM_nil, bind_pure, ← List.forM_eq_forM]
    refine (hi₁ hb hl₁).bind ?_ fun h₁ => hright.bind ?_ fun h₂ => ?_
    · exact fun _ h => h.mono (Nat.le_max_left _ _) (by simp only [size]; omega)
    · exact fun _ h => (h.of_adding h₁).mono (Nat.le_max_right _ _) (by simp only [size]; omega)
    · have hs : s.stack.size + (apply op left right).need ≤ w.limits.stackSize := by
        have := h₁.stack
        have := h₂.stack
        simp only [State.adding, Array.size_push, need] at *
        omega
      exact Op.eval_arithmetic_yields hb hl₀ hs hn h₂.evaluations

namespace Machine

theorem formula_evaluated (m : Machine) (e : Formula) (hb : m.state.blocks = #[])
    (hl : ∀ op ∈ e.operations, m.state.lookup? op.native.name = some (.native op.native)) :
    let s := m.state
    let r := m.drive (e.sequence.map .eval)
    (r.1 = .ok () ↔
      s.stack.size + e.need ≤ m.limits.stackSize ∧ s.count + e.size ≤ m.limits.evaluations) ∧
    (r.1 = .ok () →
      r.2.state = { s with stack := s.stack.push (.number e.value), count := s.count + e.size }) ∧
    ∀ fault, r.1 = .error fault →
      fault = .stackOverflow m.limits.stackSize ∧ m.limits.stackSize < s.stack.size + e.need ∨
      fault = .evaluationsExceeded (max s.count m.limits.evaluations) ∧
        m.limits.evaluations < s.count + e.size := by
  have h := e.sequence_yields (w := .events m.limits) hb hl
  rw [drive_evals, perform]
  generalize e.sequence.forM Op.eval (.events m.limits) m.state = r at h
  cases h
  case ok h =>
    refine ⟨⟨fun _ => ⟨h.1, h.2⟩, fun _ => rfl⟩, fun _ => rfl, fun fault hf => ?_⟩
    cases hf
  case error h =>
    refine ⟨⟨fun hok => ?_, fun ha => ?_⟩, fun hok => ?_, fun fault hf => ?_⟩
    · cases hok
    · exact absurd ⟨ha.1, ha.2⟩ h.not_affords
    · cases hok
    · cases hf
      cases h
      case stack h       => exact .inl ⟨rfl, h⟩
      case evaluations h => exact .inr ⟨rfl, h⟩

-- Seven less a half, which takes room for three operands.
def lessHalf : Formula :=
  .apply .subtract (.literal 7) (.apply .divide (.literal 1) (.literal 2))

-- Limits that admit the formula above one operand, and such as are too low by one.
theorem lessHalf_evaluated :
    let state := { State.initial with stack := #[.symbol "a"], count := 1 }
    let m (limits : Limits) : Machine := { limits, state }
    let r (limits : Limits) := (m limits).drive (lessHalf.sequence.map .eval)
    (r ⟨4, 0, 6⟩).1 = .ok () ∧
    (r ⟨4, 0, 6⟩).2.state.stack = #[.symbol "a", .number (7 - 1 / 2)] ∧
    (r ⟨3, 0, 6⟩).1 ≠ .ok () ∧ (r ⟨4, 0, 5⟩).1 ≠ .ok () := by
  intro state m r
  have hl : ∀ op ∈ lessHalf.operations,
      State.initial.lookup? op.native.name = some (.native op.native) := by
    intro op _
    cases op <;> rfl
  have h₁ := formula_evaluated (m ⟨4, 0, 6⟩) lessHalf rfl hl
  have h₂ := formula_evaluated (m ⟨3, 0, 6⟩) lessHalf rfl hl
  have h₃ := formula_evaluated (m ⟨4, 0, 5⟩) lessHalf rfl hl
  have hok : (r ⟨4, 0, 6⟩).1 = .ok () := h₁.1.mpr (by decide)
  have hstate := h₁.2.1 hok
  have hv : lessHalf.value = 7 - 1 / 2 := by simp only [lessHalf, Formula.value, Arithmetic.apply]
  refine ⟨hok, ?_, fun h => absurd (h₂.1.mp h) (by decide), fun h => absurd (h₃.1.mp h) (by decide)⟩
  simp [r, hstate, m, state, hv]

end Machine
end StackScript
