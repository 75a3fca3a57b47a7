import StackScript.Proofs.Primitive

namespace StackScript
namespace Op

open Act

section Height

variable {κ : Type} {w : Watch κ} {s t : State} {trace : List κ}

theorem pop_ok_size (h : pop w s = ⟨.ok v, t, trace⟩) : t.stack.size < s.stack.size := by
  rw [pop_run] at h
  cases hs : s.stack.back? <;> simp only [hs] at h
  case none => cases h
  case some =>
    have := Array.back?_eq_some_iff.mp hs
    cases h
    grind

theorem popBlock_ok_size (h : popBlock op w s = ⟨.ok body, t, trace⟩) :
    t.stack.size < s.stack.size := by
  unfold popBlock at h
  cases hp : pop w s
  case mk result u trace' =>
    cases result
    case error => simp [bind_error hp] at h
    case ok v =>
      have hs := pop_ok_size hp
      rw [bind_ok hp] at h
      cases v <;> simp at h
      exact h.2.1 ▸ hs

-- Only operands are evaluated again, and they have left the stack by then. So of `again` no more
-- matters than what it does on a lower stack.
variable {call : Frame → List Value → Op κ Unit} {again₁ again₂ : Value → Op κ Unit}

theorem test_congr (h : ∀ v t, t.stack.size < s.stack.size → again₁ v w t = again₂ v w t) :
    test call again₁ w s = test call again₂ w s := by
  apply bind_congr_right
  intro v t _ hp
  have ht := pop_ok_size hp
  cases v
  case block => rfl
  all_goals exact h _ t ht

theorem branch_congr (h : ∀ v t, t.stack.size < s.stack.size → again₁ v w t = again₂ v w t) :
    branch call again₁ w s = branch call again₂ w s := by
  apply bind_congr_right
  intro otherwise t₁ _ h₁
  apply bind_congr_right
  intro consequent t₂ _ h₂
  apply bind_congr_left
  have hs₁ := popBlock_ok_size h₁
  have hs₂ := popBlock_ok_size h₂
  exact test_congr fun v t ht => h v t (by omega)

theorem define_congr (h : ∀ v t, t.stack.size < s.stack.size → again₁ v w t = again₂ v w t) :
    define again₁ w s = define again₂ w s := by
  apply bind_congr_right
  intro v t _ hp
  apply bind_congr_left
  exact h v t (pop_ok_size hp)

theorem exchange_congr (h : ∀ v t, t.stack.size < s.stack.size → again₁ v w t = again₂ v w t) :
    exchange again₁ w s = exchange again₂ w s := by
  apply bind_congr_right
  intro last t₁ _ h₁
  apply bind_congr_right
  intro second t₂ _ h₂
  apply bind_congr_left
  exact h second t₂ (Nat.lt_trans (pop_ok_size h₂) (pop_ok_size h₁))

theorem apply_congr (h : ∀ v t, t.stack.size < s.stack.size → again₁ v w t = again₂ v w t) :
    apply call again₁ op w s = apply call again₂ op w s := by
  apply bind_congr_right
  intro _ t _ hs
  cases hs
  cases op
  case branch   => exact branch_congr h
  case define   => exact define_congr h
  case exchange => exact exchange_congr h
  all_goals rfl

theorem evalWith_congr (h : ∀ v t, t.stack.size < s.stack.size → again₁ v w t = again₂ v w t) :
    evalWith call again₁ v w s = evalWith call again₂ v w s := by
  apply bind_congr_right
  intro _ t _ hs
  rw [startEvaluation_run] at hs
  split at hs <;> cases hs
  rw [view_bind, view_bind]
  split
  case isTrue => rfl
  case isFalse =>
    cases v
    case operator name =>
      simp only [view_bind]
      generalize State.lookup? _ name = found
      rcases found with _ | ⟨_ | _ | _ | _ | op⟩
      case some.native => exact apply_congr h
      all_goals rfl
    all_goals rfl

theorem evalBelow_zero : evalBelow call 0 v = evalWith call (fun _ => fail .stackUnderflow) v :=
  rfl

theorem evalBelow_succ (height : Nat) :
    evalBelow call (height + 1) v = evalWith call (evalBelow call height) v :=
  rfl

-- A height above that of the stack makes no difference.
theorem evalBelow_eq {height₁ height₂ : Nat} (h₁ : s.stack.size ≤ height₁)
    (h₂ : s.stack.size ≤ height₂) :
    evalBelow call height₁ v w s = evalBelow call height₂ v w s := by
  induction height₁ generalizing height₂ s v <;> cases height₂
  case zero.zero => rfl
  case zero.succ =>
    rw [evalBelow_zero, evalBelow_succ]
    apply evalWith_congr
    intro _ t ht
    exact absurd (Nat.lt_of_lt_of_le ht h₁) (Nat.not_lt_zero _)
  case succ.zero =>
    rw [evalBelow_zero, evalBelow_succ]
    apply evalWith_congr
    intro _ t ht
    exact absurd (Nat.lt_of_lt_of_le ht h₂) (Nat.not_lt_zero _)
  case succ.succ hi _ =>
    rw [evalBelow_succ, evalBelow_succ]
    apply evalWith_congr
    intro _ t ht
    have ht₁ := Nat.le_of_lt_succ (Nat.lt_of_lt_of_le ht h₁)
    have ht₂ := Nat.le_of_lt_succ (Nat.lt_of_lt_of_le ht h₂)
    exact hi ht₁ ht₂

end Height
end Op

-- What may be evaluated where the stack holds only such values as `operand` admits: these, and
-- operators.
def Value.Evaluable (operand : Value → Prop) (v : Value) : Prop :=
  v.isOperator ∨ operand v

-- The faults of evaluation itself: those of the limits apart, and that of a block literal which ends
-- where none is open, since evaluation ends no block literals.
def Fault.ofEvaluation : Fault → Bool
  | stackUnderflow | undefined _ | mismatch _ _ _ => true
  | _                                             => false

-- The records of what is about to be done. That of an evaluation is not among them, since it belongs
-- to the count of evaluations.
def Diagnostic.announces : Diagnostic → Bool
  | stepping _ | applying _ => true
  | _                       => false

theorem Diagnostic.level_of_announces {d : Diagnostic} (h : d.announces) : d.level = .trace := by
  cases d
  case stepping | applying => rfl
  all_goals cases h

-- A relation between two computations: each has its watch, `pre` relates the states that they start
-- in, and `post` relates these states and the runs that come of them. What the primitive steps
-- respect is shown of whole evaluations here, where alone the recursion of evaluation is followed.
structure Coupling (κ₁ κ₂ : Type) where
  watch₁ : Watch κ₁
  watch₂ : Watch κ₂
  pre    : State → State → Prop
  post   : {α : Type} → State → State → Run Fault κ₁ α → Run Fault κ₂ α → Prop

namespace Coupling

variable {κ₁ κ₂ : Type}

def Holds (c : Coupling κ₁ κ₂) (a₁ : Op κ₁ α) (a₂ : Op κ₂ α) : Prop :=
  ∀ s₁ s₂, c.pre s₁ s₂ → c.post s₁ s₂ (a₁ c.watch₁ s₁) (a₂ c.watch₂ s₂)

-- What has to be shown of a relation whatever values are on the stack.
structure Regular (c : Coupling κ₁ κ₂) : Prop where
  pure {α : Type} (x : α) :
    c.Holds (pure x) (pure x)
  bind {α β : Type} {a₁ : Op κ₁ α} {a₂ : Op κ₂ α} {f₁ : α → Op κ₁ β} {f₂ : α → Op κ₂ β} :
    c.Holds a₁ a₂ → (∀ x, c.Holds (f₁ x) (f₂ x)) → c.Holds (a₁ >>= f₁) (a₂ >>= f₂)
  fail {α : Type} {e : Fault} (h : e.ofEvaluation) :
    c.Holds (α := α) (Act.fail e) (Act.fail e)
  say {d : Diagnostic} (h : d.announces) : c.Holds (Act.say d) (Act.say d)
  startEvaluation v : c.Holds (Op.startEvaluation v) (Op.startEvaluation v)
  put : c.Holds (Op.pop >>= Op.output) (Op.pop >>= Op.output)
  isEmpty {s₁ s₂ : State} : c.pre s₁ s₂ → s₁.blocks.isEmpty = s₂.blocks.isEmpty
  lookup? {s₁ s₂ : State} name : c.pre s₁ s₂ → s₁.lookup? name = s₂.lookup? name

-- What has to be shown of a relation for it to hold of evaluations that call no blocks.
structure Stable (c : Coupling κ₁ κ₂) : Prop extends c.Regular where
  push v : c.Holds (Op.push v) (Op.push v)
  pop : c.Holds Op.pop Op.pop
  capture v {s₁ s₂ : State} (h : s₁.blocks.isEmpty = false) :
    c.pre s₁ s₂ → c.post s₁ s₂ (Op.capture v c.watch₁ s₁) (Op.capture v c.watch₂ s₂)
  bindName name v : c.Holds (Op.bindName name v) (Op.bindName name v)

-- The same where only such values are on the stack as `operand` admits. What is popped is admitted,
-- and only what is admitted has to be pushed, bound or evaluated again.
structure Guarded (c : Coupling κ₁ κ₂) (operand : Value → Prop) : Prop extends c.Regular where
  push {v : Value} (h : operand v) : c.Holds (Op.push v) (Op.push v)
  pop {α : Type} {f₁ : Value → Op κ₁ α} {f₂ : Value → Op κ₂ α} :
    (∀ v, operand v → c.Holds (f₁ v) (f₂ v)) → c.Holds (Op.pop >>= f₁) (Op.pop >>= f₂)
  capture {v : Value} (hv : v.Evaluable operand) {s₁ s₂ : State}
    (h : s₁.blocks.isEmpty = false) :
    c.pre s₁ s₂ → c.post s₁ s₂ (Op.capture v c.watch₁ s₁) (Op.capture v c.watch₂ s₂)
  bindName {name : String} {v : Value} (hn : operand (.symbol name)) (hv : operand v) :
    c.Holds (Op.bindName name v) (Op.bindName name v)
  bound {s₁ s₂ : State} {name : String} {v : Value} :
    c.pre s₁ s₂ → s₁.lookup? name = some v → v.isNative ∨ operand v
  number x : operand (.number x)
  body {values : List Value} : operand (.block values) → ∀ v ∈ values, v.Evaluable operand

namespace Guarded

variable {c : Coupling κ₁ κ₂} {operand : Value → Prop} (hc : c.Guarded operand)
include hc

theorem popBlock (op : Native) {f₁ : List Value → Op κ₁ α} {f₂ : List Value → Op κ₂ α}
    (h : ∀ body, operand (.block body) → c.Holds (f₁ body) (f₂ body)) :
    c.Holds (Op.popBlock op >>= f₁) (Op.popBlock op >>= f₂) := by
  simp only [Op.popBlock, bind_assoc]
  refine hc.pop fun v hv => ?_
  cases v
  case block body =>
    simp only [pure_bind]
    exact h body hv
  all_goals exact hc.fail rfl

theorem popSymbol (op : Native) {f₁ : String → Op κ₁ α} {f₂ : String → Op κ₂ α}
    (h : ∀ name, operand (.symbol name) → c.Holds (f₁ name) (f₂ name)) :
    c.Holds (Op.popSymbol op >>= f₁) (Op.popSymbol op >>= f₂) := by
  simp only [Op.popSymbol, bind_assoc]
  refine hc.pop fun v hv => ?_
  cases v
  case symbol name =>
    simp only [pure_bind]
    exact h name hv
  all_goals exact hc.fail rfl

theorem binary (op : Native) (f : Float → Float → Float) :
    c.Holds (Op.binary op f) (Op.binary op f) := by
  refine hc.pop fun right _ => hc.pop fun left _ => ?_
  cases left
  case number a =>
    cases right
    case number b => exact hc.push (hc.number _)
    all_goals exact hc.fail rfl
  all_goals exact hc.fail rfl

variable {call₁ : Frame → List Value → Op κ₁ Unit} {call₂ : Frame → List Value → Op κ₂ Unit}
variable {again₁ : Value → Op κ₁ Unit} {again₂ : Value → Op κ₂ Unit}
variable (hcall : ∀ frame body, (∀ v ∈ body, v.Evaluable operand) →
  c.Holds (call₁ frame body) (call₂ frame body))
variable (hagain : ∀ v, operand v → c.Holds (again₁ v) (again₂ v))

include hcall in
theorem choose {consequent otherwise : List Value} (ht : operand (.block consequent))
    (hf : operand (.block otherwise)) :
    c.Holds (Op.choose call₁ consequent otherwise) (Op.choose call₂ consequent otherwise) := by
  refine hc.pop fun v _ => ?_
  cases v
  case number =>
    refine hcall _ _ ?_
    split
    case isTrue  => exact hc.body ht
    case isFalse => exact hc.body hf
  all_goals exact hc.fail rfl

include hagain in
theorem define : c.Holds (Op.define again₁) (Op.define again₂) := by
  refine hc.pop fun v hv => ?_
  refine hc.bind (hagain v hv) fun _ => ?_
  refine hc.pop fun result hr => ?_
  exact hc.popSymbol _ fun name hn => hc.bindName hn hr

include hagain in
theorem exchange : c.Holds (Op.exchange again₁) (Op.exchange again₂) := by
  refine hc.pop fun last hl => ?_
  refine hc.pop fun second hs => ?_
  refine hc.bind (hagain second hs) fun _ => ?_
  exact hc.bind (hc.push hl) fun _ => hc.push hs

include hcall hagain

theorem test : c.Holds (Op.test call₁ again₁) (Op.test call₂ again₂) := by
  refine hc.pop fun v hv => ?_
  cases v
  case block condition => exact hcall _ condition (hc.body hv)
  all_goals exact hagain _ hv

theorem branch : c.Holds (Op.branch call₁ again₁) (Op.branch call₂ again₂) := by
  refine hc.popBlock _ fun otherwise hf => ?_
  refine hc.popBlock _ fun consequent ht => ?_
  refine hc.bind (hc.test hcall hagain) fun _ => ?_
  exact hc.choose hcall ht hf

theorem apply (op : Native) : c.Holds (Op.apply call₁ again₁ op) (Op.apply call₂ again₂ op) := by
  refine hc.bind (hc.say rfl) fun _ => ?_
  cases op
  case branch   => exact hc.branch hcall hagain
  case define   => exact hc.define hagain
  case exchange => exact hc.exchange hagain
  case put      => exact hc.put
  all_goals exact hc.binary _ _

theorem evalWith {v : Value} (hv : v.Evaluable operand) :
    c.Holds (Op.evalWith call₁ again₁ v) (Op.evalWith call₂ again₂ v) := by
  refine hc.bind (hc.startEvaluation v) fun _ => ?_
  intro s₁ s₂ h
  rw [Act.view_bind, Act.view_bind, ← hc.isEmpty h]
  cases hb : s₁.blocks.isEmpty
  case false => exact hc.capture hv hb h
  case true =>
    cases v
    case operator name =>
      simp only [Bool.not_true, Bool.false_eq_true, if_false, Act.view_bind, ← hc.lookup? name h]
      have hbound (v) : s₁.lookup? name = some v → v.isNative ∨ operand v := hc.bound h
      generalize s₁.lookup? name = found at hbound
      rcases found with _ | ⟨_ | _ | _ | body | op⟩
      case none        => exact hc.fail rfl s₁ s₂ h
      case some.block  =>
        have hb : operand (.block body) := (hbound _ rfl).resolve_left (by simp [Value.isNative])
        exact hcall _ body (hc.body hb) s₁ s₂ h
      case some.native => exact hc.apply hcall hagain op s₁ s₂ h
      all_goals
        exact hc.push ((hbound _ rfl).resolve_left (by simp [Value.isNative])) s₁ s₂ h
    all_goals exact hc.push (hv.resolve_left (by simp [Value.isOperator])) s₁ s₂ h

omit hagain

theorem evalBelow (height : Nat) {v : Value} (hv : v.Evaluable operand) :
    c.Holds (Op.evalBelow call₁ height v) (Op.evalBelow call₂ height v) := by
  induction height generalizing v
  case zero      => exact hc.evalWith hcall (fun _ _ => hc.fail rfl) hv
  case succ _ hi => exact hc.evalWith hcall (fun _ hv => hi (.inr hv)) hv

-- The stacks of the two may differ in height, so both are given the greater height.
theorem evalCalling {v : Value} (hv : v.Evaluable operand) :
    c.Holds (Op.evalCalling call₁ v) (Op.evalCalling call₂ v) := by
  intro s₁ s₂ h
  simp only [Op.evalCalling, Act.view_bind]
  rw [Op.evalBelow_eq (Nat.le_refl _) (Nat.le_max_left s₁.stack.size s₂.stack.size),
    Op.evalBelow_eq (Nat.le_refl _) (Nat.le_max_right s₁.stack.size s₂.stack.size)]
  exact hc.evalBelow hcall _ hv s₁ s₂ h

omit hcall

theorem forM {f₁ : β → Op κ₁ Unit} {f₂ : β → Op κ₂ Unit} :
    (xs : List β) → (∀ x ∈ xs, c.Holds (f₁ x) (f₂ x)) → c.Holds (xs.forM f₁) (xs.forM f₂)
  | [],      _ => hc.pure ()
  | x :: xs, h =>
    hc.bind (h x List.mem_cons_self) fun _ => forM xs fun y hy => h y (List.mem_cons_of_mem x hy)

end Guarded

namespace Stable

variable {c : Coupling κ₁ κ₂} (hc : c.Stable)
include hc

-- Without a guard every value is admitted.
theorem guarded : c.Guarded fun _ => True where
  toRegular       := hc.toRegular
  push _          := hc.push _
  pop h           := hc.bind hc.pop fun v => h v trivial
  capture _ _ _ h := hc.capture _ h
  bindName _ _    := hc.bindName _ _
  bound _ _       := .inr trivial
  number _        := trivial
  body _ _ _      := .inr trivial

theorem evalCalling {call₁ : Frame → List Value → Op κ₁ Unit}
    {call₂ : Frame → List Value → Op κ₂ Unit}
    (hcall : ∀ frame body, c.Holds (call₁ frame body) (call₂ frame body)) (v : Value) :
    c.Holds (Op.evalCalling call₁ v) (Op.evalCalling call₂ v) :=
  hc.guarded.evalCalling (fun frame body _ => hcall frame body) (.inr trivial)

theorem forM {f₁ : β → Op κ₁ Unit} {f₂ : β → Op κ₂ Unit} (h : ∀ x, c.Holds (f₁ x) (f₂ x))
    (xs : List β) : c.Holds (xs.forM f₁) (xs.forM f₂) :=
  hc.guarded.forM xs fun x _ => h x

end Stable

-- What has to be shown of a relation for it to hold of all evaluations. To run a block is a single
-- obligation, since `post` need not hold between entering the block and leaving it.
structure Closed (c : Coupling κ₁ κ₂) : Prop extends c.Stable where
  within frame {body₁ body₂} :
    c.Holds body₁ body₂ → c.Holds (Op.within frame body₁) (Op.within frame body₂)

-- What has to be shown of a relation for it to hold of the words of a source text, too.
structure Stepwise (c : Coupling κ₁ κ₂) : Prop extends c.Closed where
  blank : c.Holds (Act.note .changed) (Act.note .changed)
  openBlock : c.Holds Op.openBlock Op.openBlock
  closeBlock : c.Holds Op.closeBlock Op.closeBlock

-- Where `post` also holds of entering and leaving a block, nothing is left to show of running one.
theorem Stable.closed {c : Coupling κ₁ κ₂} (hc : c.Stable) (henter : c.Holds Op.enter Op.enter)
    (hleave : c.Holds Op.leave Op.leave) (hpush : c.Holds Op.pushScope Op.pushScope)
    (hpop : c.Holds Op.popScope Op.popScope) : c.Closed where
  toStable := hc
  within frame _ _ h := by
    refine hc.bind henter fun _ => hc.bind ?_ fun _ => hleave
    match frame with
    | .inPlace => exact h
    | .scoped  => exact hc.bind hpush fun _ => hc.bind h fun _ => hpop

theorem Closed.callWithin {c : Coupling κ₁ κ₂} (hc : c.Closed) (calls : Nat) (frame : Frame)
    (body : List Value) :
    c.Holds (Op.callWithin calls frame body) (Op.callWithin calls frame body) := by
  induction calls generalizing frame body
  case zero      => exact hc.within frame (hc.pure ())
  case succ _ hi => exact hc.within frame (hc.forM (hc.evalCalling hi) body)

end Coupling
end StackScript
