import StackScript.Proofs.Contract

namespace StackScript

namespace Value

mutual

-- The number of values that a value is made of, itself counted.
def size : Value → Nat
  | block body => sizeOfAll body + 1
  | _          => 1

@[simp]
def sizeOfAll : List Value → Nat
  | []      => 0
  | v :: vs => size v + sizeOfAll vs

end

-- The number of values that stand inside a value, at any depth.
def inner : Value → Nat
  | block body => sizeOfAll body
  | _          => 0

-- The number of values that stand inside the values of a sequence.
@[simp]
def innerOfAll : List Value → Nat
  | []      => 0
  | v :: vs => inner v + innerOfAll vs

theorem size_eq : (v : Value) → v.size = v.inner + 1
  | number _ | symbol _ | operator _ | block _ | native _ => by simp [size, inner]

@[simp]
theorem sizeOfAll_append (vs ws : List Value) :
    sizeOfAll (vs ++ ws) = sizeOfAll vs + sizeOfAll ws := by
  induction vs
  case nil          => simp
  case cons v vs hi => simp [hi, Nat.add_assoc]

@[simp]
theorem innerOfAll_append (vs ws : List Value) :
    innerOfAll (vs ++ ws) = innerOfAll vs + innerOfAll ws := by
  induction vs
  case nil          => simp
  case cons v vs hi => simp [hi, Nat.add_assoc]

end Value

-- What is true of all values in the open block literals, and of one more that is captured.
theorem Stack.forall_capture {P : Value → Prop} {older : Array (Array Value)} {body : Array Value}
    (h : ∀ block ∈ older.push body, ∀ u ∈ block, P u) (hv : P v) :
    ∀ block ∈ older.push (body.push v), ∀ u ∈ block, P u := by
  intro block hm u hu
  cases Array.mem_push.mp hm
  case inl hm => exact h block (Array.mem_push_of_mem body hm) u hu
  case inr hm =>
    subst hm
    cases Array.mem_push.mp hu
    case inl hu => exact h body Array.mem_push_self u hu
    case inr hu => exact hu ▸ hv

-- A block is no word.
theorem Lexeme.inner_ofWord (h : Lexeme.ofWord word = .value v) : v.inner = 0 := by
  unfold ofWord at h
  repeat' split at h
  all_goals cases h
  all_goals rfl

namespace Contract

variable {κ : Type} {w : Watch κ}

def keepsBlocks (w : Watch κ) : Contract κ where
  watch    := w
  pre _    := True
  post s r := r.state.blocks.size = s.blocks.size

theorem keepsBlocks_of {a : Op κ α} (h : ∀ s, (a w s).state.blocks.size = s.blocks.size) :
    (keepsBlocks w).Holds a :=
  fun s _ => h s

theorem keepsBlocks_bind {a : Op κ α} {f : α → Op κ β} (ha : (keepsBlocks w).Holds a)
    (hf : ∀ x, (keepsBlocks w).Holds (f x)) : (keepsBlocks w).Holds (a >>= f) := by
  refine keepsBlocks_of fun s => ?_
  have ha := ha s trivial
  simp only [keepsBlocks] at ha
  cases hr : a w s
  case mk result t trace =>
    rw [hr] at ha
    cases result
    case error => rw [Act.bind_error hr, ha]
    case ok x =>
      have hf := hf x t trivial
      simp only [keepsBlocks] at hf
      rw [Act.bind_ok hr, hf, ha]

theorem keepsBlocks_stable : (keepsBlocks w).Stable where
  pure _            := keepsBlocks_of fun _ => rfl
  bind              := keepsBlocks_bind
  fail _            := keepsBlocks_of fun _ => rfl
  say _             := keepsBlocks_of fun _ => rfl
  startEvaluation _ := keepsBlocks_of fun _ => by rw [Op.startEvaluation_run]; split <;> rfl
  push _            := keepsBlocks_of fun _ => by rw [Op.push_run]; split <;> rfl
  pop               := keepsBlocks_of fun _ => by rw [Op.pop_run]; split <;> rfl
  capture _ _ _ _   := by simp [keepsBlocks, Op.capture, Act.change]
  bindName _ _      := keepsBlocks_of fun _ => by rw [Op.bindName_run]; split <;> rfl
  put               := keepsBlocks_of fun _ => by rw [Op.put_run]; split <;> rfl

theorem keepsBlocks_closed : (keepsBlocks w).Closed :=
  keepsBlocks_stable.closed (keepsBlocks_of fun _ => by rw [Op.enter_run]; split <;> rfl)
    (keepsBlocks_of fun _ => rfl) (keepsBlocks_of fun _ => rfl) (keepsBlocks_of fun _ => rfl)

end Contract

namespace Op

variable {κ : Type} {w : Watch κ} {s : State}

theorem eval_blocks_size (v : Value) : (eval v w s).state.blocks.size = s.blocks.size :=
  Contract.keepsBlocks_closed.eval v s trivial

theorem eval_blocks_empty (v : Value) (h : s.blocks = #[]) : (eval v w s).state.blocks = #[] :=
  Array.eq_empty_of_size_eq_zero (by rw [eval_blocks_size, h]; rfl)

-- In an open block literal it does not matter how blocks are called and operands evaluated again.
theorem evalWith_capture {call : Frame → List Value → Op κ Unit} {again : Value → Op κ Unit}
    (v : Value) (h : s.blocks.isEmpty = false) :
    evalWith call again v w s = (do startEvaluation v; capture v) w s := by
  apply Act.bind_congr_right
  intro _ t _ hs
  have ht : t.blocks = s.blocks := by
    rw [startEvaluation_run] at hs
    split at hs <;> cases hs
    rfl
  rw [Act.view_bind, ht, h]
  rfl

theorem eval_capture (v : Value) (h : s.blocks.isEmpty = false) :
    eval v w s = (do startEvaluation v; capture v) w s := by
  have ⟨_, he⟩ := eval_eq_evalWith (w := w) (s := s) v
  rw [he, evalWith_capture v h]

theorem eval_capture_run {older : Array (Array Value)} {body : Array Value} (v : Value)
    (h : s.blocks = older.push body) :
    let t := { s with count := s.count + 1 }
    let u := { t with blocks := older.push (body.push v) }
    eval v w s =
      if s.count < w.limits.evaluations then
        ⟨.ok (), u, w.keep (.said (.evaluating v)) t ++ w.keep .changed u⟩
      else
        ⟨.error (.evaluationsExceeded s.count), t, []⟩ := by
  have hs := startEvaluation_run (w := w) (s := s) v
  rw [eval_capture v (by simp [h])]
  split <;> simp only [*, if_true, if_false] at hs
  case isTrue  => simp [Act.bind_ok hs, capture, Act.change, h]
  case isFalse => rw [Act.bind_error hs]

end Op
end StackScript
