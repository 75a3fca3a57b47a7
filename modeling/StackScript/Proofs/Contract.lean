import StackScript.Proofs.Regime

namespace StackScript

-- What holds of every run that starts in an admitted state.
structure Contract (κ : Type) where
  watch : Watch κ
  pre   : State → Prop
  post  : {α : Type} → State → Run Fault κ α → Prop

namespace Contract

variable {κ : Type}

def Holds (c : Contract κ) (a : Op κ α) : Prop :=
  ∀ s, c.pre s → c.post s (a c.watch s)

structure Stable (c : Contract κ) : Prop where
  pure {α : Type} (x : α) : c.Holds (pure x)
  bind {α β : Type} {a : Op κ α} {f : α → Op κ β} :
    c.Holds a → (∀ x, c.Holds (f x)) → c.Holds (a >>= f)
  fail {α : Type} {e : Fault} (h : e.ofEvaluation) : c.Holds (α := α) (Act.fail e)
  say {d : Diagnostic} (h : d.announces) : c.Holds (Act.say d)
  startEvaluation v : c.Holds (Op.startEvaluation v)
  push v : c.Holds (Op.push v)
  pop : c.Holds Op.pop
  capture v {s : State} (h : s.blocks.isEmpty = false) :
    c.pre s → c.post s (Op.capture v c.watch s)
  bindName name v : c.Holds (Op.bindName name v)
  put : c.Holds (Op.pop >>= Op.output)

structure Closed (c : Contract κ) : Prop extends c.Stable where
  within frame {body} : c.Holds body → c.Holds (Op.within frame body)

structure Stepwise (c : Contract κ) : Prop extends c.Closed where
  blank : c.Holds (Act.note .changed)
  openBlock : c.Holds Op.openBlock
  closeBlock : c.Holds Op.closeBlock

theorem Stable.closed {c : Contract κ} (hc : c.Stable) (henter : c.Holds Op.enter)
    (hleave : c.Holds Op.leave) (hpush : c.Holds Op.pushScope) (hpop : c.Holds Op.popScope) :
    c.Closed where
  toStable := hc
  within frame _ h := by
    refine hc.bind henter fun _ => hc.bind ?_ fun _ => hleave
    match frame with
    | .inPlace => exact h
    | .scoped  => exact hc.bind hpush fun _ => hc.bind h fun _ => hpop

-- A single evaluation in lockstep with itself.
def twice (c : Contract κ) : Coupling κ κ where
  watch₁         := c.watch
  watch₂         := c.watch
  pre s₁ s₂      := s₁ = s₂
  post s _ r₁ r₂ := r₁ = r₂ ∧ (c.pre s → c.post s r₁)

variable {c : Contract κ}

theorem twice_of_eq {a₁ a₂ : Op κ α} (h : ∀ s, a₁ c.watch s = a₂ c.watch s) (hc : c.Holds a₁) :
    c.twice.Holds a₁ a₂
  | s, _, rfl => ⟨h s, hc s⟩

theorem twice_self {a : Op κ α} (hc : c.Holds a) : c.twice.Holds a a :=
  twice_of_eq (fun _ => rfl) hc

theorem eq_of_twice {a₁ a₂ : Op κ α} (h : c.twice.Holds a₁ a₂) (s : State) :
    a₁ c.watch s = a₂ c.watch s :=
  (h s s rfl).1

theorem holds_of_twice {a₁ a₂ : Op κ α} (h : c.twice.Holds a₁ a₂) : c.Holds a₁ :=
  fun s hs => (h s s rfl).2 hs

theorem bind_eq_of_twice {a₁ a₂ : Op κ α} {f₁ f₂ : α → Op κ β} (ha : c.twice.Holds a₁ a₂)
    (hf : ∀ x, c.twice.Holds (f₁ x) (f₂ x)) (s : State) :
    (a₁ >>= f₁) c.watch s = (a₂ >>= f₂) c.watch s := by
  rw [Act.bind_congr_left (eq_of_twice ha s)]
  exact Act.bind_congr_right fun x t _ _ => eq_of_twice (hf x) t

-- The bodies agree in all states, so it does not matter here that a contract need not hold of
-- entering a block.
theorem within_eq_of_twice {body₁ body₂ : Op κ Unit} (h : c.twice.Holds body₁ body₂) (s : State) :
    (frame : Frame) → Op.within frame body₁ c.watch s = Op.within frame body₂ c.watch s
  | .inPlace =>
    Act.bind_congr_right fun _ t _ _ => Act.bind_congr_left (eq_of_twice h t)
  | .scoped  =>
    Act.bind_congr_right fun _ _ _ _ => Act.bind_congr_left <|
      Act.bind_congr_right fun _ t _ _ => Act.bind_congr_left (eq_of_twice h t)

theorem Closed.twice (hc : c.Closed) : c.twice.Closed where
  pure x             := twice_self (hc.pure x)
  bind ha hf         :=
    twice_of_eq (bind_eq_of_twice ha hf) (hc.bind (holds_of_twice ha) fun x => holds_of_twice (hf x))
  fail h             := twice_self (hc.fail h)
  say h              := twice_self (hc.say h)
  startEvaluation v  := twice_self (hc.startEvaluation v)
  push v             := twice_self (hc.push v)
  pop                := twice_self hc.pop
  capture v _ _ h hs := by cases hs; exact ⟨rfl, hc.capture v h⟩
  bindName name v    := twice_self (hc.bindName name v)
  put                := twice_self hc.put
  isEmpty h          := by cases h; rfl
  lookup? _ h        := by cases h; rfl
  within frame _ _ h :=
    twice_of_eq (within_eq_of_twice h · frame) (hc.within frame (holds_of_twice h))

theorem Stepwise.twice (hc : c.Stepwise) : c.twice.Stepwise where
  toClosed   := hc.toClosed.twice
  blank      := twice_self hc.blank
  openBlock  := twice_self hc.openBlock
  closeBlock := twice_self hc.closeBlock

theorem Closed.eval (hc : c.Closed) (v : Value) : c.Holds (Op.eval v) :=
  holds_of_twice (hc.twice.eval v)

-- To call a block is to run a body of which the contract holds.
theorem Closed.callWithin (hc : c.Closed) (calls : Nat) (frame : Frame) (body : List Value) :
    ∃ a, c.Holds a ∧ Op.callWithin calls frame body = Op.within frame a := by
  cases calls
  case zero => exact ⟨pure (), hc.pure (), rfl⟩
  case succ calls =>
    have h := hc.twice.forM (hc.twice.evalCalling (hc.twice.callWithin calls)) body
    exact ⟨_, holds_of_twice h, rfl⟩

theorem Stepwise.step (hc : c.Stepwise) (word : String) : c.Holds (Op.step word) :=
  holds_of_twice (hc.twice.step word)

end Contract
end StackScript
