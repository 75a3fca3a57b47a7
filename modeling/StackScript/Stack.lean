namespace StackScript
namespace Stack

-- Of an array that is used as a stack, the newest element is the last one.
def amendLast (xs : Array α) (f : α → α) : Array α :=
  xs.modify (xs.size - 1) f

@[simp]
theorem size_amendLast (xs : Array α) (f : α → α) : (amendLast xs f).size = xs.size := by
  simp [amendLast]

@[simp]
theorem amendLast_empty (f : α → α) : amendLast #[] f = #[] := by
  simp [amendLast]

@[simp]
theorem amendLast_push (xs : Array α) (x : α) (f : α → α) :
    amendLast (xs.push x) f = xs.push (f x) := by
  ext i h₁ h₂
  case h₁ => simp
  case h₂ =>
    simp [amendLast, Array.getElem_modify, Array.getElem_push]
    grind

end Stack
end StackScript
