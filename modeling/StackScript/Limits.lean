namespace StackScript

structure Limits where
  stackSize   : Nat := 1 <<< 20
  callDepth   : Nat := 64
  evaluations : Nat := UInt64.size - 1
deriving DecidableEq

end StackScript
