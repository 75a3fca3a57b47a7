namespace StackScript
namespace CommandLine

inductive WordError
  | empty
  | invalidDigit
  | tooLarge
deriving DecidableEq

def WordError.message : WordError → String
  | empty        => "cannot parse integer from empty string"
  | invalidDigit => "invalid digit found in string"
  | tooLarge     => "number too large to fit in target type"

-- A character that is no digit is found before an overflow.
def readDigit (n : Nat) (c : Char) : Except WordError Nat :=
  if !c.isDigit then
    .error .invalidDigit
  else if UInt64.size ≤ 10 * n + (c.toNat - '0'.toNat) then
    .error .tooLarge
  else
    .ok (10 * n + (c.toNat - '0'.toNat))

def readWord (text : String) : Except WordError Nat :=
  match text.toList with
  | []            => .error .empty
  | ['+']         => .error .invalidDigit
  | '+' :: digits => digits.foldlM readDigit 0
  | digits        => digits.foldlM readDigit 0

end CommandLine
end StackScript
