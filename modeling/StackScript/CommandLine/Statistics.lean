import StackScript.Number.Shortest

namespace StackScript

-- The double with one digit after the point. Half of the last digit is rounded to the even one.
def Number.tenthsText (x : Float) : String :=
  if code x < infinityCode then
    let d      := exactDecimal (isNegative x) (code x)
    let tenths :=
      match d.exponent with
      | .ofNat zeros    => d.digits * Nat.pow 10 (zeros + 1)
      | .negSucc places => roundHalfEven d.digits (Nat.pow 10 places)
    (if d.negative then "-" else "") ++ toString (tenths / 10) ++ "." ++ toString (tenths % 10)
  else
    text x

namespace CommandLine

structure Duration where
  nanoseconds : Nat

namespace Duration

def text (d : Duration) : String :=
  let n             := d.nanoseconds
  let (places, tag) :=
    if      1000000000 ≤ n then (9, "s")
    else if 1000000 ≤ n    then (6, "ms")
    else if 1000 ≤ n       then (3, "µs")
    else                        (0, "ns")
  .ofList (Decimal.writeFraction n places) ++ tag

-- Seconds and the rest become doubles each for itself.
def seconds (d : Duration) : Float :=
  let double (n : Nat) := Decimal.toFloat ⟨false, n, 0⟩
  double (d.nanoseconds / 1000000000) + double (d.nanoseconds % 1000000000) / double 1000000000

end Duration

def rateText (count : Nat) (elapsed : Duration) : String :=
  let rate := Decimal.toFloat ⟨false, count, 0⟩ / elapsed.seconds
  if      1000000 ≤ rate then Number.tenthsText (rate / 1000000) ++ "M"
  else if 1000 ≤ rate    then Number.tenthsText (rate / 1000) ++ "k"
  else                        Number.tenthsText rate

def statistics (count : Nat) (elapsed : Duration) : List String :=
  ["Execution time: " ++ elapsed.text,
    "Evaluations: " ++ toString count ++ " (" ++ rateText count elapsed ++ "/s)"]

end CommandLine
end StackScript
