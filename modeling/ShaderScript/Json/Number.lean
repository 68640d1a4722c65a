import ShaderScript.Decimal.Double
import ShaderScript.Json.Basic

/-!
# JSON numbers

A number is read into a significand of 64 bits and a power of ten. Digits that no longer fit are
counted when they stand before the point and passed over when they stand after it. Without point,
exponent and surplus digits the number is an integer.

* `Number.read?`: a number at the front of a text.
* `Number.text`: the text of a number.
-/

namespace ShaderScript.Json.Number

/-- Doubles are written positionally from `0.00001` up to sixteen digits before the point. -/
def layout : Decimal.Layout := ⟨-5, 15⟩

/-- The text of a number. -/
def text : Number → String
  | int n => toString n
  | double x => layout.write x

/-- Takes digits into a significand as long as it fits in 64 bits, and returns those left over. -/
def takeDigits (significand : Nat) : List Char → Nat × List Char
  | [] => (significand, [])
  | c :: digits =>
    let next := 10 * significand + (c.toNat - '0'.toNat)
    if next < Nat.pow 2 64 then takeDigits next digits else (significand, c :: digits)

/-- A power of ten as a double. -/
def tenTo (k : Nat) : Float := Float.ofScientific 1 false k

/-- Divides by a power of ten too small for a double in several steps, the last within range. A
significand of 64 bits is zero after two of them. -/
def scaleDown : Nat → Float → Nat → Float
  | 0, x, _ => x
  | n + 1, x, k =>
    if k ≤ 308 then x / tenTo k
    else if x == 0 then x
    else scaleDown n (x / tenTo 308) (k - 308)

/-- The double nearest to `significand * 10 ^ exponent`, up to the rounding of one product or
quotient. There is none beyond the range of doubles. -/
def scale? (significand : Nat) (exponent : Int) : Option Float :=
  let x := significand.toUInt64.toFloat
  match exponent with
  | .negSucc k => some (scaleDown 4 x (k + 1))
  | .ofNat k =>
    if k ≤ 308 then
      let y := x * tenTo k
      if y.isInf then none else some y
    else if x == 0 then some x
    else none

/-- The integer with a sign, or a double when it is negative zero or needs more than 64 bits. -/
def ofInteger (negative : Bool) (significand : Nat) : Number :=
  if !negative then int significand
  else if 0 < significand ∧ significand ≤ Nat.pow 2 63 then int (-significand)
  else double (-significand.toUInt64.toFloat)

/-- The digits of an exponent after its mark, as a signed number. -/
def exponent? (cs : List Char) : Option (Int × List Char) :=
  let (negative, cs) := match cs with
    | '+' :: cs => (false, cs)
    | '-' :: cs => (true, cs)
    | cs => (false, cs)
  let (digits, rest) := cs.span Char.isDigit
  if digits.isEmpty then none
  else
    let n := digits.foldl (fun n c => 10 * n + (c.toNat - '0'.toNat)) 0
    some (if negative then -(n : Int) else n, rest)

/-- A number at the front of a text. -/
def read? (cs : List Char) : Option (Number × List Char) := do
  let (negative, cs) := match cs with
    | '-' :: cs => (true, cs)
    | cs => (false, cs)
  let (whole, rest) := cs.span Char.isDigit
  guard (!whole.isEmpty && (whole.length == 1 || whole.head? != some '0'))
  let (significand, surplus) := takeDigits 0 whole
  let (significand, places, rest, pointed) ← match rest with
    | '.' :: cs =>
      let (digits, rest) := cs.span Char.isDigit
      let (s, left) := takeDigits significand digits
      if digits.isEmpty then none else some (s, digits.length - left.length, rest, true)
    | rest => some (significand, 0, rest, false)
  let (exponent, rest, marked) ← match rest with
    | 'e' :: cs | 'E' :: cs => (exponent? cs).map fun (n, rest) => (n, rest, true)
    | rest => some (0, rest, false)
  if pointed || marked || !surplus.isEmpty then
    let x ← scale? significand (surplus.length - places + exponent)
    return (double (if negative then -x else x), rest)
  else return (ofInteger negative significand, rest)

end ShaderScript.Json.Number
