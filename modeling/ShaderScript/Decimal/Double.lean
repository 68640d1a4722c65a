import ShaderScript.Decimal.Shortest

/-!
# The text of a double

* `Layout`: where positional notation ends.
* `Layout.write`: a double in its shortest digits, laid out.
-/

namespace ShaderScript.Decimal

/-- The exponents of the leading digit for which a number is written positionally. -/
structure Layout where
  least : Int
  most : Int
deriving DecidableEq, Inhabited

/-- A run of zeros. -/
def zeros (n : Nat) : String := String.ofList (List.replicate n '0')

namespace Layout

variable (l : Layout)

/-- The text of a positive decimal. Positional notation always shows a fraction, and an exponent
always shows its sign. -/
def writeDecimal (d : Decimal) : String :=
  let digits := Nat.toDigits 10 d.digits
  let lead : Int := d.exponent + digits.length - 1
  if l.least ≤ lead ∧ lead ≤ l.most then
    if 0 ≤ d.exponent then String.ofList digits ++ zeros d.exponent.toNat ++ ".0"
    else if 0 ≤ lead then
      String.ofList (digits.take (lead.toNat + 1)) ++ "." ++
        String.ofList (digits.drop (lead.toNat + 1))
    else "0." ++ zeros (-lead - 1).toNat ++ String.ofList digits
  else
    let fraction := digits.drop 1
    String.ofList (digits.take 1) ++
      (if fraction.isEmpty then "" else "." ++ String.ofList fraction) ++
      (if lead < 0 then "e-" else "e+") ++ toString lead.natAbs

/-- The text of a finite double. -/
def write (x : Float) : String :=
  let bits : Nat := x.toBits.toNat
  let sign := if bits < Nat.pow 2 63 then "" else "-"
  let exponent : Nat := bits / Nat.pow 2 52 % Nat.pow 2 11
  let fraction : Nat := bits % Nat.pow 2 52
  if exponent = 0 ∧ fraction = 0 then sign ++ "0.0"
  else
    let powerOfTwo := fraction == 0 && 1 < exponent
    let span :=
      if exponent = 0 then Span.ofDouble fraction (-1074) false
      else Span.ofDouble (Nat.pow 2 52 + fraction) ((exponent : Int) - 1075) powerOfTwo
    sign ++ l.writeDecimal span.shortest

end Layout

end ShaderScript.Decimal
