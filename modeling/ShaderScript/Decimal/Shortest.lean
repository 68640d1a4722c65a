/-!
# The shortest decimal of a binary fraction

A finite double stands for every real number that rounds to it. Among the decimals in that span,
the one on the coarsest power-of-ten grid has the fewest digits.

* `Span`: a positive fraction with the span of reals that round to it.
* `Span.ofDouble`: the span of a double, given its significand and exponent.
* `Span.shortest`: the decimal with the fewest digits in a span, and of those the nearest.
-/

namespace ShaderScript

/-- The number `digits * 10 ^ exponent`. -/
structure Decimal where
  digits : Nat
  exponent : Int
deriving DecidableEq, Inhabited

namespace Decimal

/-- The fraction `value / unit` with the span from `low / unit` to `high / unit` around it, whose
ends belong to it when `closed`. -/
structure Span where
  low : Nat
  value : Nat
  high : Nat
  unit : Nat
  closed : Bool
deriving DecidableEq, Inhabited

namespace Span

/-- The span of `m * 2 ^ q`: half a step on either side, except that the step below a power of two
is half as wide. An even significand takes the ends. -/
def ofDouble (m : Nat) (q : Int) (powerOfTwo : Bool) : Span :=
  let scale := Nat.pow 2 (q - 2).toNat
  { low := (4 * m - if powerOfTwo then 1 else 2) * scale
    value := 4 * m * scale
    high := (4 * m + 2) * scale
    unit := Nat.pow 2 (2 - q).toNat
    closed := m % 2 == 0 }

variable (s : Span)

/-- Whether `c * 10 ^ k` lies in the span. -/
def holds (c : Nat) (k : Int) : Bool :=
  let x := c * Nat.pow 10 k.toNat * s.unit
  let t := Nat.pow 10 (-k).toNat
  if s.closed then s.low * t ≤ x && x ≤ s.high * t else s.low * t < x && x < s.high * t

/-- The point of the grid of step `10 ^ k` in the span that is nearest to the value, the even one
of two that are equally near. -/
def nearest? (k : Int) : Option Nat :=
  let step := Nat.pow 10 k.toNat * s.unit
  let v := s.value * Nat.pow 10 (-k).toNat
  let c := v / step
  let below := v - c * step
  let above := (c + 1) * step - v
  match s.holds c k, s.holds (c + 1) k with
  | true, true =>
    if below < above || (below == above && c % 2 == 0) then some c else some (c + 1)
  | true, false => some c
  | false, true => some (c + 1)
  | false, false => none

/-- The first grid that meets the span, from a step of `10 ^ k` downwards. -/
def search : Nat → Int → Option Decimal
  | 0, _ => none
  | n + 1, k =>
    match s.nearest? k with
    | some c => some ⟨c, k⟩
    | none => search n (k - 1)

/-- The decimal with the fewest digits in the span. The grids run from the step `10 ^ 309`, above
every double, to `10 ^ (-330)`, below the least. -/
def shortest : Decimal := (s.search 640 309).getD default

end Span

end Decimal

end ShaderScript
