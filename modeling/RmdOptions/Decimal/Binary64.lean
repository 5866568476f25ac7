/-!
# Numbers of double precision

A finite number of double precision, its sign apart, is a significand below `2 ^ 53` times a power
of two. Arithmetic on them is exact arithmetic followed by rounding to the nearest, where a tie goes
to the even significand; results that are too large have no finite value.

* `Binary64.round?` — rounding a ratio scaled by a power of two;
* `Binary64.mul?`, `Binary64.div?` — product and quotient;
* `Binary64.ofDecimal?` — the value of decimal digits and an exponent, reached by rounding the
  digits, the power of ten and their product or quotient each for themselves.
-/

namespace RmdOptions

/-- The number `significand * 2 ^ exponent`. The significand has 53 bits, or the exponent is the
least one. -/
structure Binary64 where
  /-- below `2 ^ 53` -/
  significand : Nat
  /-- from `-1074` to `971` -/
  exponent : Int
  deriving DecidableEq

namespace Binary64

/-- The least exponent. -/
def minExponent : Int := -1074

/-- The greatest exponent. -/
def maxExponent : Int := 971

/-- A power of two. -/
def twoPow (exponent : Nat) : Nat := Nat.pow 2 exponent

/-- A power of ten. -/
def tenPow (exponent : Nat) : Nat := Nat.pow 10 exponent

/-- Zero. -/
def zero : Binary64 := ⟨0, minExponent⟩

instance : Inhabited Binary64 := ⟨zero⟩

/-! ## Rounding -/

/-- Numerator and denominator of `n / d * 2 ^ shift`. -/
def shiftRatio (n d : Nat) (shift : Int) : Nat × Nat :=
  if 0 ≤ shift then (n * twoPow shift.toNat, d) else (n, d * twoPow (-shift).toNat)

/-- The natural number nearest to a ratio; a tie goes to the even one. -/
def nearestNat (ratio : Nat × Nat) : Nat :=
  let quotient := ratio.1 / ratio.2
  let twice := 2 * (ratio.1 % ratio.2)
  if ratio.2 < twice ∨ (twice = ratio.2 ∧ quotient % 2 = 1) then quotient + 1 else quotient

/-- The number nearest to `n / d * 2 ^ exponent`, unless that is too large. -/
def round? (n d : Nat) (exponent : Int) : Option Binary64 :=
  if n = 0 then some zero
  else
    let guess := max minExponent ((n.log2 : Int) - (d.log2 : Int) - 53 + exponent)
    let coarse := shiftRatio n d (exponent - guess)
    let scale := if twoPow 53 ≤ coarse.1 / coarse.2 then guess + 1 else guess
    let significand := nearestNat (shiftRatio n d (exponent - scale))
    let rounded : Binary64 :=
      if significand = twoPow 53 then ⟨twoPow 52, scale + 1⟩ else ⟨significand, scale⟩
    if maxExponent < rounded.exponent then none else some rounded

/-! ## Arithmetic -/

/-- The number nearest to a natural number. -/
def ofNat? (n : Nat) : Option Binary64 := round? n 1 0

/-- The rounded product. -/
def mul? (x y : Binary64) : Option Binary64 :=
  round? (x.significand * y.significand) 1 (x.exponent + y.exponent)

/-- The rounded quotient. -/
def div? (x y : Binary64) : Option Binary64 :=
  round? x.significand y.significand (x.exponent - y.exponent)

/-- The greatest power of ten in range is that of this exponent. -/
def maxPower : Nat := 308

/-- The number nearest to a power of ten. -/
def powerOfTen? (exponent : Nat) : Option Binary64 := ofNat? (tenPow exponent)

/-- Divides `times` times by the greatest power of ten in range; zero stays as it is. -/
def divideOften? : Nat → Binary64 → Option Binary64
  | 0, x => some x
  | times + 1, x =>
    if x.significand = 0 then some x
    else ((powerOfTen? maxPower).bind x.div?).bind (divideOften? times)

/-- Divides by a power of ten, as far as needed by the greatest power in range, then by what is
left of the exponent. -/
def scaleDown? (x : Binary64) (exponent : Nat) : Option Binary64 :=
  let times := (exponent - 1) / maxPower
  (divideOften? times x).bind fun y =>
    (powerOfTen? (exponent - times * maxPower)).bind y.div?

/-- The value of `digits * 10 ^ exponent`, unless it is too large. -/
def ofDecimal? (digits : Nat) (exponent : Int) : Option Binary64 :=
  (ofNat? digits).bind fun x =>
    if exponent < 0 then x.scaleDown? (-exponent).toNat
    else if exponent.toNat ≤ maxPower then (powerOfTen? exponent.toNat).bind x.mul?
    else if x.significand = 0 then some x
    else none

end Binary64

end RmdOptions
