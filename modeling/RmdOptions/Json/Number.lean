import RmdOptions.Decimal.Shortest
import RmdOptions.Text.Basic

/-!
# JSON numbers

A number literal has a sign, a whole part, and perhaps a fraction and an exponent. Whole numbers in
the range of 64-bit integers, signed or unsigned, are kept as they are. All others, and the literal
`-0`, become numbers of double precision.

The digits of such a number are gathered in a 64-bit integer. Once that is full, the remaining
digits of the whole part only raise the exponent, and the remaining digits of the fraction are
dropped.

* `NumberLiteral` — the parts of a literal;
* `NumberLiteral.value?` — its value, unless that is too large;
* `Number.text` — how a number is written.
-/

namespace RmdOptions.Json

/-- The parts of a number literal. -/
structure NumberLiteral where
  /-- whether a minus sign stands in front -/
  negative : Bool
  /-- the digits of the whole part -/
  whole : List Nat
  /-- the digits after the point, if there is one -/
  fraction : Option (List Nat)
  /-- whether the exponent is negative, and its digits, if there is one -/
  exponent : Option (Bool × List Nat)
  deriving DecidableEq

/-- A number. -/
inductive Number where
  /-- a whole number in the range of 64-bit integers -/
  | integer (value : Int)
  /-- a number of double precision with its sign -/
  | real (negative : Bool) (magnitude : Binary64)
  deriving DecidableEq

namespace NumberLiteral

/-! ## Gathering digits -/

/-- The greatest unsigned 64-bit integer. -/
def maxUnsigned : Nat := 0xFFFFFFFFFFFFFFFF

/-- The greatest magnitude of a negative 64-bit integer. -/
def maxNegative : Nat := 0x8000000000000000

/-- The greatest exponent that is read as a number. -/
def maxExponent : Nat := 0x7FFFFFFF

/-- Digits gathered so far, and the power of ten that they count. -/
structure Gathered where
  /-- the digits as a number -/
  digits : Nat
  /-- the exponent of the power of ten -/
  exponent : Int
  deriving DecidableEq

/-- Gathers the digits of the whole part; once one does not fit, it and all further ones are only
counted. -/
def gatherWhole (digits : Nat) : List Nat → Gathered
  | [] => ⟨digits, 0⟩
  | d :: rest =>
    if maxUnsigned < digits * 10 + d then ⟨digits, rest.length + 1⟩
    else gatherWhole (digits * 10 + d) rest

/-- Gathers the digits of the fraction until one does not fit. -/
def gatherFraction (g : Gathered) : List Nat → Gathered
  | [] => g
  | d :: rest =>
    if maxUnsigned < g.digits * 10 + d then g
    else gatherFraction ⟨g.digits * 10 + d, g.exponent - 1⟩ rest

/-- The value of decimal digits. -/
def ofDigits (digits : List Nat) : Nat := digits.foldl (fun n d => n * 10 + d) 0

/-! ## Values -/

/-- The number of double precision that a literal stands for, unless it is too large. An exponent
too large to be read makes it too large, or zero. -/
def real? (literal : NumberLiteral) : Option Number :=
  let g := gatherFraction (gatherWhole 0 literal.whole) (literal.fraction.getD [])
  let magnitude :=
    match literal.exponent with
    | none => Binary64.ofDecimal? g.digits g.exponent
    | some (negative, digits) =>
      let exponent := ofDigits digits
      if maxExponent < exponent then
        if negative ∨ g.digits = 0 then some .zero else none
      else
        Binary64.ofDecimal? g.digits
          (if negative then g.exponent - (exponent : Int) else g.exponent + (exponent : Int))
  magnitude.map (.real literal.negative)

/-- The number that a literal stands for, unless it is too large. -/
def value? (literal : NumberLiteral) : Option Number :=
  let n := ofDigits literal.whole
  if literal.fraction.isNone && literal.exponent.isNone then
    if literal.negative then
      if 0 < n ∧ n ≤ maxNegative then some (.integer (-(n : Int))) else real? literal
    else if n ≤ maxUnsigned then some (.integer n)
    else real? literal
  else real? literal

end NumberLiteral

/-! ## Writing -/

/-- The decimal digits of a natural number. -/
def digitsOf (n : Nat) : Text := Nat.toDigits 10 n

/-- The digits of a number of double precision: positional, with at least one digit on both sides of
the point, when the exponent of its first digit is from `-5` to `15`, and with a signed exponent
otherwise. -/
def realText (magnitude : Binary64) : Text :=
  if magnitude.significand = 0 then ['0', '.', '0']
  else
    let (number, power) := magnitude.shortest
    let digits := digitsOf number
    let first : Int := power + digits.length - 1
    if 0 ≤ first ∧ first ≤ 15 then
      let whole := first.toNat + 1
      if digits.length ≤ whole then
        digits ++ List.replicate (whole - digits.length) '0' ++ ['.', '0']
      else digits.take whole ++ ['.'] ++ digits.drop whole
    else if -5 ≤ first ∧ first < 0 then
      ['0', '.'] ++ List.replicate ((-first).toNat - 1) '0' ++ digits
    else
      let fraction := if digits.length ≤ 1 then [] else '.' :: digits.drop 1
      let sign := if first < 0 then '-' else '+'
      digits.take 1 ++ fraction ++ ['e', sign] ++ digitsOf first.natAbs

/-- How a number is written. -/
def Number.text : Number → Text
  | .integer value => (if value < 0 then ['-'] else []) ++ digitsOf value.natAbs
  | .real negative magnitude => (if negative then ['-'] else []) ++ realText magnitude

end RmdOptions.Json
