import RmdOptions.Decimal.Binary64

/-!
# Shortest decimals

A number of double precision is written with the fewest decimal digits that read back as the same
number, and with those nearest to it among them. What reads back as a number is what lies between
the midpoints to its two neighbours, these midpoints included when its significand is even.

The search goes through the powers of ten from coarse to fine. On the grid of multiples of a power,
only the two points next to the number matter: if any point of the grid lies between the midpoints,
one of these two does.

* `Binary64.Grid` — the number and its midpoints, measured on a grid;
* `Binary64.shortest` — digits and exponent of the shortest decimal.
-/

namespace RmdOptions.Binary64

/-- A number and its midpoints measured against a power of ten: the point `g` of the grid lies at
`g * unit` on a scale where the number is at `value`. -/
structure Grid where
  /-- the power of ten -/
  unit : Nat
  /-- the number -/
  value : Nat
  /-- the midpoint below it -/
  low : Nat
  /-- the midpoint above it -/
  high : Nat
  /-- whether the midpoints read back as the number -/
  closed : Bool

/-- The grid of multiples of `10 ^ power`, on a scale of quarters of the last bit of the number. -/
def grid (x : Binary64) (power : Int) : Grid :=
  let binary := x.exponent - 2
  let tens := if 0 ≤ power then (tenPow power.toNat, 1) else (1, tenPow (-power).toNat)
  let twos := if 0 ≤ binary then (twoPow binary.toNat, 1) else (1, twoPow (-binary).toNat)
  let scale := twos.1 * tens.2
  let below := if x.significand = twoPow 52 ∧ minExponent < x.exponent then 1 else 2
  { unit := tens.1 * twos.2
    value := 4 * x.significand * scale
    low := (4 * x.significand - below) * scale
    high := (4 * x.significand + 2) * scale
    closed := x.significand % 2 = 0 }

namespace Grid

/-- Whether a point of the grid reads back as the number. -/
def contains (g : Grid) (point : Nat) : Bool :=
  let at_ := point * g.unit
  if g.closed then g.low ≤ at_ && at_ ≤ g.high else g.low < at_ && at_ < g.high

/-- The point of the grid that reads back as the number, the nearest if two do; a tie goes to the
even point. -/
def best? (g : Grid) : Option Nat :=
  let floor := g.value / g.unit
  match g.contains floor, g.contains (floor + 1) with
  | false, false => none
  | true, false => some floor
  | false, true => some (floor + 1)
  | true, true =>
    let below := g.value - floor * g.unit
    let above := (floor + 1) * g.unit - g.value
    if below < above ∨ (below = above ∧ floor % 2 = 0) then some floor else some (floor + 1)

end Grid

/-- An upper bound of the decimal exponent of a number: its binary exponent times the logarithm of
two. -/
def decimalBound (x : Binary64) : Int :=
  ((x.significand.log2 : Int) + x.exponent + 1) * 30103 / 100000 + 1

/-- Moves zeros at the end of `digits` into the exponent, at most `count` of them. -/
def stripZeros : Nat → Nat → Int → Nat × Int
  | 0, digits, exponent => (digits, exponent)
  | count + 1, digits, exponent =>
    if digits ≠ 0 ∧ digits % 10 = 0 then stripZeros count (digits / 10) (exponent + 1)
    else (digits, exponent)

/-- The fewest digits that read back as a number, with the exponent of the power of ten that they
count. Seventeen digits are always enough. -/
def shortest (x : Binary64) : Nat × Int :=
  let bound := decimalBound x
  let hit := (List.range 24).findSome? fun (i : Nat) =>
    let power := bound - (i : Int)
    ((grid x power).best?).map fun digits => (digits, power)
  match hit with
  | some (digits, power) => stripZeros 20 digits power
  | none => (0, 0)

end RmdOptions.Binary64
