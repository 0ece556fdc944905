import JumpCode.Real64.Basic

/-!
# JumpCode — the shortest decimal of a real

A finite real is written with the fewest decimal digits that read back to it, and among those of
that length with the ones nearest to it, a tie going up. Sizes from `10 ^ -4` up to `10 ^ 16` are
written by position and always show a point; all others, zero apart, show a power of ten.
-/

namespace JumpCode

namespace Real64

/-! ## The interval of a real

All that rounds to a real lies between the midpoints to its neighbours. Sizes are counted here in
quarters of the least unit, `2 ^ -1076`, so that the midpoints are whole numbers. -/

/-- One, in quarter units: a unit is `2 ^ -1074`, and quarters are needed for the midpoints `lower4`
and `upper4`. -/
def one4 : Nat := Nat.pow 2 1076

/-- The size of a `Real64`, in quarter units. -/
def size4 (r : Real64) : Nat := 4 * r.mantissa * Nat.pow 2 r.scale

/-- The midpoint to the neighbour below. Where the `mantissa` is least and can shrink no more, the
neighbour has half the distance. -/
def lower4 (r : Real64) : Nat :=
  (4 * r.mantissa - if r.mantissa = Nat.pow 2 52 ∧ 0 < r.scale then 1 else 2) * Nat.pow 2 r.scale

/-- The midpoint to the neighbour above. -/
def upper4 (r : Real64) : Nat := (4 * r.mantissa + 2) * Nat.pow 2 r.scale

/-- Whether `num / den` quarter units read back as `r`, that is lie between `lower4` and `upper4`: a
midpoint itself goes to the real with the even mantissa. -/
def readsBack (r : Real64) (num den : Nat) : Bool :=
  if r.mantissa % 2 = 0 then r.lower4 * den ≤ num && num ≤ r.upper4 * den
  else r.lower4 * den < num && num < r.upper4 * den

/-! ## Decimal grids -/

/-- A decimal, `digits · 10 ^ exponent`, which need not be reduced. -/
structure Decimal where
  digits : Nat
  exponent : Int
deriving DecidableEq, Repr

/-- The least power of ten that brings `size` up to `one`, among the first `fuel` from `j` on. -/
def powerToOne (size one : Nat) : Nat → Nat → Nat
  | 0, j => j
  | fuel + 1, j => if one ≤ size * Nat.pow 10 j then j else powerToOne size one fuel (j + 1)

/-- The power of ten of the leading digit of a positive `Real64`. -/
def leadingPower (r : Real64) : Int :=
  if one4 ≤ r.size4 then ((Nat.toDigits 10 (r.size4 / one4)).length - 1 : Nat)
  else -(powerToOne r.size4 one4 330 1 : Nat)

/-- The multiple of `10 ^ k` nearest to a positive real, among its two neighbours on that grid for
which `readsBack` holds, a tie going up. -/
def onGrid? (r : Real64) (k : Int) : Option Decimal :=
  let num := r.size4 * Nat.pow 10 (-k).toNat
  let den := one4 * Nat.pow 10 k.toNat
  let below := num / den
  let reads (d : Nat) : Bool := r.readsBack (d * den) (Nat.pow 10 (-k).toNat)
  match reads below, reads (below + 1) with
  | true, true => some ⟨if 2 * (num % den) < den then below else below + 1, k⟩
  | true, false => some ⟨below, k⟩
  | false, true => some ⟨below + 1, k⟩
  | false, false => none

/-- The shortest `Decimal` of a positive real: the first grid, from the coarsest on, that has a
point which reads back. Seventeen digits are always enough. -/
def shortest (r : Real64) : Decimal :=
  ((List.range 17).findSome? fun (i : Nat) => r.onGrid? (r.leadingPower - i)).getD ⟨r.size4 / one4, 0⟩

/-! ## Written form -/

/-- The digits of a `Decimal` without its trailing zeros. -/
def significantDigits (d : Decimal) : List Char :=
  ((Nat.toDigits 10 d.digits).reverse.dropWhile (· == '0')).reverse

/-- The power of ten of the first digit of a `Decimal`. -/
def decimalPower (d : Decimal) : Int :=
  d.exponent + ((Nat.toDigits 10 d.digits).length - 1 : Nat)

/-- A decimal by position, with a digit at least on each side of the point. -/
def positional (digits : List Char) (power : Int) : List Char :=
  if power < 0 then
    ['0', '.'] ++ List.replicate ((-power).toNat - 1) '0' ++ digits
  else
    let whole := power.toNat + 1
    let fraction := digits.drop whole
    digits.take whole ++ List.replicate (whole - digits.length) '0' ++ ['.'] ++
      if fraction.isEmpty then ['0'] else fraction

/-- A decimal with its power of ten; the point stands only before further digits. -/
def scientific (digits : List Char) (power : Int) : List Char :=
  digits.take 1 ++ (if digits.length ≤ 1 then [] else '.' :: digits.drop 1) ++
    'e' :: (toString power).toList

/-- The size of a finite `Real64`, written out: `positional` or `scientific`, by its power of ten.
-/
def renderSize (r : Real64) : List Char :=
  if r.mantissa = 0 then ['0', '.', '0']
  else
    let d := r.shortest
    let power := decimalPower d
    if -4 ≤ power ∧ power < 16 then positional (significantDigits d) power
    else scientific (significantDigits d) power

/-- The written form of a `Real64`, with its sign; what is no number and the infinities have names.
-/
def render (r : Real64) : String :=
  if r.isSpecial && r.fractionField ≠ 0 then "NaN"
  else
    let size := if r.isSpecial then "inf" else String.ofList r.renderSize
    if r.isNegative then "-" ++ size else size

end Real64

end JumpCode
