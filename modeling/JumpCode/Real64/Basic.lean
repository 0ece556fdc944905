/-!
# JumpCode — reals of 64 bits

Real constants are binary64 numbers, kept as their bits: the sign, eleven bits of exponent and
fifty-two of fraction. A finite one has the size `mantissa · 2 ^ scale` in units of `2 ^ -1074`,
the distance between the two smallest.

* `Real64.nearest` — a quotient of two naturals, rounded to nearest, ties to the even mantissa;
* `Real64.ofDecimal` — the real that a decimal numeral denotes.
-/

namespace JumpCode

/-- A binary64 number, as its bits. Two of them are equal exactly if all bits are. -/
structure Real64 where
  bits : UInt64
deriving DecidableEq, Repr

namespace Real64

/-! ## The parts of a real -/

/-- Whether the sign bit of a `Real64` is set. -/
def isNegative (r : Real64) : Bool := r.bits.toNat / Nat.pow 2 63 = 1

/-- The eleven bits of a `Real64` that say how its mantissa is scaled. -/
def exponentField (r : Real64) : Nat := r.bits.toNat / Nat.pow 2 52 % Nat.pow 2 11

/-- The fifty-two bits of a `Real64` behind the leading bit of its mantissa. -/
def fractionField (r : Real64) : Nat := r.bits.toNat % Nat.pow 2 52

/-- Whether the `exponentField` is the one of the infinities and of what is not a number. -/
def isSpecial (r : Real64) : Bool := r.exponentField = 2047

/-- The mantissa of a finite `Real64`, with the leading bit that its `fractionField` leaves out. -/
def mantissa (r : Real64) : Nat :=
  if r.exponentField = 0 then r.fractionField else Nat.pow 2 52 + r.fractionField

/-- The power of two that scales the `mantissa`, in units of `2 ^ -1074`. -/
def scale (r : Real64) : Nat := r.exponentField - 1

/-! ## Rounding -/

/-- The quotient of two naturals, rounded to the nearest natural, a tie to the even one
(`roundQuotient_near`). -/
def roundQuotient (num den : Nat) : Nat :=
  let q := num / den
  let r := num % den
  if 2 * r < den ∨ 2 * r = den ∧ q % 2 = 0 then q else q + 1

/-- The bits of positive infinity, which all larger sizes are rounded to. -/
def infinityBits : Nat := 2047 * Nat.pow 2 52

/-- The `Real64` nearest to `num / den`, ties to the even mantissa. The scale leaves 53 bits to the
mantissa, fewer only at scale zero; a mantissa that rounds up to `2 ^ 53` carries into the exponent
field by itself. -/
def nearest (num den : Nat) : Real64 :=
  let units := num * Nat.pow 2 1074
  let scale := Nat.log2 (units / den) - 52
  let bits := scale * Nat.pow 2 52 + roundQuotient units (den * Nat.pow 2 scale)
  ⟨(min bits infinityBits).toUInt64⟩

/-! ## Decimal numerals -/

/-- The value of a decimal digit. -/
def digitValue (c : Char) : Nat := c.toNat - 48

/-- The value of a run of decimal digits, the most significant first. -/
def digitsValue (digits : List Char) : Nat :=
  digits.foldl (fun value c => 10 * value + digitValue c) 0

/-- The `Real64` that is `nearest` to the decimal `whole.fraction`. -/
def ofDecimal (whole : Nat) (fraction : List Char) : Real64 :=
  let den := Nat.pow 10 fraction.length
  nearest (whole * den + digitsValue fraction) den

/-- **Half a unit**: a rounded quotient is at most half away from the exact one. -/
theorem roundQuotient_near {num den : Nat} (h : 0 < den) :
    2 * num ≤ (2 * roundQuotient num den + 1) * den ∧
      2 * (roundQuotient num den * den) ≤ 2 * num + den := by
  have hDiv : den * (num / den) + num % den = num := Nat.div_add_mod num den
  have hMod : num % den < den := Nat.mod_lt num h
  have hComm : num / den * den = den * (num / den) := Nat.mul_comm ..
  dsimp only [roundQuotient]
  split
  · simp only [Nat.add_mul, Nat.one_mul, Nat.mul_assoc, hComm]
    omega
  · rename_i hTie
    simp only [not_or, not_and, Nat.not_lt] at hTie
    simp only [Nat.add_mul, Nat.one_mul, Nat.mul_assoc, hComm]
    omega

end Real64

end JumpCode
