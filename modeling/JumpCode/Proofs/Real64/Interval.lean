import JumpCode.Real64.Shortest
import Mathlib.Algebra.Order.Field.Rat
import Mathlib.Algebra.Order.Field.Basic
import Mathlib.Tactic.FieldSimp
import Mathlib.Tactic.Ring

/-!
# JumpCode — the intervals of reals

Of the finite reals that are not negative, each has an interval of numbers which read back as it.
The intervals follow each other in the order of the bits and share no number: a midpoint between two
neighbours belongs to the one with the even mantissa.

* `Real64.lower4_eq_midpoint`, `Real64.upper4_eq_midpoint` — the interval ends at midpoints;
* `Real64.ReadsBack.unique` — no number reads back as two reals.
-/

namespace JumpCode

namespace Real64

/-- A `Real64` is finite and not negative: its bits are below `infinityBits`. -/
def IsSize (r : Real64) : Prop := r.bits.toNat < infinityBits

/-- A number, in quarter units, reads back as a `Real64`: what `readsBack` decides of a quotient of
two naturals (`readsBack_iff`), said of a rational number. -/
def ReadsBack (r : Real64) (v : ℚ) : Prop :=
  if r.mantissa % 2 = 0 then r.lower4 ≤ v ∧ v ≤ r.upper4 else r.lower4 < v ∧ v < r.upper4

theorem eq_of_bits {r r' : Real64} (h : r.bits.toNat = r'.bits.toNat) : r = r' := by
  cases r
  cases r'
  exact congrArg _ (UInt64.toNat_inj.mp h)

theorem readsBack_iff {r : Real64} {num den : Nat} (h : 0 < den) :
    r.readsBack num den = true ↔ r.ReadsBack (num / den) := by
  have hDen : (0 : ℚ) < den := by exact_mod_cast h
  unfold readsBack ReadsBack
  split
  · rw [Bool.and_eq_true, decide_eq_true_eq, decide_eq_true_eq, le_div_iff₀ hDen,
      div_le_iff₀ hDen]
    norm_cast
  · rw [Bool.and_eq_true, decide_eq_true_eq, decide_eq_true_eq, lt_div_iff₀ hDen,
      div_lt_iff₀ hDen]
    norm_cast

/-- A number that reads back is not outside of `lower4` and `upper4`. -/
theorem ReadsBack.bounds {r : Real64} {v : ℚ} (h : r.ReadsBack v) :
    r.lower4 ≤ v ∧ v ≤ r.upper4 := by
  unfold ReadsBack at h
  split at h
  · exact h
  · exact ⟨h.1.le, h.2.le⟩

/-! ## Midpoints -/

/-- How many fractions there are under one exponent: `2 ^ 52`, which `fractionField` counts up to.
-/
def fractions : Nat := 4503599627370496

theorem fractions_eq : Nat.pow 2 52 = fractions := rfl

theorem fractions_pos : 0 < fractions := by decide

/-- The midpoint between the sizes with bits `b` and `b + 1`, in quarter units. It is `upper4` of
the one (`IsSize.upper4_eq_midpoint`) and `lower4` of the other (`IsSize.lower4_eq_midpoint`). -/
def midpoint (b : Nat) : Nat :=
  (4 * (if b / fractions = 0 then b % fractions else fractions + b % fractions) + 2) *
    2 ^ (b / fractions - 1)

theorem midpoint_of_lt {f : Nat} (h : f < fractions) : midpoint f = 4 * f + 2 := by
  simp [midpoint, Nat.div_eq_of_lt h, Nat.mod_eq_of_lt h]

theorem exponent_div (e : Nat) {f : Nat} (h : f < fractions) :
    (e * fractions + f) / fractions = e := by
  rw [Nat.mul_comm, Nat.mul_add_div fractions_pos, Nat.div_eq_of_lt h, Nat.add_zero]

theorem exponent_mod (e : Nat) {f : Nat} (h : f < fractions) :
    (e * fractions + f) % fractions = f := by
  rw [Nat.mul_comm, Nat.mul_add_mod, Nat.mod_eq_of_lt h]

theorem midpoint_exponent (e : Nat) {f : Nat} (h : f < fractions) :
    midpoint ((e + 1) * fractions + f) = (4 * (fractions + f) + 2) * 2 ^ e := by
  simp [midpoint, exponent_div _ h, exponent_mod _ h]

/-- Bits are a fraction alone, less than `fractions`, or they have an exponent. -/
theorem bits_cases (b : Nat) :
    b < fractions ∨ ∃ e f, f < fractions ∧ b = (e + 1) * fractions + f := by
  rcases Nat.lt_or_ge b fractions with h | h
  · exact .inl h
  · refine .inr ⟨b / fractions - 1, b % fractions, Nat.mod_lt b fractions_pos, ?_⟩
    have hPos : 0 < b / fractions := Nat.div_pos h fractions_pos
    rw [Nat.sub_add_cancel hPos, Nat.mul_comm, Nat.div_add_mod]

/-- A `midpoint` is less than the one of the next bits. -/
theorem midpoint_lt_succ (b : Nat) : midpoint b < midpoint (b + 1) := by
  rcases bits_cases b with h | ⟨e, f, h, rfl⟩
  · rw [midpoint_of_lt h]
    rcases Nat.lt_or_ge (b + 1) fractions with h' | h'
    · rw [midpoint_of_lt h']
      omega
    · have hNext : b + 1 = (0 + 1) * fractions + 0 := by omega
      rw [hNext, midpoint_exponent 0 fractions_pos]
      omega
  · rw [midpoint_exponent e h]
    rcases Nat.lt_or_ge (f + 1) fractions with h' | h'
    · rw [Nat.add_assoc, midpoint_exponent e h']
      exact Nat.mul_lt_mul_of_pos_right (by omega) (Nat.two_pow_pos e)
    · have hNext : (e + 1) * fractions + f + 1 = (e + 1 + 1) * fractions + 0 := by
        rw [Nat.succ_mul (e + 1)]
        omega
      rw [hNext, midpoint_exponent (e + 1) fractions_pos, Nat.pow_succ, Nat.mul_comm (2 ^ e),
        ← Nat.mul_assoc]
      exact Nat.mul_lt_mul_of_pos_right (by omega) (Nat.two_pow_pos e)

theorem midpoint_strictMono : StrictMono midpoint := strictMono_nat_of_lt_succ midpoint_lt_succ

/-! ## The ends of an interval -/

theorem mantissa_of_lt {r : Real64} (h : r.bits.toNat < fractions) :
    r.mantissa = r.bits.toNat ∧ r.scale = 0 := by
  have hField : r.exponentField = 0 := by
    unfold exponentField
    rw [fractions_eq, Nat.div_eq_of_lt h, Nat.zero_mod]
  have hFraction : r.fractionField = r.bits.toNat := Nat.mod_eq_of_lt h
  simp [mantissa, scale, hField, hFraction]

theorem IsSize.mantissa_exponent {r : Real64} (h : r.IsSize) {e f : Nat} (hf : f < fractions)
    (hBits : r.bits.toNat = (e + 1) * fractions + f) :
    r.mantissa = fractions + f ∧ r.scale = e := by
  have hField : r.exponentField = e + 1 := by
    have hPow : Nat.pow 2 11 = 2048 := rfl
    unfold IsSize infinityBits at h
    rw [fractions_eq, hBits] at h
    unfold exponentField
    rw [fractions_eq, hPow, hBits, exponent_div _ hf]
    refine Nat.mod_eq_of_lt ?_
    have hBound := Nat.lt_of_mul_lt_mul_right (Nat.lt_of_le_of_lt (Nat.le_add_right _ f) h)
    omega
  have hFraction : r.fractionField = f := by
    unfold fractionField
    rw [fractions_eq, hBits, exponent_mod _ hf]
  refine ⟨?_, by simp [scale, hField]⟩
  rw [mantissa, if_neg (by omega), hFraction, fractions_eq]

section

variable {r : Real64} (h : r.IsSize)

include h

theorem IsSize.upper4_eq_midpoint : r.upper4 = midpoint r.bits.toNat := by
  rcases bits_cases r.bits.toNat with hLt | ⟨e, f, hf, hBits⟩
  · obtain ⟨hMantissa, hScale⟩ := mantissa_of_lt hLt
    simp [upper4, hMantissa, hScale, midpoint_of_lt hLt]
  · obtain ⟨hMantissa, hScale⟩ := h.mantissa_exponent hf hBits
    simp [upper4, hMantissa, hScale, hBits, midpoint_exponent e hf]

/-- The interval of a positive real begins where that of its neighbour ends, at a `midpoint`. -/
theorem IsSize.lower4_eq_midpoint {b : Nat} (hBits : r.bits.toNat = b + 1) :
    r.lower4 = midpoint b := by
  unfold lower4
  rw [fractions_eq]
  rcases bits_cases (b + 1) with hLt | ⟨e, f, hf, hExponent⟩
  · obtain ⟨hMantissa, hScale⟩ := mantissa_of_lt (hBits.symm ▸ hLt)
    rw [midpoint_of_lt (by omega), hMantissa, hScale, hBits, if_neg (by omega)]
    simp
    omega
  · obtain ⟨hMantissa, hScale⟩ := h.mantissa_exponent hf (hBits.trans hExponent)
    rw [hMantissa, hScale]
    have hLast : fractions - 1 < fractions := Nat.sub_lt fractions_pos Nat.one_pos
    by_cases hZero : f = 0
    · subst hZero
      cases e with
      | zero =>
        -- below the least exponent the distance stays the same
        have hBelow : b = fractions - 1 := by omega
        rw [if_neg (by omega), hBelow, midpoint_of_lt hLast]
        simp [fractions]
      | succ e =>
        -- below a power of two the distance is half of that above
        have hBelow : b = (e + 1) * fractions + (fractions - 1) := by
          rw [Nat.succ_mul (e + 1)] at hExponent
          omega
        rw [if_pos (by omega), hBelow, midpoint_exponent e hLast, Nat.pow_eq, Nat.pow_succ,
          Nat.mul_comm (2 ^ e), ← Nat.mul_assoc]
        congr 1
    · have hBelow : b = (e + 1) * fractions + (f - 1) := by omega
      rw [if_neg (by omega), hBelow, midpoint_exponent e (by omega), Nat.pow_eq]
      congr 1
      omega

theorem IsSize.mantissa_mod_two : r.mantissa % 2 = r.bits.toNat % 2 := by
  have hEven : fractions % 2 = 0 := by decide
  rcases bits_cases r.bits.toNat with hLt | ⟨e, f, hf, hBits⟩
  · rw [(mantissa_of_lt hLt).1]
  · rw [(h.mantissa_exponent hf hBits).1, hBits, Nat.add_mod, hEven, Nat.add_mod _ f,
      Nat.mul_mod, hEven, Nat.mul_zero, Nat.zero_mod]

end

/-- Of two sizes the interval of the smaller one ends before that of the other: the `midpoint`
between two neighbours belongs to the one with the even mantissa. -/
theorem ReadsBack.not_lt {r r' : Real64} {v : ℚ} (hr : r.IsSize) (hr' : r'.IsSize)
    (h : r.ReadsBack v) (h' : r'.ReadsBack v) : ¬ r.bits.toNat < r'.bits.toNat := by
  intro hLt
  obtain ⟨b, hb⟩ : ∃ b, r'.bits.toNat = b + 1 := ⟨r'.bits.toNat - 1, by omega⟩
  have hUpper : v ≤ midpoint r.bits.toNat := hr.upper4_eq_midpoint ▸ h.bounds.2
  have hLower : (midpoint b : ℚ) ≤ v := hr'.lower4_eq_midpoint hb ▸ h'.bounds.1
  have hMidpoints : midpoint b ≤ midpoint r.bits.toNat := by exact_mod_cast hLower.trans hUpper
  have hLe : b ≤ r.bits.toNat := midpoint_strictMono.le_iff_le.mp hMidpoints
  obtain rfl : b = r.bits.toNat := by omega
  -- both intervals would have to contain the midpoint, and both mantissas to be even
  have hEven : r.mantissa % 2 = 0 := by
    by_contra hOdd
    rw [ReadsBack, if_neg hOdd, hr.upper4_eq_midpoint] at h
    exact absurd (hLower.trans_lt h.2) (lt_irrefl _)
  have hEven' : r'.mantissa % 2 = 0 := by
    by_contra hOdd
    rw [ReadsBack, if_neg hOdd, hr'.lower4_eq_midpoint hb] at h'
    exact absurd (h'.1.trans_le hUpper) (lt_irrefl _)
  rw [hr.mantissa_mod_two] at hEven
  rw [hr'.mantissa_mod_two] at hEven'
  omega

/-- **No number reads back as two reals** (`ReadsBack`), if both are sizes (`IsSize`). -/
theorem ReadsBack.unique {r r' : Real64} {v : ℚ} (hr : r.IsSize) (hr' : r'.IsSize)
    (h : r.ReadsBack v) (h' : r'.ReadsBack v) : r = r' :=
  eq_of_bits <| Nat.le_antisymm (Nat.le_of_not_lt (h'.not_lt hr' hr h))
    (Nat.le_of_not_lt (h.not_lt hr hr' h'))

end Real64

end JumpCode
