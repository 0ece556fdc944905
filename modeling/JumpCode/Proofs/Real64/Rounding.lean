import JumpCode.Proofs.Real64.Written
import Mathlib.Algebra.Order.Group.Unbundled.Abs
import Mathlib.Tactic.Linarith

/-!
# JumpCode — correct rounding

A quotient of naturals is rounded once: the real that is taken for it is the nearest one there is,
and of two that are equally near the one with the even mantissa. Said first about the bits, in the
intervals that read back as a real, and then about the distance in the rational numbers.

* `Real64.IsNearest` — what it is to be rounded correctly, and `Real64.IsNearest.unique`;
* `Real64.ReadsBack.isNearest` — a number is rounded to the real that it reads back as;
* `Real64.nearest_isNearest` — the quotient of two naturals.
-/

namespace JumpCode

namespace Real64

/-- The number that a size stands for: its `size4`, which counts in quarter units, over `one4`. -/
def toRat (r : Real64) : ℚ := r.size4 / one4

/-- A size is a number rounded to nearest, a tie to the even mantissa: among all that are `IsSize`
none is nearer to the number, and another one is as near only if the mantissa is even. -/
def IsNearest (r : Real64) (v : ℚ) : Prop :=
  r.IsSize ∧ ∀ r' : Real64, r'.IsSize → r' ≠ r →
    |v - r.toRat| < |v - r'.toRat| ∨ |v - r.toRat| = |v - r'.toRat| ∧ r.mantissa % 2 = 0

/-! ## Sizes in the order of their bits -/

/-- The size with bits `b`, in quarter units: the `size4` of the real that has them
(`IsSize.size4_eq_sizeAt`). -/
def sizeAt (b : Nat) : Nat :=
  4 * (if b / fractions = 0 then b % fractions else fractions + b % fractions) *
    2 ^ (b / fractions - 1)

theorem sizeAt_of_lt {f : Nat} (h : f < fractions) : sizeAt f = 4 * f := by
  simp [sizeAt, Nat.div_eq_of_lt h, Nat.mod_eq_of_lt h]

theorem sizeAt_exponent (e : Nat) {f : Nat} (h : f < fractions) :
    sizeAt ((e + 1) * fractions + f) = 4 * (fractions + f) * 2 ^ e := by
  simp [sizeAt, exponent_div _ h, exponent_mod _ h]

theorem IsSize.size4_eq_sizeAt {r : Real64} (h : r.IsSize) : r.size4 = sizeAt r.bits.toNat := by
  rcases bits_cases r.bits.toNat with hLt | ⟨e, f, hf, hBits⟩
  · obtain ⟨hMantissa, hScale⟩ := mantissa_of_lt hLt
    simp [size4, hMantissa, hScale, sizeAt_of_lt hLt]
  · obtain ⟨hMantissa, hScale⟩ := h.mantissa_exponent hf hBits
    simp [size4, hMantissa, hScale, hBits, sizeAt_exponent e hf]

/-- A `midpoint` is in the middle between two sizes in a row. -/
theorem two_mul_midpoint (b : Nat) : 2 * midpoint b = sizeAt b + sizeAt (b + 1) := by
  -- the next size may be the first one with an exponent, or with the next exponent
  rcases bits_cases b with h | ⟨e, f, h, rfl⟩
  · rw [midpoint_of_lt h, sizeAt_of_lt h]
    rcases Nat.lt_or_ge (b + 1) fractions with h' | h'
    · rw [sizeAt_of_lt h']
      omega
    · have hNext : b + 1 = (0 + 1) * fractions + 0 := by omega
      rw [hNext, sizeAt_exponent 0 fractions_pos]
      omega
  · rw [midpoint_exponent e h, sizeAt_exponent e h]
    rcases Nat.lt_or_ge (f + 1) fractions with h' | h'
    · rw [Nat.add_assoc, sizeAt_exponent e h']
      ring
    · have hNext : (e + 1) * fractions + f + 1 = (e + 1 + 1) * fractions + 0 := by
        rw [Nat.succ_mul (e + 1)]
        omega
      rw [hNext, sizeAt_exponent (e + 1) fractions_pos, show fractions = f + 1 by omega]
      ring

theorem sizeAt_lt_midpoint (b : Nat) : sizeAt b < midpoint b := by
  rcases bits_cases b with h | ⟨e, f, h, rfl⟩
  · rw [midpoint_of_lt h, sizeAt_of_lt h]
    omega
  · rw [midpoint_exponent e h, sizeAt_exponent e h]
    exact Nat.mul_lt_mul_of_pos_right (by omega) (Nat.two_pow_pos e)

theorem sizeAt_strictMono : StrictMono sizeAt :=
  strictMono_nat_of_lt_succ fun b => by
    have hMiddle := two_mul_midpoint b
    have hBelow := sizeAt_lt_midpoint b
    omega

theorem toRat_lt {r r' : Real64} (hr : r.IsSize) (hr' : r'.IsSize)
    (h : r.bits.toNat < r'.bits.toNat) : r.toRat < r'.toRat := by
  rw [toRat, toRat, hr.size4_eq_sizeAt, hr'.size4_eq_sizeAt]
  refine div_lt_div_of_pos_right ?_ (by exact_mod_cast one4_pos)
  exact_mod_cast sizeAt_strictMono h

/-- A number as near to two others is nearer to whatever lies between them. -/
theorem dist_between {v x y z : ℚ} (hxy : x < y) (hyz : y < z) (h : |v - x| = |v - z|) :
    |v - y| < |v - x| := by
  rcases abs_eq_abs.mp h with hSame | hMiddle
  · linarith
  · rw [abs_of_pos (a := v - x) (by linarith), abs_lt]
    exact ⟨by linarith, by linarith⟩

/-- **There is one way to round correctly**: `IsNearest` determines the real. -/
theorem IsNearest.unique {r r' : Real64} {v : ℚ} (h : r.IsNearest v) (h' : r'.IsNearest v) :
    r = r' := by
  by_contra hNe
  have hNear := h.2 r' h'.1 (Ne.symm hNe)
  have hNear' := h'.2 r h.1 hNe
  -- each is as near as the other, so both distances are the same and both mantissas even
  obtain ⟨hDist, hEven⟩ : |v - r.toRat| = |v - r'.toRat| ∧ r.mantissa % 2 = 0 :=
    hNear.resolve_left fun hLt =>
      hNear'.elim (fun hLt' => lt_asymm hLt hLt') fun hEq => hLt.ne hEq.1.symm
  obtain ⟨-, hEven'⟩ := hNear'.resolve_left (by rw [hDist]; exact lt_irrefl _)
  rw [h.1.mantissa_mod_two] at hEven
  rw [h'.1.mantissa_mod_two] at hEven'
  have hBits : r.bits.toNat ≠ r'.bits.toNat := fun hSame => hNe (eq_of_bits hSame)
  -- between two sizes with even mantissas there is one with an odd mantissa, and it is nearer
  wlog hLt : r.bits.toNat < r'.bits.toNat generalizing r r'
  · exact this h' h (Ne.symm hNe) hNear' hNear hDist.symm hEven' hEven hBits.symm (by omega)
  have hBound : r'.bits.toNat < infinityBits := h'.1
  have hInfinity : infinityBits < 2 ^ 64 := by decide
  have hMiddleBits : (r.bits.toNat + 1).toUInt64.toNat = r.bits.toNat + 1 := by
    rw [Nat.toUInt64, UInt64.toNat_ofNat', Nat.mod_eq_of_lt (by omega)]
  let middle : Real64 := ⟨(r.bits.toNat + 1).toUInt64⟩
  have hMiddle : middle.IsSize := by
    rw [IsSize, hMiddleBits]
    omega
  have hCloser := dist_between (toRat_lt h.1 hMiddle (by rw [hMiddleBits]; omega))
    (toRat_lt hMiddle h'.1 (by rw [hMiddleBits]; omega)) hDist
  have hOther : middle ≠ r := by
    intro hSame
    have hToNat := congrArg (·.bits.toNat) hSame
    simp only [middle, hMiddleBits] at hToNat
    omega
  rcases h.2 middle hMiddle hOther with hFarther | ⟨hEq, -⟩
  · exact lt_asymm hCloser hFarther
  · exact hCloser.ne hEq.symm

/-! ## What reads back is nearest -/

/-- In quarter units, whoever is at most at a `midpoint` is at most as far from the size below it as
from any size above. -/
theorem dist_above {b b' : Nat} {v : ℚ} (hLt : b < b') (h : v ≤ midpoint b) :
    |v - sizeAt b| ≤ |v - sizeAt b'| ∧ (v < midpoint b → |v - sizeAt b| < |v - sizeAt b'|) := by
  have hMiddle : (2 : ℚ) * midpoint b = sizeAt b + sizeAt (b + 1) := by
    exact_mod_cast two_mul_midpoint b
  have hNext : (sizeAt (b + 1) : ℚ) ≤ sizeAt b' := by
    exact_mod_cast sizeAt_strictMono.monotone hLt
  have hOwn : (sizeAt b : ℚ) < midpoint b := by exact_mod_cast sizeAt_lt_midpoint b
  -- the number lies below the size above, so this distance has no bars
  have hFar : |v - sizeAt b'| = sizeAt b' - v := by
    rw [abs_sub_comm]
    exact abs_of_nonneg (by linarith)
  rw [hFar, abs_le, abs_lt]
  exact ⟨⟨by linarith, by linarith⟩, fun hStrict => ⟨by linarith, by linarith⟩⟩

/-- In quarter units, whoever is at least at a `midpoint` is at most as far from the size above it
as from any size below. -/
theorem dist_below {b b' : Nat} {v : ℚ} (hLt : b' < b + 1) (h : midpoint b ≤ v) :
    |v - sizeAt (b + 1)| ≤ |v - sizeAt b'| ∧
      (midpoint b < v → |v - sizeAt (b + 1)| < |v - sizeAt b'|) := by
  have hMiddle : (2 : ℚ) * midpoint b = sizeAt b + sizeAt (b + 1) := by
    exact_mod_cast two_mul_midpoint b
  have hPrevious : (sizeAt b' : ℚ) ≤ sizeAt b := by
    exact_mod_cast sizeAt_strictMono.monotone (Nat.le_of_lt_succ hLt)
  have hOwn : (sizeAt b : ℚ) < midpoint b := by exact_mod_cast sizeAt_lt_midpoint b
  have hFar : |v - sizeAt b'| = v - sizeAt b' := abs_of_nonneg (by linarith)
  rw [hFar, abs_le, abs_lt]
  exact ⟨⟨by linarith, by linarith⟩, fun hStrict => ⟨by linarith, by linarith⟩⟩

theorem one4_cast_pos : (0 : ℚ) < one4 := by exact_mod_cast one4_pos

/-- Distances from `toRat`, in quarter units. -/
theorem IsSize.abs_sub_toRat {r : Real64} (h : r.IsSize) (v : ℚ) :
    |v - r.toRat| = |v * one4 - sizeAt r.bits.toNat| / one4 := by
  have hPos := one4_cast_pos
  rw [toRat, h.size4_eq_sizeAt, eq_div_iff hPos.ne', ← abs_of_pos hPos, ← abs_mul, abs_of_pos hPos,
    sub_mul, div_mul_cancel₀ _ hPos.ne']

/-- **A number is rounded to the size that it reads back as** (`ReadsBack`). -/
theorem ReadsBack.isNearest {r : Real64} {v : ℚ} (hr : r.IsSize) (h : r.ReadsBack (v * one4)) :
    r.IsNearest v := by
  refine ⟨hr, fun r' hr' hOther => ?_⟩
  rw [hr.abs_sub_toRat, hr'.abs_sub_toRat, div_lt_div_iff_of_pos_right one4_cast_pos,
    div_left_inj' one4_cast_pos.ne']
  have hBits : r'.bits.toNat ≠ r.bits.toNat := fun hSame => hOther (eq_of_bits hSame)
  -- an odd mantissa leaves both midpoints to its neighbours
  have hStrict : r.mantissa % 2 = 0 ∨ r.lower4 < v * one4 ∧ v * one4 < r.upper4 := by
    unfold ReadsBack at h
    split at h
    · next hEven => exact .inl hEven
    · exact .inr h
  have hBounds := h.bounds
  have hNear : |v * one4 - sizeAt r.bits.toNat| ≤ |v * one4 - sizeAt r'.bits.toNat| ∧
      (r.lower4 < v * one4 ∧ v * one4 < r.upper4 →
        |v * one4 - sizeAt r.bits.toNat| < |v * one4 - sizeAt r'.bits.toNat|) := by
    -- the lower midpoint decides against sizes below, the upper one against those above
    rcases Nat.lt_or_gt_of_ne hBits with hLt | hLt
    · obtain ⟨b, hb⟩ : ∃ b, r.bits.toNat = b + 1 := ⟨r.bits.toNat - 1, by omega⟩
      rw [hr.lower4_eq_midpoint hb] at hBounds ⊢
      rw [hb] at hLt ⊢
      have hDist := dist_below hLt hBounds.1
      exact ⟨hDist.1, fun hInside => hDist.2 hInside.1⟩
    · rw [hr.upper4_eq_midpoint] at hBounds ⊢
      have hDist := dist_above hLt hBounds.2
      exact ⟨hDist.1, fun hInside => hDist.2 hInside.2⟩
  rcases hStrict with hEven | hInside
  · rcases hNear.1.lt_or_eq with hLt | hEq
    · exact .inl hLt
    · exact .inr ⟨hEq, hEven⟩
  · exact .inl (hNear.2 hInside)

/-- A number between the two midpoints next to a size reads back as the size (`ReadsBack`), and a
`midpoint` itself does so if the bits are even. -/
theorem IsSize.readsBack_of_midpoints {r : Real64} (hr : r.IsSize) {v : ℚ} (hv : 0 ≤ v)
    (hAbove : v ≤ midpoint r.bits.toNat ∧ (r.bits.toNat % 2 = 1 → v < midpoint r.bits.toNat))
    (hBelow : ∀ b, r.bits.toNat = b + 1 →
      midpoint b ≤ v ∧ (r.bits.toNat % 2 = 1 → midpoint b < v)) : r.ReadsBack v := by
  rw [ReadsBack, hr.mantissa_mod_two, hr.upper4_eq_midpoint]
  rcases Nat.eq_zero_or_pos r.bits.toNat with hZero | hPos
  · -- zero has no neighbour below, and its interval begins at itself
    have hMantissa := (mantissa_of_lt (r := r) (by rw [hZero]; exact fractions_pos)).1
    have hLower : r.lower4 = 0 := by simp [lower4, hMantissa, hZero]
    rw [hZero] at hAbove ⊢
    rw [if_pos rfl, hLower]
    exact ⟨by exact_mod_cast hv, hAbove.1⟩
  · obtain ⟨b, hb⟩ : ∃ b, r.bits.toNat = b + 1 := ⟨r.bits.toNat - 1, by omega⟩
    rw [hr.lower4_eq_midpoint hb]
    split
    · exact ⟨(hBelow b hb).1, hAbove.1⟩
    · exact ⟨(hBelow b hb).2 (by omega), hAbove.2 (by omega)⟩

/-! ## Rounding a quotient -/

/-- Where the mantissa has its leading bit, or the scale is least, the bits are those of the scale
and of the mantissa one after the other, as `nearest` adds them up. -/
theorem midpoint_scaled {scale mantissa : Nat} (hLeading : scale = 0 ∨ fractions ≤ mantissa)
    (hMantissa : mantissa < 2 * fractions) :
    midpoint (scale * fractions + mantissa) = (4 * mantissa + 2) * 2 ^ scale := by
  rcases Nat.lt_or_ge mantissa fractions with hLt | hGe
  · obtain rfl : scale = 0 := hLeading.resolve_right (by omega)
    simp [midpoint_of_lt hLt]
  · obtain ⟨f, rfl⟩ := Nat.exists_eq_add_of_le hGe
    rw [← Nat.add_assoc, ← Nat.succ_mul, midpoint_exponent scale (by omega)]

/-- What `roundQuotient` gives is odd only if the exact quotient is no tie. -/
theorem roundQuotient_odd {num den : Nat} (h : 0 < den) (hOdd : roundQuotient num den % 2 = 1) :
    2 * num < (2 * roundQuotient num den + 1) * den ∧
      2 * (roundQuotient num den * den) < 2 * num + den := by
  have hDiv : den * (num / den) + num % den = num := Nat.div_add_mod num den
  have hMod : num % den < den := Nat.mod_lt num h
  have hComm : num / den * den = den * (num / den) := Nat.mul_comm ..
  revert hOdd
  dsimp only [roundQuotient]
  split <;> intro hOdd <;>
    simp only [Nat.add_mul, Nat.one_mul, Nat.mul_assoc, hComm] <;> omega

theorem div_le_roundQuotient (num den : Nat) : num / den ≤ roundQuotient num den := by
  simp only [roundQuotient]
  split <;> omega

section

variable {units den scale m : Nat} (hRounded : m = roundQuotient units (den * 2 ^ scale))

include hRounded

/-- The exact quotient is at most the `midpoint` above the rounded one, and less if this is odd. -/
theorem le_midpoint_of_rounded (hDen : 0 < den) (hLeading : scale = 0 ∨ fractions ≤ m)
    (hCarry : m ≤ 2 * fractions) :
    4 * units ≤ midpoint (scale * fractions + m) * den ∧
      (m % 2 = 1 → 4 * units < midpoint (scale * fractions + m) * den) := by
  have hPos : 0 < den * 2 ^ scale := Nat.mul_pos hDen (Nat.two_pow_pos _)
  -- in units of the scale the rounded quotient is off by a half at most
  have hNear : 2 * units ≤ (2 * m + 1) * (den * 2 ^ scale) := by
    rw [hRounded]
    exact (roundQuotient_near hPos).1
  have hOdd : m % 2 = 1 → 2 * units < (2 * m + 1) * (den * 2 ^ scale) := by
    rw [hRounded]
    exact fun h => (roundQuotient_odd hPos h).1
  rcases Nat.lt_or_ge m (2 * fractions) with hLt | hGe
  · have hMidpoint : midpoint (scale * fractions + m) * den =
        2 * ((2 * m + 1) * (den * 2 ^ scale)) := by
      rw [midpoint_scaled hLeading hLt]
      ring
    rw [hMidpoint]
    exact ⟨by omega, fun h => by have := hOdd h; omega⟩
  · -- the carry doubles the distance to the neighbour above
    obtain rfl : m = 2 * fractions := by omega
    have hMidpoint : midpoint (scale * fractions + 2 * fractions) * den =
        2 * ((2 * (2 * fractions) + 2) * (den * 2 ^ scale)) := by
      rw [show scale * fractions + 2 * fractions = (scale + 1) * fractions + fractions by ring,
        midpoint_scaled (.inr le_rfl) (by decide)]
      ring
    have hMore : (2 * (2 * fractions) + 1) * (den * 2 ^ scale) ≤
        (2 * (2 * fractions) + 2) * (den * 2 ^ scale) := Nat.mul_le_mul_right _ (by omega)
    rw [hMidpoint]
    exact ⟨by omega, fun h => by omega⟩

/-- The exact quotient is at least the `midpoint` below the rounded one, and more if this is odd. -/
theorem midpoint_le_of_rounded {b : Nat} (hDen : 0 < den)
    (hLeading : scale = 0 ∨ fractions * (den * 2 ^ scale) ≤ units)
    (hMantissa : scale = 0 ∨ fractions ≤ m) (hCarry : m ≤ 2 * fractions)
    (hb : scale * fractions + m = b + 1) :
    midpoint b * den ≤ 4 * units ∧ (m % 2 = 1 → midpoint b * den < 4 * units) := by
  have hPos : 0 < den * 2 ^ scale := Nat.mul_pos hDen (Nat.two_pow_pos _)
  by_cases hLeast : 0 < scale ∧ m = fractions
  · -- at a power of two the distance to the neighbour below is half of the one above
    obtain ⟨hScale, rfl⟩ := hLeast
    obtain ⟨scale, rfl⟩ : ∃ s, scale = s + 1 := ⟨scale - 1, by omega⟩
    obtain rfl : b = scale * fractions + (2 * fractions - 1) := by
      rw [Nat.succ_mul] at hb
      have := fractions_pos
      omega
    have hUnits := hLeading.resolve_left (by omega)
    rw [midpoint_scaled (.inr (by decide)) (by decide)]
    -- eight mantissas of this scale are four of the next one, which the exact quotient reaches
    have hLess : (4 * (2 * fractions - 1) + 2) * 2 ^ scale * den ≤
        4 * (fractions * (den * 2 ^ (scale + 1))) := by
      calc (4 * (2 * fractions - 1) + 2) * 2 ^ scale * den
          ≤ 8 * fractions * 2 ^ scale * den :=
            Nat.mul_le_mul_right _ (Nat.mul_le_mul_right _ (by decide))
        _ = 4 * (fractions * (den * 2 ^ (scale + 1))) := by ring
    exact ⟨by omega, fun h => absurd h (by decide)⟩
  · -- everywhere else the neighbour below has the mantissa before, at the same scale
    have hNear : 2 * (m * (den * 2 ^ scale)) ≤ 2 * units + den * 2 ^ scale := by
      rw [hRounded]
      exact (roundQuotient_near hPos).2
    have hOdd : m % 2 = 1 → 2 * (m * (den * 2 ^ scale)) < 2 * units + den * 2 ^ scale := by
      rw [hRounded]
      exact fun h => (roundQuotient_odd hPos h).2
    obtain ⟨m, rfl⟩ : ∃ n, m = n + 1 := ⟨m - 1, by rcases hMantissa with rfl | h <;>
      [skip; have := fractions_pos] <;> omega⟩
    obtain rfl : b = scale * fractions + m := by omega
    have hMidpoint : midpoint (scale * fractions + m) * den + den * 2 ^ scale * 2 =
        2 * (2 * ((m + 1) * (den * 2 ^ scale))) := by
      rw [midpoint_scaled (by omega) (by omega)]
      ring
    exact ⟨by omega, fun h => by have := hOdd h; omega⟩

end

/-- The bits of a rounded quotient below `2 ^ 31`: `nearest` does not have to fall back on
`infinityBits`. -/
theorem nearest_bits {num den : Nat} (h : num < den * 2 ^ 31) :
    (nearest num den).bits.toNat =
      (Nat.log2 (num * Nat.pow 2 1074 / den) - 52) * fractions +
        roundQuotient (num * Nat.pow 2 1074)
          (den * 2 ^ (Nat.log2 (num * Nat.pow 2 1074 / den) - 52)) := by
  have hSize := nearest_isSize h
  have hInfinity : infinityBits < 2 ^ 64 := by decide
  unfold IsSize nearest at hSize
  unfold nearest
  dsimp only at hSize ⊢
  rw [Nat.toUInt64, UInt64.toNat_ofNat',
    Nat.mod_eq_of_lt (Nat.lt_of_le_of_lt (Nat.min_le_right _ _) hInfinity)] at hSize ⊢
  exact Nat.min_eq_left (Nat.le_of_lt (by omega))

/-- The scale that `nearest` takes leaves 53 bits to the quotient, fewer only if it is zero. -/
theorem leading_bit {den : Nat} (hDen : 0 < den) (units : Nat) :
    Nat.log2 (units / den) - 52 = 0 ∨
      fractions * (den * 2 ^ (Nat.log2 (units / den) - 52)) ≤ units := by
  rcases Nat.eq_zero_or_pos (Nat.log2 (units / den) - 52) with h | h
  · exact .inl h
  · -- a scale above zero comes from a quotient with more than 53 bits
    refine .inr ?_
    have hSome : units / den ≠ 0 := by
      intro hZero
      rw [hZero] at h
      simp at h
    have hLog : 2 ^ Nat.log2 (units / den) * den ≤ units :=
      (Nat.le_div_iff_mul_le hDen).mp (Nat.log2_self_le hSome)
    calc fractions * (den * 2 ^ (Nat.log2 (units / den) - 52))
        = 2 ^ (52 + (Nat.log2 (units / den) - 52)) * den := by
          rw [Nat.pow_add, show fractions = 2 ^ 52 from rfl]
          ring
      _ = 2 ^ Nat.log2 (units / den) * den := by congr 2; omega
      _ ≤ units := hLog

/-- **A quotient is read as the size that is nearest to it**: what `nearest` gives is `IsNearest`.
-/
theorem nearest_isNearest {num den : Nat} (hDen : 0 < den) (h : num < den * 2 ^ 31) :
    (nearest num den).IsNearest (num / den) := by
  have hSize := nearest_isSize h
  have hBits := nearest_bits h
  have hLeading := leading_bit hDen (num * Nat.pow 2 1074)
  have hCarry : roundQuotient (num * Nat.pow 2 1074)
      (den * 2 ^ (Nat.log2 (num * Nat.pow 2 1074 / den) - 52)) ≤ 2 * fractions := by
    refine (roundQuotient_le _ _).trans ?_
    rw [← Nat.div_div_eq_div_mul]
    exact mantissa_bits _
  have hOne : (num / den : ℚ) * one4 = (4 * (num * Nat.pow 2 1074) : Nat) / den := by
    rw [show one4 = 4 * Nat.pow 2 1074 by decide +kernel]
    push_cast
    ring
  refine ReadsBack.isNearest hSize ?_
  rw [hOne]
  -- from here on only the units, the scale and the rounded mantissa matter
  generalize num * Nat.pow 2 1074 = units at hBits hLeading hCarry ⊢
  generalize Nat.log2 (units / den) - 52 = scale at hBits hLeading hCarry
  generalize hRounded : roundQuotient units (den * 2 ^ scale) = m at hBits hCarry
  have hMantissa : scale = 0 ∨ fractions ≤ m := by
    refine hLeading.imp_right fun hUnits => ?_
    have hPos : 0 < den * 2 ^ scale := Nat.mul_pos hDen (Nat.two_pow_pos _)
    rw [← hRounded]
    exact ((Nat.le_div_iff_mul_le hPos).mpr hUnits).trans (div_le_roundQuotient _ _)
  have hAbove := le_midpoint_of_rounded hRounded.symm hDen hMantissa hCarry
  -- the least bit of the whole is that of the mantissa, as the scale stands in front of it
  have hOdd : (nearest num den).bits.toNat % 2 = 1 → m % 2 = 1 := by
    rw [hBits, fractions]
    omega
  have hDen' : (0 : ℚ) < den := by exact_mod_cast hDen
  refine hSize.readsBack_of_midpoints (div_nonneg (Nat.cast_nonneg _) hDen'.le) ?_ fun b hb => ?_
  · rw [hBits] at hOdd ⊢
    rw [div_le_iff₀ hDen', div_lt_iff₀ hDen']
    exact ⟨by exact_mod_cast hAbove.1, fun h => by exact_mod_cast hAbove.2 (hOdd h)⟩
  · have hBelow := midpoint_le_of_rounded hRounded.symm hDen hLeading hMantissa hCarry
      (hBits.symm.trans hb)
    rw [le_div_iff₀ hDen', lt_div_iff₀ hDen']
    exact ⟨by exact_mod_cast hBelow.1, fun h => by exact_mod_cast hBelow.2 (hOdd h)⟩

/-- **A decimal is read as the size that is nearest to it**: what `ofDecimal` gives is `IsNearest`.
-/
theorem ofDecimal_isNearest {whole : Nat} (h : whole < 2 ^ 31) {fraction : List Char}
    (hFraction : ∀ c ∈ fraction, c.isDigit) :
    (ofDecimal whole fraction).IsNearest
      (whole + digitsValue fraction / (10 : ℚ) ^ fraction.length) := by
  have hPos : 0 < 10 ^ fraction.length := Nat.pow_pos (by decide)
  have hValue : (whole + digitsValue fraction / (10 : ℚ) ^ fraction.length) =
      (whole * Nat.pow 10 fraction.length + digitsValue fraction : Nat) /
        (Nat.pow 10 fraction.length : Nat) := by
    push_cast [Nat.pow_eq]
    field_simp
  rw [hValue]
  exact nearest_isNearest hPos (decimal_lt h hFraction)

end Real64

end JumpCode
