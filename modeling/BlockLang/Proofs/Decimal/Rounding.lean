/-
  BlockLang.Proofs.Decimal.Rounding

  Quotients as floating-point numbers.

  A finite number is `mantissa · 2 ^ exponent`.  A quotient is computed as the whole part of
  a mantissa with two residual bits, which say where between two mantissas the exact quotient
  stands.  The bits survive every shift to the right, so rounding sees the exact quotient.
  Hence every quotient in the interval of a number rounds to that number.
-/
import BlockLang.Decimal.FloatText
import Mathlib

namespace BlockLang.Decimal

open Float.Model Float.Model.UnpackedFloat

/-! ## Residual bits -/

/-- A mantissa and its residual bits say where a rational number stands. -/
structure Marks (em : ExtendedMantissa) (r : ℚ) : Prop where
  le : (em.mantissa : ℚ) ≤ r
  lt : r < em.mantissa + 1
  round : em.roundBit = true ↔ (em.mantissa : ℚ) + 1 / 2 ≤ r
  sticky : em.stickyBit = true ↔ r ≠ em.mantissa ∧ r ≠ em.mantissa + 1 / 2

/-- A mantissa is nearest to a rational number, and even if another one is as near. -/
structure Nearest (mantissa : ℕ) (r : ℚ) : Prop where
  low : (mantissa : ℚ) - 1 / 2 ≤ r
  high : r ≤ mantissa + 1 / 2
  odd : mantissa % 2 = 1 → (mantissa : ℚ) - 1 / 2 < r ∧ r < mantissa + 1 / 2

namespace Marks

variable {em : ExtendedMantissa} {r : ℚ}

/-- Either residual bit says that the mantissa is not exact. -/
theorem inexact_iff (h : Marks em r) :
    (em.roundBit || em.stickyBit) = true ↔ r ≠ em.mantissa := by
  rw [Bool.or_eq_true, h.round, h.sticky]
  constructor
  · rintro (hround | ⟨hne, -⟩)
    · intro heq
      linarith
    · exact hne
  · intro hne
    by_cases hhalf : r = em.mantissa + 1 / 2
    · exact .inl hhalf.ge
    · exact .inr ⟨hne, hhalf⟩

theorem shiftRightOne (h : Marks em r) : Marks em.shiftRightOne (r / 2) := by
  have hle := h.le
  have hlt := h.lt
  have hparts : (em.mantissa : ℚ) = 2 * (em.mantissa / 2 : ℕ) + (em.mantissa % 2 : ℕ) := by
    exact_mod_cast (Nat.div_add_mod em.mantissa 2).symm
  -- The last bit becomes the round bit, and the old round bit joins the sticky one.
  rcases Nat.mod_two_eq_zero_or_one em.mantissa with hmod | hmod
  all_goals
    rw [hmod] at hparts
    refine ⟨?_, ?_, ?_, ?_⟩
  all_goals
    simp only [ExtendedMantissa.shiftRightOne, hmod, h.inexact_iff, ne_eq]
    push_cast at hparts
  · linarith
  · linarith
  · constructor
    · simp
    · intro hhalf
      linarith
  · constructor
    · intro hne
      exact ⟨fun heq => hne (by linarith), fun heq => by linarith⟩
    · rintro ⟨hne, -⟩ heq
      exact hne (by linarith)
  · linarith
  · linarith
  · constructor
    · intro
      linarith
    · simp
  · constructor
    · intro hne
      exact ⟨fun heq => by linarith, fun heq => hne (by linarith)⟩
    · rintro ⟨-, hne⟩ heq
      exact hne (by linarith)

theorem shiftRight (h : Marks em r) (n : ℕ) : Marks (em >>> n) (r / 2 ^ n) := by
  induction n with
  | zero =>
      rw [pow_zero, div_one]
      exact h
  | succ n ih =>
      rw [pow_succ, ← div_div]
      exact ih.shiftRightOne

/-- Rounding finds the nearest mantissa. -/
theorem roundedMantissa_eq (h : Marks em r) {mantissa : ℕ} (hnear : Nearest mantissa r) :
    em.roundedMantissa = mantissa := by
  obtain ⟨m, roundBit, stickyBit⟩ := em
  obtain ⟨hle, hlt, hround, hsticky⟩ := h
  dsimp only at hle hlt hround hsticky
  have hlow := hnear.low
  have hhigh := hnear.high
  -- The candidates are the two mantissas around the number.
  have hcases : mantissa = m ∨ mantissa = m + 1 := by
    have h₁ : (m : ℚ) < mantissa + 1 := by linarith
    have h₂ : (mantissa : ℚ) < m + 2 := by linarith
    have h₁' : m < mantissa + 1 := by exact_mod_cast h₁
    have h₂' : mantissa < m + 2 := by exact_mod_cast h₂
    omega
  cases roundBit with
  | false =>
      have hbelow : r < m + 1 / 2 := by simpa using hround
      have heq : mantissa = m := by
        rcases hcases with heq | heq
        · exact heq
        · rw [heq] at hlow
          push_cast at hlow
          linarith
      cases stickyBit <;> exact heq.symm
  | true =>
      have habove : (m : ℚ) + 1 / 2 ≤ r := hround.1 rfl
      cases stickyBit with
      | true =>
          have hne := (hsticky.1 rfl).2
          rcases hcases with heq | heq
          · rw [heq] at hhigh
            exact absurd (le_antisymm hhigh habove) hne
          · exact heq.symm
      | false =>
          have hhalf : r = m + 1 / 2 := by
            by_contra hne
            have : r ≠ m := fun heq => by linarith
            simpa using hsticky.2 ⟨this, hne⟩
          -- The number is half-way, so the even candidate is the nearest.
          show m + m % 2 = mantissa
          have heven : mantissa % 2 = 0 := by
            by_contra hodd
            obtain ⟨h₁, h₂⟩ := hnear.odd (by omega)
            rcases hcases with heq | heq
            · rw [heq] at h₂
              linarith
            · rw [heq] at h₁
              push_cast at h₁
              linarith
          omega

end Marks

/-- The residual bits that stand for a fraction. -/
theorem ofMantissaAndAccuracy_fraction (m : ℕ) {num den : ℕ} (hlt : num < den) :
    ExtendedMantissa.ofMantissaAndAccuracy m (accuracyOfFraction num den) =
      ⟨m, decide (den ≤ 2 * num), decide (num ≠ 0 ∧ 2 * num ≠ den)⟩ := by
  rw [accuracyOfFraction]
  by_cases hzero : num = 0
  · have : ¬den ≤ 0 := by omega
    simp [hzero, this, ExtendedMantissa.ofMantissaAndAccuracy]
  · rw [if_neg hzero]
    rcases Nat.lt_trichotomy (2 * num) den with h | h | h
    · have : ¬den ≤ 2 * num := by omega
      simp [Nat.compare_eq_lt.2 h, ExtendedMantissa.ofMantissaAndAccuracy, this, hzero, h.ne]
    · simp [ExtendedMantissa.ofMantissaAndAccuracy, h]
    · simp [Nat.compare_eq_gt.2 h, ExtendedMantissa.ofMantissaAndAccuracy, h.le, hzero, h.ne']

/-- The whole part and the residual bits of a quotient of natural numbers. -/
theorem Marks.of_quotient (num : ℕ) {den : ℕ} (hden : 0 < den) :
    Marks (.ofMantissaAndAccuracy (num / den) (accuracyOfFraction (num % den) den))
      (num / den : ℚ) := by
  have hpos : (0 : ℚ) < den := by exact_mod_cast hden
  have hrest : num % den < den := Nat.mod_lt num hden
  have hlt : ((num % den : ℕ) : ℚ) < den := by exact_mod_cast hrest
  have hparts : (num : ℚ) = den * (num / den : ℕ) + (num % den : ℕ) := by
    exact_mod_cast (Nat.div_add_mod num den).symm
  have hvalue : (num / den : ℚ) = (num / den : ℕ) + (num % den : ℕ) / den := by
    rw [hparts, add_div, mul_div_cancel_left₀ _ hpos.ne']
  rw [ofMantissaAndAccuracy_fraction _ hrest, hvalue]
  generalize num / den = m
  generalize num % den = rest at hlt
  refine ⟨?_, ?_, ?_, ?_⟩
  · show (m : ℚ) ≤ m + rest / den
    have : (0 : ℚ) ≤ rest / den := by positivity
    linarith
  · show (m : ℚ) + rest / den < m + 1
    have : (rest / den : ℚ) < 1 := (div_lt_one hpos).2 hlt
    linarith
  · show decide (den ≤ 2 * rest) = true ↔ (m : ℚ) + 1 / 2 ≤ m + rest / den
    rw [decide_eq_true_iff, add_le_add_iff_left, div_le_div_iff₀ two_pos hpos, one_mul,
      mul_comm (rest : ℚ)]
    norm_cast
  · show decide (rest ≠ 0 ∧ 2 * rest ≠ den) = true ↔
      (m : ℚ) + rest / den ≠ m ∧ (m : ℚ) + rest / den ≠ m + 1 / 2
    rw [decide_eq_true_iff, ne_eq, ne_eq, ne_eq, ne_eq, add_eq_left, add_right_inj,
      div_eq_div_iff hpos.ne' two_ne_zero, one_mul, mul_comm (rest : ℚ), div_eq_zero_iff,
      or_iff_left hpos.ne']
    norm_cast

/-! ## Numbers and their intervals -/

/-- The form in which a positive number is kept: its mantissa has 53 bits, or fewer and the
    least exponent. -/
structure Canonical (m : ℕ) (e : ℤ) : Prop where
  pos : 0 < m
  lt : m < 2 ^ 53
  least : -1074 ≤ e
  full : e = -1074 ∨ 2 ^ 52 ≤ m

/-- A rational number lies in the interval of `m · 2 ^ e`, given in quarters of the gap to the
    next larger number.  Below a power of two the gap is half as large. -/
structure RoundsTo (q : ℚ) (m : ℕ) (e : ℤ) : Prop where
  low : (4 * m - 2) * 2 ^ (e - 2) ≤ q
  narrow : m = 2 ^ 52 → e ≠ -1074 → (4 * m - 1) * 2 ^ (e - 2) ≤ q
  high : q ≤ (4 * m + 2) * 2 ^ (e - 2)
  odd : m % 2 = 1 → (4 * m - 2) * 2 ^ (e - 2) < q ∧ q < (4 * m + 2) * 2 ^ (e - 2)

/-- The exponent that a number with a leading bit at `t` is kept with. -/
theorem targetExponent_eq (t : ℤ) :
    Format.binary64.targetExponent t = max (t - 53) (-1074) := rfl

/-- A power of two is a number of quarters of another one. -/
theorem zpow_eq_quarters (e : ℤ) (k : ℕ) : (2 : ℚ) ^ (e - 2 + k) = 2 ^ k * 2 ^ (e - 2) := by
  rw [zpow_add₀ two_ne_zero, zpow_natCast, mul_comm]

theorem shiftToTargetExponent_of_lt {m : ℕ} {e : ℤ} (hm : m < 2 ^ 53) (he : -1074 ≤ e) :
    shiftToTargetExponent .binary64 m e .exact = (⟨m, false, false⟩, e) := by
  have hlog : m.log2 < 53 := by
    by_cases hzero : m = 0
    · rw [hzero]
      decide
    · exact (Nat.log2_lt hzero).2 hm
  have hshift : (Format.binary64.targetExponent (totalExponent m e) - e).toNat = 0 := by
    rw [targetExponent_eq, totalExponent]
    omega
  rw [shiftToTargetExponent, shiftToExponent, hshift]
  simp only [Nat.cast_zero, add_zero]
  rfl

theorem shiftToTargetExponent_overflow {e : ℤ} (he : -1074 ≤ e) :
    shiftToTargetExponent .binary64 (2 ^ 53) e .exact = (⟨2 ^ 52, false, false⟩, e + 1) := by
  have hshift : (Format.binary64.targetExponent (totalExponent (2 ^ 53) e) - e).toNat = 1 := by
    rw [targetExponent_eq, totalExponent, Nat.log2_two_pow]
    omega
  rw [shiftToTargetExponent, shiftToExponent, hshift]
  rfl

/-- How rounding goes on when the mantissa has been rounded. -/
theorem roundWithAccuracy_of_shift {sign : Sign} {m : ℕ} {e : ℤ} {accuracy : Accuracy}
    {em em' : ExtendedMantissa} {e₁ e' : ℤ}
    (hfirst : shiftToTargetExponent .binary64 m e accuracy = (em, e₁))
    (hsecond : shiftToTargetExponent .binary64 em.roundedMantissa e₁ .exact = (em', e'))
    (hpos : 0 < em'.mantissa) :
    roundWithAccuracy .binary64 sign m e accuracy = .finite sign em'.mantissa e' hpos := by
  rw [roundWithAccuracy, hfirst]
  dsimp only
  rw [hsecond]
  exact dif_neg hpos.ne'

section Rounding

variable {sign : Sign} {m M : ℕ} {e E : ℤ} {accuracy : Accuracy} {q : ℚ}

/-- Shifting to an exponent keeps the place of the number. -/
theorem exists_shiftToTargetExponent
    (hmarks : Marks (.ofMantissaAndAccuracy m accuracy) (q / 2 ^ e)) {target : ℤ}
    (htarget : Format.binary64.targetExponent (totalExponent m e) = target) (hle : e ≤ target) :
    ∃ em, shiftToTargetExponent .binary64 m e accuracy = (em, target) ∧
      Marks em (q / 2 ^ target) := by
  have hshift : e + (target - e).toNat = target := by omega
  refine ⟨ExtendedMantissa.ofMantissaAndAccuracy m accuracy >>> (target - e).toNat, ?_, ?_⟩
  · rw [shiftToTargetExponent, shiftToExponent, htarget, hshift]
  · have := hmarks.shiftRight (target - e).toNat
    rwa [div_div, ← zpow_natCast, ← zpow_add₀ two_ne_zero, hshift] at this

/-- Where the leading bit of the rounded number stands. -/
theorem leading_bit (hmarks : Marks (.ofMantissaAndAccuracy m accuracy) (q / 2 ^ e))
    (hfit : e ≤ Format.binary64.targetExponent (totalExponent m e)) :
    q < 2 ^ totalExponent m e ∧
      (Format.binary64.targetExponent (totalExponent m e) = -1074 ∨
        2 ^ (totalExponent m e - 1) ≤ q) := by
  have hpow : (0 : ℚ) < 2 ^ e := by positivity
  have hmantissa : (ExtendedMantissa.ofMantissaAndAccuracy m accuracy).mantissa = m := by
    rcases accuracy with _ | (_ | _ | _) <;> rfl
  have hle := hmarks.le
  have hlt := hmarks.lt
  rw [hmantissa] at hle hlt
  rw [le_div_iff₀ hpow] at hle
  rw [div_lt_iff₀ hpow] at hlt
  have htotal : totalExponent m e = e + (m.log2 + 1 : ℕ) := by
    rw [totalExponent]
    omega
  refine ⟨?_, ?_⟩
  · rw [htotal, zpow_add₀ two_ne_zero, zpow_natCast, mul_comm]
    have hbound : (m : ℚ) + 1 ≤ 2 ^ (m.log2 + 1) := by
      exact_mod_cast Nat.lt_log2_self (n := m)
    exact hlt.trans_le (mul_le_mul_of_nonneg_right hbound hpow.le)
  · by_cases hzero : m = 0
    · left
      rw [targetExponent_eq, htotal, hzero] at hfit ⊢
      simp only [Nat.log2_zero] at hfit ⊢
      omega
    · right
      have hexp : totalExponent m e - 1 = e + (m.log2 : ℕ) := by omega
      rw [hexp, zpow_add₀ two_ne_zero, zpow_natCast, mul_comm]
      have hbound : (2 : ℚ) ^ m.log2 ≤ m := by
        exact_mod_cast Nat.log2_self_le hzero
      exact (mul_le_mul_of_nonneg_right hbound hpow.le).trans hle

/-- A number in the interval of a canonical one has the exponent of that one, or lies below
    the least mantissa with 53 bits and has the exponent before. -/
theorem target_cases (hc : Canonical M E) (hq : RoundsTo q M E) {t : ℤ} (hlt : q < 2 ^ t)
    (hle : max (t - 53) (-1074) = -1074 ∨ 2 ^ (t - 1) ≤ q) :
    max (t - 53) (-1074) = E ∨
      (max (t - 53) (-1074) = E - 1 ∧ M = 2 ^ 52 ∧ E ≠ -1074 ∧ q < 2 ^ (E - 2 + (54 : ℕ))) := by
  have hquarter : (0 : ℚ) < 2 ^ (E - 2) := by positivity
  have hleast := hc.least
  have hmantissa : (M : ℚ) + 1 ≤ 2 ^ 53 := by exact_mod_cast hc.lt
  have hupper : max (t - 53) (-1074) ≤ E := by
    rcases hle with hmin | hle
    · omega
    · have hbound : q < 2 ^ (E - 2 + (55 : ℕ)) := by
        rw [zpow_eq_quarters]
        refine hq.high.trans_lt (mul_lt_mul_of_pos_right ?_ hquarter)
        linarith
      have := (zpow_lt_zpow_iff_right₀ one_lt_two).1 (hle.trans_lt hbound)
      omega
  -- Only the interval of the least mantissa with 53 bits reaches below its power of two.
  rcases hc.full with hmin | hfull
  · left
    omega
  · have hfull' : (2 : ℚ) ^ 52 ≤ M := by exact_mod_cast hfull
    by_cases hhigh : 2 ^ (E - 2 + (54 : ℕ)) ≤ q
    · left
      have := (zpow_lt_zpow_iff_right₀ one_lt_two).1 (hhigh.trans_lt hlt)
      omega
    · rw [not_le] at hhigh
      have hM : M = 2 ^ 52 := by
        have hscaled := hq.low.trans_lt hhigh
        rw [zpow_eq_quarters] at hscaled
        have hsmall : (4 * M - 2 : ℚ) < 2 ^ 54 := lt_of_mul_lt_mul_right hscaled hquarter.le
        have hsmall' : (M : ℚ) < 2 ^ 52 + 1 := by linarith
        have : M < 2 ^ 52 + 1 := by exact_mod_cast hsmall'
        omega
      by_cases hE : E = -1074
      · left
        omega
      · have hbound : (2 : ℚ) ^ (E - 2 + (53 : ℕ)) ≤ q := by
          rw [zpow_eq_quarters]
          refine le_trans (mul_le_mul_of_nonneg_right ?_ hquarter.le) hq.low
          linarith
        have := (zpow_lt_zpow_iff_right₀ one_lt_two).1 (hbound.trans_lt hlt)
        by_cases heq : max (t - 53) (-1074) = E
        · exact .inl heq
        · exact .inr ⟨by omega, hM, hE, hhigh⟩

/-- The mantissa of the interval is nearest when the exponents agree. -/
theorem RoundsTo.nearest (hq : RoundsTo q M E) : Nearest M (q / 2 ^ E) := by
  have hpow : (0 : ℚ) < 2 ^ E := by positivity
  have hE : (2 : ℚ) ^ E = 4 * 2 ^ (E - 2) := by
    have := zpow_eq_quarters E 2
    rw [Nat.cast_ofNat, Int.sub_add_cancel] at this
    linarith
  refine ⟨?_, ?_, fun hodd => ⟨?_, ?_⟩⟩
  · rw [le_div_iff₀ hpow, hE]
    linarith [hq.low]
  · rw [div_le_iff₀ hpow, hE]
    linarith [hq.high]
  · rw [lt_div_iff₀ hpow, hE]
    linarith [(hq.odd hodd).1]
  · rw [div_lt_iff₀ hpow, hE]
    linarith [(hq.odd hodd).2]

/-- Below the least mantissa with 53 bits the nearest one at the exponent before has 54. -/
theorem RoundsTo.nearest_below (hq : RoundsTo q M E) (hM : M = 2 ^ 52) (hE : E ≠ -1074)
    (hlt : q < 2 ^ (E - 2 + (54 : ℕ))) : Nearest (2 ^ 53) (q / 2 ^ (E - 1)) := by
  have hpow : (0 : ℚ) < 2 ^ (E - 1) := by positivity
  have hhalf : (2 : ℚ) ^ (E - 1) = 2 * 2 ^ (E - 2) := by
    rw [show E - 1 = E - 2 + (1 : ℕ) by omega, zpow_eq_quarters, pow_one]
  have hlow := hq.narrow hM hE
  rw [hM] at hlow
  push_cast at hlow
  rw [zpow_eq_quarters] at hlt
  refine ⟨?_, ?_, fun hodd => ?_⟩
  · rw [le_div_iff₀ hpow, hhalf]
    push_cast
    linarith
  · rw [div_le_iff₀ hpow, hhalf]
    have : (0 : ℚ) < 2 ^ (E - 2) := by positivity
    push_cast
    linarith
  · exact absurd hodd (by decide)

/-- Every number in the interval of a canonical one rounds to that one. -/
theorem roundWithAccuracy_eq (hmarks : Marks (.ofMantissaAndAccuracy m accuracy) (q / 2 ^ e))
    (hfit : e ≤ Format.binary64.targetExponent (totalExponent m e)) (hc : Canonical M E)
    (hq : RoundsTo q M E) :
    roundWithAccuracy .binary64 sign m e accuracy = .finite sign M E hc.pos := by
  obtain ⟨em, hfirst, hplace⟩ := exists_shiftToTargetExponent hmarks rfl hfit
  obtain ⟨hlt, hle⟩ := leading_bit hmarks hfit
  rw [targetExponent_eq] at hle hfirst hplace
  rcases target_cases hc hq hlt hle with htarget | ⟨htarget, hM, hE, hbelow⟩
  · rw [htarget] at hfirst hplace
    have hrounded : em.roundedMantissa = M := hplace.roundedMantissa_eq hq.nearest
    have hsecond := shiftToTargetExponent_of_lt hc.lt hc.least
    rw [← hrounded] at hsecond
    rw [roundWithAccuracy_of_shift hfirst hsecond (hrounded ▸ hc.pos)]
    congr 1
  · rw [htarget] at hfirst hplace
    have hrounded : em.roundedMantissa = 2 ^ 53 :=
      hplace.roundedMantissa_eq (hq.nearest_below hM hE hbelow)
    have hsecond := shiftToTargetExponent_overflow (e := E - 1) (by have := hc.least; omega)
    rw [← hrounded] at hsecond
    rw [roundWithAccuracy_of_shift hfirst hsecond (by decide)]
    subst hM
    congr 1
    omega

end Rounding

/-! ## Quotients -/

/-- A whole quotient has at least as many bits as the lengths of its parts promise. -/
theorem two_pow_le_div {m₁ m₂ s : ℕ} (h₁ : 0 < m₁) (h₂ : 0 < m₂)
    (hbits : m₂.log2 + 53 ≤ m₁.log2 + s) : 2 ^ 52 ≤ m₁ * 2 ^ s / m₂ := by
  rw [Nat.le_div_iff_mul_le h₂]
  calc 2 ^ 52 * m₂ ≤ 2 ^ 52 * 2 ^ (m₂.log2 + 1) :=
        Nat.mul_le_mul_left _ Nat.lt_log2_self.le
    _ = 2 ^ (m₂.log2 + 53) := by rw [← Nat.pow_add, Nat.add_comm]
    _ ≤ 2 ^ (m₁.log2 + s) := Nat.pow_le_pow_right two_pos hbits
    _ = 2 ^ m₁.log2 * 2 ^ s := Nat.pow_add ..
    _ ≤ m₁ * 2 ^ s := Nat.mul_le_mul_right _ (Nat.log2_self_le h₁.ne')

/-- A quotient in the interval of a canonical number is computed as that number. -/
theorem div_eq {m₁ m₂ M : ℕ} {e₁ e₂ E : ℤ} (h₁ : 0 < m₁) (h₂ : 0 < m₂) (hc : Canonical M E)
    (hq : RoundsTo (m₁ * 2 ^ e₁ / (m₂ * 2 ^ e₂)) M E) :
    div .binary64 (.finite .positive m₁ e₁ h₁) (.finite .positive m₂ e₂ h₂) =
      .finite .positive M E hc.pos := by
  have hdiv : div .binary64 (.finite .positive m₁ e₁ h₁) (.finite .positive m₂ e₂ h₂) =
      roundWithAccuracy .binary64 .positive (divCore .binary64 m₁ e₁ m₂ e₂).1
        (divCore .binary64 m₁ e₁ m₂ e₂).2.1 (divCore .binary64 m₁ e₁ m₂ e₂).2.2 := rfl
  rw [hdiv, divCore, targetExponent_eq, totalExponent, totalExponent]
  dsimp only
  -- The exponent of the whole quotient, and how far the dividend is shifted for it.
  generalize hexp : min (e₁ - e₂) (max (m₁.log2 + 1 + e₁ - (m₂.log2 + 1 + e₂) - 53) (-1074)) = e
  obtain ⟨s, hs⟩ : ∃ s : ℕ, e₁ - e₂ - e = s := ⟨(e₁ - e₂ - e).toNat, by omega⟩
  rw [hs, Int.toNat_natCast, Nat.shiftLeft_eq]
  have hvalue : (m₁ * 2 ^ e₁ / (m₂ * 2 ^ e₂) : ℚ) / 2 ^ e = ((m₁ * 2 ^ s : ℕ) : ℚ) / m₂ := by
    have hpow : (2 : ℚ) ^ e₁ = 2 ^ s * 2 ^ e₂ * 2 ^ e := by
      rw [← zpow_natCast, ← zpow_add₀ two_ne_zero, ← zpow_add₀ two_ne_zero]
      congr 1
      omega
    have h₂' : (m₂ : ℚ) ≠ 0 := by exact_mod_cast h₂.ne'
    rw [hpow]
    push_cast
    field_simp
  refine roundWithAccuracy_eq (hvalue ▸ Marks.of_quotient _ h₂) ?_ hc hq
  rw [targetExponent_eq, totalExponent]
  by_cases hmin : e ≤ -1074
  · omega
  · have hbits := two_pow_le_div h₁ h₂ (s := s) (by omega)
    have : 52 ≤ (m₁ * 2 ^ s / m₂).log2 :=
      (Nat.le_log2 (by have := Nat.two_pow_pos 52; omega)).2 hbits
    omega

/-! ## Bit patterns -/

theorem toNat_packComponents (exponent : BitVec 11) (mantissa : BitVec 52) :
    (packComponents .binary64 .positive exponent mantissa).toNat =
      exponent.toNat * 2 ^ 52 + mantissa.toNat := by
  simp only [packComponents, Sign.toBitVec, BitVec.toNat_append]
  rw [← Nat.shiftLeft_add_eq_or_of_lt mantissa.isLt]
  simp [Nat.shiftLeft_eq]

theorem unpackSign_packComponents (exponent : BitVec 11) (mantissa : BitVec 52) :
    unpackSign (packComponents .binary64 .positive exponent mantissa) = 0#1 := by
  have hlt : exponent.toNat * 2 ^ 52 + mantissa.toNat < 2 ^ 63 := by
    have := exponent.isLt
    have := mantissa.isLt
    omega
  apply BitVec.eq_of_toNat_eq
  rw [unpackSign, BitVec.toNat_cast, BitVec.extractLsb_toNat, toNat_packComponents]
  show (exponent.toNat * 2 ^ 52 + mantissa.toNat) >>> 63 % 2 ^ 1 = 0
  rw [Nat.shiftRight_eq_div_pow, Nat.div_eq_of_lt hlt]

theorem log2_eq {M : ℕ} (hlt : M < 2 ^ 53) (hfull : 2 ^ 52 ≤ M) : M.log2 = 52 :=
  (Nat.log2_eq_iff (by have := Nat.two_pow_pos 52; omega)).2 ⟨hfull, hlt⟩

theorem pack_normal {M : ℕ} {E : ℤ} (hc : Canonical M E) (hfull : 2 ^ 52 ≤ M) (hE : E ≤ 971) :
    pack .binary64 (.finite .positive M E hc.pos) =
      packComponents .binary64 .positive (BitVec.ofNat 11 (E + 1075).toNat)
        (BitVec.ofNat 52 M) := by
  have hleast := hc.least
  have hbiased : E + Format.binary64.exponentBias + (52 : ℕ) = E + 1075 := by
    show E + (1023 : ℕ) + (52 : ℕ) = E + 1075
    omega
  rw [UnpackedFloat.pack]
  dsimp only
  rw [hbiased, if_neg (by norm_num; omega), if_pos (by rw [log2_eq hc.lt hfull]; rfl)]

theorem pack_subnormal {M : ℕ} (hpos : 0 < M) (hlt : M < 2 ^ 52) :
    pack .binary64 (.finite .positive M (-1074) hpos) =
      packComponents .binary64 .positive 0#11 (BitVec.ofNat 52 M) := by
  have hlog : M.log2 < 52 := (Nat.log2_lt hpos.ne').2 hlt
  rw [UnpackedFloat.pack]
  dsimp only
  rw [if_neg (by decide), if_neg]
  show M.log2 + 1 ≠ 53
  omega

/-- A bit pattern with a sign, an exponent and a mantissa of a normal number. -/
theorem unpack_normal {b : BitVec 64} {M : ℕ} {E : ℤ} (hpos : 0 < M)
    (hsign : @unpackSign .binary64 b = 0#1)
    (hones : @unpackExponent .binary64 b ≠ -1#11)
    (hzeros : @unpackExponent .binary64 b ≠ 0#11)
    (hM : (1#1 ++ @unpackMantissa .binary64 b).toNat = M)
    (hE : ((@unpackExponent .binary64 b).toNat : ℤ) - 1075 = E) :
    UnpackedFloat.unpack .binary64 b = .finite .positive M E hpos := by
  subst hM hE
  rw [UnpackedFloat.unpack]
  dsimp only
  rw [if_neg hones, if_neg hzeros, hsign]
  rfl

theorem unpack_pack_normal {M : ℕ} {E : ℤ} (hc : Canonical M E) (hfull : 2 ^ 52 ≤ M)
    (hE : E ≤ 971) :
    (Float.Model.pack (.finite .positive M E hc.pos)).unpack = .finite .positive M E hc.pos := by
  have hleast := hc.least
  have hlt := hc.lt
  have hexponent : (BitVec.ofNat 11 (E + 1075).toNat).toNat = (E + 1075).toNat := by
    rw [BitVec.toNat_ofNat, Nat.mod_eq_of_lt]
    omega
  have hones : BitVec.ofNat 11 (E + 1075).toNat ≠ -1#11 := by
    intro h
    have := congrArg BitVec.toNat h
    rw [hexponent] at this
    have hnat : (-1#11).toNat = 2047 := by decide
    omega
  have hzeros : BitVec.ofNat 11 (E + 1075).toNat ≠ 0#11 := by
    intro h
    have := congrArg BitVec.toNat h
    rw [hexponent] at this
    have hnat : (0#11).toNat = 0 := by decide
    omega
  have hmantissa : (1#1 ++ BitVec.ofNat 52 M).toNat = M := by
    rw [BitVec.toNat_append, ← Nat.shiftLeft_add_eq_or_of_lt (BitVec.isLt _), BitVec.toNat_ofNat,
      BitVec.toNat_ofNat, Nat.shiftLeft_eq]
    omega
  have hpacked : (Float.Model.pack (.finite .positive M E hc.pos)).toBits.toBitVec =
      packComponents .binary64 .positive (BitVec.ofNat 11 (E + 1075).toNat)
        (BitVec.ofNat 52 M) := pack_normal hc hfull hE
  rw [Float.Model.unpack, hpacked]
  refine unpack_normal hc.pos (unpackSign_packComponents _ _) ?_ ?_ ?_ ?_
  · rwa [unpackExponent_packComponents]
  · rwa [unpackExponent_packComponents]
  · rwa [unpackMantissa_packComponents]
  · rw [unpackExponent_packComponents, hexponent]
    omega

/-- Floating-point numbers with the same bits are the same. -/
theorem float_ext {x y : Float} (h : x.toBits.toNat = y.toBits.toNat) : x = y := by
  obtain ⟨⟨bits, valid⟩⟩ := x
  obtain ⟨⟨bits', valid'⟩⟩ := y
  obtain rfl : bits = bits' := UInt64.toNat_inj.1 h
  rfl

theorem eq_pack_normal {x : Float} {M : ℕ} {E : ℤ} (hc : Canonical M E) (hfull : 2 ^ 52 ≤ M)
    (hE : E ≤ 971) (hbits : x.toBits.toNat = (E + 1075).toNat * 2 ^ 52 + (M - 2 ^ 52)) :
    x = .ofModel (.pack (.finite .positive M E hc.pos)) := by
  have hleast := hc.least
  have hlt := hc.lt
  apply float_ext
  rw [hbits]
  show _ = (UnpackedFloat.pack .binary64 (.finite .positive M E hc.pos)).toNat
  rw [pack_normal hc hfull hE, toNat_packComponents, BitVec.toNat_ofNat, BitVec.toNat_ofNat,
    Nat.mod_eq_of_lt (by omega)]
  omega

theorem eq_pack_subnormal {x : Float} {M : ℕ} (hpos : 0 < M) (hlt : M < 2 ^ 52)
    (hbits : x.toBits.toNat = M) :
    x = .ofModel (.pack (.finite .positive M (-1074) hpos)) := by
  apply float_ext
  rw [hbits]
  show _ = (UnpackedFloat.pack .binary64 (.finite .positive M (-1074) hpos)).toNat
  rw [pack_subnormal hpos hlt, toNat_packComponents, BitVec.toNat_ofNat, BitVec.toNat_ofNat,
    Nat.mod_eq_of_lt hlt]
  omega

/-! ## Decimal fractions -/

/-- Rounding keeps a canonical number. -/
theorem roundWithAccuracy_exact {sign : Sign} {M : ℕ} {E : ℤ} (hc : Canonical M E) :
    roundWithAccuracy .binary64 sign M E .exact = .finite sign M E hc.pos :=
  have hshift := shiftToTargetExponent_of_lt hc.lt hc.least
  roundWithAccuracy_of_shift hshift hshift hc.pos

/-- The canonical form of a natural number with at most 53 bits. -/
theorem canonical_shift {n : ℕ} (hpos : 0 < n) (hlt : n < 2 ^ 53) :
    Canonical (n * 2 ^ (52 - n.log2)) (n.log2 - 52) ∧ 2 ^ 52 ≤ n * 2 ^ (52 - n.log2) := by
  have hlog : n.log2 < 53 := (Nat.log2_lt hpos.ne').2 hlt
  have hfull : 2 ^ 52 ≤ n * 2 ^ (52 - n.log2) := by
    calc 2 ^ 52 = 2 ^ n.log2 * 2 ^ (52 - n.log2) := by rw [← Nat.pow_add]; congr 1; omega
      _ ≤ n * 2 ^ (52 - n.log2) := Nat.mul_le_mul_right _ (Nat.log2_self_le hpos.ne')
  have hbound : n * 2 ^ (52 - n.log2) < 2 ^ 53 := by
    calc n * 2 ^ (52 - n.log2) < 2 ^ (n.log2 + 1) * 2 ^ (52 - n.log2) :=
          Nat.mul_lt_mul_of_pos_right Nat.lt_log2_self (Nat.two_pow_pos _)
      _ = 2 ^ 53 := by rw [← Nat.pow_add]; congr 1; omega
  exact ⟨⟨by positivity, hbound, by omega, .inr hfull⟩, hfull⟩

/-- A natural number with at most 53 bits is converted without loss. -/
theorem ofUInt64_eq {n : ℕ} (hpos : 0 < n) (hlt : n < 2 ^ 53) :
    UnpackedFloat.ofUInt64 .binary64 n.toUInt64 =
      .finite .positive (n * 2 ^ (52 - n.log2)) (n.log2 - 52)
        (canonical_shift hpos hlt).1.pos := by
  have hlog : n.log2 < 53 := (Nat.log2_lt hpos.ne').2 hlt
  have hnat : n.toUInt64.toNat = n := by
    show n % 2 ^ 64 = n
    omega
  have hcompare : compare (n : ℤ) 0 = .gt := by
    rw [compare_gt_iff_gt]
    exact_mod_cast hpos
  have hshift : (0 - Format.binary64.targetExponent (totalExponent n 0)).toNat = 52 - n.log2 := by
    rw [targetExponent_eq, totalExponent]
    omega
  have hexp : (0 : ℤ) - (52 - n.log2 : ℕ) = n.log2 - 52 := by omega
  rw [UnpackedFloat.ofUInt64, UnpackedFloat.ofNat, UnpackedFloat.ofInt,
    UnpackedFloat.normalize, hnat, hcompare]
  dsimp only
  rw [Int.toNat_natCast, UnpackedFloat.round, decreaseExponent, hshift, hexp, Nat.shiftLeft_eq]
  exact roundWithAccuracy_exact (canonical_shift hpos hlt).1

/-- A power of ten in the table has the fields of that power. -/
theorem exactlyRepresentablePowersOfTen_fields (k : Fin 23) :
    ∃ x : Float, Float.exactlyRepresentablePowersOfTen[k.val]? = some x ∧
      x.toBits.toNat = ((10 ^ k.val).log2 + 1023) * 2 ^ 52 +
        (10 ^ k.val * 2 ^ 52 / 2 ^ (10 ^ k.val).log2 - 2 ^ 52) := by
  refine ⟨_, Array.getElem?_eq_getElem (by decide +revert), ?_⟩
  decide +revert +kernel

/-- The powers of ten in the table are exact. -/
theorem unpack_powerOfTen {k : ℕ} (hk : k ≤ 22) :
    ∃ (x : Float) (P : ℕ) (Q : ℤ) (hP : 0 < P),
      Float.exactlyRepresentablePowersOfTen[k]? = some x ∧
      x.toModel.unpack = .finite .positive P Q hP ∧ (P : ℚ) * 2 ^ Q = 10 ^ k := by
  obtain ⟨x, hx, hbits⟩ := exactlyRepresentablePowersOfTen_fields ⟨k, by omega⟩
  have hexact : ∀ k : Fin 23,
      10 ^ k.val * 2 ^ 52 / 2 ^ (10 ^ k.val).log2 * 2 ^ (10 ^ k.val).log2 =
          10 ^ k.val * 2 ^ 52 ∧
        2 ^ 52 ≤ 10 ^ k.val * 2 ^ 52 / 2 ^ (10 ^ k.val).log2 ∧
        10 ^ k.val * 2 ^ 52 / 2 ^ (10 ^ k.val).log2 < 2 ^ 53 ∧ (10 ^ k.val).log2 ≤ 100 := by
    decide +kernel
  obtain ⟨hP, hfull, hlt, hlog⟩ := hexact ⟨k, by omega⟩
  dsimp only at hx hbits hP hfull hlt hlog
  generalize (10 ^ k).log2 = l at hbits hP hfull hlt hlog
  generalize 10 ^ k * 2 ^ 52 / 2 ^ l = P at hbits hP hfull hlt
  have hc : Canonical P ((l : ℤ) - 52) := ⟨by omega, hlt, by omega, .inr hfull⟩
  have hexp : ((l : ℤ) - 52 + 1075).toNat = l + 1023 := by omega
  have hpack := eq_pack_normal hc hfull (by omega) (x := x) (by rw [hexp, hbits])
  refine ⟨x, P, (l : ℤ) - 52, hc.pos, hx, ?_, ?_⟩
  · rw [hpack]
    exact unpack_pack_normal hc hfull (by omega)
  · have hP' : (P : ℚ) * 2 ^ l = 10 ^ k * 2 ^ 52 := by exact_mod_cast hP
    rw [zpow_sub₀ two_ne_zero, zpow_natCast, mul_div_assoc', hP']
    exact mul_div_cancel_right₀ _ (by norm_num)

/-- A natural number with at most 53 bits is a floating-point number. -/
theorem unpack_toFloat {n : ℕ} (hpos : 0 < n) (hlt : n < 2 ^ 53) :
    ∃ (M : ℕ) (E : ℤ) (hM : 0 < M),
      n.toUInt64.toFloat.toModel.unpack = .finite .positive M E hM ∧ (M : ℚ) * 2 ^ E = n := by
  obtain ⟨hc, hfull⟩ := canonical_shift hpos hlt
  have hlog : n.log2 < 53 := (Nat.log2_lt hpos.ne').2 hlt
  refine ⟨n * 2 ^ (52 - n.log2), (n.log2 : ℤ) - 52, hc.pos, ?_, ?_⟩
  · show (Float.Model.pack (UnpackedFloat.ofUInt64 .binary64 n.toUInt64)).unpack = _
    rw [ofUInt64_eq hpos hlt]
    exact unpack_pack_normal hc hfull (by omega)
  · rw [show (n.log2 : ℤ) - 52 = -(52 - n.log2 : ℕ) by omega, zpow_neg, zpow_natCast]
    push_cast
    field_simp

/-- A decimal fraction is read as a quotient.  It is zero without a division when its digits
    are, or when it has so many places that it vanishes. -/
theorem ofScientific_cases (n : ℕ) {k : ℕ} (hk : 0 < k) :
    ∃ u, Float.ofScientific n true k = .ofModel (.pack u) ∧
      (u = .zero .positive ∧ (n = 0 ∨ 2048 < k) ∨
        ∃ (m₁ m₂ : ℕ) (e₁ e₂ : ℤ) (h₁ : 0 < m₁) (h₂ : 0 < m₂),
          u = div .binary64 (.finite .positive m₁ e₁ h₁) (.finite .positive m₂ e₂ h₂) ∧
          (m₁ * 2 ^ e₁ / (m₂ * 2 ^ e₂) : ℚ) = n / 10 ^ k) := by
  rw [Float.ofScientific]
  split
  case isTrue h =>
    obtain ⟨x, P, Q, hP, hx, hunpack, hvalue⟩ := unpack_powerOfTen h.2
    obtain ⟨_, hentry⟩ := Array.getElem?_eq_some_iff.1 hx
    rw [if_pos rfl, hentry]
    refine ⟨div .binary64 n.toUInt64.toFloat.toModel.unpack x.toModel.unpack, rfl, ?_⟩
    rw [hunpack]
    rcases Nat.eq_zero_or_pos n with rfl | hn
    · exact .inl ⟨rfl, .inl rfl⟩
    · obtain ⟨M, E, hM, hnum, hn'⟩ := unpack_toFloat hn h.1
      rw [hnum]
      exact .inr ⟨M, P, E, Q, hM, hP, rfl, by rw [hn', hvalue]⟩
  case isFalse h =>
    have hneg : Int.negOfNat k = -(k : ℤ) := Int.negOfNat_eq
    have hsmall : ¬-(k : ℤ) > 2 ^ 11 := by omega
    rw [if_pos rfl]
    refine ⟨UnpackedFloat.ofScientific .binary64 n (Int.negOfNat k), rfl, ?_⟩
    rw [hneg, UnpackedFloat.ofScientific]
    by_cases hn : n = 0
    · rw [dif_pos hn]
      exact .inl ⟨rfl, .inl hn⟩
    · rw [dif_neg hn, if_neg hsmall]
      by_cases hmany : -(k : ℤ) < -(2 ^ 11 + (n.log2 : ℤ))
      · rw [if_pos hmany]
        exact .inl ⟨rfl, .inr (by omega)⟩
      · rw [if_neg hmany, if_neg (by omega)]
        refine .inr ⟨n, 10 ^ (- -(k : ℤ)).toNat, 0, 0, _, _, rfl, ?_⟩
        rw [neg_neg, Int.toNat_natCast, zpow_zero, mul_one, mul_one]
        push_cast
        rfl

/-- A decimal fraction in the interval of a canonical number reads as that number. -/
theorem ofScientific_eq {n k M : ℕ} {E : ℤ} (hn : 0 < n) (hk : 0 < k) (hk' : k ≤ 2048)
    (hc : Canonical M E) (hq : RoundsTo (n / 10 ^ k) M E) :
    Float.ofScientific n true k = .ofModel (.pack (.finite .positive M E hc.pos)) := by
  obtain ⟨u, hu, ⟨-, hvanishes⟩ | ⟨m₁, m₂, e₁, e₂, h₁, h₂, hdiv, hvalue⟩⟩ :=
    ofScientific_cases n hk
  · omega
  · rw [hu, hdiv, div_eq h₁ h₂ hc (by rwa [hvalue])]

end BlockLang.Decimal
