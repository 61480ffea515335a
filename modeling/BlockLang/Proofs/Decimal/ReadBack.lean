/-
  BlockLang.Proofs.Decimal.ReadBack

  The text of a floating-point number reads as the same number.

  The units that are written lie in the interval of the number, since every candidate is
  checked and the number itself is the last one.  Trailing zeros behind the point go away
  without a change of the value.  So the text is a decimal fraction in the interval, and such
  a fraction rounds to the number.
-/
import BlockLang.Proofs.Decimal.Rounding
import Mathlib.Data.List.TakeWhile

namespace BlockLang.Decimal

/-! ## Candidates -/

namespace Target

variable {t : Target}

theorem contains_iff {n : ℕ} :
    t.contains n = true ↔
      (t.low ≤ n ∧ n ≤ t.high) ∧ (t.closed = false → t.low < n ∧ n < t.high) := by
  rw [contains]
  cases t.closed with
  | true => simp
  | false =>
      simp only [Bool.false_eq_true, if_false, Bool.and_eq_true, decide_eq_true_eq, true_implies]
      omega

theorem contains_nearestMultiple {step n : ℕ} (h : t.nearestMultiple step = some n) :
    t.contains n = true := by
  rw [nearestMultiple] at h
  generalize t.value / step * step = below at h
  split at h
  case h_1 hbelow habove =>
    obtain rfl := Option.some.inj h
    split
    · exact hbelow
    · exact habove
  case h_2 hbelow habove =>
    obtain rfl := Option.some.inj h
    exact hbelow
  case h_3 hbelow habove =>
    obtain rfl := Option.some.inj h
    exact habove
  case h_4 => cases h

theorem contains_shortestBelow (hvalue : t.contains t.value = true) (digits : ℕ) :
    t.contains (t.shortestBelow digits) = true := by
  induction digits with
  | zero => exact hvalue
  | succ digits ih =>
      rw [shortestBelow]
      cases h : t.nearestMultiple (Nat.pow 10 digits) with
      | none => exact ih
      | some n => exact contains_nearestMultiple h

end Target

/-! ## Digits -/

theorem digitsValue_eq (digits : List Char) : digitsValue digits = Nat.ofDigitChars 10 digits 0 :=
  rfl

theorem digitsValue_append (xs ys : List Char) :
    digitsValue (xs ++ ys) = digitsValue xs * 10 ^ ys.length + digitsValue ys := by
  rw [digitsValue_eq, Nat.ofDigitChars_append, Nat.ofDigitChars_eq_ofDigitChars_zero,
    Nat.mul_comm]
  rfl

@[simp] theorem digitsValue_toDigits (n : ℕ) : digitsValue (Nat.toDigits 10 n) = n :=
  Nat.ofDigitChars_ten_toDigits

@[simp] theorem digitsValue_zeros (n : ℕ) : digitsValue (List.replicate n '0') = 0 := by
  rw [digitsValue_eq, Nat.ofDigitChars_replicate_zero, Nat.mul_zero]

theorem isDigit_of_mem_toDigits {n : ℕ} {c : Char} (h : c ∈ Nat.toDigits 10 n) : c.isDigit :=
  Nat.isDigit_of_mem_toDigits (by decide) (by decide) h

/-- A list is what is left without its last zeros, and zeros. -/
theorem exists_trailing_zeros (xs : List Char) :
    ∃ z, xs = (xs.reverse.dropWhile (· == '0')).reverse ++ List.replicate z '0' := by
  refine ⟨(xs.reverse.takeWhile (· == '0')).length, ?_⟩
  have hzeros : xs.reverse.takeWhile (· == '0') =
      List.replicate (xs.reverse.takeWhile (· == '0')).length '0' := by
    rw [List.eq_replicate_iff]
    refine ⟨rfl, fun c hc => ?_⟩
    simpa using List.mem_takeWhile_imp hc
  calc xs = (xs.reverse.takeWhile (· == '0') ++ xs.reverse.dropWhile (· == '0')).reverse := by
        rw [List.takeWhile_append_dropWhile, List.reverse_reverse]
    _ = (xs.reverse.dropWhile (· == '0')).reverse ++
          (xs.reverse.takeWhile (· == '0')).reverse := List.reverse_append
    _ = _ := by
        congr 1
        conv_lhs => rw [hzeros, List.reverse_replicate]

/-- The digits behind the point with all their places. -/
theorem paddedDigits_spec {places : ℕ} (hplaces : 0 < places) (units : ℕ) :
    let digits := Nat.toDigits 10 (units % 10 ^ places)
    let padded := List.replicate (places - digits.length) '0' ++ digits
    padded.length = places ∧ digitsValue padded = units % 10 ^ places ∧
      ∀ c ∈ padded, c.isDigit := by
  intro digits padded
  have hlength : digits.length ≤ places := by
    rw [Nat.length_toDigits_le_iff (by decide) hplaces]
    exact Nat.mod_lt _ (Nat.pow_pos (by decide))
  refine ⟨?_, ?_, fun c hc => ?_⟩
  · rw [List.length_append, List.length_replicate]
    omega
  · rw [digitsValue_append, digitsValue_zeros, digitsValue_toDigits]
    omega
  · rcases List.mem_append.1 hc with hc | hc
    · obtain ⟨-, rfl⟩ := List.mem_replicate.1 hc
      decide
    · exact isDigit_of_mem_toDigits hc

theorem isDigit_zero : ∀ c ∈ ['0'], c.isDigit := by
  intro c hc
  rw [List.mem_singleton.mp hc]
  rfl

/-- Digits behind the point that together with those in front of it write a number of units. -/
structure Fraction (units places : ℕ) (fraction : List Char) : Prop where
  ne_nil : fraction ≠ []
  isDigit : ∀ c ∈ fraction, c.isDigit
  length_le : fraction.length ≤ places + 1
  value : digitsValue (Nat.toDigits 10 (units / 10 ^ places) ++ fraction) * 10 ^ places =
    units * 10 ^ fraction.length

/-- A single zero stands behind the point when nothing is left there. -/
theorem Fraction.zero {units places : ℕ} (hzero : units % 10 ^ places = 0) :
    Fraction units places ['0'] := by
  have hwhole := Nat.div_mul_cancel (Nat.dvd_of_mod_eq_zero hzero)
  refine ⟨by decide, isDigit_zero, by simp, ?_⟩
  rw [digitsValue_append, digitsValue_toDigits]
  calc (units / 10 ^ places * 10 ^ 1 + 0) * 10 ^ places
      = units / 10 ^ places * 10 ^ places * 10 ^ 1 := by ring
    _ = units * 10 ^ 1 := by rw [hwhole]

theorem fractionDigits_spec (units places : ℕ) :
    Fraction units places (fractionDigits units places) := by
  rw [fractionDigits]
  rcases Nat.eq_zero_or_pos places with rfl | hplaces
  · have hzero : units % 10 ^ 0 = 0 := Nat.mod_one units
    rw [Nat.pow_eq, hzero]
    exact Fraction.zero hzero
  · obtain ⟨hlength, hvalue, hdigits⟩ := paddedDigits_spec hplaces units
    dsimp only [Nat.pow_eq] at hlength hvalue hdigits ⊢
    generalize List.replicate _ '0' ++ Nat.toDigits 10 (units % 10 ^ places) = padded
      at hlength hvalue hdigits ⊢
    obtain ⟨z, hz⟩ := exists_trailing_zeros padded
    generalize (padded.reverse.dropWhile (· == '0')).reverse = kept at hz ⊢
    rw [hz, List.length_append, List.length_replicate] at hlength
    rw [hz, digitsValue_append, digitsValue_zeros, List.length_replicate, Nat.add_zero] at hvalue
    -- Without its trailing zeros the fraction has the same value, unless nothing is left of it.
    cases kept with
    | nil =>
        refine Fraction.zero ?_
        rw [← hvalue]
        exact Nat.zero_mul _
    | cons c cs =>
        have hparts := Nat.div_add_mod units (10 ^ places)
        dsimp only
        refine ⟨List.cons_ne_nil c cs, fun d hd => hdigits d ?_, by omega, ?_⟩
        · rw [hz]
          exact List.mem_append_left _ hd
        · generalize c :: cs = kept at hlength hvalue ⊢
          rw [digitsValue_append, digitsValue_toDigits]
          calc (units / 10 ^ places * 10 ^ kept.length + digitsValue kept) * 10 ^ places
              = (10 ^ places * (units / 10 ^ places) + digitsValue kept * 10 ^ z) *
                  10 ^ kept.length := by
                rw [← hlength, Nat.pow_add]
                ring
            _ = units * 10 ^ kept.length := by rw [hvalue, hparts]

/-! ## Units in the interval -/

/-- A quarter of the gap above a number in decimal units. -/
def quarterUnits (E : ℤ) : ℕ := if E ≤ 2 then 5 ^ (2 - E).toNat else 2 ^ (E - 2).toNat

theorem quarterUnits_pos (E : ℤ) : 0 < quarterUnits E := by
  rw [quarterUnits]
  split <;> positivity

theorem quarterUnits_eq (E : ℤ) : (quarterUnits E : ℚ) = 2 ^ (E - 2) * 10 ^ places E := by
  rw [places, quarterUnits]
  split
  case isTrue hle =>
    obtain ⟨k, hk⟩ : ∃ k : ℕ, 2 - E = k := ⟨(2 - E).toNat, by omega⟩
    rw [show E - 2 = -(k : ℤ) by omega, hk, Int.toNat_natCast, zpow_neg, zpow_natCast,
      show (10 : ℚ) = 2 * 5 by norm_num, mul_pow, inv_mul_cancel_left₀ (by positivity)]
    push_cast
    rfl
  case isFalse hlt =>
    obtain ⟨k, hk⟩ : ∃ k : ℕ, E - 2 = k := ⟨(E - 2).toNat, by omega⟩
    rw [hk, show (2 - E).toNat = 0 by omega, Int.toNat_natCast, zpow_natCast, pow_zero, mul_one]
    push_cast
    rfl

theorem target_eq (M : ℕ) (E : ℤ) (narrow : Bool) :
    target M E narrow =
      ⟨(4 * M - if narrow then 1 else 2) * quarterUnits E, 4 * M * quarterUnits E,
        (4 * M + 2) * quarterUnits E, M % 2 == 0⟩ := rfl

variable {M : ℕ} {E : ℤ} {narrow : Bool}

/-- A number lies in its own interval. -/
theorem contains_value (hpos : 0 < M) :
    (target M E narrow).contains (target M E narrow).value = true := by
  have hscale := quarterUnits_pos E
  have hlow : (4 * M - if narrow then 1 else 2) * quarterUnits E < 4 * M * quarterUnits E :=
    Nat.mul_lt_mul_of_pos_right (by split <;> omega) hscale
  have hhigh : 4 * M * quarterUnits E < (4 * M + 2) * quarterUnits E :=
    Nat.mul_lt_mul_of_pos_right (by omega) hscale
  rw [Target.contains_iff, target_eq]
  exact ⟨⟨hlow.le, hhigh.le⟩, fun _ => ⟨hlow, hhigh⟩⟩

/-- Units that a target contains are in the interval of its number. -/
theorem roundsTo_of_contains (hpos : 0 < M)
    (hnarrow : narrow = true ↔ M = 2 ^ 52 ∧ E ≠ -1074) {units : ℕ}
    (h : (target M E narrow).contains units = true) :
    RoundsTo (units / 10 ^ places E) M E := by
  have hplaces : (0 : ℚ) < 10 ^ places E := by positivity
  have hscale : (0 : ℚ) < quarterUnits E := by exact_mod_cast quarterUnits_pos E
  rw [Target.contains_iff, target_eq] at h
  -- The gap below is counted as two quarters, and as one only below a power of two.
  obtain ⟨gap, hgap⟩ : ∃ gap, gap = if narrow then 1 else 2 := ⟨_, rfl⟩
  rw [← hgap] at h
  obtain ⟨⟨hlow, hhigh⟩, hopen⟩ := h
  dsimp only at hlow hhigh hopen
  have hle : gap ≤ 2 := by split at hgap <;> omega
  have hcast : ((4 * M - gap : ℕ) : ℚ) = 4 * M - gap := by
    rw [Nat.cast_sub (by omega)]
    push_cast
    rfl
  have hlow' : (4 * M - gap : ℚ) * quarterUnits E ≤ units := by
    rw [← hcast]
    exact_mod_cast hlow
  have hle' : (gap : ℚ) ≤ 2 := by exact_mod_cast hle
  refine ⟨?_, fun hM hE => ?_, ?_, fun hodd => ⟨?_, ?_⟩⟩
  · rw [le_div_iff₀ hplaces, mul_assoc, ← quarterUnits_eq]
    exact le_trans (mul_le_mul_of_nonneg_right (by linarith) hscale.le) hlow'
  · rw [le_div_iff₀ hplaces, mul_assoc, ← quarterUnits_eq]
    rw [hnarrow.2 ⟨hM, hE⟩, if_pos rfl] at hgap
    rwa [hgap, Nat.cast_one] at hlow'
  · rw [div_le_iff₀ hplaces, mul_assoc, ← quarterUnits_eq]
    exact_mod_cast hhigh
  · rw [lt_div_iff₀ hplaces, mul_assoc, ← quarterUnits_eq]
    have hlt : (4 * M - gap : ℚ) * quarterUnits E < units := by
      rw [← hcast]
      exact_mod_cast (hopen (by simp [hodd])).1
    exact lt_of_le_of_lt (mul_le_mul_of_nonneg_right (by linarith) hscale.le) hlt
  · rw [div_lt_iff₀ hplaces, mul_assoc, ← quarterUnits_eq]
    exact_mod_cast (hopen (by simp [hodd])).2

/-! ## Texts -/

/-- Digits, a point and digits that read as a number. -/
structure Writes (text : String) (x : Float) (whole fraction : List Char) : Prop where
  text_eq : text = String.ofList (whole ++ '.' :: fraction)
  whole_ne_nil : whole ≠ []
  fraction_ne_nil : fraction ≠ []
  isDigit_whole : ∀ c ∈ whole, c.isDigit
  isDigit_fraction : ∀ c ∈ fraction, c.isDigit
  value : nearestFloat whole fraction = x

/-- The shortest units of a canonical number read as that number. -/
theorem exists_writes_positional (hc : Canonical M E)
    (hnarrow : narrow = true ↔ M = 2 ^ 52 ∧ E ≠ -1074) :
    ∃ whole fraction, Writes (positional (target M E narrow).shortest (places E))
      (.ofModel (.pack (.finite .positive M E hc.pos))) whole fraction := by
  have hvalue : (target M E narrow).contains (target M E narrow).value = true :=
    contains_value hc.pos
  have hcontains :=
    Target.contains_shortestBelow hvalue (Nat.toDigits 10 (target M E narrow).value).length
  have hq := roundsTo_of_contains hc.pos hnarrow hcontains
  rw [← Target.shortest] at hq
  generalize (target M E narrow).shortest = units at hq ⊢
  have hfraction := fractionDigits_spec units (places E)
  rw [positional, Nat.pow_eq]
  generalize fractionDigits units (places E) = fraction at hfraction ⊢
  refine ⟨_, _, rfl, Nat.toDigits_ne_nil, hfraction.ne_nil, fun c => isDigit_of_mem_toDigits,
    hfraction.isDigit, ?_⟩
  have hvalue := hfraction.value
  rw [nearestFloat]
  generalize digitsValue (_ ++ fraction) = n at hvalue ⊢
  have hsame : (units : ℚ) / 10 ^ places E = n / 10 ^ fraction.length := by
    rw [div_eq_div_iff (by positivity) (by positivity)]
    exact_mod_cast hvalue.symm
  rw [hsame] at hq
  -- Zero is not in the interval of a positive number.
  have hn : 0 < n := by
    by_contra hzero
    have hlow := hq.low
    have hM : (1 : ℚ) ≤ M := by exact_mod_cast hc.pos
    have hquarter : (0 : ℚ) < 2 ^ (E - 2) := by positivity
    rw [show n = 0 by omega, Nat.cast_zero, zero_div] at hlow
    nlinarith
  have hplaces : places E ≤ 1076 := by
    have := hc.least
    rw [places]
    omega
  have := hfraction.length_le
  exact ofScientific_eq hn (List.length_pos_iff.2 hfraction.ne_nil) (by omega) hc hq

/-- The text of a finite number without a sign is that of its magnitude. -/
theorem floatText_eq {x : Float} (hsign : x.toBits.toNat < 2 ^ 63)
    (hfinite : x.toBits.toNat / 2 ^ 52 ≠ 2047) :
    floatText x = magnitudeText (x.toBits.toNat / 2 ^ 52) (x.toBits.toNat % 2 ^ 52) := by
  have hnosign : ¬x.toBits.toNat / Nat.pow 2 63 = 1 := by
    rw [Nat.pow_eq, Nat.div_eq_of_lt hsign]
    decide
  have hfield : x.toBits.toNat / Nat.pow 2 52 % Nat.pow 2 11 = x.toBits.toNat / 2 ^ 52 := by
    rw [Nat.pow_eq, Nat.pow_eq, Nat.mod_eq_of_lt]
    omega
  rw [floatText, hfield, if_neg hfinite, if_neg hnosign, String.empty_append, Nat.pow_eq]

/-- The text of a finite number without a sign reads as that number. -/
theorem exists_writes_floatText {x : Float} (hsign : x.toBits.toNat < 2 ^ 63)
    (hfinite : x.toBits.toNat / 2 ^ 52 ≠ 2047) :
    ∃ whole fraction, Writes (floatText x) x whole fraction := by
  have hbits := Nat.div_add_mod x.toBits.toNat (2 ^ 52)
  have hfraction := Nat.mod_lt x.toBits.toNat (Nat.two_pow_pos 52)
  rw [floatText_eq hsign hfinite, magnitudeText]
  generalize x.toBits.toNat / 2 ^ 52 = field at hbits hfinite ⊢
  generalize x.toBits.toNat % 2 ^ 52 = fraction at hbits hfraction ⊢
  split
  case isTrue hfield =>
    split
    case isTrue hzero =>
      refine ⟨['0'], ['0'], rfl, by decide, by decide, isDigit_zero, isDigit_zero, ?_⟩
      apply float_ext
      rw [← hbits, hfield, hzero]
      decide
    case isFalse hnonzero =>
      have hpos : 0 < fraction := by omega
      have hc : Canonical fraction (-1074) := ⟨hpos, by omega, le_refl _, .inl rfl⟩
      rw [eq_pack_subnormal hpos hfraction (x := x) (by omega)]
      exact exists_writes_positional hc (by simp)
  case isFalse hfield =>
    have hc : Canonical (2 ^ 52 + fraction) ((field : ℤ) - 1075) :=
      ⟨by omega, by omega, by omega, .inr (by omega)⟩
    rw [eq_pack_normal hc (by omega) (by omega) (x := x) (by omega)]
    refine exists_writes_positional hc ?_
    simp only [Bool.and_eq_true, beq_iff_eq, bne_iff_ne]
    omega

/-! ## Numbers that have been read -/

open Float.Model Float.Model.UnpackedFloat

/-- A number that is zero, infinite or has a mantissa, without a sign. -/
def Unsigned : UnpackedFloat → Prop
  | .zero sign | .infinity sign | .finite sign .. => sign = .positive
  | .notANumber => False

theorem unsigned_roundWithAccuracy (m : ℕ) (e : ℤ) (accuracy : Accuracy) :
    Unsigned (roundWithAccuracy .binary64 .positive m e accuracy) := by
  rw [roundWithAccuracy]
  dsimp only
  split
  · rfl
  · rfl

theorem toNat_pack_lt {u : UnpackedFloat} (h : Unsigned u) :
    (UnpackedFloat.pack .binary64 u).toNat < 2 ^ 63 := by
  have hlt (exponent : BitVec 11) (mantissa : BitVec 52) :
      (packComponents .binary64 .positive exponent mantissa).toNat < 2 ^ 63 := by
    rw [toNat_packComponents]
    have := exponent.isLt
    have := mantissa.isLt
    omega
  cases u with
  | notANumber => exact h.elim
  | infinity sign =>
      obtain rfl : sign = .positive := h
      exact hlt _ _
  | zero sign =>
      obtain rfl : sign = .positive := h
      exact hlt _ _
  | finite sign m e hm =>
      obtain rfl : sign = .positive := h
      rw [UnpackedFloat.pack]
      dsimp only
      split
      · exact hlt _ _
      · split
        · exact hlt _ _
        · exact hlt _ _

/-- Decimal fractions read as numbers without a sign. -/
theorem ofScientific_lt (n : ℕ) {k : ℕ} (hk : 0 < k) :
    (Float.ofScientific n true k).toBits.toNat < 2 ^ 63 := by
  obtain ⟨u, hu, hcases⟩ := ofScientific_cases n hk
  have hunsigned : Unsigned u := by
    rcases hcases with ⟨rfl, -⟩ | ⟨m₁, m₂, e₁, e₂, h₁, h₂, rfl, -⟩
    · rfl
    · exact unsigned_roundWithAccuracy _ _ _
  rw [hu]
  exact toNat_pack_lt hunsigned

/-- A finite number does not have the largest exponent. -/
theorem exponent_ne_of_isFinite {x : Float} (h : x.isFinite = true) :
    x.toBits.toNat / 2 ^ 52 % 2 ^ 11 ≠ 2047 := by
  intro hfield
  have hones : @unpackExponent .binary64 x.toBits.toBitVec = -1#11 := by
    apply BitVec.eq_of_toNat_eq
    rw [unpackExponent, BitVec.toNat_cast, BitVec.extractLsb_toNat, Nat.shiftRight_eq_div_pow]
    exact hfield
  have hinfinite : x.isFinite = false := by
    show (UnpackedFloat.unpack .binary64 x.toBits.toBitVec).isFinite = false
    rw [UnpackedFloat.unpack]
    dsimp only
    rw [if_pos hones]
    split
    · rfl
    · rfl
  rw [h] at hinfinite
  cases hinfinite

/-- A finite number that has been read is written so that it reads as the same number. -/
theorem exists_writes_nearestFloat {whole fraction : List Char} (hfraction : fraction ≠ [])
    (hfinite : (nearestFloat whole fraction).isFinite = true) :
    ∃ whole' fraction', Writes (floatText (nearestFloat whole fraction))
      (nearestFloat whole fraction) whole' fraction' := by
  have hsign : (nearestFloat whole fraction).toBits.toNat < 2 ^ 63 :=
    ofScientific_lt _ (List.length_pos_iff.2 hfraction)
  refine exists_writes_floatText hsign ?_
  have := exponent_ne_of_isFinite hfinite
  omega

end BlockLang.Decimal
