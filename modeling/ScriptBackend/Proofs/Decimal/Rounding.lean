import Mathlib.Algebra.Order.Field.Power
import Mathlib.Tactic.FieldSimp
import Mathlib.Tactic.Linarith
import Mathlib.Tactic.NormNum
import Mathlib.Tactic.Positivity
import Mathlib.Tactic.Ring
import ScriptBackend.Decimal.Rounded

/-!
# Significant digits

`Significant` says what it means for a rational number to be rounded to a count of
decimal digits, without saying how. Fractions are rounded so, and rounding once more
at the exponent that came out of the first rounding changes nothing: digits that
carried into a new power of ten are within a twentieth of it on the coarser grid.
-/

namespace ScriptBackend.Decimal

/-- A natural number nearest to a rational one, the even one if there are two. -/
structure HalfEven (r : ℚ) (n : ℕ) : Prop where
  near : |r - n| ≤ 1 / 2
  even : |r - n| = 1 / 2 → n % 2 = 0

/-- `d * 10 ^ (x - places)` is a positive number rounded to `places + 1` significant digits: to a
multiple of the last of them, as the number has it before rounding. -/
structure Significant (places : ℕ) (q : ℚ) (d : ℕ) (x : ℤ) : Prop where
  low : 10 ^ places ≤ d
  high : d < 10 ^ (places + 1)
  rounded : ∃ (e : ℤ) (m : ℕ), (10 : ℚ) ^ e ≤ q ∧ q < (10 : ℚ) ^ (e + 1) ∧
    HalfEven (q / (10 : ℚ) ^ (e - places)) m ∧
    (d : ℚ) * (10 : ℚ) ^ (x - places) = m * (10 : ℚ) ^ (e - places)

-- ---------------------------------------------------------------------------
-- Nearest integers
-- ---------------------------------------------------------------------------

theorem HalfEven.not_lt (ha : HalfEven r a) (hb : HalfEven r b) : ¬ a < b := by
  intro hlt
  have hstep : (a : ℚ) + 1 ≤ b := by exact_mod_cast hlt
  obtain ⟨-, hra⟩ := abs_le.mp ha.near
  obtain ⟨hrb, -⟩ := abs_le.mp hb.near
  -- Both are half a step away, so both are even, and they are neighbours.
  have hhalf : r - a = 1 / 2 := by linarith
  have hhalf' : r - b = -(1 / 2) := by linarith
  have heven := ha.even (by rw [hhalf]; norm_num)
  have heven' := hb.even (by rw [hhalf']; norm_num)
  have hnext : b = a + 1 := by
    have : (b : ℚ) = a + 1 := by linarith
    exact_mod_cast this
  omega

theorem HalfEven.unique (ha : HalfEven r a) (hb : HalfEven r b) : a = b :=
  Nat.le_antisymm (Nat.le_of_not_lt (hb.not_lt ha)) (Nat.le_of_not_lt (ha.not_lt hb))

theorem HalfEven.ge_of_ge (h : HalfEven r n) {a : ℕ} (ha : (a : ℚ) ≤ r) : a ≤ n := by
  obtain ⟨-, hn⟩ := abs_le.mp h.near
  have hlt : (a : ℚ) < n + 1 := by linarith
  exact Nat.le_of_lt_succ (by exact_mod_cast hlt)

theorem HalfEven.le_of_lt (h : HalfEven r n) {a : ℕ} (ha : r < a) : n ≤ a := by
  obtain ⟨hn, -⟩ := abs_le.mp h.near
  have hlt : (n : ℚ) < a + 1 := by linarith
  exact Nat.le_of_lt_succ (by exact_mod_cast hlt)

theorem halfEven_round {num den : ℕ} (hden : 0 < den) :
    HalfEven ((num : ℚ) / den) (roundHalfEven num den) := by
  have hden' : (0 : ℚ) < den := by exact_mod_cast hden
  obtain ⟨t, ht⟩ : ∃ t : ℚ, t = (num % den : ℕ) / den := ⟨_, rfl⟩
  have hratio : (num : ℚ) / den = (num / den : ℕ) + t := by
    have hsplit : (num : ℚ) = den * (num / den : ℕ) + (num % den : ℕ) := by
      exact_mod_cast (Nat.div_add_mod num den).symm
    rw [ht, div_eq_iff hden'.ne', add_mul, div_mul_cancel₀ _ hden'.ne', mul_comm _ (den : ℚ)]
    exact hsplit
  have hbelow : 2 * (num % den) < den ↔ t < 1 / 2 := by
    rw [ht, div_lt_iff₀ hden', ← Nat.cast_lt (α := ℚ)]
    push_cast
    constructor <;> intro h <;> linarith
  have habove : den < 2 * (num % den) ↔ 1 / 2 < t := by
    rw [ht, lt_div_iff₀ hden', ← Nat.cast_lt (α := ℚ)]
    push_cast
    constructor <;> intro h <;> linarith
  have hnonneg : 0 ≤ t := by rw [ht]; positivity
  have hone : t < 1 := by
    rw [ht, div_lt_one hden']
    exact_mod_cast Nat.mod_lt num hden
  rw [hratio, roundHalfEven]
  simp only [hbelow, habove]
  split
  · rename_i hlt
    have hdist : |((num / den : ℕ) : ℚ) + t - (num / den : ℕ)| = t := by
      rw [add_sub_cancel_left, abs_of_nonneg hnonneg]
    exact ⟨by rw [hdist]; exact hlt.le, fun h => by rw [hdist] at h; exact absurd h hlt.ne⟩
  · split
    · rename_i hlt
      have hdist : |((num / den : ℕ) : ℚ) + t - (num / den + 1 : ℕ)| = 1 - t := by
        push_cast
        rw [add_sub_add_left_eq_sub, abs_of_neg (by linarith)]
        ring
      exact ⟨by rw [hdist]; linarith, fun h => by rw [hdist] at h; linarith⟩
    · have hhalf : t = 1 / 2 := by linarith
      refine ⟨?_, fun _ => by omega⟩
      rcases Nat.mod_two_eq_zero_or_one (num / den) with h | h
      · rw [h, hhalf]
        norm_num
      · rw [h, hhalf]
        push_cast
        rw [add_sub_add_left_eq_sub]
        norm_num

variable {places d d' : ℕ} {q : ℚ} {x x' e : ℤ}

-- ---------------------------------------------------------------------------
-- Normal forms
-- ---------------------------------------------------------------------------

theorem ten_zpow_pos (x : ℤ) : (0 : ℚ) < (10 : ℚ) ^ x := zpow_pos (by norm_num) x

theorem ten_zpow_add (x y : ℤ) : (10 : ℚ) ^ (x + y) = (10 : ℚ) ^ x * (10 : ℚ) ^ y :=
  zpow_add₀ (by norm_num) x y

theorem ten_pow_mul (k : ℕ) (x : ℤ) : (10 : ℚ) ^ k * (10 : ℚ) ^ x = (10 : ℚ) ^ (k + x) := by
  rw [ten_zpow_add, zpow_natCast]

theorem exponent_le (hlow : (10 : ℚ) ^ x ≤ q) (hhigh : q < (10 : ℚ) ^ (x' + 1)) : x ≤ x' :=
  Int.lt_add_one_iff.mp ((zpow_lt_zpow_iff_right₀ (by norm_num)).mp (hlow.trans_lt hhigh))

theorem normal_bounds (hlow : 10 ^ places ≤ d) (hhigh : d < 10 ^ (places + 1)) (x : ℤ) :
    (10 : ℚ) ^ x ≤ (d : ℚ) * (10 : ℚ) ^ (x - places) ∧
      (d : ℚ) * (10 : ℚ) ^ (x - places) < (10 : ℚ) ^ (x + 1) := by
  have hlow' : (10 : ℚ) ^ places ≤ d := by exact_mod_cast hlow
  have hhigh' : (d : ℚ) < (10 : ℚ) ^ (places + 1) := by exact_mod_cast hhigh
  have hpos := ten_zpow_pos (x - places)
  constructor
  · calc (10 : ℚ) ^ x
      _ = (10 : ℚ) ^ places * (10 : ℚ) ^ (x - places) := by rw [ten_pow_mul, add_sub_cancel]
      _ ≤ (d : ℚ) * (10 : ℚ) ^ (x - places) := mul_le_mul_of_nonneg_right hlow' hpos.le
  · calc (d : ℚ) * (10 : ℚ) ^ (x - places)
      _ < (10 : ℚ) ^ (places + 1) * (10 : ℚ) ^ (x - places) := mul_lt_mul_of_pos_right hhigh' hpos
      _ = (10 : ℚ) ^ (x + 1) := by
        rw [ten_pow_mul]
        congr 1
        omega

theorem normal_unique (hlow : 10 ^ places ≤ d) (hhigh : d < 10 ^ (places + 1))
    (hlow' : 10 ^ places ≤ d') (hhigh' : d' < 10 ^ (places + 1))
    (h : (d : ℚ) * (10 : ℚ) ^ (x - places) = d' * (10 : ℚ) ^ (x' - places)) : d = d' ∧ x = x' := by
  obtain ⟨hx, hx₁⟩ := normal_bounds hlow hhigh x
  obtain ⟨hx', hx₁'⟩ := normal_bounds hlow' hhigh' x'
  have hexp : x = x' := Int.le_antisymm (exponent_le (h ▸ hx) hx₁') (exponent_le (h ▸ hx') hx₁)
  subst hexp
  exact ⟨by exact_mod_cast mul_right_cancel₀ (ten_zpow_pos _).ne' h, rfl⟩

-- ---------------------------------------------------------------------------
-- Rounding twice
-- ---------------------------------------------------------------------------

/-- Rounding to the last of some digits gives as many, or the next power of ten. -/
theorem HalfEven.bounds {m : ℕ} (h : HalfEven (q / (10 : ℚ) ^ (e - places)) m)
    (hlow : (10 : ℚ) ^ e ≤ q) (hhigh : q < (10 : ℚ) ^ (e + 1)) :
    10 ^ places ≤ m ∧ m ≤ 10 ^ (places + 1) := by
  have hpos := ten_zpow_pos (e - places)
  constructor
  · apply h.ge_of_ge
    rw [le_div_iff₀ hpos, Nat.cast_pow, Nat.cast_ofNat, ten_pow_mul, add_sub_cancel]
    exact hlow
  · apply h.le_of_lt
    rw [div_lt_iff₀ hpos, Nat.cast_pow, Nat.cast_ofNat, ten_pow_mul]
    rwa [show ((places + 1 : ℕ) : ℤ) + (e - places) = e + 1 by omega]

theorem carry (places : ℕ) (e : ℤ) :
    ((10 ^ (places + 1) : ℕ) : ℚ) * (10 : ℚ) ^ (e - places) =
      ((10 ^ places : ℕ) : ℚ) * (10 : ℚ) ^ (e + 1 - places) := by
  rw [Nat.cast_pow, Nat.cast_pow, Nat.cast_ofNat, ten_pow_mul, ten_pow_mul]
  congr 1
  omega

/-- Without a carry the exponent stays, and with one the digits are those of a power of ten. -/
theorem Significant.cases (h : Significant places q d x) :
    HalfEven (q / (10 : ℚ) ^ (x - places)) d ∨
      (d = 10 ^ places ∧ q < (10 : ℚ) ^ x ∧
        HalfEven (q / (10 : ℚ) ^ (x - 1 - places)) (10 ^ (places + 1))) := by
  obtain ⟨hlow, hhigh, e, m, he, he', hm, hvalue⟩ := h
  obtain ⟨hmlow, hmhigh⟩ := hm.bounds he he'
  rcases Nat.lt_or_eq_of_le hmhigh with hlt | rfl
  · obtain ⟨rfl, rfl⟩ := normal_unique hlow hhigh hmlow hlt hvalue
    exact .inl hm
  · obtain ⟨rfl, rfl⟩ := normal_unique hlow hhigh (Nat.le_refl _)
      (Nat.pow_lt_pow_right (by norm_num) (Nat.lt_succ_self _)) (hvalue.trans (carry places e))
    refine .inr ⟨rfl, he', ?_⟩
    rwa [show e + 1 - 1 - (places : ℤ) = e - places by ring]

theorem Significant.again (h : Significant places q d x) : HalfEven (q / (10 : ℚ) ^ (x - places)) d := by
  rcases h.cases with hsame | ⟨rfl, hlt, hcarry⟩
  · exact hsame
  · -- On the grid of the carried exponent the number is within a twentieth below.
    have hten : q / (10 : ℚ) ^ (x - 1 - places) = 10 * (q / (10 : ℚ) ^ (x - places)) := by
      rw [show x - (places : ℤ) = x - 1 - places + 1 by ring, ten_zpow_add, zpow_one]
      field_simp
    have hbelow : q / (10 : ℚ) ^ (x - places) < (10 ^ places : ℕ) := by
      rw [div_lt_iff₀ (ten_zpow_pos _), Nat.cast_pow, Nat.cast_ofNat, ten_pow_mul, add_sub_cancel]
      exact hlt
    obtain ⟨habove, -⟩ := abs_le.mp hcarry.near
    rw [hten] at habove
    push_cast at habove hbelow
    rw [pow_succ] at habove
    have hdist : |q / (10 : ℚ) ^ (x - places) - (10 ^ places : ℕ)| < 1 / 2 := by
      push_cast
      rw [abs_of_neg (by linarith)]
      linarith
    exact ⟨hdist.le, fun h => absurd h hdist.ne⟩

theorem Significant.unique (h : Significant places q d x) (h' : Significant places q d' x') :
    d = d' ∧ x = x' := by
  obtain ⟨hlow, hhigh, e, m, he, he', hm, hvalue⟩ := h
  obtain ⟨hlow', hhigh', f, n, hf, hf', hn, hvalue'⟩ := h'
  obtain rfl : e = f := Int.le_antisymm (exponent_le he hf') (exponent_le hf he')
  obtain rfl : m = n := hm.unique hn
  exact normal_unique hlow hhigh hlow' hhigh' (hvalue.trans hvalue'.symm)

-- ---------------------------------------------------------------------------
-- Fractions
-- ---------------------------------------------------------------------------

variable {num den : ℕ}

theorem lt_pow_length_digits (n : ℕ) : n < 10 ^ (digits n).length :=
  (Nat.length_toDigits_le_iff (by norm_num) Nat.length_toDigits_pos).mp (Nat.le_refl _)

theorem exists_length_digits {n : ℕ} (h : 0 < n) : ∃ k, (digits n).length = k + 1 ∧ 10 ^ k ≤ n := by
  obtain ⟨k, hk⟩ : ∃ k, (digits n).length = k + 1 :=
    Nat.exists_eq_add_one.mpr (Nat.length_toDigits_pos (b := 10))
  refine ⟨k, hk, ?_⟩
  rcases Nat.eq_zero_or_pos k with rfl | hpos
  · exact h
  · by_contra hlt
    have hle : (digits n).length ≤ k :=
      (Nat.length_toDigits_le_iff (by norm_num) hpos).mpr (Nat.lt_of_not_le hlt)
    omega

theorem magnitude_spec (hnum : 0 < num) (hden : 0 < den) :
    (10 : ℚ) ^ magnitude num den ≤ (num : ℚ) / den ∧
      (num : ℚ) / den < (10 : ℚ) ^ (magnitude num den + 1) := by
  have hden' : (0 : ℚ) < den := by exact_mod_cast hden
  have hnum' : (0 : ℚ) < num := by exact_mod_cast hnum
  by_cases hle : den ≤ num
  · obtain ⟨k, hk, hlow⟩ := exists_length_digits (Nat.div_pos hle hden)
    have hhigh := lt_pow_length_digits (num / den)
    rw [hk, Nat.div_lt_iff_lt_mul hden] at hhigh
    rw [Nat.le_div_iff_mul_le hden] at hlow
    have hx : magnitude num den = k := by
      rw [magnitude, if_pos hle, hk]
      omega
    rw [hx, le_div_iff₀ hden', div_lt_iff₀ hden']
    exact ⟨by exact_mod_cast hlow, by exact_mod_cast hhigh⟩
  · have hone : 1 ≤ (den - 1) / num := by
      rw [Nat.le_div_iff_mul_le hnum]
      omega
    obtain ⟨k, hk, hlow⟩ := exists_length_digits hone
    have hhigh := lt_pow_length_digits ((den - 1) / num)
    rw [hk, Nat.div_lt_iff_lt_mul hnum] at hhigh
    rw [Nat.le_div_iff_mul_le hnum] at hlow
    have hx : magnitude num den = -((k + 1 : ℕ) : ℤ) := by
      rw [magnitude, if_neg hle, hk]
    have hhigh' : (den : ℚ) ≤ (10 : ℚ) ^ (k + 1) * num := by
      exact_mod_cast (show den ≤ 10 ^ (k + 1) * num by omega)
    have hlow' : (10 : ℚ) ^ k * num < den := by
      exact_mod_cast (show 10 ^ k * num < den by omega)
    rw [hx, show -((k + 1 : ℕ) : ℤ) + 1 = -(k : ℤ) by omega, zpow_neg, zpow_neg, zpow_natCast, zpow_natCast]
    constructor
    · rw [inv_le_iff_one_le_mul₀ (by positivity), mul_comm, ← mul_div_assoc, one_le_div hden']
      exact hhigh'
    · rw [lt_inv_comm₀ (by positivity) (by positivity), inv_div, lt_div_iff₀ hnum']
      exact hlow'

theorem scaled_ratio (num : ℕ) (hden : 0 < den) (power : ℤ) :
    0 < (scaled num den power).2 ∧
      ((scaled num den power).1 : ℚ) / (scaled num den power).2 = num / den * (10 : ℚ) ^ power := by
  refine ⟨Nat.mul_pos hden (Nat.pow_pos (by norm_num)), ?_⟩
  obtain ⟨k, rfl | rfl⟩ := power.eq_nat_or_neg
  · simp [scaled, mul_div_right_comm]
  · simp [scaled, div_mul_eq_div_div, ← div_eq_mul_inv]

theorem halfEven_scaled (num : ℕ) (hden : 0 < den) (places : ℕ) (x : ℤ) :
    HalfEven ((num : ℚ) / den / (10 : ℚ) ^ (x - places))
      (roundHalfEven (scaled num den (places - x)).1 (scaled num den (places - x)).2) := by
  obtain ⟨hpos, hratio⟩ := scaled_ratio num hden (places - x)
  have hgrid : (num : ℚ) / den / (10 : ℚ) ^ (x - places) = num / den * (10 : ℚ) ^ (places - x) := by
    rw [← neg_sub, zpow_neg, div_inv_eq_mul]
  rw [hgrid, ← hratio]
  exact halfEven_round hpos

theorem significant_ofRatio (places : ℕ) (hnum : 0 < num) (hden : 0 < den) :
    Significant places ((num : ℚ) / den) (Scientific.ofRatio places num den).mantissa
      (Scientific.ofRatio places num den).exponent := by
  obtain ⟨hlow, hhigh⟩ := magnitude_spec hnum hden
  have hround := halfEven_scaled num hden places (magnitude num den)
  obtain ⟨hmlow, hmhigh⟩ := hround.bounds hlow hhigh
  simp only [Scientific.ofRatio, Nat.pow_eq]
  split
  · rename_i hm
    rw [hm] at hround
    exact ⟨Nat.le_refl _, Nat.pow_lt_pow_right (by norm_num) (Nat.lt_succ_self _), _, _, hlow, hhigh,
      hround, (carry places _).symm⟩
  · rename_i hm
    exact ⟨hmlow, Nat.lt_of_le_of_ne hmhigh hm, _, _, hlow, hhigh, hround, rfl⟩

end ScriptBackend.Decimal
