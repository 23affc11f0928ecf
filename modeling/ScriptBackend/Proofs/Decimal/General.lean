import Mathlib.Data.List.DropRight
import ScriptBackend.Decimal.General
import ScriptBackend.Proofs.Decimal.Rounding
import ScriptBackend.Proofs.Numerals

/-!
# What six digits say

The general form of a number is a numeral, and read exactly, without rounding it to
a number again, the numeral is the number's own value at six significant digits. Its
fraction ends in a digit that counts, or there is none.
-/

namespace ScriptBackend

namespace Binary64

/-- The exact value of a finite number. -/
def toRat (x : Binary64) : ℚ :=
  (if x.isNegative then -1 else 1) * (x.significand * (2 : ℚ) ^ x.exponent)

theorem denominator_pos (x : Binary64) : 0 < x.denominator := Nat.pow_pos (by norm_num)

theorem significand_pos {x : Binary64} (h : x.isZero = false) : 0 < x.significand := by
  simp only [isZero, Bool.and_eq_false_iff, beq_eq_false_iff_ne] at h
  rw [significand]
  split
  · rename_i hfield
    exact Nat.pos_of_ne_zero (h.resolve_left (not_not.mpr hfield))
  · exact Nat.add_pos_right _ (by decide)

theorem numerator_pos {x : Binary64} (h : x.isZero = false) : 0 < x.numerator :=
  Nat.mul_pos (significand_pos h) (Nat.pow_pos (by norm_num))

theorem ratio_eq (x : Binary64) :
    (x.numerator : ℚ) / x.denominator = x.significand * (2 : ℚ) ^ x.exponent := by
  rw [numerator, denominator]
  obtain ⟨k, hk | hk⟩ := x.exponent.eq_nat_or_neg
  · simp [hk]
  · simp [hk, div_eq_mul_inv]

theorem ratio_pos {x : Binary64} (h : x.isZero = false) : (0 : ℚ) < (x.numerator : ℚ) / x.denominator :=
  div_pos (by exact_mod_cast numerator_pos h) (by exact_mod_cast x.denominator_pos)

theorem toRat_eq (x : Binary64) :
    x.toRat = (if x.isNegative then -1 else 1) * ((x.numerator : ℚ) / x.denominator) := by
  rw [toRat, ratio_eq]

theorem abs_toRat {x : Binary64} (h : x.isZero = false) : |x.toRat| = (x.numerator : ℚ) / x.denominator := by
  rw [toRat_eq, abs_mul, abs_of_pos (ratio_pos h)]
  split <;> simp

theorem toRat_neg_iff {x : Binary64} (h : x.isZero = false) : x.toRat < 0 ↔ x.isNegative = true := by
  have hpos := ratio_pos h
  rw [toRat_eq]
  cases x.isNegative with
  | false =>
    rw [if_neg Bool.false_ne_true, one_mul]
    exact iff_of_false hpos.not_gt Bool.false_ne_true
  | true =>
    rw [if_pos rfl, neg_one_mul]
    exact iff_of_true (neg_neg_of_pos hpos) rfl

end Binary64

namespace Numeral

-- ---------------------------------------------------------------------------
-- Exact values
-- ---------------------------------------------------------------------------

def exact (n : Numeral) : ℚ :=
  let fraction := n.fraction.getD []
  let exponent := (n.exponent.map Exponent.value).getD 0
  ofDigits (n.whole ++ fraction) * (10 : ℚ) ^ (exponent - fraction.length)

/-- The whole text is a numeral, with or without a sign, and is a rational number. -/
def Denotes (cs : List Char) (q : ℚ) : Prop :=
  ∃ (sign : Option Char) (n : Numeral), IsSign sign ∧ n.Proper ∧ cs = sign.toList ++ n.text ∧
    q = (if sign = some '-' then -1 else 1) * n.exact

theorem denotes_iff {sign : Option Char} {n : Numeral} {q : ℚ} (hsign : IsSign sign) (hn : n.Proper) :
    Denotes (sign.toList ++ n.text) q ↔ q = (if sign = some '-' then -1 else 1) * n.exact :=
  signed_iff hsign hn

def Trimmed (n : Numeral) : Prop := ∀ f ∈ n.fraction, ∃ c ∈ f.getLast?, c ≠ '0'

structure Exponent.Padded (e : Exponent) : Prop where
  signed : e.sign.isSome
  wide : 2 ≤ e.digits.length

theorem ofDigits_append (cs ds : List Char) :
    ofDigits (cs ++ ds) = 10 ^ ds.length * ofDigits cs + ofDigits ds := by
  rw [ofDigits, List.foldl_append]
  exact Nat.ofDigitChars_eq_ofDigitChars_zero

theorem ofDigits_zeros {cs : List Char} (h : ∀ c ∈ cs, c = '0') : ofDigits cs = 0 := by
  induction cs with
  | nil => rfl
  | cons c cs ih =>
    obtain ⟨rfl, hcs⟩ := List.forall_mem_cons.mp h
    exact ih hcs

-- ---------------------------------------------------------------------------
-- Fractions without trailing zeros
-- ---------------------------------------------------------------------------

/-- The digits up to the last that is not a zero, if there is one. -/
def trim (f : List Char) : Option (List Char) :=
  let kept := f.rdropWhile (· = '0')
  if kept = [] then none else some kept

theorem getD_trim (f : List Char) : (trim f).getD [] = f.rdropWhile (· = '0') := by
  rw [trim]
  split
  · rename_i h
    exact h.symm
  · rfl

theorem trimmed_trim (whole f : List Char) (exponent : Option Exponent) :
    Trimmed ⟨whole, trim f, exponent⟩ := by
  intro kept hkept
  simp only [trim] at hkept
  split at hkept
  · cases hkept
  · rename_i hne
    cases hkept
    exact ⟨_, List.getLast?_eq_getLast_of_ne_nil hne, by simpa using List.rdropWhile_last_not _ _ hne⟩

theorem digits_trim {f : List Char} (hf : Digits f) : ∀ kept ∈ trim f, Digits kept := by
  intro kept hkept c hc
  have hkept' : kept = f.rdropWhile (· = '0') := by
    rw [← getD_trim, Option.mem_def.mp hkept]
    rfl
  exact hf c ((List.rdropWhile_prefix _ _).subset (hkept' ▸ hc))

theorem exists_zeros (f : List Char) :
    ∃ zeros, f.rdropWhile (· = '0') ++ zeros = f ∧ ∀ c ∈ zeros, c = '0' := by
  refine ⟨f.rtakeWhile (· = '0'), List.rdropWhile_append_rtakeWhile, ?_⟩
  intro c hc
  exact of_decide_eq_true (List.mem_rtakeWhile_imp (p := (· = '0')) hc)

theorem exact_trim (whole f : List Char) (exponent : Option Exponent) :
    exact ⟨whole, trim f, exponent⟩ = exact ⟨whole, some f, exponent⟩ := by
  obtain ⟨zeros, hsplit, hzeros⟩ := exists_zeros f
  simp only [exact, getD_trim, Option.getD_some]
  generalize f.rdropWhile (· = '0') = kept at hsplit
  rw [← hsplit, ← List.append_assoc, ofDigits_append _ zeros, ofDigits_zeros hzeros, List.length_append]
  push_cast
  rw [add_zero, mul_comm ((10 : ℚ) ^ zeros.length), mul_assoc, Decimal.ten_pow_mul]
  congr 2
  ring

end Numeral

namespace Decimal

open Numeral (Digits ofDigits)

variable {num den places m d : ℕ} {x : ℤ}

-- ---------------------------------------------------------------------------
-- Digits
-- ---------------------------------------------------------------------------

theorem ofDigits_digits (n : ℕ) : ofDigits (digits n) = n :=
  Nat.ofDigitChars_toDigits (by norm_num) (by norm_num)

theorem digits_isDigit (n : ℕ) : Digits (digits n) :=
  fun _ hc => Nat.isDigit_of_mem_toDigits (by norm_num) (by norm_num) hc

theorem digits_ne_nil (n : ℕ) : digits n ≠ [] := Nat.toDigits_ne_nil

theorem length_digits (hlow : 10 ^ places ≤ d) (hhigh : d < 10 ^ (places + 1)) :
    (digits d).length = places + 1 := by
  have hle : (digits d).length ≤ places + 1 :=
    (Nat.length_toDigits_le_iff (by norm_num) (Nat.succ_pos _)).mpr hhigh
  have hlt : places < (digits d).length :=
    (Nat.pow_lt_pow_iff_right (by norm_num)).mp (hlow.trans_lt (lt_pow_length_digits d))
  omega

theorem ofDigits_digitsWide (width n : ℕ) : ofDigits (digitsWide width n) = n := by
  rw [digitsWide, Numeral.ofDigits_append, Numeral.ofDigits_zeros fun _ hc => List.eq_of_mem_replicate hc,
    ofDigits_digits, Nat.mul_zero, Nat.zero_add]

theorem digitsWide_isDigit (width n : ℕ) : Digits (digitsWide width n) := by
  intro c hc
  rcases List.mem_append.mp hc with h | h
  · rw [List.eq_of_mem_replicate h]
    rfl
  · exact digits_isDigit n c h

theorem le_length_digitsWide (width n : ℕ) : width ≤ (digitsWide width n).length := by
  rw [digitsWide, List.length_append, List.length_replicate]
  omega

theorem length_digitsWide {width n : ℕ} (hwidth : 0 < width) (h : n < 10 ^ width) :
    (digitsWide width n).length = width := by
  have hle : (digits n).length ≤ width := (Nat.length_toDigits_le_iff (by norm_num) hwidth).mpr h
  rw [digitsWide, List.length_append, List.length_replicate]
  omega

theorem point_not_mem {cs : List Char} (h : Digits cs) : '.' ∉ cs :=
  fun hmem => absurd (h _ hmem) (by decide)

-- ---------------------------------------------------------------------------
-- Stripping
-- ---------------------------------------------------------------------------

theorem rdropWhile_append_of_pos {p : α → Bool} {xs ys : List α} (h : ∀ y ∈ ys, p y) :
    (xs ++ ys).rdropWhile p = xs.rdropWhile p := by
  rw [List.rdropWhile, List.reverse_append, List.dropWhile_append_of_pos (by simpa using h), List.rdropWhile]

theorem stripZeros_eq {cs : List Char} (h : '.' ∈ cs) :
    stripZeros cs = (cs.rdropWhile (· = '0')).rdropWhile (· = '.') := by
  rw [stripZeros, if_pos h]
  simp only [List.rdropWhile, List.reverse_reverse]

/-- The zeros at the end of a fraction go, and the point with the last of the digits. -/
theorem stripZeros_point {whole f : List Char} (hwhole : Digits whole) (hf : Digits f) :
    stripZeros (whole ++ '.' :: f) = whole ++ (Numeral.trim f).elim [] ('.' :: ·) := by
  obtain ⟨kept, hkept⟩ : ∃ kept, kept = f.rdropWhile (· = '0') := ⟨_, rfl⟩
  have hzeros : (whole ++ '.' :: f).rdropWhile (· = '0') = (whole ++ '.' :: kept).rdropWhile (· = '0') := by
    obtain ⟨zeros, hf, hzeros⟩ := Numeral.exists_zeros f
    have hsplit : whole ++ '.' :: f = (whole ++ '.' :: kept) ++ zeros := by
      rw [List.append_assoc, List.cons_append, hkept, hf]
    rw [hsplit, rdropWhile_append_of_pos fun c hc => decide_eq_true (hzeros c hc)]
  rw [stripZeros_eq (by simp), hzeros, Numeral.trim, ← hkept]
  split
  · -- Nothing is left behind the point, so the point goes, and no digit of the whole part after it.
    rename_i hnil
    have hself : whole.rdropWhile (· = '.') = whole :=
      List.rdropWhile_eq_self_iff.mpr fun hne => by
        simpa using ne_of_mem_of_not_mem (List.getLast_mem hne) (point_not_mem hwhole)
    rw [hnil, List.rdropWhile_concat_neg _ _ _ (by decide), List.rdropWhile_concat_pos _ _ _ (by decide),
      hself]
    simp
  · rename_i hne
    have hlast (hl : whole ++ '.' :: kept ≠ []) : (whole ++ '.' :: kept).getLast hl = kept.getLast hne := by
      rw [List.getLast_append_of_ne_nil _ (List.cons_ne_nil _ _), List.getLast_cons hne]
    have hdigit : kept.getLast hne ≠ '.' :=
      ne_of_mem_of_not_mem ((hkept ▸ List.rdropWhile_prefix _ _ : kept <+: f).subset (List.getLast_mem hne))
        (point_not_mem hf)
    have hself : (whole ++ '.' :: kept).rdropWhile (· = '0') = whole ++ '.' :: kept :=
      List.rdropWhile_eq_self_iff.mpr fun hl => by
        rw [hlast]
        subst hkept
        exact List.rdropWhile_last_not _ _ hne
    have hself' : (whole ++ '.' :: kept).rdropWhile (· = '.') = whole ++ '.' :: kept :=
      List.rdropWhile_eq_self_iff.mpr fun hl => by simpa [hlast] using hdigit
    rw [hself, hself']
    rfl

-- ---------------------------------------------------------------------------
-- Forms
-- ---------------------------------------------------------------------------

structure Form (cs : List Char) (q : ℚ) (n : Numeral) : Prop where
  proper : n.Proper
  trimmed : n.Trimmed
  text : cs = n.text
  exact : n.exact = q

theorem form_point {whole f : List Char} {q : ℚ} (exponent : Option Numeral.Exponent) (hwhole : Digits whole)
    (hne : whole ≠ []) (hf : Digits f) (hexponent : ∀ e ∈ exponent, e.Proper)
    (hexact : Numeral.exact ⟨whole, some f, exponent⟩ = q) :
    Form (stripZeros (whole ++ '.' :: f) ++ exponent.elim [] Numeral.Exponent.text) q
      ⟨whole, Numeral.trim f, exponent⟩ where
  proper :=
    { whole := hwhole
      fraction := Numeral.digits_trim hf
      nonempty := List.append_ne_nil_of_left_ne_nil hne _
      exponent := hexponent }
  trimmed := Numeral.trimmed_trim whole f exponent
  text := by rw [stripZeros_point hwhole hf, Numeral.text]
  exact := (Numeral.exact_trim whole f exponent).trans hexact

def writtenExponent (x : ℤ) : Numeral.Exponent :=
  ⟨'e', some (if x < 0 then '-' else '+'), digitsWide 2 x.natAbs⟩

theorem writtenExponent_proper (x : ℤ) : (writtenExponent x).Proper where
  mark := .inl rfl
  sign := by
    rintro c ⟨⟩
    split
    · exact .inr rfl
    · exact .inl rfl
  nonempty := List.ne_nil_of_length_pos (Nat.lt_of_lt_of_le (by norm_num) (le_length_digitsWide 2 x.natAbs))
  digits := digitsWide_isDigit 2 x.natAbs

theorem writtenExponent_padded (x : ℤ) : (writtenExponent x).Padded :=
  ⟨rfl, le_length_digitsWide 2 x.natAbs⟩

theorem value_writtenExponent (x : ℤ) : (writtenExponent x).value = x := by
  simp only [Numeral.Exponent.value, writtenExponent, ofDigits_digitsWide]
  by_cases hx : x < 0
  · rw [if_pos hx, if_pos rfl]
    omega
  · rw [if_neg hx, if_neg (by decide)]
    omega

theorem form_scientific (places : ℕ) (hlow : 10 ^ (places + 1) ≤ d) (hhigh : d < 10 ^ (places + 2)) (x : ℤ) :
    ∃ n, Form (stripZeros (Scientific.mantissaText ⟨d, x⟩) ++ exponentText x)
        (d * (10 : ℚ) ^ (x - (places + 1 : ℕ))) n ∧ n.exponent = some (writtenExponent x) := by
  have hlength := length_digits hlow hhigh
  have hvalue := ofDigits_digits d
  have hdigits := digits_isDigit d
  rw [Scientific.mantissaText]
  match h : digits d, hlength with
  | c :: c' :: rest, hlength =>
    -- A mantissa has two digits at least, so it has a point.
    rw [h] at hvalue hdigits
    obtain ⟨hc, hrest⟩ := List.forall_mem_cons.mp hdigits
    have hexact : Numeral.exact ⟨[c], some (c' :: rest), some (writtenExponent x)⟩ =
        d * (10 : ℚ) ^ (x - (places + 1 : ℕ)) := by
      have hplaces : (c' :: rest).length = places + 1 := Nat.succ.inj hlength
      simp only [Numeral.exact, Option.getD_some, Option.map_some, List.singleton_append, hvalue,
        value_writtenExponent, hplaces]
    exact ⟨_, form_point (some (writtenExponent x)) (List.forall_mem_singleton.mpr hc) (List.cons_ne_nil c [])
      hrest (by rintro e ⟨⟩; exact writtenExponent_proper x) hexact, rfl⟩

theorem form_fixed (places : ℕ)
    (hm : roundHalfEven (scaled num den places).1 (scaled num den places).2 = m) :
    ∃ n, Form (stripZeros (fixed places num den)) (m * (10 : ℚ) ^ (-places : ℤ)) n ∧ n.exponent = none := by
  simp only [fixed, hm, Nat.pow_eq]
  split
  · rename_i hplaces
    subst hplaces
    have hstrip : stripZeros (digits m) = digits m := if_neg (point_not_mem (digits_isDigit m))
    have hproper : Numeral.Proper ⟨digits m, none, none⟩ :=
      ⟨digits_isDigit m, by simp, by simpa using digits_ne_nil m, by simp⟩
    refine ⟨⟨digits m, none, none⟩, ⟨hproper, by simp [Numeral.Trimmed], ?_, ?_⟩, rfl⟩
    · simp [hstrip, Numeral.text]
    · simp [Numeral.exact, ofDigits_digits]
  · rename_i hplaces
    have hwide : (digitsWide places (m % 10 ^ places)).length = places :=
      length_digitsWide (Nat.pos_of_ne_zero hplaces) (Nat.mod_lt _ (Nat.pow_pos (by norm_num)))
    have hexact : Numeral.exact ⟨digits (m / 10 ^ places), some (digitsWide places (m % 10 ^ places)), none⟩ =
        m * (10 : ℚ) ^ (-places : ℤ) := by
      simp only [Numeral.exact, Option.getD_some, Option.map_none, Option.getD_none, Numeral.ofDigits_append,
        ofDigits_digits, ofDigits_digitsWide, hwide, Nat.div_add_mod, zero_sub]
    have hform := form_point none (digits_isDigit _) (digits_ne_nil _) (digitsWide_isDigit _ _) (by simp)
      hexact
    exact ⟨_, by simpa using hform, rfl⟩

/-- A fraction is rounded to the same digits on the grid of the exponent that came out of rounding. -/
theorem roundHalfEven_again (hden : 0 < den) (h : Significant places ((num : ℚ) / den) d x) :
    roundHalfEven (scaled num den (places - x)).1 (scaled num den (places - x)).2 = d :=
  (halfEven_scaled num hden places x).unique h.again

theorem form_general (hnum : 0 < num) (hden : 0 < den) (h : Significant 5 ((num : ℚ) / den) d x) :
    ∃ n, Form (generalRatio num den) (d * (10 : ℚ) ^ (x - 5)) n ∧
      (n.exponent.isSome ↔ x < -4 ∨ 6 ≤ x) ∧ ∀ e ∈ n.exponent, e.Padded ∧ e.value = x := by
  have hratio : Scientific.ofRatio 5 num den = ⟨d, x⟩ := by
    obtain ⟨hd, hx⟩ := (significant_ofRatio 5 hnum hden).unique h
    rw [← hd, ← hx]
  simp only [generalRatio, precision, Nat.reduceSub, hratio, Nat.cast_ofNat]
  split
  · rename_i hfar
    obtain ⟨n, hform, hexponent⟩ := form_scientific 4 h.low h.high x
    refine ⟨n, hform, by simp [hexponent, hfar], ?_⟩
    rw [hexponent]
    rintro e ⟨⟩
    exact ⟨writtenExponent_padded x, value_writtenExponent x⟩
  · -- The value is rounded anew here, to a count of places.
    rename_i hnear
    have hplaces : (((5 - x).toNat : ℕ) : ℤ) = 5 - x := by omega
    have hround := roundHalfEven_again hden h
    obtain ⟨n, hform, hexponent⟩ := form_fixed (5 - x).toNat (hplaces ▸ hround)
    rw [hplaces, neg_sub] at hform
    exact ⟨n, hform, by simp [hexponent, hnear], by simp [hexponent]⟩

theorem toList_general {x : Binary64} (hnumber : x.isNaN = false) (hfinite : x.isInfinite = false)
    (hzero : x.isZero = false) :
    (general x).toList =
      (if x.toRat < 0 then some '-' else none).toList ++ generalRatio x.numerator x.denominator := by
  simp only [general, hnumber, hfinite, hzero, Bool.false_eq_true, if_false, Binary64.toRat_neg_iff hzero,
    String.toList_append, String.toList_ofList]
  split <;> rfl

/-- A number is written as its value at six significant digits, with an exponent just where the one that
came out of rounding is below -4 or from 6 up. Elsewhere the number is rounded a second time, to the
places that are left, and to the same digits. -/
theorem general_exact_at_six_digits (x : Binary64) (hnumber : x.isNaN = false)
    (hfinite : x.isInfinite = false) (hzero : x.isZero = false) :
    (∃ d e, Significant 5 |x.toRat| d e) ∧
    ∀ d e, Significant 5 |x.toRat| d e →
      (∀ q, Numeral.Denotes (general x).toList q ↔
        q = (if x.toRat < 0 then -1 else 1) * (d * (10 : ℚ) ^ (e - 5))) ∧
      (∃ n : Numeral, n.Proper ∧ n.Trimmed ∧
        (general x).toList = (if x.toRat < 0 then some '-' else none).toList ++ n.text ∧
        (n.exponent.isSome ↔ e < -4 ∨ 6 ≤ e) ∧ ∀ ex ∈ n.exponent, ex.Padded ∧ ex.value = e) ∧
      roundHalfEven (scaled x.numerator x.denominator (5 - e)).1
        (scaled x.numerator x.denominator (5 - e)).2 = d := by
  have hnum := Binary64.numerator_pos hzero
  have hden := x.denominator_pos
  rw [Binary64.abs_toRat hzero]
  refine ⟨⟨_, _, significant_ofRatio 5 hnum hden⟩, fun d e hsignificant => ?_⟩
  obtain ⟨n, hform, hexponent, hpadded⟩ := form_general hnum hden hsignificant
  have htext := toList_general hnumber hfinite hzero
  rw [hform.text] at htext
  refine ⟨fun q => ?_, ⟨n, hform.proper, hform.trimmed, htext, hexponent, hpadded⟩,
    roundHalfEven_again hden hsignificant⟩
  have hsign : Numeral.IsSign (if x.toRat < 0 then some '-' else none) := by
    split
    · exact fun c hc => .inr (Option.some.inj hc).symm
    · exact fun c hc => nomatch hc
  rw [htext, Numeral.denotes_iff hsign hform.proper, hform.exact]
  simp

/-- Half a unit below a million, where the digits carry. -/
def belowMillion : Binary64 := ⟨0x412E847F00000000⟩

theorem belowMillion_at_six_digits :
    Significant 5 |belowMillion.toRat| 100000 6 ∧ general belowMillion = "1e+06" ∧
      ∀ q, Numeral.Denotes "1e+06".toList q ↔ q = 1000000 := by
  have hzero : belowMillion.isZero = false := by decide +kernel
  have htext : general belowMillion = "1e+06" := by decide +kernel
  have hratio : Scientific.ofRatio 5 belowMillion.numerator belowMillion.denominator = ⟨100000, 6⟩ := by
    decide +kernel
  have hsignificant : Significant 5 |belowMillion.toRat| 100000 6 := by
    have := significant_ofRatio 5 (Binary64.numerator_pos hzero) belowMillion.denominator_pos
    rwa [hratio, ← Binary64.abs_toRat hzero] at this
  have hsign : ¬ belowMillion.toRat < 0 := by
    rw [Binary64.toRat_neg_iff hzero]
    decide +kernel
  refine ⟨hsignificant, htext, fun q => ?_⟩
  have hdenotes := ((general_exact_at_six_digits belowMillion (by decide +kernel) (by decide +kernel) hzero).2
    100000 6 hsignificant).1 q
  rw [htext, if_neg hsign] at hdenotes
  rw [hdenotes]
  norm_num

end Decimal

end ScriptBackend
