import ScriptBackend.Literal.Hex
import ScriptBackend.Proofs.Numerals
import ScriptBackend.Proofs.Text

/-!
# Hexadecimal numerals

The numeral at the front of a text consists of the longest runs of digits before the
point, behind it and in the exponent. Clamping the exponent at every digit gives what
clamping it once at the end does. All that counts is below 2⁷, so the bytes of a text
have the same numeral at the front as its characters.
-/

namespace ScriptBackend.HexNumeral

open Numeral (Digits IsSign ofDigits)
open Text (Byte)

-- ---------------------------------------------------------------------------
-- The parts of a numeral
-- ---------------------------------------------------------------------------

def runOf (p : Char → Bool) : Language Char := {w | ∀ c ∈ w, p c = true}

theorem longest_takeWhile (p : Char → Bool) (cs : List Char) : Longest (runOf p) cs (cs.takeWhile p) where
  mem := List.all_eq_true.mp List.all_takeWhile
  front := List.takeWhile_prefix p
  longest := by
    rintro other hother ⟨rest, rfl⟩
    rw [List.takeWhile_append_of_pos hother, List.length_append]
    exact Nat.le_add_right ..

/-- A fraction is the longest run of hex digits behind a point. -/
def IsFraction (cs fraction rest : List Char) : Prop :=
  (∃ t, cs = '.' :: t ∧ Longest (runOf isHexDigit) t fraction ∧ t = fraction ++ rest) ∨
    ((∀ t, cs ≠ '.' :: t) ∧ fraction = [] ∧ rest = cs)

/-- An exponent is the longest run of decimal digits behind a mark and a sign, which may be left out. -/
def IsExponent (cs : List Char) (negative : Bool) (digits : List Char) : Prop :=
  (∃ mark sign t, (mark = 'p' ∨ mark = 'P') ∧ IsSign sign ∧ cs = mark :: (sign.toList ++ t) ∧
      (sign = none → ∀ u, t ≠ '+' :: u ∧ t ≠ '-' :: u) ∧
      Longest (runOf Char.isDigit) t digits ∧ negative = (sign == some '-')) ∨
    ((∀ t, cs ≠ 'p' :: t ∧ cs ≠ 'P' :: t) ∧ digits = [] ∧ negative = false)

/-- The parts of the numeral at the front of a text, each as long as it can be. -/
structure Parts (cs : List Char) (h : HexNumeral) : Prop where
  whole : Longest (runOf isHexDigit) cs h.whole
  others : ∃ behindWhole behindFraction, cs = h.whole ++ behindWhole ∧
    IsFraction behindWhole h.fraction behindFraction ∧
    IsExponent behindFraction h.exponentNegative h.exponent

theorem scanFraction_of_ne (h : ∀ t, cs ≠ '.' :: t) : scanFraction cs = ([], cs) := by
  fun_cases scanFraction cs with
  | case1 rest => exact absurd rfl (h rest)
  | case2 => rfl

theorem scanFraction_parts (cs : List Char) : IsFraction cs (scanFraction cs).1 (scanFraction cs).2 := by
  unfold scanFraction
  split
  · exact .inl ⟨_, rfl, longest_takeWhile _ _, List.takeWhile_append_dropWhile.symm⟩
  · rename_i hne
    exact .inr ⟨hne, rfl, rfl⟩

theorem scanSign_of_ne (h : ∀ t, cs ≠ '+' :: t ∧ cs ≠ '-' :: t) : Numeral.scanSign cs = (none, cs) := by
  fun_cases Numeral.scanSign cs with
  | case1 rest => exact absurd rfl (h rest).1
  | case2 rest => exact absurd rfl (h rest).2
  | case3 => rfl

theorem scanSign_none (h : (Numeral.scanSign cs).1 = none) (u : List Char) :
    cs ≠ '+' :: u ∧ cs ≠ '-' :: u := by
  refine ⟨?_, ?_⟩ <;> rintro rfl <;> cases h

theorem scanExponent_parts (cs : List Char) : IsExponent cs (scanExponent cs).1 (scanExponent cs).2 := by
  cases cs with
  | nil => exact .inr (by simp [scanExponent])
  | cons mark rest =>
    by_cases hmark : mark = 'p' ∨ mark = 'P'
    · obtain ⟨hsign, hrest⟩ := Numeral.scanSign_eq rest
      simp only [scanExponent, if_pos hmark]
      refine .inl ⟨mark, _, _, hmark, hsign, by rw [hrest], ?_, longest_takeWhile _ _, rfl⟩
      intro hnone
      rw [hnone] at hrest
      rw [show (Numeral.scanSign rest).2 = rest from hrest]
      exact scanSign_none hnone
    · rw [not_or] at hmark
      exact .inr (by simp [scanExponent, hmark])

theorem scan_parts (cs : List Char) : Parts cs (scan cs) where
  whole := longest_takeWhile _ _
  others := ⟨cs.dropWhile isHexDigit, (scanFraction (cs.dropWhile isHexDigit)).2,
    List.takeWhile_append_dropWhile.symm, scanFraction_parts _, scanExponent_parts _⟩

theorem IsFraction.unique (ha : IsFraction cs f r) (hb : IsFraction cs f' r') : f = f' ∧ r = r' := by
  obtain ⟨t, rfl, hf, ht⟩ | ⟨hne, rfl, rfl⟩ := ha
  · obtain ⟨t', heq, hf', ht'⟩ | ⟨hne, -, -⟩ := hb
    · cases heq
      obtain rfl := hf.unique hf'
      exact ⟨rfl, List.append_cancel_left (ht.symm.trans ht')⟩
    · exact absurd rfl (hne t)
  · obtain ⟨t', rfl, -, -⟩ | ⟨-, rfl, rfl⟩ := hb
    · exact absurd rfl (hne t')
    · exact ⟨rfl, rfl⟩

theorem sign_unique {sign sign' : Option Char} (hsign : IsSign sign) (hsign' : IsSign sign')
    (hnone : sign = none → ∀ u, t ≠ '+' :: u ∧ t ≠ '-' :: u)
    (hnone' : sign' = none → ∀ u, t' ≠ '+' :: u ∧ t' ≠ '-' :: u)
    (heq : sign.toList ++ t = sign'.toList ++ t') : sign = sign' ∧ t = t' := by
  have absent {c : Char} {u v : List Char} (hc : IsSign (some c))
      (hu : ∀ w, u ≠ '+' :: w ∧ u ≠ '-' :: w) : u ≠ c :: v := by
    rcases hc c rfl with rfl | rfl
    · exact (hu v).1
    · exact (hu v).2
  cases sign with
  | none =>
    cases sign' with
    | none => exact ⟨rfl, heq⟩
    | some c => exact absurd heq (absent hsign' (hnone rfl))
  | some c =>
    cases sign' with
    | none => exact absurd heq.symm (absent hsign (hnone' rfl))
    | some d =>
      cases heq
      exact ⟨rfl, rfl⟩

theorem IsExponent.unique (ha : IsExponent cs n d) (hb : IsExponent cs n' d') : n = n' ∧ d = d' := by
  have marked {cs t : List Char} {mark : Char} (hmark : mark = 'p' ∨ mark = 'P')
      (hcs : ∀ u, cs ≠ 'p' :: u ∧ cs ≠ 'P' :: u) : cs ≠ mark :: t := by
    rcases hmark with rfl | rfl
    · exact (hcs t).1
    · exact (hcs t).2
  obtain ⟨mark, sign, t, hmark, hsign, hcs, hnone, hd, rfl⟩ | ⟨hne, rfl, rfl⟩ := ha
  · obtain ⟨mark', sign', t', -, hsign', hcs', hnone', hd', rfl⟩ | ⟨hne, -, -⟩ := hb
    · obtain ⟨-, heq⟩ := List.cons.inj (hcs.symm.trans hcs')
      obtain ⟨rfl, rfl⟩ := sign_unique hsign hsign' hnone hnone' heq
      exact ⟨rfl, hd.unique hd'⟩
    · exact absurd hcs (marked hmark hne)
  · obtain ⟨mark', _, _, hmark', -, hcs', -, -, -⟩ | ⟨-, rfl, rfl⟩ := hb
    · exact absurd hcs' (marked hmark' hne)
    · exact ⟨rfl, rfl⟩

theorem Parts.unique {a b : HexNumeral} (ha : Parts cs a) (hb : Parts cs b) : a = b := by
  obtain ⟨whole, fraction, exponent, negative⟩ := a
  obtain ⟨whole', fraction', exponent', negative'⟩ := b
  obtain ⟨hwhole, behind, last, hcs, hfraction, hexponent⟩ := ha
  obtain ⟨hwhole', behind', last', hcs', hfraction', hexponent'⟩ := hb
  obtain rfl : whole = whole' := hwhole.unique hwhole'
  obtain rfl : behind = behind' := List.append_cancel_left (hcs.symm.trans hcs')
  obtain ⟨rfl, rfl⟩ : fraction = fraction' ∧ last = last' := hfraction.unique hfraction'
  obtain ⟨rfl, rfl⟩ : negative = negative' ∧ exponent = exponent' := hexponent.unique hexponent'
  rfl

-- ---------------------------------------------------------------------------
-- The exponent
-- ---------------------------------------------------------------------------

theorem digitValue_of_isDigit (h : c.isDigit = true) :
    digitValue c = c.toNat - '0'.toNat ∧ digitValue c ≤ 9 := by
  rw [digitValue, if_pos h]
  simp only [Char.isDigit, Bool.and_eq_true, decide_eq_true_eq] at h
  have hhigh : c.toNat ≤ '0'.toNat + 9 := h.2
  omega

/-- Clamping at every digit is clamping once: a value that has reached the limit stays there. -/
theorem exponentValue_eq (h : Digits digits) :
    exponentValue digits = min (ofDigits digits : Int) 0x7FFFFFFF := by
  induction digits using List.reverseRecOn with
  | nil => rfl
  | append_singleton digits d ih =>
    obtain ⟨hdigits, hd⟩ := List.forall_mem_append.mp h
    obtain ⟨hvalue, hle⟩ := digitValue_of_isDigit (hd d List.mem_cons_self)
    have hstep : exponentValue (digits ++ [d]) =
        clamp (clamp (exponentValue digits * 10) + (digitValue d : Int)) := by
      simp [exponentValue]
    have hof : ofDigits (digits ++ [d]) = 10 * ofDigits digits + digitValue d := by
      simp [ofDigits, hvalue]
    rw [hstep, hof, ih hdigits]
    simp only [clamp]
    omega

theorem exponentValue_bounds (h : Digits digits) :
    0 ≤ exponentValue digits ∧ exponentValue digits ≤ 0x7FFFFFFF := by
  rw [exponentValue_eq h]
  omega

/-- The exponent that is written, capped at the largest number of thirty-two signed bits. -/
def cappedExponent (h : HexNumeral) : Int :=
  let magnitude : Int := min (ofDigits h.exponent : Int) 0x7FFFFFFF
  if h.exponentNegative then -magnitude else magnitude

theorem scale_eq {h : HexNumeral} (hdigits : Digits h.exponent) (hfew : h.fraction.length < 0x20000000) :
    h.scale = clamp (-4 * h.fraction.length + h.cappedExponent) := by
  rw [scale, cappedExponent, exponentValue_eq hdigits]
  by_cases hempty : h.exponent = []
  · simp only [hempty, List.isEmpty_nil, if_true]
    have hzero : (ofDigits [] : Int) = 0 := rfl
    simp only [hzero, clamp]
    split <;> omega
  · simp [hempty]

theorem length_fraction_le (cs : List Char) : (scan cs).fraction.length ≤ cs.length := by
  obtain ⟨-, behind, rest, hcs, hfraction, -⟩ := scan_parts cs
  have hlength := congrArg List.length hcs
  rw [List.length_append] at hlength
  obtain ⟨t, rfl, -, ht⟩ | ⟨-, hnil, -⟩ := hfraction
  · rw [List.length_cons, ht, List.length_append] at hlength
    omega
  · rw [hnil]
    exact Nat.zero_le _

theorem digits_exponent (cs : List Char) : Digits (scan cs).exponent := by
  obtain ⟨-, _, _, -, -, hexponent⟩ := scan_parts cs
  obtain ⟨_, _, _, -, -, -, -, hdigits, -⟩ | ⟨-, hnil, -⟩ := hexponent
  · exact hdigits.mem
  · rw [hnil]
    exact fun c hc => (nomatch hc)

-- ---------------------------------------------------------------------------
-- Bytes of a text
-- ---------------------------------------------------------------------------

def chars (bs : List Byte) : List Char := bs.map Char.ofUInt8

def spread (cs : List Char) : List Char := cs.flatMap fun c => chars (String.utf8EncodeChar c)

theorem chars_bytes (cs : List Char) : chars (Text.bytes (String.ofList cs)) = spread cs := by
  rw [chars, Text.bytes_eq_flatMap, String.toList_ofList, List.map_flatMap]
  rfl

/-- A character below 2⁷ is its own byte, and any other begins with a byte that is not below. -/
theorem spread_cons (c : Char) (cs : List Char) :
    (c.toNat < 0x80 → spread (c :: cs) = c :: spread cs) ∧
      (0x80 ≤ c.toNat → ∃ d t, spread (c :: cs) = d :: t ∧ 0x80 ≤ d.toNat) := by
  have hcons : spread (c :: cs) = chars (String.utf8EncodeChar c) ++ spread cs := rfl
  have hlt := Text.toNat_lt c
  have hval : c.toNat = c.val.toNat := rfl
  rw [hcons, hval]
  fun_cases String.utf8EncodeChar c with
  | case1 v hv =>
    refine ⟨?_, fun _ => by omega⟩
    intro _
    have hbyte : Char.ofUInt8 (UInt8.ofNat v) = c := by
      apply Char.ext
      apply UInt32.toNat_inj.mp
      exact UInt8.toNat_ofNat_of_lt' (Nat.lt_of_le_of_lt hv (by decide))
    simp [chars, hbyte]
  | case2 v | case3 v | case4 v =>
    refine ⟨fun _ => by omega, fun _ => ⟨_, _, rfl, ?_⟩⟩
    refine Nat.le_trans ?_ (Nat.le_of_eq (UInt8.toNat_ofNat_of_lt' (?_ : _ < 256)).symm)
    · omega
    · omega

theorem spread_ne (hc : c.toNat < 0x80) (h : ∀ t, cs ≠ c :: t) (t : List Char) : spread cs ≠ c :: t := by
  intro heq
  cases cs with
  | nil => cases heq
  | cons d rest =>
    obtain ⟨hlow, hhigh⟩ := spread_cons d rest
    rcases Nat.lt_or_ge d.toNat 0x80 with hd | hd
    · obtain ⟨rfl, -⟩ := List.cons.inj ((hlow hd).symm.trans heq)
      exact h rest rfl
    · obtain ⟨e, u, he, hle⟩ := hhigh hd
      obtain ⟨rfl, -⟩ := List.cons.inj (he.symm.trans heq)
      omega

theorem takeWhile_spread {p : Char → Bool} (hp : ∀ c, p c = true → c.toNat < 0x80) (cs : List Char) :
    (spread cs).takeWhile p = cs.takeWhile p ∧ (spread cs).dropWhile p = spread (cs.dropWhile p) := by
  induction cs with
  | nil => exact ⟨rfl, rfl⟩
  | cons c cs ih =>
    obtain ⟨hlow, hhigh⟩ := spread_cons c cs
    by_cases hc : p c = true
    · rw [hlow (hp c hc)]
      simp [hc, ih]
    · obtain ⟨d, t, heq, hd⟩ : ∃ d t, spread (c :: cs) = d :: t ∧ ¬ p d = true := by
        rcases Nat.lt_or_ge c.toNat 0x80 with hlt | hge
        · exact ⟨c, spread cs, hlow hlt, hc⟩
        · obtain ⟨d, t, heq, hd⟩ := hhigh hge
          exact ⟨d, t, heq, fun h => Nat.not_lt_of_le hd (hp d h)⟩
      rw [List.takeWhile_cons_of_neg hc, List.dropWhile_cons_of_neg hc, heq,
        List.takeWhile_cons_of_neg hd, List.dropWhile_cons_of_neg hd]
      exact ⟨rfl, rfl⟩

theorem isDigit_lt {c : Char} (h : c.isDigit = true) : c.toNat < 0x80 := by
  simp only [Char.isDigit, Bool.and_eq_true, decide_eq_true_eq] at h
  exact Nat.lt_of_le_of_lt h.2 (by decide)

theorem isHexDigit_lt (h : isHexDigit c = true) : c.toNat < 0x80 := by
  simp only [isHexDigit, Bool.or_eq_true, Bool.and_eq_true, decide_eq_true_eq] at h
  rcases h with (h | ⟨-, h⟩) | ⟨-, h⟩
  · exact isDigit_lt h
  · exact Nat.lt_of_le_of_lt h (by decide)
  · exact Nat.lt_of_le_of_lt h (by decide)

theorem scanFraction_spread (cs : List Char) :
    scanFraction (spread cs) = ((scanFraction cs).1, spread (scanFraction cs).2) := by
  fun_cases scanFraction cs with
  | case1 rest =>
    obtain ⟨htake, hdrop⟩ := takeWhile_spread @isHexDigit_lt rest
    rw [(spread_cons '.' rest).1 (by decide), scanFraction, htake, hdrop]
  | case2 cs hne =>
    exact scanFraction_of_ne (spread_ne (by decide) hne)

theorem scanSign_spread (cs : List Char) :
    Numeral.scanSign (spread cs) = ((Numeral.scanSign cs).1, spread (Numeral.scanSign cs).2) := by
  fun_cases Numeral.scanSign cs with
  | case1 rest => rw [(spread_cons '+' rest).1 (by decide), Numeral.scanSign]
  | case2 rest => rw [(spread_cons '-' rest).1 (by decide), Numeral.scanSign]
  | case3 cs hplus hminus =>
    exact scanSign_of_ne fun t => ⟨spread_ne (by decide) hplus t, spread_ne (by decide) hminus t⟩

theorem scanExponent_of_ne (hp : ∀ t, cs ≠ 'p' :: t) (hP : ∀ t, cs ≠ 'P' :: t) :
    scanExponent cs = (false, []) := by
  cases cs with
  | nil => rfl
  | cons mark rest =>
    have hmark : ¬ (mark = 'p' ∨ mark = 'P') := by
      rintro (rfl | rfl)
      · exact hp rest rfl
      · exact hP rest rfl
    rw [scanExponent, if_neg hmark]

theorem scanExponent_spread (cs : List Char) : scanExponent (spread cs) = scanExponent cs := by
  by_cases h : ∃ mark rest, (mark = 'p' ∨ mark = 'P') ∧ cs = mark :: rest
  · obtain ⟨mark, rest, hmark, rfl⟩ := h
    have hlow : mark.toNat < 0x80 := by
      rcases hmark with rfl | rfl
      · decide
      · decide
    rw [(spread_cons mark rest).1 hlow, scanExponent, scanExponent, if_pos hmark, if_pos hmark,
      scanSign_spread]
    exact Prod.ext rfl (takeWhile_spread @isDigit_lt _).1
  · have hp (t : List Char) : cs ≠ 'p' :: t := fun heq => h ⟨_, t, .inl rfl, heq⟩
    have hP (t : List Char) : cs ≠ 'P' :: t := fun heq => h ⟨_, t, .inr rfl, heq⟩
    rw [scanExponent_of_ne hp hP,
      scanExponent_of_ne (spread_ne (by decide) hp) (spread_ne (by decide) hP)]

/-- Spreading characters over bytes changes nothing, since what counts is below 2⁷. -/
theorem scan_spread (cs : List Char) : scan (spread cs) = scan cs := by
  obtain ⟨htake, hdrop⟩ := takeWhile_spread @isHexDigit_lt cs
  simp only [scan, htake, hdrop, scanFraction_spread, scanExponent_spread]

end ScriptBackend.HexNumeral
