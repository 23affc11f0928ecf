import ScriptBackend.Proofs.HexNumerals

/-!
# Hexadecimal numerals in thirty-two bits

A hexadecimal numeral is read character by character with counters of thirty-two
signed bits. In a text below 2²⁹ bytes no counter is further than its position allows,
so none of them overflows and the reading ends with the parts of the numeral.
-/

namespace ScriptBackend.HexNumeral

open Text (Byte)

-- ---------------------------------------------------------------------------
-- Reading with counters
-- ---------------------------------------------------------------------------

def IsInt32 (n : Int) : Prop := -0x80000000 ≤ n ∧ n ≤ 0x7FFFFFFF

instance (n : Int) : Decidable (IsInt32 n) := inferInstanceAs (Decidable (_ ∧ _))

structure Reading where
  position : Nat
  mantissa : Binary64
  scale : Int
  digits : Int

namespace Reading

def start : Reading := ⟨0, .zero false, 0, 0⟩

def InRange (r : Reading) : Prop := r.position < 0x100000000 ∧ IsInt32 r.scale ∧ IsInt32 r.digits

instance (r : Reading) : Decidable r.InRange := inferInstanceAs (Decidable (_ ∧ _ ∧ _))

/-- One more digit, which stands for `places` fewer powers of two. -/
def push (r : Reading) (places : Int) (c : Char) : Reading :=
  { position := r.position + 1
    mantissa := r.mantissa * .ofNat 16 + .ofNat (digitValue c)
    scale := r.scale - places
    digits := r.digits + 1 }

def skip (r : Reading) : Reading := { r with position := r.position + 1 }

end Reading

def readDigits (cs : List Char) (places : Int) (r : Reading) : Option Reading :=
  if h : r.position < cs.length then
    if isHexDigit cs[r.position] then
      let next := r.push places cs[r.position]
      if next.InRange then readDigits cs places next else none
    else some r
  else some r
termination_by cs.length - r.position
decreasing_by
  simp only [Reading.push]
  omega

def readFraction (cs : List Char) (r : Reading) : Option Reading :=
  if cs[r.position]? = some '.' then
    if r.skip.InRange then readDigits cs 4 r.skip else none
  else some r

def readExponentDigits (cs : List Char) (position : Nat) (value : Int) : Option (Nat × Int) :=
  if h : position < cs.length then
    if cs[position].isDigit then
      let next := clamp (clamp (value * 10) + (digitValue cs[position] : Int))
      if position + 1 < 0x100000000 then readExponentDigits cs (position + 1) next else none
    else some (position, value)
  else some (position, value)
termination_by cs.length - position

def behindSign (cs : List Char) (position : Nat) : Nat :=
  if cs[position]? = some '+' ∨ cs[position]? = some '-' then position + 1 else position

def readExponent (cs : List Char) (r : Reading) : Option Int :=
  if cs[r.position]? = some 'p' ∨ cs[r.position]? = some 'P' then
    let first := behindSign cs (r.position + 1)
    if first < 0x100000000 then
      (readExponentDigits cs first 0).bind fun (stop, value) =>
        if stop = first then some r.scale
        else
          let exponent := if cs[r.position + 1]? = some '-' then -value else value
          if IsInt32 exponent then some (clamp (r.scale + exponent)) else none
    else none
  else some r.scale

/-- The mantissa and the scale of the numeral at the front of a text, `some none` if it has no
digit, and nothing if a counter leaves its range. -/
def read? (cs : List Char) : Option (Option (Binary64 × Int)) := do
  let r ← readDigits cs 0 .start
  let r ← readFraction cs r
  if r.digits = 0 then return none
  let scale ← readExponent cs r
  return some (r.mantissa, scale)

namespace Reading

def pushAll (r : Reading) (places : Int) (run : List Char) : Reading := run.foldl (·.push places ·) r

/-- No counter is further than the position allows. -/
structure Fits (r : Reading) : Prop where
  digits : 0 ≤ r.digits ∧ r.digits ≤ r.position
  scale : -4 * (r.position : Int) ≤ r.scale ∧ r.scale ≤ 0

theorem fits_start : Fits start := ⟨by decide, by decide⟩

theorem Fits.push {r : Reading} (h : r.Fits) (hplaces : 0 ≤ places ∧ places ≤ 4) (c : Char) :
    (r.push places c).Fits := by
  obtain ⟨hdigits, hscale⟩ := h
  refine ⟨?_, ?_⟩
  · simp only [Reading.push]
    omega
  · simp only [Reading.push]
    omega

theorem Fits.skip {r : Reading} (h : r.Fits) : r.skip.Fits := by
  obtain ⟨hdigits, hscale⟩ := h
  refine ⟨?_, ?_⟩
  · simp only [Reading.skip]
    omega
  · simp only [Reading.skip]
    omega

theorem Fits.inRange {r : Reading} (h : r.Fits) (hposition : r.position < 0x20000000) : r.InRange := by
  obtain ⟨hdigits, hscale⟩ := h
  unfold InRange IsInt32
  omega

theorem pushAll_eq (r : Reading) (places : Int) (run : List Char) :
    r.pushAll places run =
      { position := r.position + run.length
        mantissa := run.foldl (fun m c => m * .ofNat 16 + .ofNat (digitValue c)) r.mantissa
        scale := r.scale - places * run.length
        digits := r.digits + run.length } := by
  induction run generalizing r with
  | nil => simp [pushAll]
  | cons c run ih =>
    have hrun : r.pushAll places (c :: run) = (r.push places c).pushAll places run := rfl
    rw [hrun, ih]
    simp only [push, List.length_cons, List.foldl_cons, mk.injEq, true_and]
    refine ⟨by omega, ?_, by omega⟩
    rw [Int.natCast_succ, Int.mul_add]
    omega

end Reading

section
variable {cs : List Char} (hlen : cs.length < 0x20000000)

include hlen

theorem readDigits_eq {r : Reading} (hr : r.Fits) (hplaces : 0 ≤ places ∧ places ≤ 4) :
    readDigits cs places r =
      some (r.pushAll places ((cs.drop r.position).takeWhile isHexDigit)) ∧
    (r.pushAll places ((cs.drop r.position).takeWhile isHexDigit)).Fits := by
  fun_induction readDigits cs places r with
  | case1 r hlt hdigit next hrange ih =>
    rw [List.drop_eq_getElem_cons hlt, List.takeWhile_cons_of_pos hdigit]
    exact ih (hr.push hplaces _)
  | case2 r hlt hdigit next hrange =>
    exact absurd ((hr.push hplaces _).inRange (Nat.lt_of_le_of_lt hlt hlen)) hrange
  | case3 r hlt hdigit =>
    rw [List.drop_eq_getElem_cons hlt, List.takeWhile_cons_of_neg hdigit]
    exact ⟨rfl, hr⟩
  | case4 r hge =>
    rw [List.drop_eq_nil_of_le (Nat.le_of_not_lt hge)]
    exact ⟨rfl, hr⟩

theorem readExponentDigits_eq (position : Nat) (value : Int) :
    let run := (cs.drop position).takeWhile Char.isDigit
    readExponentDigits cs position value =
      some (position + run.length,
        run.foldl (fun n c => clamp (clamp (n * 10) + (digitValue c : Int))) value) := by
  fun_induction readExponentDigits cs position value with
  | case1 position value hlt hdigit next hrange ih =>
    rw [List.drop_eq_getElem_cons hlt, List.takeWhile_cons_of_pos hdigit, ih]
    simp only [List.length_cons, List.foldl_cons, Option.some.injEq, Prod.mk.injEq]
    exact ⟨by omega, rfl⟩
  | case2 position value hlt hdigit hrange => omega
  | case3 position value hlt hdigit =>
    rw [List.drop_eq_getElem_cons hlt, List.takeWhile_cons_of_neg hdigit]
    rfl
  | case4 position value hge =>
    rw [List.drop_eq_nil_of_le (Nat.le_of_not_lt hge)]
    rfl

theorem readFraction_eq {r : Reading} (hr : r.Fits) :
    let fraction := scanFraction (cs.drop r.position)
    ∃ r', readFraction cs r = some r' ∧ r'.Fits ∧ cs.drop r'.position = fraction.2 ∧
      r'.mantissa =
        fraction.1.foldl (fun m c => m * .ofNat 16 + .ofNat (digitValue c)) r.mantissa ∧
      r'.scale = r.scale - 4 * fraction.1.length ∧ r'.digits = r.digits + fraction.1.length := by
  intro fraction
  by_cases hpoint : cs[r.position]? = some '.'
  · obtain ⟨hlt, hc⟩ := List.getElem?_eq_some_iff.mp hpoint
    have hdrop : cs.drop r.position = '.' :: cs.drop (r.position + 1) := by
      rw [List.drop_eq_getElem_cons hlt, hc]
    have hfraction : fraction = ((cs.drop (r.position + 1)).takeWhile isHexDigit,
        (cs.drop (r.position + 1)).dropWhile isHexDigit) := by
      simp only [fraction, hdrop, scanFraction]
    obtain ⟨hread, hfits⟩ := readDigits_eq hlen hr.skip (show (0 : Int) ≤ 4 ∧ (4 : Int) ≤ 4 by decide)
    refine ⟨_, ?_, hfits, ?_⟩
    · rw [readFraction, if_pos hpoint, if_pos (hr.skip.inRange (Nat.lt_of_le_of_lt hlt hlen)), hread]
    · rw [hfraction, Reading.pushAll_eq]
      refine ⟨?_, rfl, rfl, rfl⟩
      rw [← Text.drop_length_takeWhile, List.drop_drop]
      rfl
  · have hfraction : fraction = ([], cs.drop r.position) := by
      apply scanFraction_of_ne
      intro t ht
      rw [← List.head?_drop, ht] at hpoint
      exact hpoint rfl
    rw [hfraction]
    exact ⟨r, if_neg hpoint, hr, rfl, rfl, by simp, by simp⟩

omit hlen in
theorem behindSign_eq (cs : List Char) (position : Nat) :
    behindSign cs position ≤ position + 1 ∧
    cs.drop (behindSign cs position) = (Numeral.scanSign (cs.drop position)).2 ∧
    (cs[position]? = some '-' ↔ ((Numeral.scanSign (cs.drop position)).1 == some '-') = true) := by
  have hnext : cs.drop (position + 1) = (cs.drop position).tail := by rw [← List.drop_drop, List.drop_one]
  rw [behindSign, ← List.head?_drop]
  generalize hrest : cs.drop position = rest at hnext
  fun_cases Numeral.scanSign rest with
  | case1 rest => simp [hnext]
  | case2 rest => simp [hnext]
  | case3 rest hplus hminus =>
    have hhead (c : Char) (hc : ∀ t, rest ≠ c :: t) : rest.head? ≠ some c := by
      intro h
      obtain ⟨t, ht⟩ := List.head?_eq_some_iff.mp h
      exact hc t ht
    simp [hhead _ hplus, hhead _ hminus, hrest]

theorem readExponent_eq (r : Reading) :
    let exponent := scanExponent (cs.drop r.position)
    readExponent cs r = some (if exponent.2.isEmpty then r.scale
      else clamp (r.scale + if exponent.1 then -exponentValue exponent.2 else exponentValue exponent.2)) := by
  intro exponent
  have hmark : cs[r.position]? = (cs.drop r.position).head? := List.head?_drop.symm
  cases hbehind : cs.drop r.position with
  | nil => simp [readExponent, hmark, exponent, hbehind, scanExponent]
  | cons mark rest =>
    rw [hbehind, List.head?_cons] at hmark
    by_cases hp : mark = 'p' ∨ mark = 'P'
    · have hlt : r.position < cs.length := (List.getElem?_eq_some_iff.mp hmark).1
      have hrest : cs.drop (r.position + 1) = rest := by
        rw [← List.drop_drop, hbehind, List.drop_one, List.tail_cons]
      obtain ⟨hle, hdrop, hminus⟩ := behindSign_eq cs (r.position + 1)
      have hdigits := readExponentDigits_eq hlen (behindSign cs (r.position + 1)) 0
      rw [hrest] at hdrop hminus
      rw [hdrop] at hdigits
      have hexponent : exponent =
          ((Numeral.scanSign rest).1 == some '-', (Numeral.scanSign rest).2.takeWhile Char.isDigit) := by
        simp only [exponent, hbehind, scanExponent, if_pos hp]
      have hbounds := exponentValue_bounds (Numeral.digits_takeWhile (Numeral.scanSign rest).2)
      generalize (Numeral.scanSign rest).2.takeWhile Char.isDigit = digits at hdigits hexponent hbounds
      have hint (negative : Bool) :
          IsInt32 (if negative then -exponentValue digits else exponentValue digits) := by
        unfold IsInt32
        split <;> omega
      rw [readExponent, hmark, if_pos (by simpa using hp), if_pos (by omega), hdigits, hexponent]
      simp only [Option.bind_some, hminus, Nat.add_eq_left, List.length_eq_zero_iff, List.isEmpty_iff]
      split
      · rfl
      · exact if_pos (hint _)
    · simp [readExponent, hmark, exponent, hbehind, scanExponent, hp]

theorem read?_eq :
    read? cs = some (if (scan cs).whole ++ (scan cs).fraction = [] then none
      else some ((scan cs).mantissa, (scan cs).scale)) := by
  obtain ⟨hwhole, hfits⟩ := readDigits_eq hlen Reading.fits_start (show (0 : Int) ≤ 0 ∧ (0 : Int) ≤ 4 by decide)
  rw [show Reading.start.position = 0 from rfl, List.drop_zero, Reading.pushAll_eq] at hwhole hfits
  obtain ⟨r, hread, -, hbehind, hmantissa, hscale, hdigits⟩ := readFraction_eq hlen hfits
  have hexponent := readExponent_eq hlen r
  simp only [Reading.start, Nat.zero_add, Text.drop_length_takeWhile] at hbehind hmantissa hscale hdigits
  rw [hbehind] at hexponent
  have hnone : r.digits = 0 ↔ (scan cs).whole ++ (scan cs).fraction = [] := by
    rw [hdigits, List.append_eq_nil_iff, ← List.length_eq_zero_iff, ← List.length_eq_zero_iff]
    simp only [scan]
    omega
  have hfolded : r.mantissa = (scan cs).mantissa := by
    rw [hmantissa, mantissa, List.foldl_append]
    rfl
  have hplaces : r.scale = -4 * (scan cs).fraction.length := by
    rw [hscale]
    simp only [scan]
    omega
  have hfinal : readExponent cs r = some (scan cs).scale := by
    rw [hexponent, hplaces]
    rfl
  simp only [read?, hwhole, hread, hfinal, hfolded, hnone, Option.bind_eq_bind, Option.bind_some]
  split <;> rfl

end

-- ---------------------------------------------------------------------------
-- Bytes
-- ---------------------------------------------------------------------------

/-- In fewer than 2²⁹ bytes, no counter of a hexadecimal numeral leaves its thirty-two signed bits.
The numeral consists of the longest runs of digits before the point, behind it and in the exponent.
The scale is four places down for every digit of the fraction, plus the exponent, capped and clamped
once; the mantissa is folded over all hex digits in order. Without a digit the number is zero. -/
theorem scale_exact_up_to_clamping (bs : List Byte) (hlen : bs.length < 0x20000000) :
    let h := scan (chars bs)
    let folded := (h.whole ++ h.fraction).foldl
      (fun m c => m * .ofNat 16 + .ofNat (digitValue c)) (Binary64.zero false)
    (∀ other, Parts (chars bs) other ↔ other = h) ∧
    (∀ text, Text.bytes text = bs → scan text.toList = h) ∧
    h.scale = clamp (-4 * h.fraction.length + h.cappedExponent) ∧
    (h.whole ++ h.fraction = [] → read? (chars bs) = some none ∧ h.value = .zero false) ∧
    (h.whole ++ h.fraction ≠ [] →
      read? (chars bs) = some (some (folded, h.scale)) ∧ h.value = folded * .twoPow h.scale) := by
  intro h folded
  have hchars : (chars bs).length < 0x20000000 := by rwa [chars, List.length_map]
  have hread := read?_eq hchars
  refine ⟨?_, ?_, ?_, ?_, ?_⟩
  · intro other
    refine ⟨fun hother => hother.unique (scan_parts _), ?_⟩
    rintro rfl
    exact scan_parts _
  · rintro text rfl
    rw [← scan_spread, ← chars_bytes, String.ofList_toList]
  · exact scale_eq (digits_exponent _) (Nat.lt_of_le_of_lt (length_fraction_le _) hchars)
  · intro hnone
    rw [hread, if_pos hnone]
    refine ⟨rfl, ?_⟩
    rw [value, if_pos (by simpa using hnone)]
  · intro hsome
    rw [hread, if_neg hsome]
    refine ⟨rfl, ?_⟩
    rw [value, if_neg (by simpa using hsome)]
    rfl

/-- The fraction and the exponent together pass the least number of thirty-two bits, with a character
of two bytes behind them. -/
theorem long_exponent_clamped :
    let bs := Text.bytes "fF.8p-0099999999999é"
    bs.length < 0x20000000 ∧ Parts (chars bs) ⟨['f', 'F'], ['8'], "0099999999999".toList, true⟩ ∧
      (scan "fF.8p-0099999999999é".toList).scale = -0x80000000 ∧
      read? (chars bs) = some (some (⟨0x40AFF00000000000⟩, -0x80000000)) ∧
      (scan (chars (Text.bytes ".p5"))).value = .zero false := by
  intro bs
  have hlen : bs.length < 0x20000000 := by decide +kernel
  have hscan : scan (chars bs) = ⟨['f', 'F'], ['8'], "0099999999999".toList, true⟩ := by decide +kernel
  obtain ⟨hparts, htext, hscale, -, hread⟩ := scale_exact_up_to_clamping bs hlen
  obtain ⟨-, -, -, hzero, -⟩ := scale_exact_up_to_clamping (Text.bytes ".p5") (by decide +kernel)
  have hlowest : (scan (chars bs)).scale = -0x80000000 := by
    rw [hscale, hscan]
    decide +kernel
  refine ⟨hlen, (hparts _).mpr hscan.symm, ?_, ?_, (hzero (by decide +kernel)).2⟩
  · rw [htext _ rfl, hlowest]
  · rw [(hread (by rw [hscan]; decide)).1, hlowest, hscan]
    decide +kernel

end ScriptBackend.HexNumeral
