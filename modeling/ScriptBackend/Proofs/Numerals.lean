import Mathlib.Computability.Language
import ScriptBackend.Literal.Numeral

/-!
# Numerals at the front of a text

Numerals are the words of a small grammar. The scanner goes forward once and turns
back only from an exponent without digits, and yet takes the longest word of the
grammar that a text begins with: a numeral that stands at the front is read on in
whatever follows it and never given up.
-/

namespace ScriptBackend

open Computability

/-- The longest word of a language that a text begins with. -/
structure Longest (l : Language Char) (cs word : List Char) : Prop where
  mem : word ∈ l
  front : word <+: cs
  longest : ∀ other ∈ l, other <+: cs → other.length ≤ word.length

theorem Longest.unique (ha : Longest l cs a) (hb : Longest l cs b) : a = b := by
  have hab : a.length ≤ b.length := hb.longest a ha.mem ha.front
  have hba : b.length ≤ a.length := ha.longest b hb.mem hb.front
  exact (List.prefix_of_prefix_length_le ha.front hb.front hab).eq_of_length (Nat.le_antisymm hab hba)

namespace Numeral

-- ---------------------------------------------------------------------------
-- The grammar
-- ---------------------------------------------------------------------------

def Digits (cs : List Char) : Prop := ∀ c ∈ cs, c.isDigit = true

def IsSign (sign : Option Char) : Prop := ∀ c ∈ sign, c = '+' ∨ c = '-'

structure Exponent.Proper (e : Exponent) : Prop where
  mark : e.mark = 'e' ∨ e.mark = 'E'
  sign : IsSign e.sign
  nonempty : e.digits ≠ []
  digits : Digits e.digits

structure Proper (n : Numeral) : Prop where
  whole : Digits n.whole
  fraction : ∀ f ∈ n.fraction, Digits f
  nonempty : n.whole ++ n.fraction.getD [] ≠ []
  exponent : ∀ e ∈ n.exponent, e.Proper

namespace Grammar

def digit : Language Char := {w | ∃ c, c.isDigit = true ∧ w = [c]}

def digits : Language Char := digit * digit∗

def point : Language Char := {['.']}

def sign : Language Char := {['+'], ['-']}

def mark : Language Char := {['e'], ['E']}

/-- All numerals: `(digit+ [. digit*] | . digit+) [(e|E) [+|-] digit+]`. -/
def numeral : Language Char :=
  (digits * (1 + point * digit∗) + point * digits) * (1 + mark * (1 + sign) * digits)

theorem mem_digit_kstar : w ∈ digit∗ ↔ Digits w := by
  rw [Language.mem_kstar]
  constructor
  · rintro ⟨words, rfl, hwords⟩ c hc
    obtain ⟨word, hword, hc⟩ := List.mem_flatten.mp hc
    obtain ⟨d, hd, rfl⟩ := hwords word hword
    rwa [List.mem_singleton.mp hc]
  · intro hw
    refine ⟨w.map ([·]), by rw [← List.flatMap_def, List.flatMap_singleton'], ?_⟩
    simp only [List.mem_map]
    rintro _ ⟨c, hc, rfl⟩
    exact ⟨c, hw c hc, rfl⟩

theorem mem_digits : w ∈ digits ↔ w ≠ [] ∧ Digits w := by
  simp only [digits, Language.mem_mul, mem_digit_kstar]
  constructor
  · rintro ⟨_, ⟨c, hc, rfl⟩, rest, hrest, rfl⟩
    exact ⟨List.cons_ne_nil c rest, List.forall_mem_cons.mpr ⟨hc, hrest⟩⟩
  · rintro ⟨hne, hw⟩
    obtain ⟨c, rest, rfl⟩ := List.exists_cons_of_ne_nil hne
    obtain ⟨hc, hrest⟩ := List.forall_mem_cons.mp hw
    exact ⟨[c], ⟨c, hc, rfl⟩, rest, hrest, rfl⟩

theorem mem_pair : w ∈ ({[a], [b]} : Language Char) ↔ ∃ c, (c = a ∨ c = b) ∧ [c] = w := by
  constructor
  · rintro (rfl | rfl)
    · exact ⟨a, .inl rfl, rfl⟩
    · exact ⟨b, .inr rfl, rfl⟩
  · rintro ⟨c, rfl | rfl, rfl⟩
    · exact .inl rfl
    · exact .inr rfl

theorem mem_optional {l : Language Char} {P : α → Prop} {text : α → List Char}
    (hl : ∀ w, w ∈ l ↔ ∃ a, P a ∧ text a = w) :
    w ∈ 1 + l ↔ ∃ part : Option α, (∀ a ∈ part, P a) ∧ part.elim [] text = w := by
  rw [Language.mem_add, Language.mem_one, hl]
  constructor
  · rintro (rfl | ⟨a, ha, rfl⟩)
    · exact ⟨none, by simp, rfl⟩
    · exact ⟨some a, by simpa using ha, rfl⟩
  · rintro ⟨_ | a, hpart, rfl⟩
    · exact .inl rfl
    · exact .inr ⟨a, hpart a rfl, rfl⟩

theorem mem_sign : w ∈ 1 + sign ↔ ∃ s, IsSign s ∧ s.toList = w := by
  rw [sign, mem_optional fun _ => mem_pair]
  exact exists_congr fun s => by cases s <;> rfl

theorem mem_fraction (w : List Char) : w ∈ point * digit∗ ↔ ∃ f, Digits f ∧ '.' :: f = w := by
  rw [Language.mem_mul]
  constructor
  · rintro ⟨_, rfl, f, hf, rfl⟩
    exact ⟨f, mem_digit_kstar.mp hf, rfl⟩
  · rintro ⟨f, hf, rfl⟩
    exact ⟨['.'], rfl, f, mem_digit_kstar.mpr hf, rfl⟩

theorem mem_exponent (w : List Char) :
    w ∈ mark * (1 + sign) * digits ↔ ∃ e : Exponent, e.Proper ∧ e.text = w := by
  simp only [Language.mem_mul, mark, mem_pair, mem_sign, mem_digits]
  constructor
  · rintro ⟨_, ⟨_, ⟨mark, hmark, rfl⟩, _, ⟨sign, hsign, rfl⟩, rfl⟩, digits, ⟨hne, hdigits⟩, rfl⟩
    exact ⟨⟨mark, sign, digits⟩, ⟨hmark, hsign, hne, hdigits⟩, rfl⟩
  · rintro ⟨e, he, rfl⟩
    exact ⟨_, ⟨_, ⟨e.mark, he.mark, rfl⟩, _, ⟨e.sign, he.sign, rfl⟩, rfl⟩, _,
      ⟨he.nonempty, he.digits⟩, rfl⟩

theorem mem_numeral : w ∈ numeral ↔ ∃ n : Numeral, n.Proper ∧ n.text = w := by
  simp only [numeral, Language.mem_mul, Language.mem_add _ (point * digits), mem_optional mem_fraction,
    mem_optional mem_exponent, mem_digits]
  constructor
  · rintro ⟨_, ⟨whole, ⟨hne, hwhole⟩, _, ⟨fraction, hfraction, rfl⟩, rfl⟩ |
      ⟨_, rfl, f, ⟨hne, hf⟩, rfl⟩, _, ⟨exponent, hexponent, rfl⟩, rfl⟩
    · exact ⟨⟨whole, fraction, exponent⟩, ⟨hwhole, hfraction, by simp [hne], hexponent⟩, rfl⟩
    · exact ⟨⟨[], some f, exponent⟩, ⟨by simp [Digits], by simpa using hf, hne, hexponent⟩, rfl⟩
  · rintro ⟨⟨whole, fraction, exponent⟩, hn, rfl⟩
    refine ⟨whole ++ fraction.elim [] ('.' :: ·), ?_, _, ⟨exponent, hn.exponent, rfl⟩, rfl⟩
    cases whole with
    | cons c whole =>
      exact .inl ⟨_, ⟨List.cons_ne_nil c whole, hn.whole⟩, _, ⟨fraction, hn.fraction, rfl⟩, rfl⟩
    | nil =>
      cases fraction with
      | none => exact absurd rfl hn.nonempty
      | some f => exact .inr ⟨['.'], rfl, f, ⟨hn.nonempty, hn.fraction f rfl⟩, rfl⟩

end Grammar

-- ---------------------------------------------------------------------------
-- Scanning
-- ---------------------------------------------------------------------------

theorem scanSign_eq (cs : List Char) :
    IsSign (scanSign cs).1 ∧ (scanSign cs).1.toList ++ (scanSign cs).2 = cs := by
  unfold scanSign
  split <;> simp [IsSign]

theorem digits_takeWhile (cs : List Char) : Digits (cs.takeWhile Char.isDigit) :=
  List.all_eq_true.mp List.all_takeWhile

theorem scanFraction_eq (cs : List Char) :
    (∀ f ∈ (scanFraction cs).1, Digits f) ∧
      (scanFraction cs).1.elim [] ('.' :: ·) ++ (scanFraction cs).2 = cs := by
  unfold scanFraction
  split
  · exact ⟨by simpa using digits_takeWhile _, by simp⟩
  · exact ⟨by simp, rfl⟩

theorem scanExponent_eq (cs : List Char) :
    (∀ e ∈ (scanExponent cs).1, e.Proper) ∧
      (scanExponent cs).1.elim [] Exponent.text ++ (scanExponent cs).2 = cs := by
  cases cs with
  | nil => exact ⟨by simp [scanExponent], rfl⟩
  | cons mark rest =>
    by_cases hmark : mark = 'e' ∨ mark = 'E'
    · obtain ⟨hsign, hrest⟩ := scanSign_eq rest
      simp only [scanExponent, if_pos hmark]
      split
      · exact ⟨by simp, rfl⟩
      · rename_i hne
        refine ⟨?_, ?_⟩
        · rintro e ⟨⟩
          exact ⟨hmark, hsign, hne, digits_takeWhile _⟩
        · simp [Exponent.text, hrest]
    · simp [scanExponent, hmark]

theorem scan?_eq_some (h : scan? cs = some (n, rest)) : n.Proper ∧ n.text ++ rest = cs := by
  simp only [scan?] at h
  split at h
  · cases h
  · rename_i hne
    cases h
    refine ⟨⟨digits_takeWhile _, (scanFraction_eq _).1, ?_, (scanExponent_eq _).1⟩, ?_⟩
    · simpa using hne
    · simp only [text, List.append_assoc, (scanExponent_eq _).2, (scanFraction_eq _).2,
        List.takeWhile_append_dropWhile]

/-- A numeral read on in what follows it, and what is left. -/
def extend (n : Numeral) (s : List Char) : Numeral × List Char :=
  let more := s.takeWhile Char.isDigit
  let rest := s.dropWhile Char.isDigit
  match n.exponent, n.fraction with
  | some e, _ => ({ n with exponent := some { e with digits := e.digits ++ more } }, rest)
  | none, some f =>
    let (exponent, rest) := scanExponent rest
    (⟨n.whole, some (f ++ more), exponent⟩, rest)
  | none, none =>
    let (fraction, rest) := scanFraction rest
    let (exponent, rest) := scanExponent rest
    (⟨n.whole ++ more, fraction, exponent⟩, rest)

theorem scanSign_append (hsign : IsSign sign) (hcs : ∀ c ∈ cs.head?, c ≠ '+' ∧ c ≠ '-') :
    scanSign (sign.toList ++ cs) = (sign, cs) := by
  cases sign with
  | some c =>
    rcases hsign c rfl with rfl | rfl
    · rfl
    · rfl
  | none =>
    unfold scanSign
    split <;> simp_all

theorem ne_sign_of_isDigit (h : c.isDigit = true) : c ≠ '+' ∧ c ≠ '-' := by
  refine ⟨?_, ?_⟩ <;> rintro rfl <;> cases h

theorem scanExponent_text_append {e : Exponent} (he : e.Proper) (s : List Char) :
    scanExponent (e.text ++ s) =
      (some { e with digits := e.digits ++ s.takeWhile Char.isDigit }, s.dropWhile Char.isDigit) := by
  obtain ⟨d, ds, hdigits⟩ := List.exists_cons_of_ne_nil he.nonempty
  have hsign : scanSign (e.sign.toList ++ (e.digits ++ s)) = (e.sign, e.digits ++ s) := by
    refine scanSign_append he.sign ?_
    simp only [hdigits, List.cons_append, List.head?_cons]
    rintro _ ⟨⟩
    exact ne_sign_of_isDigit (he.digits d (by simp [hdigits]))
  have htake : (e.digits ++ s).takeWhile Char.isDigit = e.digits ++ s.takeWhile Char.isDigit :=
    List.takeWhile_append_of_pos he.digits
  have hdrop : (e.digits ++ s).dropWhile Char.isDigit = s.dropWhile Char.isDigit :=
    List.dropWhile_append_of_pos he.digits
  simp only [Exponent.text, scanExponent, List.cons_append, List.append_assoc, if_pos he.mark, hsign,
    htake, hdrop]
  split
  · simp_all
  · rfl

theorem scanFraction_append (hf : Digits f) (s : List Char) :
    scanFraction ('.' :: (f ++ s)) =
      (some (f ++ s.takeWhile Char.isDigit), s.dropWhile Char.isDigit) := by
  simp only [scanFraction]
  rw [List.takeWhile_append_of_pos hf, List.dropWhile_append_of_pos hf]

/-- An exponent ends the digits and the fraction before it. -/
theorem ends_before_exponent {e : Exponent} (he : e.Proper) (s : List Char) :
    (e.text ++ s).takeWhile Char.isDigit = [] ∧ (e.text ++ s).dropWhile Char.isDigit = e.text ++ s ∧
      scanFraction (e.text ++ s) = (none, e.text ++ s) := by
  unfold Exponent.text
  rcases he.mark with h | h <;> rw [h] <;> exact ⟨rfl, rfl, rfl⟩

theorem scan?_text_append {n : Numeral} (hn : n.Proper) (s : List Char) :
    scan? (n.text ++ s) = some (n.extend s) := by
  obtain ⟨whole, fraction, exponent⟩ := n
  have hwhole : ∀ t, (whole ++ t).takeWhile Char.isDigit = whole ++ t.takeWhile Char.isDigit :=
    fun _ => List.takeWhile_append_of_pos hn.whole
  have hrest : ∀ t, (whole ++ t).dropWhile Char.isDigit = t.dropWhile Char.isDigit :=
    fun _ => List.dropWhile_append_of_pos hn.whole
  have hpoint : '.'.isDigit = false := rfl
  have hne := hn.nonempty
  -- The part that is written last is the one that what follows may add to.
  cases exponent with
  | some e =>
    have he := hn.exponent e rfl
    obtain ⟨htake, hdrop, hnone⟩ := ends_before_exponent he s
    have hexponent := scanExponent_text_append he s
    cases fraction with
    | none => simpa [scan?, text, extend, hwhole, hrest, htake, hdrop, hnone, hexponent] using hne
    | some f =>
      have hfraction := scanFraction_append (hn.fraction f rfl) (e.text ++ s)
      simpa [scan?, text, extend, hwhole, hrest, hpoint, hfraction, htake, hdrop, hexponent] using hne
  | none =>
    cases fraction with
    | none =>
      have hdigit : whole ≠ [] := by simpa using hne
      simp [scan?, text, extend, hwhole, hrest, hdigit]
    | some f =>
      have hfraction := scanFraction_append (hn.fraction f rfl) s
      have hdigit : whole = [] → f ≠ [] := by simpa using hne
      simp +contextual [scan?, text, extend, hwhole, hrest, hpoint, hfraction, hdigit]

theorem extend_suffix (n : Numeral) (s : List Char) : (n.extend s).2 <:+ s := by
  have hdigits : s.dropWhile Char.isDigit <:+ s := List.dropWhile_suffix _
  have hexponent : ∀ t, (scanExponent t).2 <:+ t := fun t => ⟨_, (scanExponent_eq t).2⟩
  have hfraction : ∀ t, (scanFraction t).2 <:+ t := fun t => ⟨_, (scanFraction_eq t).2⟩
  simp only [extend]
  split
  · exact hdigits
  · exact (hexponent _).trans hdigits
  · exact ((hexponent _).trans (hfraction _)).trans hdigits

theorem scan?_text {n : Numeral} (hn : n.Proper) : scan? n.text = some (n, []) := by
  have hscan := scan?_text_append hn []
  rw [List.append_nil] at hscan
  rw [hscan]
  obtain ⟨whole, fraction, exponent⟩ := n
  cases exponent <;> cases fraction <;> simp [extend, scanFraction, scanExponent]

theorem text_inj {m n : Numeral} (hm : m.Proper) (hn : n.Proper) (h : m.text = n.text) : m = n := by
  have hscan := scan?_text hm
  rw [h, scan?_text hn] at hscan
  cases hscan
  rfl

theorem longest_scan? (h : scan? cs = some (n, rest)) : Longest Grammar.numeral cs n.text := by
  obtain ⟨hn, rfl⟩ := scan?_eq_some h
  refine ⟨Grammar.mem_numeral.mpr ⟨n, hn, rfl⟩, List.prefix_append _ _, ?_⟩
  -- Another numeral in front would be read on to this one, so more is left behind it.
  rintro _ hother ⟨s, hs⟩
  obtain ⟨m, hm, rfl⟩ := Grammar.mem_numeral.mp hother
  have hrest : rest <:+ s := by
    rw [← hs, scan?_text_append hm, Option.some.injEq] at h
    simpa [h] using m.extend_suffix s
  have hlength := congrArg List.length hs
  simp only [List.length_append] at hlength
  have := hrest.length_le
  omega

theorem scan?_eq_none_iff : scan? cs = none ↔ ∀ word ∈ Grammar.numeral, ¬ word <+: cs := by
  constructor
  · rintro h _ hword ⟨s, rfl⟩
    obtain ⟨n, hn, rfl⟩ := Grammar.mem_numeral.mp hword
    rw [scan?_text_append hn] at h
    cases h
  · intro h
    cases hscan : scan? cs with
    | none => rfl
    | some found =>
      obtain ⟨n, rest⟩ := found
      have hfound : Longest Grammar.numeral cs n.text := longest_scan? hscan
      exact absurd hfound.front (h _ hfound.mem)

theorem exists_scan? (h : Longest Grammar.numeral cs word) :
    ∃ n rest, scan? cs = some (n, rest) ∧ n.Proper ∧ n.text = word := by
  cases hscan : scan? cs with
  | none => exact absurd h.front (scan?_eq_none_iff.mp hscan word h.mem)
  | some found =>
    obtain ⟨n, rest⟩ := found
    exact ⟨n, rest, rfl, (scan?_eq_some hscan).1, (longest_scan? hscan).unique h⟩

theorem Proper.exists_digit {n : Numeral} (hn : n.Proper) : ∃ c ∈ n.text, c.isDigit = true := by
  obtain ⟨whole, fraction, exponent⟩ := n
  obtain ⟨c, hc⟩ := List.exists_mem_of_ne_nil _ hn.nonempty
  rcases List.mem_append.mp hc with hwhole | hfraction
  · exact ⟨c, by simp [text, hwhole], hn.whole c hwhole⟩
  · cases fraction with
    | none => cases hfraction
    | some f => exact ⟨c, by simp [text, show c ∈ f from hfraction], hn.fraction f rfl c hfraction⟩

theorem Proper.head_text {n : Numeral} (hn : n.Proper) (s : List Char) :
    ∀ c ∈ (n.text ++ s).head?, c ≠ '+' ∧ c ≠ '-' := by
  obtain ⟨whole, fraction, exponent⟩ := n
  cases whole with
  | cons d whole =>
    rintro _ ⟨⟩
    exact ne_sign_of_isDigit (hn.whole d List.mem_cons_self)
  | nil =>
    cases fraction with
    | none => exact absurd rfl hn.nonempty
    | some f =>
      rintro _ ⟨⟩
      decide

/-- The whole text is a numeral, with or without a sign, and stands for a number. -/
def Reads (cs : List Char) (x : Binary64) : Prop :=
  ∃ (sign : Option Char) (n : Numeral), IsSign sign ∧ n.Proper ∧ cs = sign.toList ++ n.text ∧
    x = n.value (sign == some '-')

/-- A signed text is that of one sign and one numeral, and whatever it is read as is read of them. -/
theorem signed_iff {sign : Option Char} {n : Numeral} {reading : Option Char → Numeral → α} {a : α}
    (hsign : IsSign sign) (hn : n.Proper) :
    (∃ sign' m, IsSign sign' ∧ m.Proper ∧ sign.toList ++ n.text = sign'.toList ++ m.text ∧
      a = reading sign' m) ↔ a = reading sign n := by
  constructor
  · rintro ⟨sign', m, hsign', hm, htext, rfl⟩
    have hscan : scanSign (sign.toList ++ n.text) = (sign, n.text) :=
      scanSign_append hsign (by simpa using hn.head_text [])
    have hscan' : scanSign (sign'.toList ++ m.text) = (sign', m.text) :=
      scanSign_append hsign' (by simpa using hm.head_text [])
    obtain ⟨rfl, heq⟩ := Prod.mk.inj (hscan.symm.trans (htext ▸ hscan'))
    rw [text_inj hn hm heq]
  · rintro rfl
    exact ⟨sign, n, hsign, hn, rfl, rfl⟩

theorem reads_iff {sign : Option Char} {n : Numeral} (hsign : IsSign sign) (hn : n.Proper) :
    Reads (sign.toList ++ n.text) x ↔ x = n.value (sign == some '-') :=
  signed_iff hsign hn

end Numeral

end ScriptBackend
