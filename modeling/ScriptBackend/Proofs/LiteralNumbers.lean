import ScriptBackend.Literal
import ScriptBackend.Proofs.Numerals
import ScriptBackend.Proofs.Text

/-!
# Numbers of literals

A literal is blanks, a sign and what follows. Unless that begins with a word for
infinity or NaN or with a hexadecimal number, the longest numeral at its front
decides the number, and with it all that a conversion answers and reports.
-/

namespace ScriptBackend

namespace Literal

open Numeral (Grammar.numeral Reads)
open Text (bytes size)

def trimmed (text : String) : List Char := text.toList.dropWhile Text.isBlank

def leadingSign (text : String) : Option Char := (Numeral.scanSign (trimmed text)).1

def unsigned (text : String) : List Char := (Numeral.scanSign (trimmed text)).2

/-- No word and no hexadecimal number is at the front. -/
def Decimal (cs : List Char) : Prop := ∀ word ∈ ["inf", "nan", "0x"], beginsWith word cs = false

theorem beginsWith_iff : beginsWith word cs = true ↔ word.toList <+: cs.map Char.toLower := by
  rw [beginsWith, beq_iff_eq, List.prefix_iff_eq_take, List.map_take, String.length_toList, eq_comm]

theorem leadingNumber_eq (h : Decimal (unsigned text)) :
    leadingNumber text =
      match Numeral.scan? (unsigned text) with
      | some (n, _) => n.value (leadingSign text == some '-')
      | none => .zero false := by
  obtain ⟨hinf, hnan, hhex⟩ : beginsWith "inf" (unsigned text) = false ∧
      beginsWith "nan" (unsigned text) = false ∧ beginsWith "0x" (unsigned text) = false := by
    simpa [Decimal] using h
  have hinfinity : beginsWith "infinity" (unsigned text) = false := by
    rw [Bool.eq_false_iff, ne_eq, beginsWith_iff] at hinf ⊢
    exact fun hword => hinf (List.IsPrefix.trans (by decide) hword)
  rw [Bool.eq_false_iff, ne_eq, beginsWith_iff] at hhex
  show unsignedNumber (leadingSign text == some '-') (unsigned text) = _
  simp only [unsignedNumber, hinf, hnan, hinfinity, Bool.or_self, Bool.false_eq_true, if_false]
  split
  · rename_i rest heq
    exact absurd ⟨rest.map Char.toLower, by rw [heq]; rfl⟩ hhex
  · rename_i rest heq
    exact absurd ⟨rest.map Char.toLower, by rw [heq]; rfl⟩ hhex
  · rfl

theorem toLower_of_isDigit {c : Char} (h : c.isDigit = true) : c.toLower = c := by
  fun_cases Char.toLower with
  | case1 hupper =>
    simp only [Char.isDigit, Bool.and_eq_true, decide_eq_true_eq] at h
    have hlow : 65 ≤ c.val.toNat := hupper.1
    have hhigh : c.val.toNat ≤ 57 := h.2
    omega
  | case2 => rfl

theorem not_sameName_of_isDigit (htext : ∃ c ∈ text.toList, c.isDigit = true)
    (hword : (Text.fold word).toList.any Char.isDigit = false) : ¬ Text.SameName text word := by
  obtain ⟨c, hc, hdigit⟩ := htext
  intro hsame
  have hmem : c ∈ (Text.fold text).toList := by
    rw [Text.toList_fold, ← toLower_of_isDigit hdigit]
    exact List.mem_map_of_mem hc
  rw [show Text.fold text = Text.fold word from hsame] at hmem
  exact List.any_eq_false.mp hword c hmem hdigit

theorem toNumber_congr (h : leadingNumber a = leadingNumber b) (ha : ∃ c ∈ a.toList, c.isDigit = true)
    (hb : ∃ c ∈ b.toList, c.isDigit = true) (location : Option Location) :
    toNumber a location = toNumber b location := by
  have htrue : (Text.fold "true").toList.any Char.isDigit = false := by decide
  have hfalse : (Text.fold "false").toList.any Char.isDigit = false := by decide
  simp only [toNumber, h, if_neg (not_sameName_of_isDigit ha htrue),
    if_neg (not_sameName_of_isDigit hb htrue), if_neg (not_sameName_of_isDigit ha hfalse),
    if_neg (not_sameName_of_isDigit hb hfalse)]

-- ---------------------------------------------------------------------------
-- The numeral of a literal
-- ---------------------------------------------------------------------------

theorem trimmed_eq (text : String) : (leadingSign text).toList ++ unsigned text = trimmed text :=
  (Numeral.scanSign_eq _).2

theorem exists_digit (h : Longest Grammar.numeral (unsigned text) word) :
    ∃ c ∈ text.toList, c.isDigit = true := by
  obtain ⟨n, -, -, hn, rfl⟩ := Numeral.exists_scan? h
  obtain ⟨c, hc, hdigit⟩ := hn.exists_digit
  have htrimmed : c ∈ trimmed text := by
    rw [← trimmed_eq]
    exact List.mem_append_right _ (h.front.subset hc)
  exact ⟨c, (List.dropWhile_suffix _).subset htrimmed, hdigit⟩

theorem reads_iff_leadingNumber (hdecimal : Decimal (unsigned text))
    (h : Longest Grammar.numeral (unsigned text) word) :
    Reads ((leadingSign text).toList ++ word) x ↔ x = leadingNumber text := by
  obtain ⟨n, rest, hscan, hn, rfl⟩ := Numeral.exists_scan? h
  have hsign : Numeral.IsSign (leadingSign text) := (Numeral.scanSign_eq _).1
  rw [Numeral.reads_iff hsign hn, leadingNumber_eq hdecimal, hscan]

theorem take_bytes (h : word <+: unsigned text) :
    let taken := String.ofList ((leadingSign text).toList ++ word)
    let trimmed := String.ofList (trimmed text)
    size taken ≤ size trimmed ∧ (bytes trimmed).take (size taken) = bytes taken := by
  intro taken trimmed
  have hfront : bytes taken <+: bytes trimmed := by
    rw [Text.bytes_prefix_iff]
    simp only [taken, trimmed, String.toList_ofList, ← trimmed_eq]
    exact (List.prefix_append_right_inj _).mpr h
  rw [← Text.length_bytes, ← Text.length_bytes]
  exact ⟨hfront.length_le, (List.prefix_iff_eq_take.mp hfront).symm⟩

/-- A text in front that reads as a number has the sign of the literal. -/
theorem reads_front (hreads : Reads cs x) (hfront : cs <+: trimmed text) :
    ∃ other ∈ Grammar.numeral, other <+: unsigned text ∧ cs = (leadingSign text).toList ++ other := by
  obtain ⟨sign, n, hsign, hn, rfl, -⟩ := hreads
  obtain ⟨s, hs⟩ := hfront
  have hscan : Numeral.scanSign (trimmed text) = (sign, n.text ++ s) := by
    rw [← hs, List.append_assoc, Numeral.scanSign_append hsign (hn.head_text s)]
  refine ⟨n.text, Numeral.Grammar.mem_numeral.mpr ⟨n, hn, rfl⟩, ⟨s, ?_⟩, ?_⟩
  · rw [unsigned, hscan]
  · rw [leadingSign, hscan]

theorem size_le_of_reads (h : Longest Grammar.numeral (unsigned text) word) (hreads : Reads cs x)
    (hfront : bytes (String.ofList cs) <+: bytes (String.ofList (trimmed text))) :
    size (String.ofList cs) ≤ size (String.ofList ((leadingSign text).toList ++ word)) := by
  rw [Text.bytes_prefix_iff, String.toList_ofList, String.toList_ofList] at hfront
  obtain ⟨other, hother, hotherFront, rfl⟩ := reads_front hreads hfront
  have hword : other <+: word :=
    List.prefix_of_prefix_length_le hotherFront h.front (h.longest other hother hotherFront)
  rw [← Text.length_bytes, ← Text.length_bytes]
  apply List.IsPrefix.length_le
  rw [Text.bytes_prefix_iff, String.toList_ofList, String.toList_ofList]
  exact (List.prefix_append_right_inj _).mpr hword

/-- A literal that begins with no word and no hexadecimal number has the number of the longest
numeral after its blanks and its sign, and is zero if there is none. That numeral with its sign
always reads as a number. It ends between two characters, inside the text, and nothing longer at
the front reads as a number, also if the text is taken in bytes. What follows it changes neither the
number nor what is reported. -/
theorem number_of_longest_numeral (text : String) (hdecimal : Decimal (unsigned text)) :
    ((∀ word ∈ Grammar.numeral, ¬ word <+: unsigned text) → leadingNumber text = .zero false) ∧
    ∀ word, Longest Grammar.numeral (unsigned text) word →
      let taken := (leadingSign text).toList ++ word
      let stop := size (String.ofList taken)
      let front := bytes (String.ofList (trimmed text))
      (∃ n rest, Numeral.scan? (unsigned text) = some (n, rest) ∧ n.text = word) ∧
      (∀ x, Reads taken x ↔ x = leadingNumber text) ∧
      (stop ≤ front.length ∧ front.take stop = bytes (String.ofList taken)) ∧
      (∀ cs x, Reads cs x → bytes (String.ofList cs) <+: front → size (String.ofList cs) ≤ stop) ∧
      ∀ location,
        ((leadingNumber text).isZero = false → toNumber text location = pure (leadingNumber text)) ∧
        ∀ other, Decimal (unsigned other) → leadingSign other = leadingSign text →
          Longest Grammar.numeral (unsigned other) word →
          toNumber other location = toNumber text location := by
  refine ⟨?_, ?_⟩
  · intro hnone
    rw [leadingNumber_eq hdecimal, Numeral.scan?_eq_none_iff.mpr hnone]
  · intro word h taken stop front
    obtain ⟨n, rest, hscan, -, hword⟩ := Numeral.exists_scan? h
    refine ⟨⟨n, rest, hscan, hword⟩, fun x => reads_iff_leadingNumber hdecimal h, ?_,
      fun cs x => size_le_of_reads h, ?_⟩
    · rw [Text.length_bytes]
      exact take_bytes h.front
    · intro location
      refine ⟨fun hzero => by simp [toNumber, hzero], ?_⟩
      intro other hother hsign hlongest
      have hreads : Reads taken (leadingNumber other) := by
        simp only [taken, ← hsign]
        exact (reads_iff_leadingNumber hother hlongest).mpr rfl
      exact toNumber_congr ((reads_iff_leadingNumber hdecimal h).mp hreads) (exists_digit hlongest)
        (exists_digit h) location

/-- An exponent that is not finished belongs to what follows. -/
theorem unfinished_exponent_number :
    let text := "\u00a0-12.e+é5"
    Longest Grammar.numeral (unsigned text) ['1', '2', '.'] ∧
      Reads ['-', '1', '2', '.'] (leadingNumber text) ∧
      toNumber text none = pure (leadingNumber text) ∧ toNumber "-12.x" none = toNumber text none ∧
      leadingNumber "-.e5" = .zero false := by
  intro text
  have hscan : Numeral.scan? (unsigned text) = some (⟨['1', '2'], some [], none⟩, "e+é5".toList) := by
    decide +kernel
  have hscan' : Numeral.scan? (unsigned "-12.x") = some (⟨['1', '2'], some [], none⟩, ['x']) := by
    decide +kernel
  have hlongest : Longest Grammar.numeral (unsigned text) ['1', '2', '.'] := Numeral.longest_scan? hscan
  have hlongest' : Longest Grammar.numeral (unsigned "-12.x") ['1', '2', '.'] :=
    Numeral.longest_scan? hscan'
  obtain ⟨-, hnumeral⟩ := number_of_longest_numeral text (by unfold Decimal; decide +kernel)
  obtain ⟨-, hreads, -, -, hnumber⟩ := hnumeral _ hlongest
  obtain ⟨hvalue, hsame⟩ := hnumber none
  have hsign : leadingSign text = some '-' := by decide +kernel
  obtain ⟨hzero, -⟩ := number_of_longest_numeral "-.e5" (by unfold Decimal; decide +kernel)
  refine ⟨hlongest, by simpa [hsign] using (hreads _).mpr rfl, hvalue (by decide +kernel), ?_, ?_⟩
  · exact hsame "-12.x" (by unfold Decimal; decide +kernel) (by decide +kernel) hlongest'
  · exact hzero (Numeral.scan?_eq_none_iff.mp (by decide +kernel))

end Literal

end ScriptBackend
