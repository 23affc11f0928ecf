import ScriptBackend.Proofs.Text
import ScriptBackend.Text.Column
import ScriptBackend.Text.Quoted

/-!
# What is printed can be read back

Quoting loses nothing. No escape begins another one, none begins with a quote, and a
code point ends in a brace that is no digit, so a quoted text is that of one text
only. Padding loses nothing either where the padded text has no blanks of its own.
-/

namespace ScriptBackend.Text

-- ---------------------------------------------------------------------------
-- Hexadecimal digits
-- ---------------------------------------------------------------------------

theorem digitChar_ne_brace (h : n < 16) : Nat.digitChar n ≠ '\x7d' := by
  revert n
  decide

theorem digitChar_inj (hm : m < 16) (hn : n < 16) (h : Nat.digitChar m = Nat.digitChar n) : m = n := by
  have all : ∀ m < 16, ∀ n < 16, Nat.digitChar m = Nat.digitChar n → m = n := by decide
  exact all m hm n hn h

theorem brace_not_mem_hex (n : Nat) : '\x7d' ∉ Nat.toDigits 16 n := by
  induction n using Nat.strongRecOn with
  | ind n ih =>
    rcases Nat.lt_or_ge n 16 with hlt | hge
    · rw [Nat.toDigits_of_lt_base hlt, List.mem_singleton]
      exact (digitChar_ne_brace hlt).symm
    · rw [Nat.toDigits_of_base_le (by decide) hge, List.mem_append, List.mem_singleton, not_or]
      exact ⟨ih (n / 16) (by omega), (digitChar_ne_brace (Nat.mod_lt n (by decide))).symm⟩

/-- Digits end in that of the remainder, and those before it are of a smaller number. -/
theorem hex_inj (h : Nat.toDigits 16 m = Nat.toDigits 16 n) : m = n := by
  induction m using Nat.strongRecOn generalizing n with
  | ind m ih =>
    rcases Nat.lt_or_ge m 16 with hm | hm <;> rcases Nat.lt_or_ge n 16 with hn | hn
    · rw [Nat.toDigits_of_lt_base hm, Nat.toDigits_of_lt_base hn, List.singleton_inj] at h
      exact digitChar_inj hm hn h
    · rw [Nat.toDigits_of_lt_base hm, Nat.toDigits_of_base_le (by decide) hn] at h
      simp [List.singleton_eq_append_iff, Nat.toDigits_ne_nil] at h
    · rw [Nat.toDigits_of_lt_base hn, Nat.toDigits_of_base_le (by decide) hm] at h
      simp [List.append_eq_singleton_iff, Nat.toDigits_ne_nil] at h
    · rw [Nat.toDigits_of_base_le (by decide) hm, Nat.toDigits_of_base_le (by decide) hn] at h
      obtain ⟨hfront, hlast⟩ := List.append_inj' h rfl
      have hquotient := ih (m / 16) (by omega) hfront
      have hremainder := digitChar_inj (Nat.mod_lt m (by decide)) (Nat.mod_lt n (by decide))
        (List.singleton_inj.mp hlast)
      omega

-- ---------------------------------------------------------------------------
-- Escapes
-- ---------------------------------------------------------------------------

def shortEscapes : List (Char × Char) :=
  [('"', '"'), ('\\', '\\'), ('\n', 'n'), ('\r', 'r'), ('\t', 't'), ('\x00', '0')]

inductive Escape (c : Char) : List Char → Prop
  | plain (hslash : c ≠ '\\') (hquote : c ≠ '"') : Escape c [c]
  | short (hmem : (c, k) ∈ shortEscapes) : Escape c ['\\', k]
  | long : Escape c (codePointEscape c)

theorem escape_escapeChar (c : Char) : Escape c (escapeChar c) := by
  fun_cases escapeChar c with
  | case1 h =>
    rcases h with rfl | rfl
    · exact .short (by decide)
    · exact .short (by decide)
  | case2 | case3 | case4 | case5 => exact .short (by simp [shortEscapes, *])
  | case6 | case7 => exact .long
  | case8 h =>
    rw [not_or] at h
    exact .plain h.2 h.1

theorem Escape.exists_head (h : Escape c e) : ∃ first rest, e = first :: rest ∧ first ≠ '"' := by
  cases h with
  | plain _ hquote => exact ⟨c, [], rfl, hquote⟩
  | short | long => exact ⟨'\\', _, rfl, by decide⟩

theorem codePointEscape_append_inj (h : codePointEscape c ++ xs = codePointEscape d ++ ys) :
    c = d ∧ xs = ys := by
  simp only [codePointEscape, List.cons_append, List.append_assoc, List.cons.injEq, true_and,
    List.nil_append] at h
  have hdigits : Nat.toDigits 16 c.toNat = Nat.toDigits 16 d.toNat := by
    rw [← takeWhile_ne (brace_not_mem_hex c.toNat) xs, h, takeWhile_ne (brace_not_mem_hex d.toNat) ys]
  rw [hdigits] at h
  exact ⟨Char.toNat_inj.mp (hex_inj hdigits), (List.cons.inj (List.append_cancel_left h)).2⟩

theorem Escape.append_inj (hc : Escape c e) (hd : Escape d f) (h : e ++ xs = f ++ ys) : c = d ∧ xs = ys := by
  have apart {c k : Char} (hk : (c, k) ∈ shortEscapes) : k ≠ 'u' := by
    rintro rfl
    simp [shortEscapes] at hk
  have once : shortEscapes.all fun p => shortEscapes.all fun q => p.2 = q.2 → p.1 = q.1 := by decide
  simp only [List.all_eq_true, decide_eq_true_eq] at once
  cases hc with
  | plain hslash _ =>
    cases hd with
    | plain => exact List.cons.inj h
    | short | long => exact absurd (List.cons.inj h).1 hslash
  | short hk =>
    cases hd with
    | plain hslash _ => exact absurd (List.cons.inj h).1.symm hslash
    | short hk' =>
      obtain ⟨hletter, hrest⟩ := List.cons.inj (List.cons.inj h).2
      exact ⟨once _ hk _ hk' hletter, hrest⟩
    | long => exact absurd (List.cons.inj (List.cons.inj h).2).1 (apart hk)
  | long =>
    cases hd with
    | plain hslash _ => exact absurd (List.cons.inj h).1.symm hslash
    | short hk => exact absurd (List.cons.inj (List.cons.inj h).2).1.symm (apart hk)
    | long => exact codePointEscape_append_inj h

/-- The first quote that is not escaped ends a text. -/
theorem escaped_append_inj {cs ds : List Char}
    (h : cs.flatMap escapeChar ++ '"' :: xs = ds.flatMap escapeChar ++ '"' :: ys) : cs = ds ∧ xs = ys := by
  have ends (c : Char) (us vs : List Char) : '"' :: us ≠ escapeChar c ++ vs := by
    obtain ⟨first, rest, hescape, hfirst⟩ := (escape_escapeChar c).exists_head
    rw [hescape]
    exact fun heq => hfirst (List.cons.inj heq).1.symm
  induction cs generalizing ds with
  | nil =>
    cases ds with
    | nil => exact ⟨rfl, (List.cons.inj h).2⟩
    | cons d ds =>
      rw [List.flatMap_cons, List.append_assoc] at h
      exact absurd h (ends d _ _)
  | cons c cs ih =>
    rw [List.flatMap_cons, List.append_assoc] at h
    cases ds with
    | nil => exact absurd h.symm (ends c _ _)
    | cons d ds =>
      rw [List.flatMap_cons, List.append_assoc] at h
      obtain ⟨rfl, hrest⟩ := (escape_escapeChar c).append_inj (escape_escapeChar d) h
      obtain ⟨rfl, rfl⟩ := ih hrest
      exact ⟨rfl, rfl⟩

theorem quoted_inj (h : quoted a = quoted b) : a = b := by
  have hchars := congrArg String.toList h
  simp only [quoted, String.toList_ofList, List.cons_append, List.cons.injEq, true_and] at hchars
  exact String.toList_inj.mp (escaped_append_inj hchars).1

-- ---------------------------------------------------------------------------
-- Columns
-- ---------------------------------------------------------------------------

theorem padRight_append_inj (ha : ' ' ∉ a.toList) (hb : ' ' ∉ b.toList)
    (h : padRight width a ++ " " ++ x = padRight width b ++ " " ++ y) : a = b ∧ x = y := by
  have blank (s rest : String) : (padRight width s ++ " " ++ rest).toList =
      s.toList ++ ' ' :: (List.replicate (width - s.length) ' ' ++ rest.toList) := by
    simp only [padRight, String.toList_append, String.toList_ofList, List.append_assoc]
    rw [← List.cons_append, ← List.replicate_succ, List.replicate_succ', List.append_assoc]
    rfl
  have hchars := congrArg String.toList h
  rw [blank, blank] at hchars
  have hsame : a = b := by
    rw [← String.toList_inj, ← takeWhile_ne ha, hchars, takeWhile_ne hb]
  subst hsame
  exact ⟨rfl, String.toList_inj.mp (List.append_cancel_left
    (List.cons.inj (List.append_cancel_left hchars)).2)⟩

end ScriptBackend.Text
