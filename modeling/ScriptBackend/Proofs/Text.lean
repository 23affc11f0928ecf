import ScriptBackend.Text.Case
import ScriptBackend.Text.Utf8

/-!
# Laws of text

A text and its UTF-8 bytes determine each other, and a zero byte can only come
from a NUL, so a text without one can be ended by a zero and found again. Bytes
are in the order of their texts, and one text begins another if its bytes do.
-/

namespace ScriptBackend.Text

theorem SameName.refl (a : String) : SameName a a := rfl

@[simp] theorem fold_append (a b : String) : fold (a ++ b) = fold a ++ fold b := by
  simp [fold]

theorem bytes_eq_flatMap (s : String) : bytes s = s.toList.flatMap String.utf8EncodeChar := by
  rw [bytes, String.toUTF8_eq_toByteArray, ← String.utf8Encode_toList]
  simp [List.utf8Encode]

@[simp] theorem length_bytes (s : String) : (bytes s).length = size s := by
  simp [bytes, size]

@[simp] theorem ofBytes?_bytes (s : String) : ofBytes? (bytes s) = some s := by
  have h : (⟨(bytes s).toArray⟩ : ByteArray) = s.toByteArray := by simp [bytes]
  rw [ofBytes?, h, String.fromUTF8?, dif_pos s.isValidUTF8]
  rfl

theorem bytes_of_ofBytes? (h : ofBytes? bs = some s) : bytes s = bs := by
  simp only [ofBytes?, String.fromUTF8?] at h
  split at h
  · cases h
    simp [bytes, String.fromUTF8]
  · cases h

theorem eq_zero_of_ofNat {n : Nat} (hn : n < 256) (h : (0 : UInt8) = UInt8.ofNat n) : n = 0 := by
  have := congrArg UInt8.toNat h
  simpa [Nat.mod_eq_of_lt hn, eq_comm] using this

/-- Only a NUL is written with a zero byte: every byte of a longer form has its high bit set. -/
theorem eq_nul_of_zero_mem {c : Char} (h : 0 ∈ String.utf8EncodeChar c) : c = '\x00' := by
  revert h
  fun_cases String.utf8EncodeChar with
  | case1 v hv =>
    intro h
    have hz : v = 0 := eq_zero_of_ofNat (by omega) (by simpa using h)
    exact Char.ext (UInt32.toNat_inj.mp hz)
  | case2 v =>
    simp only [List.mem_cons, List.not_mem_nil, or_false]
    rintro (h | h) <;> have := eq_zero_of_ofNat (by omega) h <;> omega
  | case3 v =>
    simp only [List.mem_cons, List.not_mem_nil, or_false]
    rintro (h | h | h) <;> have := eq_zero_of_ofNat (by omega) h <;> omega
  | case4 v =>
    simp only [List.mem_cons, List.not_mem_nil, or_false]
    rintro (h | h | h | h) <;> have := eq_zero_of_ofNat (by omega) h <;> omega

theorem zero_not_mem_bytes {s : String} (h : '\x00' ∉ s.toList) : 0 ∉ bytes s := by
  rw [bytes_eq_flatMap, List.mem_flatMap]
  rintro ⟨c, hc, hz⟩
  exact h (eq_nul_of_zero_mem hz ▸ hc)

theorem takeWhile_ne [DecidableEq α] {a : α} {xs : List α} (h : a ∉ xs) (rest : List α) :
    (xs ++ a :: rest).takeWhile (· ≠ a) = xs := by
  rw [List.takeWhile_append_of_pos]
  · simp
  · intro x hx
    simp only [ne_eq, decide_not, Bool.not_eq_eq_eq_not, Bool.not_true, decide_eq_false_iff_not]
    rintro rfl
    exact h hx

theorem drop_length_takeWhile (p : α → Bool) (xs : List α) :
    xs.drop (xs.takeWhile p).length = xs.dropWhile p :=
  calc xs.drop (xs.takeWhile p).length
    _ = (xs.takeWhile p ++ xs.dropWhile p).drop (xs.takeWhile p).length := by
      rw [List.takeWhile_append_dropWhile]
    _ = xs.dropWhile p := List.drop_left

-- ---------------------------------------------------------------------------
-- Order
-- ---------------------------------------------------------------------------

theorem ofNat_cons_lt {m n : Nat} (hm : m < 256) (hn : n < 256) (xs ys : List Byte) :
    UInt8.ofNat m :: xs < UInt8.ofNat n :: ys ↔ m < n ∨ m = n ∧ xs < ys := by
  rw [List.cons_lt_cons_iff, UInt8.lt_iff_toNat_lt, ← UInt8.toNat_inj, UInt8.toNat_ofNat_of_lt' hm,
    UInt8.toNat_ofNat_of_lt' hn]

theorem toNat_lt (c : Char) : c.val.toNat < 0x110000 := by
  rcases c.valid with h | h
  · exact Nat.lt_trans h (by decide)
  · exact h.2

/-- A longer form starts with a larger byte, and forms of one length are digits to the base 64. -/
theorem utf8EncodeChar_lt {c d : Char} (h : c < d) (xs ys : List Byte) :
    String.utf8EncodeChar c ++ xs < String.utf8EncodeChar d ++ ys := by
  have hlt : c.val.toNat < d.val.toNat := h
  have hd := toNat_lt d
  -- with nested quotients each digit is that of the number before it
  have nested (v : Nat) : v / 4096 = v / 64 / 64 ∧ v / 262144 = v / 64 / 64 / 64 := by omega
  fun_cases String.utf8EncodeChar c <;> fun_cases String.utf8EncodeChar d <;>
    simp (disch := omega) only [List.cons_append, List.nil_append, ofNat_cons_lt, nested] <;> omega

theorem bytes_lt (h : compare a b = .lt) : bytes a < bytes b := by
  have chars : ∀ {cs ds : List Char}, cs < ds →
      cs.flatMap String.utf8EncodeChar < ds.flatMap String.utf8EncodeChar := by
    intro cs ds h
    induction h with
    | @nil d ds =>
      rw [List.flatMap_nil, List.flatMap_cons]
      fun_cases String.utf8EncodeChar d <;> exact List.nil_lt_cons ..
    | rel h => exact utf8EncodeChar_lt h ..
    | cons _ ih => exact List.append_left_lt ih
  have hlt : a < b := compareOfLessAndEq_eq_lt.mp h
  rw [bytes_eq_flatMap, bytes_eq_flatMap]
  exact chars hlt

-- ---------------------------------------------------------------------------
-- Fronts
-- ---------------------------------------------------------------------------

theorem utf8EncodeChar_append_inj {c d : Char} {xs ys : List Byte}
    (h : String.utf8EncodeChar c ++ xs = String.utf8EncodeChar d ++ ys) : c = d ∧ xs = ys := by
  have hcd : c = d := by
    rcases Std.lt_trichotomy c d with hlt | heq | hlt
    · exact absurd (utf8EncodeChar_lt hlt xs ys) (h ▸ List.lt_irrefl _)
    · exact heq
    · exact absurd (utf8EncodeChar_lt hlt ys xs) (h ▸ List.lt_irrefl _)
  subst hcd
  exact ⟨rfl, List.append_cancel_left h⟩

theorem bytes_prefix_iff {a b : String} : bytes a <+: bytes b ↔ a.toList <+: b.toList := by
  have chars : ∀ {cs ds : List Char},
      cs.flatMap String.utf8EncodeChar <+: ds.flatMap String.utf8EncodeChar → cs <+: ds := by
    intro cs
    induction cs with
    | nil => exact fun _ => List.nil_prefix
    | cons c cs ih =>
      rintro ds ⟨rest, h⟩
      cases ds with
      | nil => simp [String.utf8EncodeChar_ne_nil] at h
      | cons d ds =>
        rw [List.flatMap_cons, List.flatMap_cons, List.append_assoc] at h
        obtain ⟨rfl, hrest⟩ := utf8EncodeChar_append_inj h
        exact (List.prefix_cons_inj c).mpr (ih ⟨rest, hrest⟩)
  rw [bytes_eq_flatMap, bytes_eq_flatMap]
  refine ⟨chars, ?_⟩
  rintro ⟨rest, h⟩
  rw [← h, List.flatMap_append]
  exact List.prefix_append _ _

end ScriptBackend.Text
