/-!
# Text as UTF-8 bytes

`bytes` writes a text, `ofBytes?` reads one back and refuses anything that is
not well-formed, and `ofBytesLossy` reads any byte string: each longest stretch
that could still have begun a character, but did not become one, is shown as
one replacement character.
-/

namespace ScriptBackend.Text

abbrev Byte := UInt8

def bytes (s : String) : List Byte := s.toUTF8.data.toList

def size (s : String) : Nat := s.utf8ByteSize

def ofBytes? (bs : List Byte) : Option String := String.fromUTF8? ⟨bs.toArray⟩

/-- The continuation bytes a first byte calls for, as inclusive ranges, and the
bits that it contributes itself. -/
def lead (b : Byte) : Option (Nat × List (Byte × Byte)) :=
  if b < 0x80 then some (b.toNat, [])
  else if 0xC2 ≤ b ∧ b ≤ 0xDF then some (b.toNat - 0xC0, [tail])
  else if b = 0xE0 then some (0, [(0xA0, 0xBF), tail])
  else if b = 0xED then some (0xD, [(0x80, 0x9F), tail])
  else if 0xE1 ≤ b ∧ b ≤ 0xEF then some (b.toNat - 0xE0, [tail, tail])
  else if b = 0xF0 then some (0, [(0x90, 0xBF), tail, tail])
  else if 0xF1 ≤ b ∧ b ≤ 0xF3 then some (b.toNat - 0xF0, [tail, tail, tail])
  else if b = 0xF4 then some (4, [(0x80, 0x8F), tail, tail])
  else none
where
  tail : Byte × Byte := (0x80, 0xBF)

def replacement : Char := Char.ofNat 0xFFFD

/-- Read the continuation bytes that are owed. The first byte out of its range
ends the character as a replacement and is left to be read again. -/
def continuation (code : Nat) : List (Byte × Byte) → List Byte → Char × List Byte
  | [], rest => (Char.ofNat code, rest)
  | _ :: _, [] => (replacement, [])
  | (lo, hi) :: owed, b :: rest =>
    if lo ≤ b ∧ b ≤ hi then continuation (code * 64 + (b.toNat - 0x80)) owed rest
    else (replacement, b :: rest)

theorem length_continuation_le (code : Nat) (owed : List (Byte × Byte)) (bs : List Byte) :
    (continuation code owed bs).2.length ≤ bs.length := by
  fun_induction continuation code owed bs with
  | case1 => simp
  | case2 => simp
  | case3 code lo hi owed b rest h ih => exact Nat.le_succ_of_le ih
  | case4 => simp

def charsLossy : List Byte → List Char
  | [] => []
  | b :: rest =>
    match lead b with
    | none => replacement :: charsLossy rest
    | some (code, owed) =>
      (continuation code owed rest).1 :: charsLossy (continuation code owed rest).2
termination_by bs => bs.length
decreasing_by
  · simp
  · have := length_continuation_le code owed rest
    simp only [List.length_cons]; omega

/-- Any byte string as text. A well-formed one is read as it stands. -/
def ofBytesLossy (bs : List Byte) : String :=
  match ofBytes? bs with
  | some s => s
  | none => String.ofList (charsLossy bs)

end ScriptBackend.Text
