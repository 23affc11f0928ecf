import ScriptBackend.Image
import ScriptBackend.Proofs.Text

/-!
# What is written can be read back

`LawfulWire` is the contract of a wire format: reading what was written gives
the value and leaves alone whatever follows. Lengths on the wire have 64 bits,
so the law asks that the written form has fewer than 2⁶⁴ bytes; no sequence in
it can then be too long, since every element takes up a byte.
-/

namespace ScriptBackend

open Text (Byte)

/-- Values of a type survive the wire, whatever comes after them. -/
class LawfulWire (α : Type) [Wire α] : Prop where
  encode_pos (v : α) : 0 < (Wire.encode v).length
  decode_encode (v : α) (rest : List Byte) (h : (Wire.encode v).length < 0x10000000000000000) :
    (Wire.decode : Wire.Reader α) (Wire.encode v ++ rest) = .ok (v, rest)

namespace Wire

theorem bind_eq {x : StateT (List Byte) (Except ε) α} {f : α → StateT (List Byte) (Except ε) β}
    (h : x bs = .ok (a, rest)) : (x >>= f) bs = f a rest := by
  show (x bs >>= fun p => f p.1 p.2) = _
  rw [h]
  rfl

theorem exists_ok {x : Except ε α} (h : x.toBool = true) : ∃ a, x = .ok a := by
  cases x with
  | error e => cases h
  | ok a => exact ⟨a, rfl⟩

theorem eq_ok_of_toOption {x : Except ε α} (h : x.toOption = some a) : x = .ok a := by
  cases x with
  | error e => cases h
  | ok a =>
    cases h
    rfl

-- ---------------------------------------------------------------------------
-- Varints
-- ---------------------------------------------------------------------------

theorem toNat_ofNat_byte (h : n < 256) : (UInt8.ofNat n).toNat = n := by
  simp [Nat.mod_eq_of_lt h]

theorem length_encodeVarint_pos (n : Nat) : 0 < (encodeVarint n).length := by
  rw [encodeVarint]
  split <;> simp

/-- The reader's groups hold every number below its bound. The induction is on the groups,
each of which takes seven bits off the number. -/
theorem decodeVarint_encodeVarint {last : Byte} (hlast : last < 128) {groups n : Nat}
    (h : n < Nat.pow 128 groups * (last.toNat + 1)) (rest : List Byte) :
    decodeVarint last (groups + 1) (encodeVarint n ++ rest) = .ok (n, rest) := by
  have hlast : last.toNat < 128 := hlast
  induction groups generalizing n with
  | zero =>
    have hn : n ≤ last.toNat := by simpa [Nat.lt_succ_iff] using h
    have hb := toNat_ofNat_byte (n := n) (by omega)
    rw [encodeVarint, if_pos (by omega), List.singleton_append, decodeVarint,
      if_pos (UInt8.lt_iff_toNat_lt.mpr (by rw [hb]; simp; omega)), if_neg, hb]
    rintro ⟨-, hgt⟩
    rw [UInt8.lt_iff_toNat_lt, hb] at hgt
    omega
  | succ groups ih =>
    rw [encodeVarint]
    split
    · rename_i hn
      have hb := toNat_ofNat_byte (n := n) (by omega)
      rw [List.singleton_append, decodeVarint,
        if_pos (UInt8.lt_iff_toNat_lt.mpr (by rw [hb]; simp; omega)), if_neg (by simp), hb]
    · have hb := toNat_ofNat_byte (n := n % 128 + 128) (by omega)
      have hhigh : n / 128 < Nat.pow 128 groups * (last.toNat + 1) := by
        rw [Nat.div_lt_iff_lt_mul (by omega)]
        calc n < Nat.pow 128 groups * 128 * (last.toNat + 1) := h
          _ = Nat.pow 128 groups * (last.toNat + 1) * 128 := Nat.mul_right_comm ..
      rw [List.cons_append, decodeVarint, if_neg, ih hhigh]
      · simp only [bind, Except.bind, hb, Except.ok.injEq, Prod.mk.injEq, and_true]
        omega
      · rw [UInt8.lt_iff_toNat_lt, hb]
        simp

theorem readWord_encodeVarint (w : UInt32) (rest : List Byte) :
    readWord (encodeVarint w.toNat ++ rest) = .ok (w, rest) := by
  have h : w.toNat < Nat.pow 128 4 * ((0x0F : Byte).toNat + 1) := w.toNat_lt
  simp only [readWord, decodeVarint_encodeVarint (by decide) h, bind, Except.bind]
  simp

theorem readLength_encodeVarint {n : Nat} (h : n < 0x10000000000000000) (rest : List Byte) :
    readLength (encodeVarint n ++ rest) = .ok (n, rest) := by
  have h : n < Nat.pow 128 9 * ((0x01 : Byte).toNat + 1) := h
  exact decodeVarint_encodeVarint (by decide) h rest

-- ---------------------------------------------------------------------------
-- Sequences of bytes and of values
-- ---------------------------------------------------------------------------

theorem readBytes_append (h : bs.length = n) : readBytes n (bs ++ rest) = .ok (bs, rest) := by
  subst h
  simp [readBytes]

theorem readMany_flatMap {read : Reader α} {write : α → List Byte} {xs : List α}
    (h : ∀ x ∈ xs, ∀ rest, read (write x ++ rest) = .ok (x, rest)) (rest : List Byte) :
    readMany read xs.length (xs.flatMap write ++ rest) = .ok (xs, rest) := by
  induction xs with
  | nil => rfl
  | cons x xs ih =>
    rw [List.flatMap_cons, List.append_assoc, List.length_cons, readMany,
      bind_eq (h x (by simp) _), bind_eq (ih fun y hy => h y (List.mem_cons_of_mem _ hy))]
    rfl

theorem length_le_flatMap [Wire α] [LawfulWire α] (xs : List α) :
    xs.length ≤ (xs.flatMap encode).length := by
  induction xs with
  | nil => simp
  | cons x xs ih =>
    have := LawfulWire.encode_pos x
    simp only [List.flatMap_cons, List.length_append, List.length_cons]
    omega

theorem length_encode_le_flatMap [Wire α] {x : α} {xs : List α} (hx : x ∈ xs) :
    (encode x).length ≤ (xs.flatMap encode).length := by
  obtain ⟨before, later, rfl⟩ := List.append_of_mem hx
  simp only [List.flatMap_append, List.flatMap_cons, List.length_append]
  omega

@[simp] theorem length_littleEndian (count n : Nat) : (littleEndian count n).length = count := by
  induction count generalizing n with
  | zero => rfl
  | succ count ih => simp [littleEndian, ih]

theorem ofLittleEndian_littleEndian (h : n < Nat.pow 256 count) :
    ofLittleEndian (littleEndian count n) = n := by
  induction count generalizing n with
  | zero => simpa [littleEndian, ofLittleEndian, eq_comm] using h
  | succ count ih =>
    have hhigh : n / 256 < Nat.pow 256 count := by
      rw [Nat.div_lt_iff_lt_mul (by omega)]
      exact h
    simp only [littleEndian, ofLittleEndian, ih hhigh, UInt8.toNat_ofNat']
    omega

-- ---------------------------------------------------------------------------
-- The types on the wire
-- ---------------------------------------------------------------------------

theorem encode_string (s : String) : encode s = encodeVarint (Text.size s) ++ Text.bytes s := rfl

theorem encode_list [Wire α] (xs : List α) :
    encode xs = encodeVarint xs.length ++ xs.flatMap encode := rfl

theorem decode_string (h : Text.size s < 0x10000000000000000) (rest : List Byte) :
    (decode : Reader String) (encode s ++ rest) = .ok (s, rest) := by
  rw [encode_string, List.append_assoc]
  simp only [decode]
  rw [bind_eq (readLength_encodeVarint h _), bind_eq (readBytes_append (Text.length_bytes s)),
    Text.ofBytes?_bytes]
  rfl

theorem decode_number (x : Binary64) (rest : List Byte) :
    (decode : Reader Binary64) (encode x ++ rest) = .ok (x, rest) := by
  have hx : ofLittleEndian (littleEndian 8 x.bits.toNat) = x.bits.toNat :=
    ofLittleEndian_littleEndian x.bits.toNat_lt
  simp only [encode, decode]
  rw [bind_eq (readBytes_append (by simp)), hx, UInt64.ofNat_toNat]
  rfl

theorem decode_list [Wire α] {xs : List α} (hlen : xs.length < 0x10000000000000000)
    (h : ∀ x ∈ xs, ∀ rest, (decode : Reader α) (encode x ++ rest) = .ok (x, rest))
    (rest : List Byte) : (decode : Reader (List α)) (encode xs ++ rest) = .ok (xs, rest) := by
  rw [encode_list, List.append_assoc]
  simp only [decode]
  rw [bind_eq (readLength_encodeVarint hlen _)]
  exact readMany_flatMap h rest

theorem decode_mode (m : Mode) (rest : List Byte) :
    (decode : Reader Mode) (encode m ++ rest) = .ok (m, rest) := by
  have hm : (decode : Reader UInt32) (encode m ++ rest) = .ok (m.index, rest) :=
    readWord_encodeVarint m.index rest
  simp only [decode] at hm ⊢
  rw [bind_eq hm]
  cases m <;> rfl

theorem decode_fields [Wire α] [Wire β] (mk : α → β → γ)
    (ha : ∀ rest, (decode : Reader α) (encode a ++ rest) = .ok (a, rest))
    (hb : ∀ rest, (decode : Reader β) (encode b ++ rest) = .ok (b, rest)) (rest : List Byte) :
    (do let a ← decode; let b ← decode; pure (mk a b) : Reader γ)
      (encode a ++ encode b ++ rest) = .ok (mk a b, rest) := by
  rw [List.append_assoc, bind_eq (ha _), bind_eq (hb _)]
  rfl

theorem length_fields_pos [Wire α] [LawfulWire α] [Wire β] (a : α) (b : β) :
    0 < (encode a ++ encode b).length := by
  have := LawfulWire.encode_pos a
  rw [List.length_append]
  omega

instance : LawfulWire Byte where
  encode_pos _ := Nat.one_pos
  decode_encode _ _ _ := rfl

instance : LawfulWire UInt32 where
  encode_pos w := length_encodeVarint_pos w.toNat
  decode_encode w rest _ := readWord_encodeVarint w rest

instance : LawfulWire String where
  encode_pos s := by
    have := length_encodeVarint_pos (Text.size s)
    rw [encode_string, List.length_append]
    omega
  decode_encode s rest h := by
    rw [encode_string, List.length_append, Text.length_bytes] at h
    exact decode_string (by omega) rest

instance : LawfulWire Binary64 where
  encode_pos x := by simp [encode]
  decode_encode x rest _ := decode_number x rest

instance [Wire α] [LawfulWire α] : LawfulWire (List α) where
  encode_pos xs := by
    have := length_encodeVarint_pos xs.length
    rw [encode_list, List.length_append]
    omega
  decode_encode xs rest h := by
    have hlen := length_le_flatMap xs
    rw [encode_list, List.length_append] at h
    refine decode_list (by omega) ?_ rest
    intro x hx
    have := length_encode_le_flatMap hx
    exact fun rest => LawfulWire.decode_encode x rest (by omega)

instance : LawfulWire Mode where
  encode_pos m := LawfulWire.encode_pos m.index
  decode_encode m rest _ := decode_mode m rest

theorem decode_lawful_fields [Wire α] [LawfulWire α] [Wire β] [LawfulWire β] (mk : α → β → γ)
    (a : α) (b : β) (rest : List Byte) (h : (encode a ++ encode b).length < 0x10000000000000000) :
    (do let a ← decode; let b ← decode; pure (mk a b) : Reader γ)
      (encode a ++ encode b ++ rest) = .ok (mk a b, rest) := by
  rw [List.length_append] at h
  exact decode_fields mk (fun rest => LawfulWire.decode_encode a rest (by omega))
    (fun rest => LawfulWire.decode_encode b rest (by omega)) rest

instance : LawfulWire Image.Header where
  encode_pos v := length_fields_pos v.version v.mode
  decode_encode v rest h := decode_lawful_fields Image.Header.mk v.version v.mode rest h

instance : LawfulWire Reference where
  encode_pos r := length_fields_pos r.offset r.addresses
  decode_encode r rest h := decode_lawful_fields Reference.mk r.offset r.addresses rest h

instance : LawfulWire Frame where
  encode_pos f := length_fields_pos f.key f.slots
  decode_encode f rest h := decode_lawful_fields Frame.mk f.key f.slots rest h

end Wire

end ScriptBackend
