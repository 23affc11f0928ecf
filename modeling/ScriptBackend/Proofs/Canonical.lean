import ScriptBackend.Proofs.Truncation

/-!
# The shortest form is the one that is written

A reader accepts more than is ever written: numbers padded with empty groups read
like any others. `Reads` compares a reader with a writer in both directions. It
reads back every value that fits, and whatever it accepts of a value is what is
written for it or longer. Sequencing hands the law on, so it holds of every type
on the wire.
-/

namespace ScriptBackend

open Text (Byte)

namespace Wire

def NoShorter (written form : List Byte) : Prop := form = written ∨ written.length < form.length

theorem NoShorter.length_le (h : NoShorter written form) : written.length ≤ form.length := by
  rcases h with rfl | h
  · exact Nat.le_refl _
  · exact Nat.le_of_lt h

theorem NoShorter.eq_of_length (h : NoShorter written form) (hlen : form.length = written.length) :
    form = written := by
  rcases h with h | h
  · exact h
  · omega

theorem NoShorter.append (h : NoShorter written form) (h' : NoShorter written' form') :
    NoShorter (written ++ written') (form ++ form') := by
  rcases h with rfl | h
  · rcases h' with rfl | h'
    · exact .inl rfl
    · exact .inr (by simpa using h')
  · have := h'.length_le
    exact .inr (by simp only [List.length_append]; omega)

/-- Every value that fits is read back, and what is read as a value is no shorter than what is
written for it. -/
structure Reads (fits : α → Prop) (write : α → List Byte) (x : Reader α) : Prop where
  back : ∀ v rest, fits v → x (write v ++ rest) = .ok (v, rest)
  accepted : ∀ bs v rest, x bs = .ok (v, rest) →
    fits v ∧ ∃ used, bs = used ++ rest ∧ NoShorter (write v) used

-- ---------------------------------------------------------------------------
-- Varints
-- ---------------------------------------------------------------------------

theorem noShorter_group {b : Byte} (hb : ¬ b < 128) (h : NoShorter (encodeVarint high) used) :
    NoShorter (encodeVarint (b.toNat - 128 + 128 * high)) (b :: used) := by
  have hge : 128 ≤ b.toNat := UInt8.le_iff_toNat_le.mp (UInt8.not_lt.mp hb)
  have hlt := b.toNat_lt
  by_cases hzero : high = 0
  · have := length_encodeVarint_pos high
    have := h.length_le
    right
    rw [encodeVarint, if_pos (by omega)]
    simp only [List.length_cons, List.length_nil]
    omega
  · have hbyte : UInt8.ofNat ((b.toNat - 128 + 128 * high) % 128 + 128) = b := by
      rw [show (b.toNat - 128 + 128 * high) % 128 + 128 = b.toNat by omega, UInt8.ofNat_toNat]
    have hhigh : (b.toNat - 128 + 128 * high) / 128 = high := by omega
    rw [encodeVarint, if_neg (by omega), hbyte, hhigh]
    exact NoShorter.append (.inl rfl : NoShorter [b] [b]) h

theorem decodeVarint_cases (h : decodeVarint last (groups + 1) bs = .ok (n, rest)) :
    ∃ b tail, bs = b :: tail ∧
      ((b < 128 ∧ ¬ (groups = 0 ∧ last < b) ∧ n = b.toNat ∧ rest = tail) ∨
        ¬ b < 128 ∧ ∃ high, decodeVarint last groups tail = .ok (high, rest) ∧
          n = b.toNat - 128 + 128 * high) := by
  cases bs with
  | nil => cases h
  | cons b tail =>
    refine ⟨b, tail, rfl, ?_⟩
    rw [decodeVarint] at h
    split at h
    · rename_i hsmall
      split at h
      · cases h
      · rename_i hlast
        cases h
        exact .inl ⟨hsmall, hlast, rfl, rfl⟩
    · rename_i hlarge
      cases hhigh : decodeVarint last groups tail with
      | error e =>
        rw [hhigh] at h
        cases h
      | ok p =>
        rw [hhigh] at h
        cases h
        exact .inr ⟨hlarge, p.1, rfl, rfl⟩

theorem encodeVarint_of_lt {b : Byte} (h : b < 128) : encodeVarint b.toNat = [b] := by
  have hlt : b.toNat < 128 := UInt8.lt_iff_toNat_lt.mp h
  rw [encodeVarint, if_pos hlt, UInt8.ofNat_toNat]

theorem decodeVarint_accepted {last : Byte} (h : decodeVarint last (groups + 1) bs = .ok (n, rest)) :
    n < Nat.pow 128 groups * (last.toNat + 1) ∧
      ∃ used, bs = used ++ rest ∧ NoShorter (encodeVarint n) used := by
  induction groups generalizing bs n with
  | zero =>
    obtain ⟨b, tail, rfl, ⟨hsmall, hlast, rfl, rfl⟩ | ⟨-, high, hhigh, -⟩⟩ := decodeVarint_cases h
    · have hle : b.toNat ≤ last.toNat :=
        UInt8.le_iff_toNat_le.mp (UInt8.not_lt.mp fun hgt => hlast ⟨rfl, hgt⟩)
      exact ⟨by simpa [Nat.lt_succ_iff] using hle, [b], rfl, .inl (encodeVarint_of_lt hsmall).symm⟩
    · cases hhigh
  | succ groups ih =>
    have hbound : Nat.pow 128 (groups + 1) * (last.toNat + 1) =
        Nat.pow 128 groups * (last.toNat + 1) * 128 := Nat.mul_right_comm ..
    rw [hbound]
    obtain ⟨b, tail, rfl, ⟨hsmall, -, rfl, rfl⟩ | ⟨hlarge, high, hhigh, rfl⟩⟩ := decodeVarint_cases h
    · have hlt : b.toNat < 128 := UInt8.lt_iff_toNat_lt.mp hsmall
      have hpos : 0 < Nat.pow 128 groups * (last.toNat + 1) :=
        Nat.mul_pos (Nat.pow_pos (by decide)) (Nat.succ_pos _)
      exact ⟨by omega, [b], rfl, .inl (encodeVarint_of_lt hsmall).symm⟩
    · obtain ⟨hlt, used, rfl, hused⟩ := ih hhigh
      have := b.toNat_lt
      exact ⟨by omega, b :: used, rfl, noShorter_group hlarge hused⟩

theorem reads_word : Reads (fun _ => True) (fun w : UInt32 => encodeVarint w.toNat) readWord where
  back w rest _ := readWord_encodeVarint w rest
  accepted bs w rest h := by
    cases hn : decodeVarint 0x0F 5 bs with
    | error e =>
      rw [readWord, hn] at h
      cases h
    | ok p =>
      rw [readWord, hn] at h
      cases h
      obtain ⟨hlt, hused⟩ := decodeVarint_accepted hn
      have hlt : p.1 < 0x100000000 := hlt
      have hword : (UInt32.ofNat p.1).toNat = p.1 := by simpa using hlt
      rw [hword]
      exact ⟨trivial, hused⟩

theorem readLength_accepted (h : readLength bs = .ok (n, rest)) :
    n < 0x10000000000000000 ∧ ∃ used, bs = used ++ rest ∧ NoShorter (encodeVarint n) used :=
  decodeVarint_accepted h

-- ---------------------------------------------------------------------------
-- Sequences
-- ---------------------------------------------------------------------------

theorem readBytes_eq_ok (h : readBytes n bs = .ok (taken, rest)) :
    bs = taken ++ rest ∧ taken.length = n := by
  simp only [readBytes] at h
  split at h
  · cases h
  · rename_i hn
    simp only [List.splitAt_eq, Except.ok.injEq, Prod.mk.injEq] at h
    obtain ⟨rfl, rfl⟩ := h
    exact ⟨(List.take_append_drop n bs).symm, List.length_take_of_le (Nat.le_of_not_lt hn)⟩

theorem littleEndian_ofLittleEndian (bs : List Byte) :
    littleEndian bs.length (ofLittleEndian bs) = bs := by
  induction bs with
  | nil => rfl
  | cons b bs ih =>
    have hlow : UInt8.ofNat (b.toNat + 256 * ofLittleEndian bs) = b := by
      apply UInt8.toNat_inj.mp
      rw [UInt8.toNat_ofNat', Nat.add_mul_mod_self_left, Nat.mod_eq_of_lt b.toNat_lt]
    have hhigh : (b.toNat + 256 * ofLittleEndian bs) / 256 = ofLittleEndian bs := by
      have := b.toNat_lt
      omega
    rw [List.length_cons, ofLittleEndian, littleEndian, hlow, hhigh, ih]

theorem ofLittleEndian_lt (bs : List Byte) : ofLittleEndian bs < Nat.pow 256 bs.length := by
  induction bs with
  | nil => decide
  | cons b bs ih =>
    have := b.toNat_lt
    have hpow : Nat.pow 256 (b :: bs).length = Nat.pow 256 bs.length * 256 := rfl
    rw [ofLittleEndian, hpow]
    omega

theorem readMany_accepted {x : Reader α} (hx : Reads fits write x)
    (h : readMany x n bs = .ok (vs, rest)) :
    vs.length = n ∧ (∀ v ∈ vs, fits v) ∧
      ∃ used, bs = used ++ rest ∧ NoShorter (vs.flatMap write) used := by
  induction n generalizing bs vs with
  | zero =>
    cases h
    exact ⟨rfl, fun v hv => (nomatch hv), [], rfl, .inl rfl⟩
  | succ n ih =>
    obtain ⟨v, mid, hv, hmid⟩ := bind_eq_ok h
    obtain ⟨vs, mid', hvs, hcons⟩ := bind_eq_ok hmid
    cases hcons
    obtain ⟨hfits, used, rfl, hused⟩ := hx.accepted _ _ _ hv
    obtain ⟨hlen, hall, used', rfl, hused'⟩ := ih hvs
    refine ⟨by rw [List.length_cons, hlen], by simpa using ⟨hfits, hall⟩, used ++ used',
      (List.append_assoc ..).symm, ?_⟩
    rw [List.flatMap_cons]
    exact hused.append hused'

end Wire

/-- A type whose written form is the shortest that is read. Lengths on the wire have 64 bits, and
the values that fit are those without longer sequences or texts. -/
class CanonicalWire (α : Type) [Wire α] where
  Fits : α → Prop
  reads : Wire.Reads Fits Wire.encode (Wire.decode : Wire.Reader α)

namespace Wire

open CanonicalWire (Fits reads)

instance : CanonicalWire Byte where
  Fits _ := True
  reads.back _ _ _ := rfl
  reads.accepted bs b rest h := by
    cases bs with
    | nil => cases h
    | cons _ _ =>
      cases h
      exact ⟨trivial, [b], rfl, .inl rfl⟩

instance : CanonicalWire UInt32 where
  Fits _ := True
  reads := reads_word

instance : CanonicalWire String where
  Fits s := Text.size s < 0x10000000000000000
  reads.back _ rest h := decode_string h rest
  reads.accepted bs s rest h := by
    obtain ⟨n, mid, hn, hmid⟩ := bind_eq_ok h
    obtain ⟨taken, mid', htaken, htext⟩ := bind_eq_ok hmid
    obtain ⟨hlt, used, rfl, hused⟩ := readLength_accepted hn
    obtain ⟨rfl, rfl⟩ := readBytes_eq_ok htaken
    cases hs : Text.ofBytes? taken with
    | none =>
      rw [hs] at htext
      cases htext
    | some t =>
      rw [hs] at htext
      cases htext
      have hbytes := Text.bytes_of_ofBytes? hs
      have hsize : Text.size s = taken.length := by rw [← hbytes, Text.length_bytes]
      refine ⟨by rw [hsize]; exact hlt, used ++ taken, (List.append_assoc ..).symm, ?_⟩
      rw [encode_string, hsize, hbytes]
      exact hused.append (.inl rfl)

instance : CanonicalWire Binary64 where
  Fits _ := True
  reads.back x rest _ := decode_number x rest
  reads.accepted bs x rest h := by
    obtain ⟨taken, mid, htaken, hx⟩ := bind_eq_ok h
    obtain ⟨rfl, hlen⟩ := readBytes_eq_ok htaken
    cases hx
    have hlt := ofLittleEndian_lt taken
    rw [hlen] at hlt
    refine ⟨trivial, taken, rfl, .inl ?_⟩
    have hbits : (UInt64.ofNat (ofLittleEndian taken)).toNat = ofLittleEndian taken := by
      simpa using hlt
    simp only [encode]
    rw [hbits, ← hlen, littleEndian_ofLittleEndian]

instance [Wire α] [CanonicalWire α] : CanonicalWire (List α) where
  Fits xs := xs.length < 0x10000000000000000 ∧ ∀ x ∈ xs, Fits x
  reads.back xs rest h := decode_list h.1 (fun x hx rest => reads.back x rest (h.2 x hx)) rest
  reads.accepted bs xs rest h := by
    obtain ⟨n, mid, hn, hxs⟩ := bind_eq_ok h
    obtain ⟨hlt, used, rfl, hused⟩ := readLength_accepted hn
    obtain ⟨rfl, hall, used', rfl, hused'⟩ := readMany_accepted reads hxs
    exact ⟨⟨hlt, hall⟩, used ++ used', (List.append_assoc ..).symm, hused.append hused'⟩

theorem index_of_ofIndex? (h : Mode.ofIndex? index = some m) : m.index = index := by
  simp only [Mode.ofIndex?] at h
  split at h
  · rename_i hzero
    cases h
    exact hzero.symm
  · split at h
    · rename_i hone
      cases h
      exact hone.symm
    · cases h

instance : CanonicalWire Mode where
  Fits _ := True
  reads.back m rest _ := decode_mode m rest
  reads.accepted bs m rest h := by
    obtain ⟨index, mid, hindex, hm⟩ := bind_eq_ok h
    obtain ⟨-, hused⟩ := reads_word.accepted bs index mid hindex
    cases hmode : Mode.ofIndex? index with
    | none =>
      rw [hmode] at hm
      cases hm
    | some m' =>
      rw [hmode] at hm
      cases hm
      rw [← index_of_ofIndex? hmode] at hused
      exact ⟨trivial, hused⟩

theorem reads_fields [Wire α] [CanonicalWire α] [Wire β] [CanonicalWire β] (mk : α → β → γ)
    {first : γ → α} {second : γ → β} (hmk : ∀ v, mk (first v) (second v) = v)
    (hfirst : ∀ a b, first (mk a b) = a) (hsecond : ∀ a b, second (mk a b) = b) :
    Reads (fun v => Fits (first v) ∧ Fits (second v))
      (fun v => encode (first v) ++ encode (second v))
      (do let a ← decode; let b ← decode; pure (mk a b)) where
  back v rest h := by
    have hread := decode_fields mk (fun rest => reads.back (first v) rest h.1)
      (fun rest => reads.back (second v) rest h.2) rest
    rwa [hmk] at hread
  accepted bs v rest h := by
    obtain ⟨a, mid, ha, hmid⟩ := bind_eq_ok h
    obtain ⟨b, mid', hb, hv⟩ := bind_eq_ok hmid
    cases hv
    obtain ⟨hfa, used, rfl, hused⟩ := reads.accepted _ _ _ ha
    obtain ⟨hfb, used', rfl, hused'⟩ := reads.accepted _ _ _ hb
    rw [hfirst, hsecond]
    exact ⟨⟨hfa, hfb⟩, used ++ used', (List.append_assoc ..).symm, hused.append hused'⟩

instance : CanonicalWire Image.Header where
  Fits v := Fits v.version ∧ Fits v.mode
  reads := reads_fields Image.Header.mk (fun _ => rfl) (fun _ _ => rfl) fun _ _ => rfl

instance : CanonicalWire Reference where
  Fits r := Fits r.offset ∧ Fits r.addresses
  reads := reads_fields Reference.mk (fun _ => rfl) (fun _ _ => rfl) fun _ _ => rfl

instance : CanonicalWire Frame where
  Fits f := Fits f.key ∧ Fits f.slots
  reads := reads_fields Frame.mk (fun _ => rfl) (fun _ _ => rfl) fun _ _ => rfl

end Wire

-- ---------------------------------------------------------------------------
-- Parts
-- ---------------------------------------------------------------------------

inductive Shape where
  | word
  | words
  | text
  | texts
  | bytes
  | numbers
  | frames
  | references
  | header

namespace Shape

abbrev Value : Shape → Type
  | .word => Word
  | .words => List Word
  | .text => String
  | .texts => List String
  | .bytes => List Byte
  | .numbers => List Binary64
  | .frames => List Frame
  | .references => List Reference
  | .header => Image.Header

instance : (shape : Shape) → Wire shape.Value
  | .word => inferInstanceAs (Wire Word)
  | .words => inferInstanceAs (Wire (List Word))
  | .text => inferInstanceAs (Wire String)
  | .texts => inferInstanceAs (Wire (List String))
  | .bytes => inferInstanceAs (Wire (List Byte))
  | .numbers => inferInstanceAs (Wire (List Binary64))
  | .frames => inferInstanceAs (Wire (List Frame))
  | .references => inferInstanceAs (Wire (List Reference))
  | .header => inferInstanceAs (Wire Image.Header)

instance : (shape : Shape) → CanonicalWire shape.Value
  | .word => inferInstanceAs (CanonicalWire Word)
  | .words => inferInstanceAs (CanonicalWire (List Word))
  | .text => inferInstanceAs (CanonicalWire String)
  | .texts => inferInstanceAs (CanonicalWire (List String))
  | .bytes => inferInstanceAs (CanonicalWire (List Byte))
  | .numbers => inferInstanceAs (CanonicalWire (List Binary64))
  | .frames => inferInstanceAs (CanonicalWire (List Frame))
  | .references => inferInstanceAs (CanonicalWire (List Reference))
  | .header => inferInstanceAs (CanonicalWire Image.Header)

end Shape

namespace Image

open CanonicalWire (Fits reads)

/-- What is written of a value is read back, whatever stands before and behind it. Whatever else is
read as that value is longer, so what is written is the shortest form of all, and writing what
was read and reading it again changes nothing. -/
theorem written_part_shortest (shape : Shape) (name : String) :
    (∀ v : shape.Value, Fits v → ∀ sink rest : List Byte,
      writePart v sink = sink ++ Wire.encode v ∧
        readPart shape.Value name (Wire.encode v ++ rest) = .ok (v, rest)) ∧
    ∀ (bs : List Byte) (v : shape.Value) (rest : List Byte),
      readPart shape.Value name bs = .ok (v, rest) →
        Fits v ∧ ∃ used, bs = used ++ rest ∧ (Wire.encode v).length ≤ used.length ∧
          (used.length = (Wire.encode v).length → used = Wire.encode v) ∧
          ∀ rest', readPart shape.Value name (Wire.encode v ++ rest') = .ok (v, rest') := by
  have hback : ∀ v : shape.Value, Fits v → ∀ rest,
      readPart shape.Value name (Wire.encode v ++ rest) = .ok (v, rest) :=
    fun v hv rest => readPart_eq_ok.mpr (reads.back v rest hv)
  refine ⟨fun v hv sink rest => ⟨rfl, hback v hv rest⟩, ?_⟩
  intro bs v rest h
  obtain ⟨hv, used, rfl, hused⟩ := reads.accepted bs v rest (readPart_eq_ok.mp h)
  exact ⟨hv, used, rfl, hused.length_le, hused.eq_of_length, hback v hv⟩

def sampleFrames : Shape.frames.Value := [⟨"scène::draw", ["größe"]⟩]

/-- A form of the sample with an empty group behind each of its lengths, and a byte behind it. -/
def paddedFrames : List Byte :=
  [0x81, 0x00, 0x8C, 0x80, 0x00] ++ Text.bytes "scène::draw" ++ [0x81, 0x00, 0x87, 0x00] ++
    Text.bytes "größe" ++ [0x2A]

theorem sampleFrames_shortest :
    readPart Shape.frames.Value "locals" paddedFrames = .ok (sampleFrames, [0x2A]) ∧
      Fits sampleFrames ∧
      (writePart sampleFrames [7] = [7] ++ Wire.encode sampleFrames ∧
        readPart Shape.frames.Value "locals" (Wire.encode sampleFrames ++ [8, 9]) =
          .ok (sampleFrames, [8, 9])) ∧
      ∃ used, paddedFrames = used ++ [0x2A] ∧ (Wire.encode sampleFrames).length ≤ used.length := by
  have hpadded : readPart Shape.frames.Value "locals" paddedFrames = .ok (sampleFrames, [0x2A]) :=
    Wire.eq_ok_of_toOption (by decide +kernel)
  obtain ⟨hwritten, haccepted⟩ := written_part_shortest .frames "locals"
  obtain ⟨hfits, used, hused, hle, -⟩ := haccepted _ _ _ hpadded
  exact ⟨hpadded, hfits, hwritten _ hfits [7] [8, 9], used, hused, hle⟩

end Image

end ScriptBackend
