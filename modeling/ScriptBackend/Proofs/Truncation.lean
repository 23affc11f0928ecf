import ScriptBackend.Proofs.Wire

/-!
# Cut and overlong images

Every reader of the wire knows from what it reads where to stop. `Delimited` says
so: the bytes that a reader takes up do not depend on what follows them, and no
part of them that lacks the end is read as anything. The law holds of single bytes
and varints and is handed on by sequencing, so it holds of whole images: one that
is accepted is refused as cut short at every other place, and with anything behind
it the surplus is counted.
-/

namespace ScriptBackend

open Text (Byte)

variable {ranOut : ε → Prop}

/-- These bytes are read as a value, whatever follows, and running out is what becomes of
them without their end. -/
structure Takes (ranOut : ε → Prop) (x : StateT (List Byte) (Except ε) α) (used : List Byte)
    (v : α) : Prop where
  whole : ∀ rest, x (used ++ rest) = .ok (v, rest)
  cut : ∀ q t, used = q ++ t → t ≠ [] → ∃ e, x q = .error e ∧ ranOut e

def Delimited (ranOut : ε → Prop) (x : StateT (List Byte) (Except ε) α) : Prop :=
  ∀ bs v rest, x bs = .ok (v, rest) → ∃ used, bs = used ++ rest ∧ Takes ranOut x used v

-- ---------------------------------------------------------------------------
-- Readers in sequence
-- ---------------------------------------------------------------------------

theorem bind_error {x : StateT (List Byte) (Except ε) α} {f : α → StateT (List Byte) (Except ε) β}
    (h : x bs = .error e) : (x >>= f) bs = .error e := by
  show (x bs >>= fun p => f p.1 p.2) = _
  rw [h]
  rfl

theorem bind_eq_ok {x : StateT (List Byte) (Except ε) α} {f : α → StateT (List Byte) (Except ε) β}
    (h : (x >>= f) bs = .ok (b, rest)) : ∃ a mid, x bs = .ok (a, mid) ∧ f a mid = .ok (b, rest) := by
  cases hx : x bs with
  | error e =>
    rw [bind_error hx] at h
    cases h
  | ok p =>
    obtain ⟨a, mid⟩ := p
    rw [Wire.bind_eq hx] at h
    exact ⟨a, mid, rfl, h⟩

theorem takes_pure (v : α) : Takes ranOut (pure v) [] v where
  whole _ := rfl
  cut _ _ h ht := absurd (List.append_eq_nil_iff.mp h.symm).2 ht

theorem delimited_pure (v : α) : Delimited ranOut (pure v) := by
  rintro bs _ _ ⟨⟩
  exact ⟨[], rfl, takes_pure v⟩

theorem delimited_throw (e : ε) : Delimited ranOut (throw e : StateT (List Byte) (Except ε) α) := by
  rintro bs v rest ⟨⟩

/-- A cut in the first part stops the first reader; behind it, the second one. -/
theorem Takes.bind {f : α → StateT (List Byte) (Except ε) β} (hx : Takes ranOut x used a)
    (hf : Takes ranOut (f a) used' b) : Takes ranOut (x >>= f) (used ++ used') b where
  whole rest := by rw [List.append_assoc, Wire.bind_eq (hx.whole _), hf.whole]
  cut q t h ht := by
    rcases List.append_eq_append_iff.mp h with ⟨mid, rfl, hmid⟩ | ⟨mid, hmid, rfl⟩
    · rw [Wire.bind_eq (hx.whole mid)]
      exact hf.cut mid t hmid ht
    · by_cases hnil : mid = []
      · subst hnil
        rw [List.append_nil] at hmid
        have hstart := hx.whole []
        rw [List.append_nil, hmid] at hstart
        rw [Wire.bind_eq hstart]
        exact hf.cut [] used' rfl ht
      · obtain ⟨e, he, hran⟩ := hx.cut q mid hmid hnil
        exact ⟨e, bind_error he, hran⟩

theorem Delimited.bind {x : StateT (List Byte) (Except ε) α}
    {f : α → StateT (List Byte) (Except ε) β} (hx : Delimited ranOut x)
    (hf : ∀ a, Delimited ranOut (f a)) : Delimited ranOut (x >>= f) := by
  intro bs b rest h
  obtain ⟨a, mid, ha, hb⟩ := bind_eq_ok h
  obtain ⟨used, rfl, hused⟩ := hx bs a mid ha
  obtain ⟨used', rfl, hused'⟩ := hf a mid b rest hb
  exact ⟨used ++ used', (List.append_assoc ..).symm, hused.bind hused'⟩

-- ---------------------------------------------------------------------------
-- The types on the wire
-- ---------------------------------------------------------------------------

namespace Wire

abbrev RanOut (e : Error) : Prop := e = .unexpectedEnd

theorem delimited_readByte : Delimited RanOut readByte := by
  intro bs v rest h
  cases bs with
  | nil => cases h
  | cons b bs =>
    obtain ⟨rfl, rfl⟩ : b = v ∧ bs = rest := by simpa [readByte] using h
    refine ⟨[b], rfl, fun _ => rfl, ?_⟩
    intro q t hq ht
    rcases List.singleton_eq_append_iff.mp hq with ⟨rfl, -⟩ | ⟨-, rfl⟩
    · exact ⟨.unexpectedEnd, rfl, rfl⟩
    · exact absurd rfl ht

theorem delimited_readBytes (n : Nat) : Delimited RanOut (readBytes n) := by
  intro bs v rest h
  simp only [readBytes] at h
  split at h
  · cases h
  · rename_i hn
    simp only [List.splitAt_eq] at h
    cases h
    have hlen : (bs.take n).length = n := List.length_take_of_le (Nat.le_of_not_lt hn)
    refine ⟨bs.take n, (List.take_append_drop n bs).symm, fun _ => readBytes_append hlen, ?_⟩
    intro q t hq ht
    have hpos := List.length_pos_iff.mpr ht
    rw [hq, List.length_append] at hlen
    exact ⟨.unexpectedEnd, if_pos (by omega), rfl⟩

theorem decodeVarint_succ (last : Byte) (groups : Nat) :
    decodeVarint last (groups + 1) = (do
      let b ← readByte
      if b < 128 then
        if groups = 0 ∧ last < b then throw .badVarint else pure b.toNat
      else
        let high ← decodeVarint last groups
        pure (b.toNat - 128 + 128 * high) : Reader Nat) := by
  funext bs
  cases bs with
  | nil => rfl
  | cons b bs =>
    rw [bind_eq (show readByte (b :: bs) = .ok (b, bs) from rfl), decodeVarint]
    split
    · split <;> rfl
    · rfl

/-- The groups are counted down byte by byte, so they never run out before the bytes do. -/
theorem delimited_decodeVarint (last : Byte) (groups : Nat) :
    Delimited RanOut (decodeVarint last groups) := by
  induction groups with
  | zero =>
    intro bs v rest h
    cases h
  | succ groups ih =>
    rw [decodeVarint_succ]
    refine delimited_readByte.bind fun b => ?_
    split
    · split
      · exact delimited_throw _
      · exact delimited_pure _
    · exact ih.bind fun high => delimited_pure _

theorem delimited_readWord : Delimited RanOut readWord :=
  Delimited.bind (f := fun n => pure (UInt32.ofNat n)) (delimited_decodeVarint 0x0F 5)
    fun n => delimited_pure (UInt32.ofNat n)

theorem delimited_readLength : Delimited RanOut readLength := delimited_decodeVarint 0x01 10

theorem delimited_readMany {read : Reader α} (h : Delimited RanOut read) (n : Nat) :
    Delimited RanOut (readMany read n) := by
  induction n with
  | zero => exact delimited_pure []
  | succ n ih => exact h.bind fun first => ih.bind fun rest => delimited_pure (first :: rest)

end Wire

class DelimitedWire (α : Type) [Wire α] : Prop where
  delimited : Delimited Wire.RanOut (Wire.decode : Wire.Reader α)

namespace Wire

open DelimitedWire (delimited)

instance : DelimitedWire Byte := ⟨delimited_readByte⟩

instance : DelimitedWire UInt32 := ⟨delimited_readWord⟩

instance : DelimitedWire String where
  delimited := by
    refine delimited_readLength.bind fun n => (delimited_readBytes n).bind fun bs => ?_
    cases Text.ofBytes? bs with
    | none => exact delimited_throw Error.badText
    | some s => exact delimited_pure s

instance : DelimitedWire Binary64 where
  delimited := (delimited_readBytes 8).bind fun _ => delimited_pure _

instance [Wire α] [DelimitedWire α] : DelimitedWire (List α) where
  delimited := delimited_readLength.bind fun n => delimited_readMany delimited n

instance : DelimitedWire Mode where
  delimited := by
    refine (delimited (α := UInt32)).bind fun index => ?_
    cases Mode.ofIndex? index with
    | none => exact delimited_throw Error.unknownVariant
    | some m => exact delimited_pure m

theorem delimited_fields [Wire α] [DelimitedWire α] [Wire β] [DelimitedWire β] (mk : α → β → γ) :
    Delimited RanOut (do let a ← decode; let b ← decode; pure (mk a b) : Reader γ) :=
  delimited.bind fun a => delimited.bind fun b => delimited_pure (mk a b)

instance : DelimitedWire Image.Header := ⟨delimited_fields Image.Header.mk⟩

instance : DelimitedWire Reference := ⟨delimited_fields Reference.mk⟩

instance : DelimitedWire Frame := ⟨delimited_fields Frame.mk⟩

end Wire

-- ---------------------------------------------------------------------------
-- Images
-- ---------------------------------------------------------------------------

namespace Image

def CutShort (e : Failure) : Prop := ∃ part, e = .decoding part .unexpectedEnd

theorem readPart_eq_ok [Wire α] :
    readPart α name bs = .ok p ↔ (Wire.decode : Wire.Reader α) bs = .ok p := by
  unfold readPart
  cases (Wire.decode : Wire.Reader α) bs with
  | error e => exact ⟨fun h => (nomatch h), fun h => (nomatch h)⟩
  | ok q => exact ⟨fun h => by cases h; rfl, fun h => by cases h; rfl⟩

theorem delimited_readPart (α : Type) [Wire α] [DelimitedWire α] (name : String) :
    Delimited CutShort (readPart α name) := by
  intro bs v rest h
  obtain ⟨used, rfl, hused⟩ := DelimitedWire.delimited bs v rest (readPart_eq_ok.mp h)
  refine ⟨used, rfl, fun other => readPart_eq_ok.mpr (hused.whole other), ?_⟩
  intro q t hq ht
  obtain ⟨e, he, rfl⟩ := hused.cut q t hq ht
  exact ⟨.decoding name .unexpectedEnd, by rw [readPart, he], name, rfl⟩

theorem delimited_readHeader : Delimited CutShort readHeader := by
  refine (delimited_readPart Header "header").bind fun header => ?_
  split
  · exact delimited_pure header.mode
  · exact delimited_throw _

theorem delimited_readReferences (mode : Mode) : Delimited CutShort (readReferences mode) := by
  cases mode with
  | immediate => exact delimited_pure []
  | deferred => exact delimited_readPart (List Reference) "identifier table"

theorem delimited_readParts : Delimited CutShort readParts :=
  delimited_readHeader.bind fun mode =>
    (delimited_readPart (List Byte) "string pool").bind fun _ =>
    (delimited_readPart (List Byte) "string pool").bind fun _ =>
    (delimited_readPart (List Binary64) "float pool").bind fun _ =>
    (delimited_readPart (List Binary64) "float pool").bind fun _ =>
    (delimited_readReferences mode).bind fun _ =>
    (delimited_readPart (List Frame) "local variable table").bind fun _ =>
    (delimited_readPart (List Word) "code").bind fun _ =>
    (delimited_readPart (List Word) "line breaks").bind fun _ => delimited_pure _

theorem read_eq_ok (h : read bs = .ok i) : readParts bs = .ok (i, []) := by
  have hread : read bs = readParts.run bs >>= fun p =>
      if p.2.isEmpty then pure p.1 else throw (.internal (.trailingBytes p.2.length)) := rfl
  cases hparts : readParts.run bs with
  | error e =>
    rw [hread, hparts] at h
    cases h
  | ok p =>
    obtain ⟨j, rest⟩ := p
    rw [hread, hparts] at h
    cases rest with
    | nil =>
      cases h
      exact hparts
    | cons b rest => cases h

/-- Accepted images are prefix-free. One that is cut anywhere ends inside a part, and bytes
behind it are counted. -/
theorem accepted_prefix_free (h : read bs = .ok i) :
    (∀ q, q <+: bs → q ≠ bs → ∃ part, read q = .error (.decoding part .unexpectedEnd)) ∧
      ∀ t, t ≠ [] → read (bs ++ t) = .error (.internal (.trailingBytes t.length)) := by
  obtain ⟨used, hbs, hused⟩ := delimited_readParts bs i [] (read_eq_ok h)
  rw [List.append_nil] at hbs
  subst hbs
  constructor
  · rintro q ⟨t, rfl⟩ hq
    have ht : t ≠ [] := by
      rintro rfl
      exact hq (List.append_nil q).symm
    obtain ⟨e, he, part, rfl⟩ := hused.cut q t rfl ht
    refine ⟨part, ?_⟩
    have hrun : readParts.run q = .error (.decoding part .unexpectedEnd) := he
    rw [read, hrun]
    rfl
  · intro t ht
    have hrun : readParts.run (bs ++ t) = .ok (i, t) := hused.whole t
    rw [read, hrun]
    cases t with
    | nil => exact absurd rfl ht
    | cons b t => rfl

/-- An image that writes its version in two bytes where one would do. -/
def overlongImage : List Byte :=
  [0x81, 0x00, 0x01, 0x02, 0x61, 0x00, 0x00, 0x00, 0x00, 0x01, 0x00, 0x01, 0x00, 0x00, 0x02, 0x07,
    0x08, 0x00]

theorem overlongImage_prefix_free :
    (∃ i, read overlongImage = .ok i) ∧
      (∃ part, read (overlongImage.take 11) = .error (.decoding part .unexpectedEnd)) ∧
      read (overlongImage ++ [0, 0]) = .error (.internal (.trailingBytes 2)) := by
  obtain ⟨i, hi⟩ := Wire.exists_ok (x := read overlongImage) (by decide +kernel)
  obtain ⟨hcut, hsurplus⟩ := accepted_prefix_free hi
  exact ⟨⟨i, hi⟩, hcut _ (List.take_prefix 11 _) (by decide), hsurplus [0, 0] (by decide)⟩

end Image

end ScriptBackend
