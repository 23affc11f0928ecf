import ScriptBackend.Proofs.Code.Flatten
import ScriptBackend.Proofs.Session.Steps
import ScriptBackend.Proofs.Wire

/-!
# A written session is read as its image

`Image.encode` is the form of an image on the wire. Writing a session appends that
form of its image, and reading it gives the image back in every field, for every
session that operations can lead to. What reading needs of an image is that its
frames stand under their own keys and that immediate code leaves no references.
-/

namespace ScriptBackend

open Text (Byte)

namespace Image

open Wire (bind_eq)

def encodeReferences (i : Image) : List Byte :=
  match i.mode with
  | .immediate => []
  | .deferred => Wire.encode i.references

def encode (i : Image) : List Byte :=
  Wire.encode (⟨version, i.mode⟩ : Header) ++
    (Wire.encode i.globalStrings ++ (Wire.encode i.functionStrings ++
    (Wire.encode i.globalFloats ++ (Wire.encode i.functionFloats ++
    (i.encodeReferences ++ (Wire.encode i.locals.frames ++
    (Wire.encode i.code.code ++ Wire.encode i.code.lineBreaks)))))))

/-- What every session's image has and reading needs. -/
structure Storable (i : Image) : Prop where
  keyed : i.locals.Keyed
  closed : i.mode = .immediate → i.references = []

theorem readPart_encode [Wire α] [LawfulWire α] (name : String) {v : α} {rest : List Byte}
    (h : (Wire.encode v).length < 0x10000000000000000) :
    readPart α name (Wire.encode v ++ rest) = .ok (v, rest) := by
  rw [readPart, LawfulWire.decode_encode v rest h]

theorem readHeader_encode {mode : Mode} {rest : List Byte}
    (h : (Wire.encode (⟨version, mode⟩ : Header)).length < 0x10000000000000000) :
    readHeader (Wire.encode (⟨version, mode⟩ : Header) ++ rest) = .ok (mode, rest) := by
  rw [readHeader, bind_eq (readPart_encode "header" h)]
  rfl

theorem Storable.readReferences_encode (hi : Storable i) (h : i.encodeReferences.length < 0x10000000000000000) :
    readReferences i.mode (i.encodeReferences ++ rest) = .ok (i.references, rest) := by
  unfold encodeReferences at *
  cases hmode : i.mode with
  | immediate =>
    rw [hi.closed hmode]
    rfl
  | deferred =>
    simp only [hmode] at h
    exact readPart_encode "identifier table" h

theorem Storable.readParts_encode (hi : Storable i) (h : i.encode.length < 0x10000000000000000) :
    readParts i.encode = .ok (i, []) := by
  unfold encode at *
  simp only [List.length_append] at h
  have hlast : readPart (List Word) "line breaks" (Wire.encode i.code.lineBreaks ++ []) =
      .ok (i.code.lineBreaks, []) := readPart_encode "line breaks" (by omega)
  rw [List.append_nil] at hlast
  rw [readParts, bind_eq (readHeader_encode (by omega)),
    bind_eq (readPart_encode "string pool" (by omega)),
    bind_eq (readPart_encode "string pool" (by omega)),
    bind_eq (readPart_encode "float pool" (by omega)),
    bind_eq (readPart_encode "float pool" (by omega)),
    bind_eq (hi.readReferences_encode (by omega)),
    bind_eq (readPart_encode "local variable table" (by omega)),
    bind_eq (readPart_encode "code" (by omega)), bind_eq hlast,
    hi.keyed.ofFrames_frames, FlatCode.ofParts_parts]
  rfl

theorem Storable.read_encode (hi : Storable i) (h : i.encode.length < 0x10000000000000000) :
    read i.encode = .ok i := by
  have hparts : readParts.run i.encode = .ok (i, []) := hi.readParts_encode h
  rw [read, hparts]
  rfl

end Image

namespace Session

theorem image_eq_ok_iff {s : Session} :
    s.image = .ok i ↔ ∃ flat, s.code.flatten = .ok flat ∧
      i = { mode := s.mode
            globalStrings := s.globalPools.strings.bytes
            functionStrings := s.functionPools.strings.bytes
            globalFloats := s.globalPools.floats.values.toList
            functionFloats := s.functionPools.floats.values.toList
            references := s.openReferences
            locals := s.locals
            code := flat } := by
  unfold image
  cases s.code.flatten with
  | error e => exact ⟨fun h => (nomatch h), fun ⟨_, h, _⟩ => (nomatch h)⟩
  | ok flat =>
    constructor
    · intro h
      cases h
      exact ⟨flat, rfl, rfl⟩
    · rintro ⟨_, h, rfl⟩
      cases h
      rfl

theorem image_eq_error_iff {s : Session} : s.image = .error e ↔ s.code.flatten = .error e := by
  unfold image
  cases s.code.flatten with
  | error e' =>
    constructor
    · rintro ⟨⟩
      rfl
    · rintro ⟨⟩
      rfl
  | ok flat => exact ⟨fun h => (nomatch h), fun h => (nomatch h)⟩

theorem exists_image {s : Session} (h : s.image.toBool = true) : ∃ i, s.image = .ok i :=
  Wire.exists_ok h

theorem storable_after (options : Options) (ops : List Op)
    (h : ((new options).after ops).image = .ok i) : i.Storable := by
  have hkeyed := keyed_after options ops
  obtain ⟨flat, -, rfl⟩ := image_eq_ok_iff.mp h
  refine ⟨hkeyed, ?_⟩
  intro (hmode : ((new options).after ops).mode = .immediate)
  simp only [openReferences, hmode]

theorem write_of_image {s : Session} (h : s.image = .ok i) (sink : List Byte) :
    s.write sink = (.ok (), sink ++ i.encode) := by
  obtain ⟨flat, hflat, rfl⟩ := image_eq_ok_iff.mp h
  simp only [write, hflat, encodeTables, Image.writePart, Image.encode, Image.encodeReferences,
    openReferences, References.encode, StringPool.encode, FloatPool.encode, Locals.encode]
  cases s.mode <;> simp only [List.append_assoc, List.nil_append]

theorem write_of_image_error {s : Session} (h : s.image = .error e) (sink : List Byte) :
    s.write sink = (.error e, sink ++ s.encodeTables) := by
  simp only [write, image_eq_error_iff.mp h]

/-- A property of the image of a session, taken as it is or read from what the session wrote. -/
def ForImages (s : Session) (P : Image → Prop) : Prop :=
  ∀ i, s.image = .ok i → P i ∧ ∀ sink, ∃ bytes, s.write sink = (.ok (), sink ++ bytes) ∧
    (bytes.length < 0x10000000000000000 → ∃ j, Image.read bytes = .ok j ∧ P j)

theorem forImages_after {options : Options} (ht : (new options).after ops = t) {P : Image → Prop}
    (h : ∀ i, t.image = .ok i → P i) : t.ForImages P := by
  subst ht
  intro i himage
  refine ⟨h i himage, ?_⟩
  intro sink
  refine ⟨i.encode, write_of_image himage sink, ?_⟩
  intro hlen
  exact ⟨i, (storable_after options ops himage).read_encode hlen, h i himage⟩

/-- Whatever was done to a session, writing succeeds exactly if its image can be taken, and what
is written then reads back as that image. The wire gives lengths 64 bits, so what is written has
to be addressable in as many; the pools and the code need no bound of their own. -/
theorem read_written_image (options : Options) (ops : List Op) (sink : List Byte) :
    let s := (new options).after ops
    (s.write sink).1 = s.image.map (fun _ => ()) ∧ sink <+: (s.write sink).2 ∧
      ∀ i, s.image = .ok i → ∃ bytes, s.write sink = (.ok (), sink ++ bytes) ∧
        (bytes.length < 0x10000000000000000 → Image.read bytes = .ok i) := by
  intro s
  cases himage : s.image with
  | error e =>
    rw [write_of_image_error himage]
    exact ⟨rfl, List.prefix_append _ _, fun i hi => (nomatch hi)⟩
  | ok i =>
    rw [write_of_image himage]
    refine ⟨rfl, List.prefix_append _ _, ?_⟩
    rintro _ ⟨⟩
    exact ⟨i.encode, rfl, (storable_after options ops himage).read_encode⟩

def sampleUnit : Session :=
  (new ⟨.deferred, false, 4⟩).after
    [.openUnit none, .internString "size" true true, .internFloat .one,
      .emitIdentifier (some ⟨"self", 5⟩), .code (.breakLine 3 0), .enterFunction,
      .internString "Size" false false, .assign "x" .float false 4, .code (.emitWords [7, 8, 9]),
      .leaveFunction "scene" "draw"]

theorem read_written_sampleUnit :
    ∃ i bytes, sampleUnit.image = .ok i ∧ bytes.length < 0x10000000000000000 ∧
      sampleUnit.write [1, 2] = (.ok (), [1, 2] ++ bytes) ∧ Image.read bytes = .ok i := by
  obtain ⟨i, himage⟩ := exists_image (s := sampleUnit) (by decide +kernel)
  have hlen : (sampleUnit.write [1, 2]).2.length < 0x10000000000000000 := by decide +kernel
  obtain ⟨-, -, hread⟩ := read_written_image ⟨.deferred, false, 4⟩ _ [1, 2]
  obtain ⟨bytes, hwrite, hread⟩ := hread i himage
  have hbytes : bytes.length < 0x10000000000000000 := by
    have hsink : (sampleUnit.write [1, 2]).2 = [1, 2] ++ bytes := congrArg Prod.snd hwrite
    rw [hsink, List.length_append] at hlen
    omega
  exact ⟨i, bytes, himage, hbytes, hwrite, hread hbytes⟩

end Session

end ScriptBackend
