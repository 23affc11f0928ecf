import ScriptBackend.Proofs.Image.RoundTrip
import ScriptBackend.Proofs.Session.Steps

/-!
# Literals in an image

The word that interning a literal answers is an offset or an index in the pools of
the region being compiled. Until the tables are emptied it stays valid: in every
image taken later it leads to the literal.
-/

namespace ScriptBackend

structure Pools.Fits (p : Pools) : Prop where
  strings : p.strings.extent < 0x100000000
  floats : p.floats.values.size < 0x100000000

namespace Image

def text? (i : Image) : Region → UInt32 → Option String
  | .global => i.globalText?
  | .function => i.functionText?

def floats (i : Image) : Region → List Binary64
  | .global => i.globalFloats
  | .function => i.functionFloats

/-- The offset leads to the text before the first NUL, up to case unless case counts. -/
def HasText (i : Image) (r : Region) (offset : UInt32) (text : String) (caseSensitive : Bool) : Prop :=
  ∃ found, i.text? r offset = some found ∧
    if caseSensitive then found = StringPool.cut text else Text.SameName found (StringPool.cut text)

/-- The index leads to an equal number, or to the same bits if the number is a NaN. -/
def HasNumber (i : Image) (r : Region) (index : UInt32) (x : Binary64) : Prop :=
  ∃ w, (i.floats r)[index.toNat]? = some w ∧ if x.isNaN then w = x else w.numEq x = true

end Image

namespace Session

theorem text?_of_image {s : Session} (h : s.image = .ok i) (r : Region) :
    i.text? r = Text.textAt? (s.poolsOf r).strings.bytes := by
  obtain ⟨flat, -, rfl⟩ := image_eq_ok_iff.mp h
  cases r <;> rfl

theorem floats_of_image {s : Session} (h : s.image = .ok i) (r : Region) :
    i.floats r = (s.poolsOf r).floats.values.toList := by
  obtain ⟨flat, -, rfl⟩ := image_eq_ok_iff.mp h
  cases r <;> rfl

theorem hasText_of_entry {s : Session} (hs : (s.poolsOf r).Sound) (hfits : (s.poolsOf r).Fits)
    (h : s.image = .ok i) (he : e ∈ (s.poolsOf r).strings.entries.toList)
    (hanswers : e.answers (StringPool.cut text) caseSensitive tagged = true) :
    i.HasText r e.start text caseSensitive := by
  refine ⟨e.text, ?_, ?_⟩
  · rw [text?_of_image h]
    exact hs.strings.textAt?_start hfits.strings he
  · simp only [StringPool.Entry.answers, StringPool.agrees, Bool.and_eq_true] at hanswers
    cases caseSensitive with
    | true => simpa using hanswers.2
    | false => simpa [Text.SameName] using hanswers.2

theorem hasNumber_of_value {s : Session} (hfits : (s.poolsOf r).Fits) (h : s.image = .ok i)
    (hw : (s.poolsOf r).floats.values.toList[n]? = some w) (hx : w.numEq x = true ∨ w = x) :
    i.HasNumber r (UInt32.ofNat n) x := by
  refine ⟨w, ?_, ?_⟩
  · have hn : n < (s.poolsOf r).floats.values.toList.length := (List.getElem?_eq_some_iff.mp hw).1
    rw [floats_of_image h, UInt32.toNat_ofNat_of_lt' (Nat.lt_trans hn hfits.floats)]
    exact hw
  · cases hnan : x.isNaN with
    | true => simpa [Binary64.numEq, hnan] using hx
    | false =>
      rcases hx with hx | rfl
      · simpa using hx
      · simp [Binary64.numEq, hnan]

theorem strings_step_internString (s : Session) (text : String) (caseSensitive tagged : Bool) :
    ((s.step (.internString text caseSensitive tagged)).poolsOf s.region).strings =
      ((s.poolsOf s.region).strings.intern text caseSensitive tagged).2 := by
  show ((onStrings (·.intern text caseSensitive tagged) s).2.poolsOf s.region).strings = _
  rw [onStrings_poolsOf, if_pos rfl]

theorem floats_step_internFloat (s : Session) (x : Binary64) :
    ((s.step (.internFloat x)).poolsOf s.region).floats =
      ((s.poolsOf s.region).floats.intern x).2 := by
  show ((s.internFloat x).2.poolsOf s.region).floats = _
  rw [internFloat_poolsOf, if_pos rfl]

theorem text_resolves (options : Options) (before later : List Op)
    (hlater : ∀ op ∈ later, op.clears = false) (text : String) (caseSensitive tagged : Bool) :
    let s := (new options).after before
    let t := s.after (.internString text caseSensitive tagged :: later)
    (t.poolsOf s.region).Fits → ∀ i, t.image = .ok i →
      i.HasText s.region (s.internString text caseSensitive tagged).1 text caseSensitive := by
  intro s t hfits i himage
  have hsound := sound_after options before s.region
  have hnext : ((s.step (.internString text caseSensitive tagged)).poolsOf s.region).Sound :=
    (s.poolsOf_step rfl s.region).sound hsound
  have ht : (t.poolsOf s.region).Sound := by
    have := sound_after options (before ++ .internString text caseSensitive tagged :: later) s.region
    rwa [after_append] at this
  obtain ⟨e, he, hstart, hanswers⟩ := hsound.strings.exists_entry text caseSensitive tagged
  rw [← strings_step_internString] at he
  have hoffset : (s.internString text caseSensitive tagged).1 = e.start := by
    rw [hstart, ← pools_eq]
    rfl
  rw [hoffset]
  exact hasText_of_entry ht hfits himage ((extends_after hnext hlater).strings.subset he) hanswers

theorem number_resolves (options : Options) (before later : List Op)
    (hlater : ∀ op ∈ later, op.clears = false) (x : Binary64) :
    let s := (new options).after before
    let t := s.after (.internFloat x :: later)
    (t.poolsOf s.region).Fits → ∀ i, t.image = .ok i →
      i.HasNumber s.region (s.internFloat x).1 x := by
  intro s t hfits i himage
  have hsound := sound_after options before s.region
  have hnext : ((s.step (.internFloat x)).poolsOf s.region).Sound :=
    (s.poolsOf_step rfl s.region).sound hsound
  obtain ⟨n, w, hn, hw, hx⟩ := hsound.floats.exists_value x
  rw [← floats_step_internFloat] at hw
  have hindex : (s.internFloat x).1 = UInt32.ofNat n := by
    rw [← hn, ← pools_eq]
    rfl
  have hkept : (t.poolsOf s.region).floats.values.toList[n]? = some w := by
    obtain ⟨hlt, -⟩ := List.getElem?_eq_some_iff.mp hw
    obtain ⟨rest, hrest⟩ := (extends_after hnext hlater).floats
    show (((s.step _).after later).poolsOf s.region).floats.values.toList[n]? = some w
    rw [← hrest, List.getElem?_append_left hlt, hw]
  rw [hindex]
  exact hasNumber_of_value hfits himage hkept hx

/-- What interning answers stays valid until the tables are emptied: in every later image the
offset leads to the text, and the index to the number, in the pools of the region they were
interned in. -/
theorem literals_resolve (options : Options) (before later : List Op)
    (hlater : ∀ op ∈ later, op.clears = false) :
    let s := (new options).after before
    (∀ text caseSensitive tagged,
      let op := Op.internString text caseSensitive tagged
      let t := s.after (op :: later)
      (t.poolsOf s.region).Fits →
        ∃ offset, ((perform op).run s).1 = .ok (.word offset) ∧
          t.ForImages (·.HasText s.region offset text caseSensitive)) ∧
    ∀ x,
      let op := Op.internFloat x
      let t := s.after (op :: later)
      (t.poolsOf s.region).Fits →
        ∃ index, ((perform op).run s).1 = .ok (.word index) ∧
          t.ForImages (·.HasNumber s.region index x) := by
  intro s
  constructor
  · intro text caseSensitive tagged op t hfits
    refine ⟨_, rfl, forImages_after (after_append _ before (op :: later)) ?_⟩
    exact text_resolves options before later hlater text caseSensitive tagged hfits
  · intro x op t hfits
    refine ⟨_, rfl, forImages_after (after_append _ before (op :: later)) ?_⟩
    exact number_resolves options before later hlater x hfits

def sampleBefore : List Op := [.openUnit none, .internString "Size" true false]

def sampleLater : List Op :=
  [.enterFunction, .internString "title" true true, .leaveFunction "scene" "draw", .internFloat .one]

theorem literals_resolve_sample :
    let s := (new ⟨.deferred, false, 4⟩).after sampleBefore
    let t := s.after (.internString "SIZE\x00 of" false false :: sampleLater)
    let u := s.after (.internFloat .nan :: sampleLater)
    ((t.poolsOf .global).Fits ∧ t.image.toBool = true ∧
      ∃ offset, t.ForImages (·.HasText .global offset "SIZE\x00 of" false)) ∧
    (u.poolsOf .global).Fits ∧ u.image.toBool = true ∧
      ∃ index, u.ForImages (·.HasNumber .global index .nan) := by
  intro s t u
  obtain ⟨htext, hnumber⟩ :=
    literals_resolve ⟨.deferred, false, 4⟩ sampleBefore sampleLater (by decide)
  have ht : (t.poolsOf .global).Fits := ⟨by decide +kernel, by decide +kernel⟩
  have hu : (u.poolsOf .global).Fits := ⟨by decide +kernel, by decide +kernel⟩
  obtain ⟨offset, -, htext⟩ := htext "SIZE\x00 of" false false ht
  obtain ⟨index, -, hnumber⟩ := hnumber .nan hu
  exact ⟨⟨ht, by decide +kernel, offset, htext⟩, hu, by decide +kernel, index, hnumber⟩

end Session

end ScriptBackend
