import ScriptBackend.Image.Link
import ScriptBackend.Proofs.Code.Flatten
import ScriptBackend.Proofs.Terminated
import ScriptBackend.Proofs.Wire

/-!
# Linking is all or nothing

A reference is closable if it names a text of the global pool and each of its
addresses has room for a handle. Linking fails at the first reference that is not,
before anything has been stored; if there is none, all stores lie in the code and
what they leave is what the same stores leave in a plain list of words.
-/

namespace ScriptBackend

open Text (Byte)

namespace FlatCode

def putHandle (code : List Word) (address : UInt32) (handle : UInt64) : List Word :=
  (code.set address.toNat handle.toUInt32).set (address.toNat + 1) (handle >>> 32).toUInt32

/-- A handle stored by two stores that both have to lie in the code. -/
def storeHandle? (f : FlatCode) (address : UInt32) (handle : UInt64) : Option FlatCode := do
  let low ← f.set? address.toNat handle.toUInt32
  low.set? (address.toNat + 1) (handle >>> 32).toUInt32

structure Recoded (f g : FlatCode) (code : List Word) : Prop where
  codeLength : g.codeLength = f.codeLength
  lineBreaks : g.lineBreaks = f.lineBreaks
  code : g.code = code

theorem Recoded.trans (hg : Recoded f g ws) (hk : Recoded g k ws') : Recoded f k ws' :=
  ⟨hk.codeLength.trans hg.codeLength, hk.lineBreaks.trans hg.lineBreaks, hk.code⟩

theorem set?_recoded {f : FlatCode} (hi : i < f.codeLength) (w : Word) :
    ∃ g, f.set? i w = some g ∧ Recoded f g (f.code.set i w) := by
  refine ⟨_, if_pos hi, rfl, ?_, ?_⟩
  · simp only [FlatCode.lineBreaks, Array.toList_setIfInBounds, List.drop_set_of_lt hi]
  · simp only [FlatCode.code, Array.toList_setIfInBounds, List.take_set]

theorem storeHandle_recoded {f : FlatCode} (h : address.toNat + 2 ≤ f.codeLength) (handle : UInt64) :
    f.storeHandle? address handle = some (f.storeHandle address handle) ∧
      Recoded f (f.storeHandle address handle) (putHandle f.code address handle) := by
  obtain ⟨g, hg, hlow⟩ := set?_recoded (f := f) (i := address.toNat) (by omega) handle.toUInt32
  obtain ⟨k, hk, hhigh⟩ := set?_recoded (f := g) (i := address.toNat + 1)
    (by rw [hlow.codeLength]; omega) (handle >>> 32).toUInt32
  have hstore : f.storeHandle address handle = k := by
    simp only [storeHandle, hg, hk, Option.getD_some]
  rw [hlow.code] at hhigh
  refine ⟨?_, ?_⟩
  · rw [hstore, storeHandle?, hg]
    exact hk
  · rw [hstore]
    exact hlow.trans hhigh

theorem foldl_storeHandle_recoded {stores : List (UInt32 × UInt64)} {f : FlatCode}
    (h : ∀ x ∈ stores, x.1.toNat + 2 ≤ f.codeLength) :
    stores.foldlM (fun code x => code.storeHandle? x.1 x.2) f =
        some (stores.foldl (fun code x => code.storeHandle x.1 x.2) f) ∧
      Recoded f (stores.foldl (fun code x => code.storeHandle x.1 x.2) f)
        (stores.foldl (fun code x => putHandle code x.1 x.2) f.code) := by
  induction stores generalizing f with
  | nil => exact ⟨rfl, rfl, rfl, rfl⟩
  | cons x stores ih =>
    obtain ⟨hsome, hfirst⟩ := storeHandle_recoded (h x (by simp)) x.2
    obtain ⟨hrest, hlast⟩ := ih (f := f.storeHandle x.1 x.2) fun y hy => by
      rw [hfirst.codeLength]
      exact h y (List.mem_cons_of_mem _ hy)
    rw [hfirst.code] at hlast
    refine ⟨?_, hfirst.trans hlast⟩
    rw [List.foldlM_cons, hsome]
    exact hrest

theorem getElem?_foldl_putHandle {stores : List (UInt32 × UInt64)}
    (h : ∀ x ∈ stores, n ≠ x.1.toNat ∧ n ≠ x.1.toNat + 1) (code : List Word) :
    (stores.foldl (fun code x => putHandle code x.1 x.2) code)[n]? = code[n]? := by
  induction stores generalizing code with
  | nil => rfl
  | cons x stores ih =>
    obtain ⟨hlow, hhigh⟩ := h x (by simp)
    rw [List.foldl_cons, ih fun y hy => h y (List.mem_cons_of_mem _ hy), putHandle,
      List.getElem?_set_ne hhigh.symm, List.getElem?_set_ne hlow.symm]

end FlatCode

namespace Image

-- ---------------------------------------------------------------------------
-- References that can be closed
-- ---------------------------------------------------------------------------

structure Closable (i : Image) (r : Reference) (name : String) : Prop where
  text : Text.HasTextAt i.globalStrings r.offset name
  room : ∀ a ∈ r.addresses, a.toNat + 2 ≤ i.code.code.length

theorem linkable_eq_ok_iff {i : Image} : i.linkable r = .ok name ↔ i.Closable r name := by
  have hroom : r.addresses.find? (fun a => decide (i.code.codeLength < a.toNat + 2)) = none ↔
      ∀ a ∈ r.addresses, a.toNat + 2 ≤ i.code.code.length := by
    simp [List.find?_eq_none, FlatCode.length_code]
  constructor
  · intro h
    simp only [linkable] at h
    split at h
    · cases h
    · rename_i htext
      split at h
      · cases h
      · rename_i hfind
        cases h
        exact ⟨Text.textAt?_eq_some_iff.mp htext, hroom.mp hfind⟩
  · rintro ⟨htext, haddresses⟩
    have htext : i.globalText? r.offset = some name := Text.textAt?_eq_some_iff.mpr htext
    simp only [linkable, htext, hroom.mpr haddresses]

theorem linkable_eq_error_iff {i : Image} :
    (∃ e, i.linkable r = .error e) ↔ ∀ name, ¬ i.Closable r name := by
  simp only [← linkable_eq_ok_iff]
  cases i.linkable r <;> simp

def nameOf (i : Image) (r : Reference) : String := (i.globalText? r.offset).getD ""

theorem Closable.nameOf_eq (h : Closable i r name) : i.nameOf r = name := by
  have htext : i.globalText? r.offset = some name := Text.textAt?_eq_some_iff.mpr h.text
  rw [nameOf, htext, Option.getD_some]

theorem closable_or_first (i : Image) (rs : List Reference) :
    (∀ r ∈ rs, i.Closable r (i.nameOf r)) ∨
      ∃ before r later e, rs = before ++ r :: later ∧ (∀ q ∈ before, i.Closable q (i.nameOf q)) ∧
        i.linkable r = .error e := by
  induction rs with
  | nil => exact .inl fun r hr => (nomatch hr)
  | cons r rs ih =>
    cases hr : i.linkable r with
    | error e => exact .inr ⟨[], r, rs, e, rfl, fun q hq => (nomatch hq), hr⟩
    | ok name =>
      have hclosable := linkable_eq_ok_iff.mp hr
      rw [← hclosable.nameOf_eq] at hclosable
      rcases ih with hall | ⟨before, q, later, e, rfl, hbefore, hq⟩
      · exact .inl (by simpa using ⟨hclosable, hall⟩)
      · exact .inr ⟨r :: before, q, later, e, rfl, by simpa using ⟨hclosable, hbefore⟩, hq⟩

-- ---------------------------------------------------------------------------
-- Runs of the linker
-- ---------------------------------------------------------------------------

/-- The host is asked for the names before the first reference that cannot be linked. -/
theorem handles_first_error {i : Image} {name : Reference → String}
    (hbefore : ∀ q ∈ before, i.linkable q = .ok (name q)) (hr : i.linkable r = .error e)
    (intern : Interner σ) (state : σ) :
    (i.handles intern (before ++ r :: later)).run.run state =
      (.error e, (((before.map name).mapM intern).run state).2) := by
  induction before generalizing state with
  | nil =>
    rw [List.nil_append, handles, hr]
    rfl
  | cons q before ih =>
    rw [List.cons_append, handles_cons (hbefore q (by simp)),
      ih fun q hq => hbefore q (List.mem_cons_of_mem _ hq), List.map_cons, List.mapM_cons]
    rfl

theorem link_immediate {i : Image} (h : i.mode = .immediate) (intern : Interner σ) (state : σ) :
    (i.link intern).run state = ((.ok (), i), state) := by
  simp only [link, h]
  rfl

theorem link_first_error {i : Image} {name : Reference → String} (hmode : i.mode = .deferred)
    (hreferences : i.references = before ++ r :: later)
    (hbefore : ∀ q ∈ before, i.linkable q = .ok (name q)) (hr : i.linkable r = .error e)
    (intern : Interner σ) (state : σ) :
    (i.link intern).run state = ((.error e, i), (((before.map name).mapM intern).run state).2) := by
  simp only [link, hmode, hreferences, StateT.run_bind, handles_first_error hbefore hr intern state]
  rfl

theorem link_stores {i : Image} {name : Reference → String} (hmode : i.mode = .deferred)
    (h : ∀ r ∈ i.references, i.linkable r = .ok (name r)) (intern : Interner σ) (state : σ) :
    let asked := ((i.references.map name).mapM intern).run state
    (i.link intern).run state =
      ((.ok (), { i with
        mode := .immediate, references := []
        code := (stores (i.references.zip asked.1)).foldl
          (fun code x => code.storeHandle x.1 x.2) i.code }), asked.2) := by
  simp only [link, hmode, StateT.run_bind, handles_eq_mapM h intern state, ← foldl_closeReference]
  rfl

/-- What linking leaves of an image once the host has given out the handles of its references. -/
structure Linked (i linked : Image) (handles : List UInt64) : Prop where
  tables : linked = { i with mode := .immediate, references := [], code := linked.code }
  inside : (stores (i.references.zip handles)).foldlM (fun code x => code.storeHandle? x.1 x.2) i.code =
    some linked.code
  recoded : i.code.Recoded linked.code
    ((stores (i.references.zip handles)).foldl (fun code x => FlatCode.putHandle code x.1 x.2) i.code.code)
  untouched : ∀ n, (∀ r ∈ i.references, ∀ a ∈ r.addresses, n ≠ a.toNat ∧ n ≠ a.toNat + 1) →
    linked.code.code[n]? = i.code.code[n]?

theorem linked_of_closable {i : Image} {name : Reference → String}
    (h : ∀ r ∈ i.references, i.Closable r (name r)) (handles : List UInt64) :
    i.Linked { i with
      mode := .immediate, references := []
      code := (stores (i.references.zip handles)).foldl (fun code x => code.storeHandle x.1 x.2) i.code }
      handles := by
  have hmem : ∀ x ∈ stores (i.references.zip handles), ∃ r ∈ i.references, x.1 ∈ r.addresses := by
    intro x hx
    obtain ⟨c, hc, ha, -⟩ := mem_stores.mp hx
    exact ⟨c.1, (List.of_mem_zip hc).1, ha⟩
  have hroom : ∀ x ∈ stores (i.references.zip handles), x.1.toNat + 2 ≤ i.code.codeLength := by
    intro x hx
    obtain ⟨r, hr, ha⟩ := hmem x hx
    rw [← FlatCode.length_code]
    exact (h r hr).room x.1 ha
  obtain ⟨hinside, hrecoded⟩ := FlatCode.foldl_storeHandle_recoded hroom
  refine ⟨rfl, hinside, hrecoded, ?_⟩
  intro n hn
  rw [hrecoded.code]
  refine FlatCode.getElem?_foldl_putHandle ?_ i.code.code
  intro x hx
  obtain ⟨r, hr, ha⟩ := hmem x hx
  exact hn r hr x.1 ha

/-- Linking a deferred image fails exactly if some reference does not name a text of the pool or
has an address without room for a handle. It has then asked the host for the names before the
first such reference and left the image as it was. Otherwise it asks for every name once, in
order, and stores all handles inside the code. What has been linked is not linked again. -/
theorem link_all_or_nothing (i : Image) (intern : Interner σ) (state : σ) :
    let out := (i.link intern).run state
    (i.mode = .immediate → out = ((.ok (), i), state)) ∧
    ((∃ e, out.1.1 = .error e) ↔
      i.mode = .deferred ∧ ∃ r ∈ i.references, ∀ name, ¬ i.Closable r name) ∧
    (∀ e, out.1.1 = .error e → out.1.2 = i ∧
      ∃ (before : List Reference) (r : Reference) (later : List Reference) (name : Reference → String),
        i.references = before ++ r :: later ∧ (∀ q ∈ before, i.Closable q (name q)) ∧
        (∀ text, ¬ i.Closable r text) ∧ out.2 = (((before.map name).mapM intern).run state).2) ∧
    (out.1.1 = .ok () → i.mode = .deferred →
      ∃ name : Reference → String, (∀ r ∈ i.references, i.Closable r (name r)) ∧
        let asked := ((i.references.map name).mapM intern).run state
        out.2 = asked.2 ∧ i.Linked out.1.2 asked.1) ∧
    (out.1.1 = .ok () → ∀ {τ : Type} (other : Interner τ) (t : τ),
      (out.1.2.link other).run t = ((.ok (), out.1.2), t)) := by
  intro out
  cases hmode : i.mode with
  | immediate =>
    have hout : out = ((.ok (), i), state) := link_immediate hmode intern state
    simp only [hout]
    refine ⟨fun _ => trivial, by simp, by simp, by simp, ?_⟩
    exact fun _ _ other t => link_immediate hmode other t
  | deferred =>
    rcases i.closable_or_first i.references with hall | ⟨before, r, later, e, hsplit, hbefore, hr⟩
    · have hout : out = _ :=
        link_stores hmode (fun r hr => linkable_eq_ok_iff.mpr (hall r hr)) intern state
      have hlinked := linked_of_closable hall (((i.references.map i.nameOf).mapM intern).run state).1
      simp only [hout]
      refine ⟨by simp, ?_, by simp, fun _ _ => ⟨i.nameOf, hall, rfl, hlinked⟩, ?_⟩
      · simp only [reduceCtorEq, exists_false, true_and, false_iff]
        rintro ⟨r, hr, hbad⟩
        exact hbad _ (hall r hr)
      · exact fun _ _ other t => link_immediate rfl other t
    · have hout : out = _ :=
        link_first_error hmode hsplit (fun q hq => linkable_eq_ok_iff.mpr (hbefore q hq)) hr intern state
      have hbad := linkable_eq_error_iff.mp ⟨e, hr⟩
      simp only [hout]
      refine ⟨by simp, ?_, ?_, by simp, by simp⟩
      · exact ⟨fun _ => ⟨trivial, r, by simp [hsplit], hbad⟩, fun _ => ⟨e, rfl⟩⟩
      · exact fun _ _ => ⟨trivial, before, r, later, i.nameOf, hsplit, hbefore, hbad, rfl⟩

def sampleHost : Interner (List String) := fun name asked => (UInt64.ofNat asked.length, asked ++ [name])

/-- Two references that wait for overlapping places, one of them twice. -/
def sampleOverlapping : Image where
  mode := .deferred
  globalStrings := Text.bytes "größe\x00self\x00"
  functionStrings := []
  globalFloats := []
  functionFloats := []
  references := [⟨8, [1, 0, 1]⟩, ⟨0, [2]⟩]
  locals := .empty
  code := .ofParts [7, 7, 7, 7, 7] [1, 4]

/-- The same with a reference behind them whose second word would be a line break. -/
def sampleSpilling : Image :=
  { sampleOverlapping with references := sampleOverlapping.references ++ [⟨8, [3, 4]⟩] }

theorem sampleOverlapping_linked :
    let out := (sampleOverlapping.link sampleHost).run []
    let refused := (sampleSpilling.link sampleHost).run []
    (out.1.1 = .ok () ∧ sampleOverlapping.mode = .deferred ∧
      (∃ handles, sampleOverlapping.Linked out.1.2 handles) ∧
      (out.1.2.link sampleHost).run [] = ((.ok (), out.1.2), [])) ∧
    (∃ e, refused.1.1 = .error e) ∧ refused.1.2 = sampleSpilling := by
  intro out refused
  constructor
  · have hok : out.1.1 = .ok () := Wire.eq_ok_of_toOption (by decide +kernel)
    obtain ⟨-, -, -, hlinked, hagain⟩ := link_all_or_nothing sampleOverlapping sampleHost []
    obtain ⟨name, -, -, hlinked⟩ := hlinked hok rfl
    exact ⟨hok, rfl, ⟨_, hlinked⟩, hagain hok sampleHost []⟩
  · obtain ⟨-, hiff, hkept, -⟩ := link_all_or_nothing sampleSpilling sampleHost []
    have hspills : ∀ name, ¬ sampleSpilling.Closable ⟨8, [3, 4]⟩ name := by
      intro name h
      exact absurd (h.room 4 (by simp)) (by decide)
    obtain ⟨e, he⟩ := hiff.mpr ⟨rfl, ⟨8, [3, 4]⟩, by simp [sampleSpilling], hspills⟩
    exact ⟨⟨e, he⟩, (hkept e he).1⟩

end Image

end ScriptBackend
