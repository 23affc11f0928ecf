import ScriptBackend.Proofs.Code.Flatten
import ScriptBackend.Proofs.Code.Storage
import ScriptBackend.Proofs.Image.RoundTrip
import ScriptBackend.Proofs.References

/-!
# A session's own images can be linked

Three parts of a session have to agree for that: the references name entries of the
global pool and addresses of the code. `Referring` says how, and every operation
keeps it except a bare reset of the code, which would leave the references behind.
Emptying the tables, opening a unit and changing the mode back and forth do not
harm it.
-/

namespace ScriptBackend

open References (Apart Earlier PlacedBelow)

namespace Image

def waiting (i : Image) : List UInt32 := i.references.flatMap (·.addresses)

/-- References that a loader can close, whatever the host. -/
structure Resolvable (i : Image) (pool : StringPool) : Prop where
  offsets : ∀ r ∈ i.references, ∃ e ∈ pool.entries.toList, e.start = r.offset ∧ e.tagged = false
  inside : ∀ a ∈ i.waiting, a.toNat + 2 ≤ i.code.code.length
  apart : i.waiting.Pairwise Apart
  newestFirst : i.references.Pairwise fun newer older => Earlier older newer
  /-- The host is asked once for each reference, in their order. -/
  links : ∃ names : List String,
    names.map some = i.references.map (fun r => i.globalText? r.offset) ∧
    (names.Pairwise fun a b => ¬ Text.SameName a b) ∧
    ∀ {σ : Type} (intern : Interner σ) (state : σ), ∃ linked,
      (i.link intern).run state = ((.ok (), linked), ((names.mapM intern).run state).2)

end Image

namespace Session

/-- What the references of a session lead to. -/
structure Referring (s : Session) : Prop where
  tidy : s.code.Tidy
  pools : s.globalPools.Sound
  references : s.references.Sound
  named : ∀ r ∈ s.references.entries.toList, ∃ e, s.globalPools.strings.Names e ∧ e.start = r.offset
  placed : s.code.contents.length < 0x100000000 → PlacedBelow s.references s.code.contents.length

theorem referring_new (options : Options) : Referring (new options) where
  tidy := CodeBuffer.tidy_new options.chunkWords
  pools := Pools.sound_empty
  references := References.sound_empty
  named r hr := by simp [new, References.empty] at hr
  placed _ := References.placedBelow_empty _

-- ---------------------------------------------------------------------------
-- Operations
-- ---------------------------------------------------------------------------

theorem Referring.empty_tables (htidy : s.code.Tidy) (hpools : s.globalPools = .empty)
    (hreferences : s.references = .empty) : Referring s where
  tidy := htidy
  pools := hpools ▸ Pools.sound_empty
  references := hreferences ▸ References.sound_empty
  named r hr := by simp [hreferences, References.empty] at hr
  placed _ := hreferences ▸ References.placedBelow_empty _

theorem Referring.grow (h : Referring s) (hreferences : t.references = s.references)
    (hpools : Pools.Step s.globalPools t.globalPools) (htidy : t.code.Tidy)
    (hlength : s.code.contents.length ≤ t.code.contents.length) : Referring t where
  tidy := htidy
  pools := hpools.sound h.pools
  references := hreferences ▸ h.references
  named r hr := by
    obtain ⟨e, he, hstart⟩ := h.named r (hreferences ▸ hr)
    exact ⟨e, he.extend (hpools.extends h.pools).strings, hstart⟩
  placed hlen := by
    rw [hreferences]
    exact (h.placed (Nat.lt_of_le_of_lt hlength hlen)).mono hlength

theorem Referring.code (h : Referring s) (hop : op ≠ .reset) : Referring (s.step (.code op)) :=
  h.grow rfl (.same _) (h.tidy.apply op) (h.tidy.length_apply hop)

theorem Referring.record (h : Referring s) (name : String)
    (hcap : s.code.newCapacity 2 ≤ Chunk.maxCapacity) :
    Referring
      { s with
        globalPools := { s.globalPools with
          strings := (s.globalPools.strings.intern name false false).2 }
        references := s.references.record (s.globalPools.strings.intern name false false).1
          s.code.position
        code := (s.code.emitWords [0, 0]).2 } := by
  have hpools := Pools.Step.string s.globalPools name false false
  have hcontents : (s.code.emitWords [0, 0]).2.contents = s.code.contents ++ [0, 0] :=
    h.tidy.contents_emitWords hcap
  refine ⟨h.tidy.emitWords hcap, hpools.sound h.pools, h.references.record _ _, ?_, ?_⟩
  · intro r hr
    -- An entry of the table either was there before or has the offset of the name.
    obtain ⟨a, as, has⟩ := List.exists_cons_of_ne_nil ((h.references.record _ _).used r hr)
    have huse := References.mem_uses.mpr ⟨r, hr, rfl, has ▸ List.mem_cons_self⟩
    rcases (h.references.mem_uses_record _ _).mp huse with hold | hnew
    · obtain ⟨q, hq, hoffset, -⟩ := References.mem_uses.mp hold
      obtain ⟨e, he, hstart⟩ := h.named q hq
      exact ⟨e, he.extend (hpools.extends h.pools).strings, hstart.trans hoffset⟩
    · obtain ⟨e, he, hstart⟩ := h.pools.strings.names_intern name
      exact ⟨e, he, hstart.trans (Prod.mk.inj hnew).1.symm⟩
  · intro hlen
    simp only [hcontents, List.length_append, List.length_cons, List.length_nil] at hlen ⊢
    have hposition := h.tidy.toNat_position (by omega)
    have hplaced := h.placed (by omega)
    rw [← hposition] at hplaced ⊢
    exact hplaced.record h.references _

theorem Referring.emitIdentifier (h : Referring s) (identifier : Option Identifier) :
    Referring (s.step (.emitIdentifier identifier)) := by
  cases identifier with
  | none =>
    rw [step_emitIdentifier_none]
    exact h.code (by simp)
  | some identifier =>
    rw [step_emitIdentifier, h.tidy.checkRoom_eq]
    by_cases hcap : s.code.newCapacity 2 ≤ Chunk.maxCapacity
    · rw [if_pos hcap]
      cases hmode : s.mode with
      | immediate =>
        rw [emitIdentifier_immediate hmode]
        have hcap : s.code.newCapacity identifier.words.length ≤ Chunk.maxCapacity := hcap
        refine h.grow rfl (.same _) (h.tidy.emitWords hcap) ?_
        rw [h.tidy.contents_emitWords hcap, List.length_append]
        exact Nat.le_add_right ..
      | deferred =>
        rw [emitIdentifier_deferred hmode]
        exact h.record identifier.name hcap
    · rw [if_neg hcap]
      exact h

theorem Referring.step (h : Referring s) (hop : op ≠ .code .reset) : Referring (s.step op) := by
  have quiet : op.quiet = true → op.clears = false → Referring (s.step op) := by
    intro hquiet hclears
    have hsame := s.step_sameCode hquiet
    exact h.grow hsame.references (s.poolsOf_step hclears .global) (hsame.code ▸ h.tidy)
      (hsame.code ▸ Nat.le_refl _)
  cases op with
  | openUnit file => exact .empty_tables h.tidy.reset rfl rfl
  | clearTables => exact .empty_tables h.tidy rfl rfl
  | setMode mode =>
    show Referring (s.setMode mode)
    unfold setMode
    split
    · exact h
    · exact h.grow rfl (.same _) h.tidy (Nat.le_refl _)
  | emitIdentifier identifier => exact h.emitIdentifier identifier
  | code op =>
    refine h.code ?_
    rintro rfl
    exact hop rfl
  | _ => exact quiet rfl rfl

theorem referring_after (options : Options) {ops : List Op} (hops : ∀ op ∈ ops, op ≠ .code .reset) :
    Referring ((new options).after ops) := by
  have run : ∀ {s : Session} {ops : List Op}, (∀ op ∈ ops, op ≠ .code .reset) → Referring s →
      Referring (s.after ops) := by
    intro s ops hops hs
    induction ops generalizing s with
    | nil => exact hs
    | cons op ops ih =>
      exact ih (fun op hop => hops op (List.mem_cons_of_mem _ hop)) (hs.step (hops op (by simp)))
  exact run hops (referring_new options)

-- ---------------------------------------------------------------------------
-- Images
-- ---------------------------------------------------------------------------

theorem references_of_image {s : Session} (hmode : s.mode = .deferred) (himage : s.image = .ok i) :
    i.references = s.references.entries.toList.reverse := by
  obtain ⟨flat, -, rfl⟩ := image_eq_ok_iff.mp himage
  simp only [openReferences, hmode]
  rfl

theorem Referring.codeLength_of_image (h : Referring s)
    (hcode : s.code.contents.length < 0x100000000) (himage : s.image = .ok i) :
    i.code.codeLength = s.code.contents.length := by
  obtain ⟨flat, hflat, rfl⟩ := image_eq_ok_iff.mp himage
  rw [← flat.length_code, (CodeBuffer.flatten_eq_ok hflat).1, h.tidy.words_eq hcode]

theorem Referring.text (h : Referring s) (hpool : s.globalPools.strings.extent < 0x100000000)
    (himage : s.image = .ok i) (hr : r ∈ s.references.entries.toList) :
    ∃ e, s.globalPools.strings.Names e ∧ e.start = r.offset ∧ i.globalText? r.offset = some e.text := by
  obtain ⟨e, he, hstart⟩ := h.named r hr
  refine ⟨e, he, hstart, ?_⟩
  obtain ⟨flat, -, rfl⟩ := image_eq_ok_iff.mp himage
  rw [← hstart]
  exact h.pools.strings.textAt?_start hpool he.mem

/-- Entries differ in their offsets, so they stand for different names. -/
theorem Referring.pairwise_texts (h : Referring s)
    (hpool : s.globalPools.strings.extent < 0x100000000) (himage : s.image = .ok i)
    {name : Reference → String}
    (hname : ∀ r ∈ s.references.entries.toList, i.globalText? r.offset = some (name r)) :
    s.references.entries.toList.Pairwise fun r r' => ¬ Text.SameName (name r) (name r') := by
  have hoffsets := h.references.nodup_offsets
  rw [List.nodup_iff_pairwise_ne, List.pairwise_map] at hoffsets
  refine hoffsets.imp_of_mem ?_
  intro r r' hr hr' hne hsame
  obtain ⟨e, he, hstart, htext⟩ := h.text hpool himage hr
  obtain ⟨e', he', hstart', htext'⟩ := h.text hpool himage hr'
  have hr : e.text = name r := Option.some.inj (htext.symm.trans (hname r hr))
  have hr' : e'.text = name r' := Option.some.inj (htext'.symm.trans (hname r' hr'))
  rw [← hr, ← hr'] at hsame
  obtain rfl := he.unique he' hsame
  exact hne (hstart.symm.trans hstart')

theorem Referring.linkable (h : Referring s) (hcode : s.code.contents.length < 0x100000000)
    (himage : s.image = .ok i) (hr : r ∈ s.references.entries.toList)
    (hname : i.globalText? r.offset = some name) : i.linkable r = .ok name := by
  have hroom : r.addresses.find? (fun a => decide (i.code.codeLength < a.toNat + 2)) = none := by
    rw [List.find?_eq_none]
    intro a ha
    have hinside := (h.placed hcode).inside _ (References.mem_uses.mpr ⟨r, hr, rfl, ha⟩)
    rw [h.codeLength_of_image hcode himage]
    simpa using hinside
  simp only [Image.linkable, hname, hroom]

theorem Referring.links (h : Referring s) (hmode : s.mode = .deferred)
    (hpool : s.globalPools.strings.extent < 0x100000000)
    (hcode : s.code.contents.length < 0x100000000) (himage : s.image = .ok i) :
    ∃ names : List String, names.map some = i.references.map (fun r => i.globalText? r.offset) ∧
      (names.Pairwise fun a b => ¬ Text.SameName a b) ∧
      ∀ {σ : Type} (intern : Interner σ) (state : σ), ∃ linked,
        (i.link intern).run state = ((.ok (), linked), ((names.mapM intern).run state).2) := by
  have hreferences := references_of_image hmode himage
  have hmem : ∀ r ∈ i.references, r ∈ s.references.entries.toList := by
    intro r hr
    rwa [hreferences, List.mem_reverse] at hr
  let name (r : Reference) : String := (i.globalText? r.offset).getD ""
  have hname : ∀ r ∈ s.references.entries.toList, i.globalText? r.offset = some (name r) := by
    intro r hr
    obtain ⟨e, -, -, htext⟩ := h.text hpool himage hr
    simp only [name, htext, Option.getD_some]
  refine ⟨i.references.map name, ?_, ?_, ?_⟩
  · rw [List.map_map]
    exact List.map_congr_left fun r hr => (hname r (hmem r hr)).symm
  · rw [List.pairwise_map, hreferences, List.pairwise_reverse]
    exact (h.pairwise_texts hpool himage hname).imp fun hne hsame => hne hsame.symm
  · intro σ intern state
    refine Image.link_asks ?_ ?_ intern state
    · obtain ⟨flat, -, rfl⟩ := image_eq_ok_iff.mp himage
      exact hmode
    · intro r hr
      exact h.linkable hcode himage (hmem r hr) (hname r (hmem r hr))

theorem Referring.resolvable (h : Referring s) (hmode : s.mode = .deferred)
    (hpool : s.globalPools.strings.extent < 0x100000000)
    (hcode : s.code.contents.length < 0x100000000) (himage : s.image = .ok i) :
    i.Resolvable s.globalPools.strings := by
  have hplaced := h.placed hcode
  have hreferences := references_of_image hmode himage
  have hwaiting : i.waiting.Perm (s.references.uses.map Prod.snd) := by
    rw [Image.waiting, hreferences, References.map_snd_uses]
    exact List.Perm.flatMap_right _ (List.reverse_perm _)
  refine ⟨?_, ?_, ?_, ?_, h.links hmode hpool hcode himage⟩
  · intro r hr
    rw [hreferences, List.mem_reverse] at hr
    obtain ⟨e, he, hstart⟩ := h.named r hr
    exact ⟨e, he.mem, hstart, he.untagged⟩
  · intro a ha
    obtain ⟨u, hu, rfl⟩ := List.mem_map.mp (hwaiting.mem_iff.mp ha)
    rw [FlatCode.length_code, h.codeLength_of_image hcode himage]
    exact hplaced.inside u hu
  · refine (hwaiting.pairwise_iff Apart.symm).mpr ?_
    rw [List.pairwise_map]
    exact hplaced.apart
  · rw [hreferences, List.pairwise_reverse]
    exact hplaced.ordered

/-- The loader never fails on what a session made: in every image of a deferred session each
reference names an untagged entry of the pool and has words of its own in the code, and linking
asks the host once for each name, the newest first. Read back from the wire, the image does the
same. Only a bare reset of the code may not have been among the operations. -/
theorem own_image_resolvable (options : Options) (ops : List Op)
    (hops : ∀ op ∈ ops, op ≠ .code .reset) :
    let s := (new options).after ops
    s.mode = .deferred → s.globalPools.strings.extent < 0x100000000 →
      s.code.contents.length < 0x100000000 →
      s.ForImages (·.Resolvable s.globalPools.strings) := by
  intro s hmode hpool hcode
  have hs : (new options).after ops = s := rfl
  refine forImages_after hs ?_
  intro i himage
  exact (referring_after options hops).resolvable hmode hpool hcode himage

/-- Identifiers before and after the tables are emptied and in both modes, with raw storage and
a patch between them. -/
def sampleReferring : List Op :=
  [.setMode .deferred, .code (.allocate 5), .emitIdentifier (some ⟨"other", 1⟩), .clearTables,
    .internString "Self" true true, .emitIdentifier (some ⟨"SELF\x00 or not", 7⟩), .setMode .immediate,
    .emitIdentifier (some ⟨"now", 9⟩), .enterFunction, .setMode .deferred,
    .emitIdentifier (some ⟨"host", 3⟩), .emitIdentifier (some ⟨"self", 7⟩), .code (.patch 0 4),
    .leaveFunction "scene" "draw"]

theorem sampleReferring_resolvable :
    let s := (new ⟨.immediate, false, 3⟩).after sampleReferring
    s.mode = .deferred ∧ s.references.size = 2 ∧ s.image.toBool = true ∧
      s.ForImages (·.Resolvable s.globalPools.strings) :=
  ⟨by decide +kernel, by decide +kernel, by decide +kernel,
    own_image_resolvable ⟨.immediate, false, 3⟩ sampleReferring (by decide) (by decide +kernel)
      (by decide +kernel) (by decide +kernel)⟩

end Session

end ScriptBackend
