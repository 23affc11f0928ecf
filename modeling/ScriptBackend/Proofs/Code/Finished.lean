import ScriptBackend.Proofs.Code.Fixups

/-!
# Finished code

Flattening applies the patches that the calls since the last reset have left. It
fails at the first one outside of the code, and only there. Otherwise each word is
what its last patch says, or what was stored, and the line breaks come out as they
were added, whatever was patched.
-/

namespace ScriptBackend

namespace FlatCode

theorem toParts_eq (f : FlatCode) : f.toParts = (f.code, f.lineBreaks) := List.splitAt_eq

theorem toParts_ofParts (code lineBreaks : List Word) :
    (ofParts code lineBreaks).toParts = (code, lineBreaks) := by
  simp [toParts, ofParts]

theorem lineBreaks_ofParts (code lineBreaks : List Word) :
    (ofParts code lineBreaks).lineBreaks = lineBreaks := by
  simp [FlatCode.lineBreaks, ofParts]

theorem pairs_flatMap (first second : α → Word) (xs : List α) :
    pairs (xs.flatMap fun x => [first x, second x]) = xs.map fun x => (first x, second x) := by
  induction xs with
  | nil => rfl
  | cons x xs ih => exact congrArg ((first x, second x) :: ·) ih

theorem lineBreaks_congr {f g : FlatCode} (hlength : f.codeLength = g.codeLength)
    (h : ∀ n, g.codeLength ≤ n → f.buffer[n]? = g.buffer[n]?) : f.lineBreaks = g.lineBreaks := by
  apply List.ext_getElem?
  intro n
  simp only [lineBreaks, List.getElem?_drop, Array.getElem?_toList, hlength]
  exact h _ (Nat.le_add_right ..)

end FlatCode

namespace CodeBuffer

-- ---------------------------------------------------------------------------
-- Patches outside of the code
-- ---------------------------------------------------------------------------

def FirstOutside (ps : List Patch) (n : Nat) (p : Patch) : Prop :=
  ∃ before later, ps = before ++ p :: later ∧ (∀ q ∈ before, q.address.toNat < n) ∧
    n ≤ p.address.toNat

theorem within_or_firstOutside (ps : List Patch) (n : Nat) :
    (∀ p ∈ ps, p.address.toNat < n) ∨ ∃ p, FirstOutside ps n p := by
  induction ps with
  | nil => exact .inl (by simp)
  | cons p ps ih =>
    by_cases hp : p.address.toNat < n
    · rcases ih with hall | ⟨q, before, later, rfl, hbefore, hq⟩
      · exact .inl (List.forall_mem_cons.mpr ⟨hp, hall⟩)
      · exact .inr ⟨q, p :: before, later, rfl, List.forall_mem_cons.mpr ⟨hp, hbefore⟩, hq⟩
    · exact .inr ⟨p, [], ps, rfl, by simp, Nat.le_of_not_lt hp⟩

theorem applyPatch_of_lt {f : FlatCode} (h : p.address.toNat < f.codeLength) :
    ∃ f', applyPatch f p = .ok f' := by
  obtain ⟨f', hf', -⟩ := FlatCode.set?_of_lt h p.value
  exact ⟨f', by rw [applyPatch, hf']⟩

theorem applyPatch_of_le {f : FlatCode} (h : f.codeLength ≤ p.address.toNat) :
    applyPatch f p = .error (.internal (.patchOutsideCode p.address f.codeLength)) := by
  rw [applyPatch, show f.set? p.address.toNat p.value = none from if_neg (Nat.not_lt.mpr h)]

theorem foldlM_applyPatch_of_lt {ps : List Patch} {f : FlatCode}
    (h : ∀ p ∈ ps, p.address.toNat < f.codeLength) : ∃ f', ps.foldlM applyPatch f = .ok f' := by
  induction ps generalizing f with
  | nil => exact ⟨f, rfl⟩
  | cons p ps ih =>
    obtain ⟨hp, hps⟩ := List.forall_mem_cons.mp h
    obtain ⟨g, hg⟩ := applyPatch_of_lt hp
    rw [List.foldlM_cons, hg]
    rw [← (applyPatch_eq_ok hg).1] at hps
    exact ih hps

theorem foldlM_applyPatch_of_firstOutside {f : FlatCode} (h : FirstOutside ps f.codeLength p) :
    ps.foldlM applyPatch f = .error (.internal (.patchOutsideCode p.address f.codeLength)) := by
  obtain ⟨before, later, rfl, hbefore, hp⟩ := h
  obtain ⟨g, hg⟩ := foldlM_applyPatch_of_lt hbefore
  have hlength : g.codeLength = f.codeLength := (foldlM_applyPatch_eq_ok hg).1
  rw [List.foldlM_append, hg, ← hlength]
  show (p :: later).foldlM applyPatch g = _
  rw [List.foldlM_cons, applyPatch_of_le (hlength ▸ hp)]
  rfl

theorem lineBreaks_foldlM_applyPatch {ps : List Patch} {f : FlatCode}
    (h : ∀ p ∈ ps, p.address.toNat < f.codeLength) (hf : ps.foldlM applyPatch f = .ok f') :
    f'.lineBreaks = f.lineBreaks := by
  obtain ⟨hlength, hwords⟩ := foldlM_applyPatch_eq_ok hf
  apply FlatCode.lineBreaks_congr hlength
  intro n hn
  rw [hwords, patched?_eq_none, Option.none_or]
  intro p hp
  exact Nat.ne_of_lt (Nat.lt_of_lt_of_le (h p hp) hn)

-- ---------------------------------------------------------------------------
-- Line breaks
-- ---------------------------------------------------------------------------

def Call.lineBreak? : Call → Option LineBreak
  | ⟨.breakLine line address, .ok _⟩ => some ⟨line, address⟩
  | _ => none

def lineBreaksOf (calls : List Call) : List LineBreak := calls.filterMap Call.lineBreak?

theorem lineBreaksOf_append (calls : List Call) (c : Call) :
    lineBreaksOf (calls ++ [c]) = lineBreaksOf calls ++ c.lineBreak?.toList := by
  rw [lineBreaksOf, lineBreaksOf, List.filterMap_append, List.filterMap_cons]
  cases c.lineBreak? <;> rfl

theorem Tidy.lineBreaks_apply (hb : Tidy b) (hop : op ≠ .reset) :
    (b.apply op).2.lineBreaks.toList =
      b.lineBreaks.toList ++ (Call.lineBreak? ⟨op, (b.apply op).1⟩).toList := by
  rcases hb.apply_eq op with ⟨e, h⟩ | ⟨-, h⟩ <;> rw [h]
  · cases op <;> exact (List.append_nil _).symm
  cases op with
  | breakLine line address => exact Array.toList_push
  | store span words =>
    simp only [run]
    split
    · rename_i hstore
      obtain ⟨-, rfl⟩ := store?_eq_some hstore
      exact (List.append_nil _).symm
    · exact (List.append_nil _).symm
  | closeLoop points =>
    simp only [run, closeLoop]
    cases b.marks <;> exact (List.append_nil _).symm
  | reset => exact absurd rfl hop
  | _ => exact (List.append_nil _).symm

def Lined (h : History CodeBuffer Call) : Prop := h.state.lineBreaks.toList = lineBreaksOf h.log

theorem Sound.lined_serve (hs : Sound h) (hlined : Lined h) (op : Op) : Lined (h.serve noteCall op) := by
  unfold Lined
  by_cases hop : op = .reset
  · subst hop
    rfl
  · rw [log_noteCall h hop, lineBreaksOf_append, ← hlined]
    exact hs.tidy.lineBreaks_apply hop

theorem lined_after (chunkWords : Nat) (ops : List Op) :
    Lined ((History.fresh (new chunkWords)).after noteCall ops) := by
  refine (History.after_induction (P := fun h => Sound h ∧ Lined h) ⟨sound_new chunkWords, rfl⟩ ?_ ops).2
  rintro h op ⟨hs, hlined⟩
  exact ⟨hs.serve op, hs.lined_serve hlined op⟩

-- ---------------------------------------------------------------------------
-- Flattening
-- ---------------------------------------------------------------------------

structure Finished (calls : List Call) (b : CodeBuffer) (flat : FlatCode) : Prop where
  length : flat.code.length = b.position.toNat
  words : ∀ a : UInt32, a < b.position →
    flat.code[a.toNat]? = (patched? (patchesOf calls) a.toNat).or (b.read? a)
  lineBreaks : flat.lineBreaks = (lineBreaksOf calls).flatMap fun l => [l.line, l.address]
  linePairs : flat.linePairs = (lineBreaksOf calls).map fun l => (l.line, l.address)

theorem Tidy.length_words (hb : Tidy b) (hlen : b.contents.length < 0x100000000) :
    b.words.length = b.position.toNat := by
  rw [hb.words_eq hlen, hb.toNat_position hlen]

theorem Tidy.flatten_of_firstOutside (hb : Tidy b) (hlen : b.contents.length < 0x100000000)
    (h : FirstOutside b.patches.toList b.position.toNat p) :
    b.flatten = .error (.internal (.patchOutsideCode p.address b.position.toNat)) := by
  rw [← hb.length_words hlen] at h ⊢
  exact foldlM_applyPatch_of_firstOutside h

theorem Tidy.flatten_of_within (hb : Tidy b) (hlen : b.contents.length < 0x100000000)
    (hpatches : b.patches.toList = patchesOf calls)
    (hbreaks : b.lineBreaks.toList = lineBreaksOf calls)
    (h : ∀ p ∈ patchesOf calls, p.address.toNat < b.position.toNat) :
    ∃ flat, b.flatten = .ok flat ∧ Finished calls b flat := by
  have hlength := hb.length_words hlen
  rw [← hpatches, ← hlength] at h
  obtain ⟨flat, hflat⟩ := foldlM_applyPatch_of_lt
    (f := .ofParts b.words (b.lineBreaks.toList.flatMap fun l => [l.line, l.address])) h
  obtain ⟨hcode, hwords⟩ := flatten_eq_ok hflat
  have hlines : flat.lineBreaks = (lineBreaksOf calls).flatMap fun l => [l.line, l.address] := by
    rw [lineBreaks_foldlM_applyPatch h hflat, FlatCode.lineBreaks_ofParts, hbreaks]
  refine ⟨flat, hflat, hcode.trans hlength, ?_, hlines, ?_⟩
  · intro a ha
    have ha' : a.toNat < b.words.length := hlength ▸ UInt32.lt_iff_toNat_lt.mp ha
    rw [hwords a.toNat ha', hpatches, hb.words_eq hlen, read?_eq]
  · rw [FlatCode.linePairs, hlines]
    exact FlatCode.pairs_flatMap LineBreak.line LineBreak.address _

/-- When flattening fails, with what, and what it gives otherwise. -/
structure Flattening (calls : List Call) (b : CodeBuffer) : Prop where
  fails : (∃ e, b.flatten = .error e) ↔ ∃ p ∈ patchesOf calls, b.position ≤ p.address
  first : ∀ p, FirstOutside (patchesOf calls) b.position.toNat p →
    b.flatten = .error (.internal (.patchOutsideCode p.address b.position.toNat))
  message : ∀ e, b.flatten = .error e →
    ∃ p, FirstOutside (patchesOf calls) b.position.toNat p ∧
      e.message = "compile error: " ++ ("internal error: " ++
        ("patch address " ++ toString p.address.toNat ++ " outside code of length " ++
          toString b.position.toNat))
  succeeds : (∀ p ∈ patchesOf calls, p.address < b.position) →
    ∃ flat, b.flatten = .ok flat ∧ Finished calls b flat

theorem Tidy.flattening (hb : Tidy b) (hlen : b.contents.length < 0x100000000)
    (hpatches : b.patches.toList = patchesOf calls)
    (hbreaks : b.lineBreaks.toList = lineBreaksOf calls) : Flattening calls b := by
  have hfirst : ∀ p, FirstOutside (patchesOf calls) b.position.toNat p →
      b.flatten = .error (.internal (.patchOutsideCode p.address b.position.toNat)) :=
    fun p hp => hb.flatten_of_firstOutside hlen (hpatches ▸ hp)
  have hsome : ∀ e, b.flatten = .error e →
      ∃ p, FirstOutside (patchesOf calls) b.position.toNat p := by
    intro e he
    rcases within_or_firstOutside (patchesOf calls) b.position.toNat with hwithin | hout
    · obtain ⟨flat, hflat, -⟩ := hb.flatten_of_within hlen hpatches hbreaks hwithin
      rw [hflat] at he
      cases he
    · exact hout
  refine ⟨⟨?_, ?_⟩, hfirst, ?_, ?_⟩
  · rintro ⟨e, he⟩
    obtain ⟨p, before, later, hsplit, -, hle⟩ := hsome e he
    exact ⟨p, by simp [hsplit], UInt32.le_iff_toNat_le.mpr hle⟩
  · rintro ⟨p, hp, hle⟩
    rcases within_or_firstOutside (patchesOf calls) b.position.toNat with hwithin | ⟨q, hq⟩
    · exact absurd (UInt32.le_iff_toNat_le.mp hle) (Nat.not_le.mpr (hwithin p hp))
    · exact ⟨_, hfirst q hq⟩
  · intro e he
    obtain ⟨p, hp⟩ := hsome e he
    rw [hfirst p hp] at he
    cases he
    exact ⟨p, hp, rfl⟩
  · intro hwithin
    exact hb.flatten_of_within hlen hpatches hbreaks fun p hp =>
      UInt32.lt_iff_toNat_lt.mp (hwithin p hp)

/-- Whatever was called since the last reset, flattening fails exactly at the first patch outside
of the code; otherwise the last patch of each word wins and the line breaks are those added. Flat
code and its two parts determine each other. -/
theorem flatten_applies_last_patches (chunkWords : Nat) (ops : List Op) :
    let h := (History.fresh (new chunkWords)).after noteCall ops
    (h.state.contents.length < 0x100000000 → Flattening h.log h.state) ∧
      (∀ flat : FlatCode, .ofParts flat.toParts.1 flat.toParts.2 = flat) ∧
      ∀ code lineBreaks, (FlatCode.ofParts code lineBreaks).toParts = (code, lineBreaks) := by
  intro h
  refine ⟨?_, ?_, FlatCode.toParts_ofParts⟩
  · intro hlen
    obtain ⟨htidy, hnested, -⟩ := sound_after chunkWords ops
    exact htidy.flattening hlen hnested.patches (lined_after chunkWords ops)
  · intro flat
    rw [flat.toParts_eq]
    exact flat.ofParts_parts

/-- Words in two chunks, one of which is patched twice and one by a loop that is closed. -/
def sampleFinished : List Op :=
  [.emit 5, .patch 7 7, .breakLine 9 9, .reset, .emitWords [1, 2, 3], .breakLine 1 0, .openLoop,
    .emitFixup .exit, .patch 0 40, .breakLine 2 3, .closeLoop ⟨10, 11, 12⟩, .patch 0 41]

-- The patches added last would fall on the line breaks, the later one on the first of them.
theorem sampleFinished_flattens :
    (∃ flat, ((History.fresh (new 2)).after noteCall sampleFinished).state.flatten = .ok flat ∧
      flat.code[0]? = some 41 ∧ flat.code[1]? = some 2 ∧ flat.code[3]? = some 11 ∧
      flat.linePairs = [(1, 0), (2, 3)]) ∧
    ((History.fresh (new 2)).after noteCall
        (sampleFinished ++ [.patch 5 1, .patch 4 9])).state.flatten =
      .error (.internal (.patchOutsideCode 5 4)) := by
  constructor
  · have hflattening := (flatten_applies_last_patches 2 sampleFinished).1 (by decide +kernel)
    obtain ⟨flat, hflat, hfinished⟩ := hflattening.succeeds (by decide +kernel)
    refine ⟨flat, hflat, ?_, ?_, ?_, hfinished.linePairs.trans (by decide +kernel)⟩
    · exact (hfinished.words 0 (by decide +kernel)).trans (by decide +kernel)
    · exact (hfinished.words 1 (by decide +kernel)).trans (by decide +kernel)
    · exact (hfinished.words 3 (by decide +kernel)).trans (by decide +kernel)
  · have hflattening := (flatten_applies_last_patches 2
      (sampleFinished ++ [.patch 5 1, .patch 4 9])).1 (by decide +kernel)
    have hfirst := hflattening.first ⟨5, 1⟩
      ⟨[⟨0, 40⟩, ⟨3, 11⟩, ⟨0, 41⟩], [⟨4, 9⟩], by decide +kernel, by decide +kernel, by decide +kernel⟩
    have hposition : ((History.fresh (new 2)).after noteCall
      (sampleFinished ++ [.patch 5 1, .patch 4 9])).state.position.toNat = 4 := by decide +kernel
    rwa [hposition] at hfirst

end CodeBuffer

end ScriptBackend
