import ScriptBackend.Proofs.Code.Contents
import ScriptBackend.Proofs.Image.Linking

/-!
# What patches leave

Patches are applied in the order in which they were noted, so the last one for an
address wins. They reach the code only: its length and the line breaks stay.
-/

namespace ScriptBackend

namespace FlatCode

theorem length_code (f : FlatCode) : f.code.length = f.codeLength := by
  rw [code, List.length_take, Array.length_toList]
  exact Nat.min_eq_left f.codeLength_le

theorem ofParts_parts (f : FlatCode) : ofParts f.code f.lineBreaks = f := by
  obtain ⟨buffer, codeLength, hle⟩ := f
  have hlength : min codeLength buffer.size = codeLength := Nat.min_eq_left hle
  simp [ofParts, code, lineBreaks, hlength]

end FlatCode

namespace CodeBuffer

def patched? (ps : List Patch) (n : Nat) : Option Word :=
  (ps.reverse.find? fun p => p.address.toNat = n).map (·.value)

theorem patched?_cons (p : Patch) (ps : List Patch) (n : Nat) :
    patched? (p :: ps) n = (patched? ps n).or (if p.address.toNat = n then some p.value else none) := by
  simp only [patched?, List.reverse_cons, List.find?_append, Option.map_or, List.find?_singleton,
    decide_eq_true_eq]
  split <;> rfl

theorem patched?_eq_none (h : ∀ p ∈ ps, p.address.toNat ≠ n) : patched? ps n = none := by
  rw [patched?, Option.map_eq_none_iff, List.find?_eq_none]
  intro p hp
  simpa using h p (List.mem_reverse.mp hp)

/-- Patches for one address that agree need no order. -/
theorem patched?_eq_some (hp : p ∈ ps) (h : ∀ q ∈ ps, q.address.toNat = p.address.toNat → q = p) :
    patched? ps p.address.toNat = some p.value := by
  cases hfind : ps.reverse.find? fun q => q.address.toNat = p.address.toNat with
  | none =>
    have := List.find?_eq_none.mp hfind p (List.mem_reverse.mpr hp)
    simp at this
  | some q =>
    have haddress : q.address.toNat = p.address.toNat := by simpa using List.find?_some hfind
    obtain rfl := h q (List.mem_reverse.mp (List.mem_of_find?_eq_some hfind)) haddress
    rw [patched?, hfind]
    rfl

theorem applyPatch_eq_ok (h : applyPatch f p = .ok f') :
    f'.codeLength = f.codeLength ∧
      ∀ n, f'.buffer[n]? = if n = p.address.toNat then some p.value else f.buffer[n]? := by
  unfold applyPatch at h
  by_cases hlt : p.address.toNat < f.codeLength
  · obtain ⟨g, hg, hlength, hwords⟩ := FlatCode.set?_of_lt hlt p.value
    rw [hg] at h
    cases h
    exact ⟨hlength, hwords⟩
  · rw [show f.set? p.address.toNat p.value = none from if_neg hlt] at h
    cases h

theorem foldlM_applyPatch_eq_ok {ps : List Patch} (h : ps.foldlM applyPatch f = .ok f') :
    f'.codeLength = f.codeLength ∧ ∀ n, f'.buffer[n]? = (patched? ps n).or f.buffer[n]? := by
  induction ps generalizing f with
  | nil =>
    cases h
    exact ⟨rfl, fun n => rfl⟩
  | cons p ps ih =>
    rw [List.foldlM_cons] at h
    cases hp : applyPatch f p with
    | error e =>
      rw [hp] at h
      cases h
    | ok g =>
      rw [hp] at h
      obtain ⟨hlength, hwords⟩ := applyPatch_eq_ok hp
      obtain ⟨hlength', hwords'⟩ := ih h
      refine ⟨hlength'.trans hlength, ?_⟩
      intro n
      rw [hwords', hwords, patched?_cons, Option.or_assoc]
      by_cases hn : n = p.address.toNat
      · rw [if_pos hn, if_pos hn.symm, Option.some_or]
      · rw [if_neg hn, if_neg (Ne.symm hn), Option.none_or]

theorem flatten_eq_ok {b : CodeBuffer} (h : b.flatten = .ok flat) :
    flat.code.length = b.words.length ∧
      ∀ n < b.words.length, flat.code[n]? = (patched? b.patches.toList n).or b.words[n]? := by
  obtain ⟨hlength, hwords⟩ := foldlM_applyPatch_eq_ok h
  have hlen : flat.codeLength = b.words.length := hlength
  refine ⟨flat.length_code.trans hlen, ?_⟩
  intro n hn
  rw [FlatCode.code, List.getElem?_take_of_lt (hlen ▸ hn), Array.getElem?_toList, hwords,
    FlatCode.ofParts, List.getElem?_toArray, List.getElem?_append_left hn]

end CodeBuffer

end ScriptBackend
