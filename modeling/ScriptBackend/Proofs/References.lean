import ScriptBackend.References

/-!
# Recorded references

What a table of references says is which addresses wait for which offsets. `uses`
lists that without the order and the grouping of the table, and recording adds one
use to it.
-/

namespace ScriptBackend.References

open Std (ExtTreeMap)

def uses (t : References) : List (UInt32 × UInt32) :=
  t.entries.toList.flatMap fun r => r.addresses.map fun a => (r.offset, a)

structure Sound (t : References) : Prop where
  positions : ∀ offset (i : Nat), t.positions[offset]? = some i →
    ∃ r, t.entries[i]? = some r ∧ r.offset = offset
  listed : ∀ (i : Nat) r, t.entries[i]? = some r → t.positions[r.offset]? = some i
  used : ∀ r ∈ t.entries.toList, r.addresses ≠ []

theorem sound_empty : Sound empty where
  positions offset i h := by simp [empty] at h
  listed i r h := by simp [empty] at h
  used r hr := by simp [empty] at hr

theorem mem_uses {t : References} :
    (offset, address) ∈ t.uses ↔
      ∃ r ∈ t.entries.toList, r.offset = offset ∧ address ∈ r.addresses := by
  simp only [uses, List.mem_flatMap, List.mem_map, Prod.mk.injEq]
  constructor
  · rintro ⟨r, hr, a, ha, hoffset, rfl⟩
    exact ⟨r, hr, hoffset, ha⟩
  · rintro ⟨r, hr, hoffset, ha⟩
    exact ⟨r, hr, address, ha, hoffset, rfl⟩

theorem map_snd_uses (t : References) :
    t.uses.map Prod.snd = t.entries.toList.flatMap (·.addresses) := by
  simp [uses, List.map_flatMap, Function.comp_def]

theorem Sound.record_listed (ht : Sound t) (hi : t.positions[offset]? = some i)
    (address : UInt32) :
    ∃ before r after, t.entries.toList = before ++ r :: after ∧ r.offset = offset ∧
      (t.record offset address).entries.toList =
        before ++ { r with addresses := r.addresses ++ [address] } :: after := by
  obtain ⟨r, hr, hoffset⟩ := ht.positions offset i hi
  have hlt : i < t.entries.toList.length := by
    rw [Array.length_toList]
    exact (Array.getElem?_eq_some_iff.mp hr).1
  obtain ⟨before, r', after, hentries, hlen, hmodify⟩ :=
    List.exists_of_modify (fun r => { r with addresses := r.addresses ++ [address] }) hlt
  have hr' : r' = r := by
    rw [← Array.getElem?_toList, hentries, ← hlen] at hr
    simpa using hr
  subst hr'
  refine ⟨before, r', after, hentries, hoffset, ?_⟩
  simp only [record, hi, Array.toList_modify]
  exact hmodify

theorem Sound.uses_record (ht : Sound t) (offset address : UInt32) :
    (t.record offset address).uses.Perm ((offset, address) :: t.uses) := by
  cases hi : t.positions[offset]? with
  | none =>
    simp only [record, hi, uses, Array.toList_push, List.flatMap_append, List.flatMap_singleton,
      List.map_cons, List.map_nil]
    exact List.perm_append_singleton ..
  | some i =>
    obtain ⟨before, r, after, hentries, rfl, hrecord⟩ := ht.record_listed hi address
    simp only [uses, hrecord, hentries, List.flatMap_append, List.flatMap_cons, List.map_append,
      List.map_cons, List.map_nil]
    rw [List.append_assoc, List.singleton_append, ← List.append_assoc, ← List.append_assoc]
    exact List.perm_middle

theorem Sound.mem_uses_record (ht : Sound t) (offset address : UInt32) :
    u ∈ (t.record offset address).uses ↔ u ∈ t.uses ∨ u = (offset, address) := by
  rw [(ht.uses_record offset address).mem_iff, List.mem_cons, or_comm]

theorem Sound.record (ht : Sound t) (offset address : UInt32) : Sound (t.record offset address) := by
  cases hi : t.positions[offset]? with
  | none =>
    constructor
    · intro o i h
      simp only [References.record, hi, ExtTreeMap.getElem?_insert, Std.compare_eq_iff_eq] at h ⊢
      split at h
      · rename_i ho
        cases h
        exact ⟨⟨offset, [address]⟩, by simp, ho⟩
      · obtain ⟨r, hr, ho⟩ := ht.positions o i h
        have hlt : i < t.entries.size := (Array.getElem?_eq_some_iff.mp hr).1
        exact ⟨r, by rw [Array.getElem?_push_lt hlt, ← Array.getElem?_eq_getElem hlt, hr], ho⟩
    · intro i r h
      simp only [References.record, hi, ExtTreeMap.getElem?_insert, Std.compare_eq_iff_eq,
        Array.getElem?_push] at h ⊢
      split at h
      · rename_i hlast
        cases h
        rw [if_pos rfl, hlast]
      · have hr := ht.listed i r h
        rw [if_neg, hr]
        rintro rfl
        rw [hi] at hr
        cases hr
    · intro r hr
      simp only [References.record, hi, Array.toList_push, List.mem_append, List.mem_singleton] at hr
      rcases hr with hr | rfl
      · exact ht.used r hr
      · simp
  | some i =>
    obtain ⟨before, r, after, hentries, hoffset, hrecord⟩ := ht.record_listed hi address
    have hpositions : (t.record offset address).positions = t.positions := by
      simp [References.record, hi]
    constructor
    · intro o j h
      rw [hpositions] at h
      obtain ⟨q, hq, ho⟩ := ht.positions o j h
      rw [← Array.getElem?_toList, hentries] at hq
      rw [← Array.getElem?_toList, hrecord]
      grind
    · intro j q h
      have hold := ht.listed j
      rw [← Array.getElem?_toList, hrecord] at h
      rw [← Array.getElem?_toList, hentries] at hold
      rw [hpositions]
      grind
    · intro q hq
      have hused := ht.used
      simp only [hrecord, hentries, List.mem_append, List.mem_cons] at hq hused
      rcases hq with hq | rfl | hq
      · exact hused q (.inl hq)
      · simp
      · exact hused q (.inr (.inr hq))

theorem Sound.nodup_offsets (ht : Sound t) : (t.entries.toList.map (·.offset)).Nodup := by
  rw [List.nodup_iff_pairwise_ne, List.pairwise_map, List.pairwise_iff_getElem]
  intro i j hi hj hlt heq
  have hfirst := ht.listed i _ (Array.getElem?_eq_getElem (by simpa using hi))
  have hsecond := ht.listed j _ (Array.getElem?_eq_getElem (by simpa using hj))
  simp only [Array.getElem_toList] at heq
  rw [heq, hsecond] at hfirst
  cases hfirst
  exact Nat.lt_irrefl _ hlt

-- ---------------------------------------------------------------------------
-- Where the addresses lie
-- ---------------------------------------------------------------------------

def Apart (a b : UInt32) : Prop := a.toNat + 2 ≤ b.toNat ∨ b.toNat + 2 ≤ a.toNat

theorem Apart.symm (h : Apart a b) : Apart b a := Or.symm h

def Earlier (r r' : Reference) : Prop :=
  ∃ a a', r.addresses.head? = some a ∧ r'.addresses.head? = some a' ∧ a < a'

/-- Each address has two words of its own below an end, and entries stand in the order of
their first addresses. -/
structure PlacedBelow (t : References) (stop : Nat) : Prop where
  inside : ∀ u ∈ t.uses, u.2.toNat + 2 ≤ stop
  apart : t.uses.Pairwise fun u v => Apart u.2 v.2
  ordered : t.entries.toList.Pairwise Earlier

theorem placedBelow_empty (stop : Nat) : PlacedBelow empty stop where
  inside u hu := by simp [uses, empty] at hu
  apart := by simp [uses, empty]
  ordered := by simp [empty]

theorem PlacedBelow.mono (h : PlacedBelow t stop) (hle : stop ≤ stop') : PlacedBelow t stop' where
  inside u hu := Nat.le_trans (h.inside u hu) hle
  apart := h.apart
  ordered := h.ordered

theorem Earlier.congr (h : Earlier r r') (hr : q.addresses.head? = r.addresses.head?)
    (hr' : q'.addresses.head? = r'.addresses.head?) : Earlier q q' := by
  rwa [Earlier, hr, hr']

/-- An entry that is waited for once more keeps its first address; a new one comes last. -/
theorem PlacedBelow.ordered_record (h : PlacedBelow t address.toNat) (ht : Sound t)
    (offset : UInt32) : (t.record offset address).entries.toList.Pairwise Earlier := by
  cases hi : t.positions[offset]? with
  | none =>
    simp only [record, hi, Array.toList_push, List.pairwise_append, List.pairwise_singleton,
      List.mem_singleton, true_and]
    refine ⟨h.ordered, ?_⟩
    rintro r hr _ rfl
    obtain ⟨a, as, has⟩ := List.exists_cons_of_ne_nil (ht.used r hr)
    have hinside := h.inside _ (mem_uses.mpr ⟨r, hr, rfl, by rw [has]; exact List.mem_cons_self⟩)
    refine ⟨a, address, by rw [has]; rfl, rfl, ?_⟩
    rw [UInt32.lt_iff_toNat_lt]
    simp only at hinside
    omega
  | some i =>
    obtain ⟨before, r, after, hentries, -, hrecord⟩ := ht.record_listed hi address
    have hhead : (r.addresses ++ [address]).head? = r.addresses.head? := by
      obtain ⟨a, as, has⟩ := List.exists_cons_of_ne_nil (ht.used r (by simp [hentries]))
      rw [has]
      rfl
    have hold := h.ordered
    rw [hentries] at hold
    rw [hrecord]
    simp only [List.pairwise_append, List.pairwise_cons, List.mem_cons] at hold ⊢
    obtain ⟨hbefore, ⟨hr, hafter⟩, hcross⟩ := hold
    refine ⟨hbefore, ⟨fun q hq => (hr q hq).congr hhead rfl, hafter⟩, ?_⟩
    rintro q hq q' (rfl | hq')
    · exact (hcross q hq r (.inl rfl)).congr rfl hhead
    · exact hcross q hq q' (.inr hq')

theorem PlacedBelow.record (h : PlacedBelow t address.toNat) (ht : Sound t) (offset : UInt32) :
    PlacedBelow (t.record offset address) (address.toNat + 2) where
  inside u hu := by
    rcases (ht.mem_uses_record offset address).mp hu with hu | rfl
    · exact Nat.le_add_right_of_le (h.inside u hu)
    · exact Nat.le_refl _
  apart := by
    rw [(ht.uses_record offset address).pairwise_iff Apart.symm, List.pairwise_cons]
    exact ⟨fun u hu => .inr (h.inside u hu), h.apart⟩
  ordered := h.ordered_record ht offset

end ScriptBackend.References
