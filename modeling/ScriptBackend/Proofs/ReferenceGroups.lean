import ScriptBackend.Proofs.FirstOccurrences
import ScriptBackend.Proofs.References
import ScriptBackend.Proofs.Wire

/-!
# References are grouped without loss

A table keeps its entries in the order in which they were made and finds them through
an index; it is read from the newest entry to the oldest. Seen from there, recording
puts a new offset in front and adds to a known one in its place. So the table lists
each offset once, the one recorded last for the first time in front, with all that was
recorded for it in order.
-/

namespace ScriptBackend

open Text (Byte)

namespace Reference

def recorded (r : Reference) (u : UInt32 × UInt32) : Reference :=
  if r.offset = u.1 then { r with addresses := r.addresses ++ [u.2] } else r

end Reference

namespace References

def ofRecords (us : List (UInt32 × UInt32)) : References :=
  us.foldl (fun t u => t.record u.1 u.2) empty

def addressesOf (us : List (UInt32 × UInt32)) (offset : UInt32) : List UInt32 :=
  (us.filter (·.1 == offset)).map (·.2)

/-- A list of entries after a record: a new offset goes to the front, a known one keeps its place. -/
def noted (entries : List Reference) (u : UInt32 × UInt32) : List Reference :=
  if entries.any (·.offset == u.1) then entries.map (·.recorded u)
  else ⟨u.1, [u.2]⟩ :: entries

-- ---------------------------------------------------------------------------
-- One record
-- ---------------------------------------------------------------------------

section
variable {t : References}

theorem map_recorded_of_ne {entries : List Reference} (h : ∀ r ∈ entries, r.offset ≠ u.1) :
    entries.map (·.recorded u) = entries := by
  refine (List.map_congr_left ?_).trans (List.map_id _)
  intro r hr
  simp [Reference.recorded, h r hr]

theorem Sound.offset_ne (ht : Sound t) (hnew : t.positions[offset]? = none) :
    ∀ r ∈ t.entries.toList, r.offset ≠ offset := by
  rintro r hr rfl
  obtain ⟨i, hi⟩ := List.mem_iff_getElem?.mp hr
  rw [ht.listed i r (by simpa using hi)] at hnew
  cases hnew

/-- Behind the index, a record is what it is in a list of entries. -/
theorem Sound.toList_record (ht : Sound t) (offset address : UInt32) :
    (t.record offset address).toList = noted t.toList (offset, address) := by
  cases hi : t.positions[offset]? with
  | none =>
    have hany : ¬ t.toList.any (·.offset == offset) = true := by
      rw [List.any_eq_true]
      rintro ⟨r, hr, hoffset⟩
      exact ht.offset_ne hi r (List.mem_reverse.mp hr) (eq_of_beq hoffset)
    rw [noted, if_neg hany]
    simp [toList, References.record, hi]
  | some i =>
    obtain ⟨before, r, after, hentries, rfl, hrecord⟩ := ht.record_listed hi address
    have hnodup := ht.nodup_offsets
    simp only [hentries, List.map_append, List.map_cons, List.nodup_append, List.nodup_cons] at hnodup
    obtain ⟨-, ⟨hafter, -⟩, hbefore⟩ := hnodup
    have hmap : (before ++ r :: after).map (·.recorded (r.offset, address)) =
        before ++ { r with addresses := r.addresses ++ [address] } :: after := by
      rw [List.map_append, List.map_cons, map_recorded_of_ne, map_recorded_of_ne]
      · simp [Reference.recorded]
      · intro q hq heq
        exact hafter (List.mem_map.mpr ⟨q, hq, heq⟩)
      · intro q hq
        exact hbefore _ (List.mem_map_of_mem hq) _ List.mem_cons_self
    have hany : t.toList.any (·.offset == r.offset) = true := by
      simp [toList, hentries]
    rw [noted, if_pos hany, toList, hrecord, ← hmap, toList, hentries, List.map_reverse]

theorem Sound.foldl_record (ht : Sound t) (us : List (UInt32 × UInt32)) :
    Sound (us.foldl (fun t u => t.record u.1 u.2) t) := by
  induction us generalizing t with
  | nil => exact ht
  | cons u us ih => exact ih (ht.record u.1 u.2)

theorem Sound.toList_foldl_record (ht : Sound t) (us : List (UInt32 × UInt32)) :
    (us.foldl (fun t u => t.record u.1 u.2) t).toList = us.foldl noted t.toList := by
  induction us generalizing t with
  | nil => rfl
  | cons u us ih =>
    rw [List.foldl_cons, List.foldl_cons, ih (ht.record u.1 u.2), ht.toList_record]

end

-- ---------------------------------------------------------------------------
-- Groups
-- ---------------------------------------------------------------------------

theorem addressesOf_concat (us : List (UInt32 × UInt32)) (u : UInt32 × UInt32) (offset : UInt32) :
    addressesOf (us ++ [u]) offset = addressesOf us offset ++ if u.1 = offset then [u.2] else [] := by
  by_cases h : u.1 = offset <;> simp [addressesOf, h]

theorem eraseDups_concat (xs : List UInt32) (x : UInt32) :
    (xs ++ [x]).eraseDups = xs.eraseDups ++ if x ∈ xs then [] else [x] := by
  have hany : xs.eraseDups.any (x == ·) = true ↔ x ∈ xs := by simp
  rw [List.eraseDups, eraseDupsBy_concat]
  exact congrArg _ (ite_congr (propext hany) (fun _ => rfl) fun _ => rfl)

def group (us : List (UInt32 × UInt32)) (offset : UInt32) : Reference := ⟨offset, addressesOf us offset⟩

theorem recorded_group (us : List (UInt32 × UInt32)) (u : UInt32 × UInt32) (offset : UInt32) :
    (group us offset).recorded u = group (us ++ [u]) offset := by
  by_cases h : u.1 = offset
  · simp [group, Reference.recorded, addressesOf_concat, h]
  · simp [group, Reference.recorded, addressesOf_concat, h, Ne.symm h]

theorem foldl_noted (us : List (UInt32 × UInt32)) :
    us.foldl noted [] = (us.map (·.1)).eraseDups.reverse.map (group us) := by
  induction us using List.reverseRecOn with
  | nil => rfl
  | append_singleton us u ih =>
    have hgroups : ((us.map (·.1)).eraseDups.reverse.map (group us)).map (·.recorded u) =
        (us.map (·.1)).eraseDups.reverse.map (group (us ++ [u])) := by
      simp [recorded_group]
    have hany : ((us.map (·.1)).eraseDups.reverse.map (group us)).any (·.offset == u.1) = true ↔
        u.1 ∈ us.map (·.1) := by
      simp [group, List.any_map]
    rw [List.foldl_append, List.foldl_cons, List.foldl_nil, ih, noted, List.map_append, List.map_cons,
      List.map_nil, eraseDups_concat]
    by_cases hknown : u.1 ∈ us.map (·.1)
    · rw [if_pos (hany.mpr hknown), if_pos hknown, hgroups, List.append_nil]
    · have hother : ∀ r ∈ (us.map (·.1)).eraseDups.reverse.map (group us), r.offset ≠ u.1 :=
        fun r hr heq => hknown (hany.mp (List.any_eq_true.mpr ⟨r, hr, beq_of_eq heq⟩))
      have hnone : addressesOf us u.1 = [] := by
        rw [addressesOf, List.map_eq_nil_iff, List.filter_eq_nil_iff]
        exact fun v hv heq => hknown (List.mem_map.mpr ⟨v, hv, eq_of_beq heq⟩)
      have hfirst : group (us ++ [u]) u.1 = ⟨u.1, [u.2]⟩ := by
        simp [group, addressesOf_concat, hnone]
      rw [if_neg (mt hany.mp hknown), if_neg hknown, List.reverse_append, List.reverse_singleton,
        List.singleton_append, List.map_cons, hfirst, ← hgroups, map_recorded_of_ne hother]

theorem sound_ofRecords (us : List (UInt32 × UInt32)) : Sound (ofRecords us) :=
  sound_empty.foldl_record us

theorem toList_ofRecords (us : List (UInt32 × UInt32)) :
    (ofRecords us).toList = us.foldl noted [] := sound_empty.toList_foldl_record us

theorem uses_ofRecords (us : List (UInt32 × UInt32)) : (ofRecords us).uses.Perm us := by
  induction us using List.reverseRecOn with
  | nil => exact .refl _
  | append_singleton us u ih =>
    have hrecord : ofRecords (us ++ [u]) = (ofRecords us).record u.1 u.2 := by simp [ofRecords]
    rw [hrecord]
    calc ((ofRecords us).record u.1 u.2).uses
        |>.Perm (u :: (ofRecords us).uses) := (sound_ofRecords us).uses_record u.1 u.2
      _ |>.Perm (u :: us) := ih.cons u
      _ |>.Perm (us ++ [u]) := (List.perm_append_singleton u us).symm

/-- How a list of entries tells of the records that made it. -/
structure Groups (us : List (UInt32 × UInt32)) (entries : List Reference) : Prop where
  /-- An offset for each that was recorded, the one first recorded last in front. -/
  offsets : entries.map (·.offset) = (us.map (·.1)).eraseDups.reverse
  once : (entries.map (·.offset)).Nodup
  listed : ∀ offset, (∃ r ∈ entries, r.offset = offset) ↔ ∃ address, (offset, address) ∈ us
  addresses : ∀ r ∈ entries, r.addresses = addressesOf us r.offset
  /-- With repetitions, and in some order. -/
  pairs : (entries.flatMap fun r => r.addresses.map fun a => (r.offset, a)).Perm us

theorem groups_ofRecords (us : List (UInt32 × UInt32)) : Groups us (ofRecords us).toList where
  offsets := by simp [toList_ofRecords, foldl_noted, group, Function.comp_def]
  once := by
    rw [toList, List.map_reverse, (List.reverse_perm _).nodup_iff]
    exact (sound_ofRecords us).nodup_offsets
  listed offset := by simp [toList_ofRecords, foldl_noted, group]
  addresses r hr := by
    rw [toList_ofRecords, foldl_noted, List.mem_map] at hr
    obtain ⟨offset, -, rfl⟩ := hr
    rfl
  pairs := ((List.reverse_perm _).flatMap_right _).trans (uses_ofRecords us)

-- ---------------------------------------------------------------------------
-- On the wire
-- ---------------------------------------------------------------------------

theorem decode_words {ws : List UInt32} (h : ws.length < 0x10000000000000000) (rest : List Byte) :
    (Wire.decode : Wire.Reader (List UInt32)) (Wire.encode ws ++ rest) = .ok (ws, rest) :=
  Wire.decode_list h (fun w _ => Wire.readWord_encodeVarint w) rest

theorem decode_ofRecords {us : List (UInt32 × UInt32)} (h : us.length < 0x10000000000000000)
    (rest : List Byte) :
    (Wire.decode : Wire.Reader (List Reference)) ((ofRecords us).encode ++ rest) =
      .ok ((ofRecords us).toList, rest) := by
  have hgroups := groups_ofRecords us
  have hentries : (ofRecords us).toList.length ≤ us.length := by
    have hlength := congrArg List.length hgroups.offsets
    have hle : (us.map (·.1)).eraseDups.length ≤ (us.map (·.1)).length := length_eraseDupsBy_le _
    simp only [List.length_map, List.length_reverse] at hlength hle
    rwa [hlength]
  refine Wire.decode_list (Nat.lt_of_le_of_lt hentries h) ?_ rest
  intro r hr
  have haddresses : r.addresses.length ≤ us.length := by
    rw [hgroups.addresses r hr, addressesOf, List.length_map]
    exact List.length_filter_le ..
  exact Wire.decode_fields Reference.mk (Wire.readWord_encodeVarint r.offset)
    (decode_words (Nat.lt_of_le_of_lt haddresses h))

/-- Whatever was recorded since a table was emptied, it lists each offset once, the newest first, with
its addresses as they were recorded, so no use is lost or added. This is the list in which a new
offset is put in front and a known one has its address appended, and it is what a reader of the
table's bytes finds. -/
theorem references_grouped (us : List (UInt32 × UInt32)) :
    Groups us (ofRecords us).toList ∧ (ofRecords us).toList = us.foldl noted [] ∧
      (us.length < 0x10000000000000000 → ∀ rest,
        (Wire.decode : Wire.Reader (List Reference)) ((ofRecords us).encode ++ rest) =
          .ok ((ofRecords us).toList, rest)) :=
  ⟨groups_ofRecords us, toList_ofRecords us, decode_ofRecords⟩

/-- Three offsets taken in turns, one of them with an address repeated. -/
def sampleWaiting : List (UInt32 × UInt32) := [(4, 0), (9, 2), (4, 6), (0, 8), (9, 2), (4, 0x1000)]

theorem sampleWaiting_grouped :
    let t := ofRecords sampleWaiting
    sampleWaiting.length < 0x10000000000000000 ∧
      t.toList = [⟨0, [8]⟩, ⟨9, [2, 2]⟩, ⟨4, [0, 6, 0x1000]⟩] ∧
      (Wire.decode : Wire.Reader (List Reference)) (t.encode ++ [0xFF]) = .ok (t.toList, [0xFF]) := by
  intro t
  obtain ⟨-, hlist, hread⟩ := references_grouped sampleWaiting
  exact ⟨by decide, hlist.trans (by decide +kernel), hread (by decide) [0xFF]⟩

end References

end ScriptBackend
