import ScriptBackend.Locals
import ScriptBackend.Proofs.Text

/-!
# Locals are determined by their frames

A table lists its frames without the keys that they are stored under. Nothing is
lost by that: in every table that recording can make, a frame stands under the
folded form of its own key, so the table can be built again from the list.
-/

namespace ScriptBackend.Locals

open Std (ExtTreeMap)

def Keyed (t : Locals) : Prop :=
  ∀ k f, t.byKey[k]? = some f → Text.fold f.key = k

theorem keyed_empty : Keyed empty := by
  intro k f h
  simp [empty] at h

theorem getElem?_record (t : Locals) (function namespaceName name key : String) :
    (t.record function namespaceName name).byKey[Text.fold key]? =
      if Text.SameName (functionKey namespaceName function) key then
        some ((t.byKey[Text.fold key]?.getD ⟨functionKey namespaceName function, []⟩).push name)
      else t.byKey[Text.fold key]? := by
  simp only [record, ExtTreeMap.getElem?_insert, Std.compare_eq_iff_eq]
  by_cases hkey : Text.SameName (functionKey namespaceName function) key
  · have hfold : Text.fold (functionKey namespaceName function) = Text.fold key := hkey
    rw [if_pos hkey, if_pos hfold, hfold]
  · rw [if_neg hkey]
    exact if_neg hkey

theorem Keyed.fold_key_getD (ht : Keyed t) (key : String) :
    Text.fold (t.byKey[Text.fold key]?.getD ⟨key, []⟩).key = Text.fold key := by
  cases h : t.byKey[Text.fold key]? with
  | none => rfl
  | some f => exact ht _ f h

theorem Keyed.record (ht : Keyed t) (function namespaceName name : String) :
    Keyed (t.record function namespaceName name) := by
  intro k f h
  simp only [Locals.record, ExtTreeMap.getElem?_insert, Std.compare_eq_iff_eq] at h
  split at h
  · rename_i hk
    cases h
    rw [← hk]
    exact ht.fold_key_getD _
  · exact ht k f h

theorem Keyed.foldl_record (ht : Keyed t) (function namespaceName : String) (vs : List α)
    (name : α → String) :
    Keyed (vs.foldl (fun t v => t.record function namespaceName (name v)) t) := by
  induction vs generalizing t with
  | nil => exact ht
  | cons v vs ih => exact ih (ht.record function namespaceName (name v))

/-- Tables whose frames stand under their own keys are told apart by some folded key. -/
theorem Keyed.ext (ht : Keyed t) (hu : Keyed u)
    (h : ∀ key, t.byKey[Text.fold key]? = u.byKey[Text.fold key]?) : t = u := by
  have hbyKey : t.byKey = u.byKey := by
    apply ExtTreeMap.ext_getElem?
    intro k
    cases hk : t.byKey[k]? with
    | some f => rw [← hk, ← ht k f hk, h]
    | none =>
      cases hk' : u.byKey[k]? with
      | none => rfl
      | some f => rw [← hk, ← hk', ← hu k f hk', h]
  cases t
  exact congrArg Locals.mk hbyKey

-- ---------------------------------------------------------------------------
-- Slots
-- ---------------------------------------------------------------------------

def slotsOf (t : Locals) (key : String) : List String :=
  (t.byKey[Text.fold key]?.map Frame.slots).getD []

theorem slot?_eq (t : Locals) (key name : String) :
    t.slot? key name = (t.slotsOf key).findIdx? (Text.SameName · name) := by
  rw [slot?, slotsOf]
  cases t.byKey[Text.fold key]? <;> rfl

theorem slotsOf_record (t : Locals) (function namespaceName name : String) :
    (t.record function namespaceName name).slotsOf (functionKey namespaceName function) =
      t.slotsOf (functionKey namespaceName function) ++ [name] := by
  rw [slotsOf, slotsOf, getElem?_record, if_pos (Text.SameName.refl _)]
  cases t.byKey[Text.fold (functionKey namespaceName function)]? <;> rfl

theorem slotsOf_foldl_record (t : Locals) (function namespaceName : String) (vs : List α)
    (name : α → String) :
    (vs.foldl (fun t v => t.record function namespaceName (name v)) t).slotsOf
        (functionKey namespaceName function) =
      t.slotsOf (functionKey namespaceName function) ++ vs.map name := by
  induction vs generalizing t with
  | nil => exact (List.append_nil _).symm
  | cons v vs ih =>
    rw [List.foldl_cons, ih, slotsOf_record, List.append_assoc]
    rfl

-- ---------------------------------------------------------------------------
-- From frames back to the table
-- ---------------------------------------------------------------------------

theorem ofFrames_byKey (fs : List Frame) :
    (ofFrames fs).byKey = ExtTreeMap.ofList (fs.map fun f => (Text.fold f.key, f)) := by
  have step : ∀ (fs : List Frame) (t : Locals),
      (fs.foldl (fun t f => (⟨t.byKey.insert (Text.fold f.key) f⟩ : Locals)) t).byKey =
        (fs.map fun f => (Text.fold f.key, f)).foldl (fun m p => m.insert p.1 p.2) t.byKey := by
    intro fs
    induction fs with
    | nil => intro t; rfl
    | cons f fs ih => intro t; exact ih _
  rw [ofFrames, step, ExtTreeMap.ofList_eq_foldl]
  rfl

theorem ofList_toList (m : ExtTreeMap String Frame) : ExtTreeMap.ofList m.toList = m := by
  apply ExtTreeMap.ext_getElem?
  intro k
  cases h : m[k]? with
  | none =>
    apply ExtTreeMap.getElem?_ofList_of_contains_eq_false
    rw [List.contains_eq_mem, decide_eq_false_iff_not, List.mem_map]
    rintro ⟨⟨k', f⟩, hmem, rfl⟩
    rw [ExtTreeMap.mem_toList_iff_getElem?_eq_some, h] at hmem
    cases hmem
  | some f =>
    exact ExtTreeMap.getElem?_ofList_of_mem Std.ReflCmp.compare_self
      ExtTreeMap.distinct_keys_toList (ExtTreeMap.mem_toList_iff_getElem?_eq_some.mpr h)

theorem Keyed.map_frames (ht : Keyed t) :
    t.frames.map (fun f => (Text.fold f.key, f)) = t.byKey.toList := by
  rw [frames, List.map_map]
  refine (List.map_congr_left ?_).trans (List.map_id _)
  rintro ⟨k, f⟩ hmem
  have hk := ht k f (ExtTreeMap.mem_toList_iff_getElem?_eq_some.mp hmem)
  simp [hk]

/-- The frames of a table say all of it. -/
theorem Keyed.ofFrames_frames (ht : Keyed t) : ofFrames t.frames = t := by
  have h : (ofFrames t.frames).byKey = t.byKey := by
    rw [ofFrames_byKey, ht.map_frames, ofList_toList]
  cases t
  exact congrArg Locals.mk h

end ScriptBackend.Locals
