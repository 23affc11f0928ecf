import ScriptBackend.Proofs.Code.Flatten
import ScriptBackend.Proofs.Code.Storage

/-!
# Fixups follow the nesting of loops

A buffer keeps the fixups of all open loops in one list and remembers for each
loop where its own begin. This module says from the calls alone what should
become of a fixup: the first later call that leaves fewer loops open than there
were when it was added closes its loop and turns it into a patch. Whatever calls
were made since the last reset, the buffer has done just that.
-/

namespace ScriptBackend

namespace CodeBuffer

-- ---------------------------------------------------------------------------
-- Calls
-- ---------------------------------------------------------------------------

structure Call where
  op : Op
  answer : Except Failure Answer

namespace Call

def fixup? : Call → Option Fixup
  | ⟨.addFixup target address, .ok _⟩ => some ⟨target, address⟩
  | ⟨.emitFixup target, .ok (.address address)⟩ => some ⟨target, address⟩
  | _ => none

def nesting (depth : Nat) : Call → Nat
  | ⟨.openLoop, .ok _⟩ => depth + 1
  | ⟨.closeLoop _, .ok _⟩ => depth - 1
  | _ => depth

end Call

def nesting (calls : List Call) : Nat := calls.foldl Call.nesting 0

/-- A fixup that was added, with the place of the call and the number of loops open then. -/
structure Added where
  index : Nat
  depth : Nat
  fixup : Fixup
  deriving DecidableEq

def Call.added (index depth : Nat) (c : Call) : List Added :=
  (c.fixup?.map (⟨index, depth, ·⟩)).toList

def added (calls : List Call) : List Added :=
  calls.zipIdx.flatMap fun (c, i) => c.added i (nesting (calls.take i))

/-- The call that closes the loop in which a fixup was added: the first later one that leaves
fewer loops open. -/
def Added.closer? (x : Added) (calls : List Call) : Option Nat :=
  (List.range calls.length).find? fun j => x.index < j ∧ nesting (calls.take (j + 1)) < x.depth

/-- The fixups whose loops are open, or that were added outside of any. -/
def pending (calls : List Call) : List Added :=
  (added calls).filter fun x => x.closer? calls = none

def closedBy (calls : List Call) (j : Nat) : List Added :=
  (added calls).filter fun x => x.closer? calls = some j

def Call.patches (closed : List Added) : Call → List Patch
  | ⟨.patch address value, .ok _⟩ => [⟨address, value⟩]
  | ⟨.closeLoop points, .ok _⟩ => closed.map (·.fixup.patch points)
  | _ => []

def patchesOf (calls : List Call) : List Patch :=
  calls.zipIdx.flatMap fun (c, j) => c.patches (closedBy calls j)

-- ---------------------------------------------------------------------------
-- One more call
-- ---------------------------------------------------------------------------

theorem nesting_append (calls : List Call) (c : Call) :
    nesting (calls ++ [c]) = c.nesting (nesting calls) := by
  simp [nesting]

theorem flatMap_zipIdx_append {f g : Call → Nat → List α} {calls : List Call}
    (h : ∀ x i, calls[i]? = some x → f x i = g x i) (c : Call) :
    (calls ++ [c]).zipIdx.flatMap (fun (x, i) => f x i) =
      calls.zipIdx.flatMap (fun (x, i) => g x i) ++ f c calls.length := by
  have hold : calls.zipIdx.map (fun (x, i) => f x i) = calls.zipIdx.map (fun (x, i) => g x i) := by
    apply List.map_congr_left
    rintro ⟨x, i⟩ hx
    exact h x i (List.mem_zipIdx_iff_getElem?.mp hx)
  rw [List.zipIdx_append, List.flatMap_append, List.flatMap_def, hold, ← List.flatMap_def]
  simp

theorem lt_of_getElem?_eq_some {calls : List α} (h : calls[i]? = some x) : i < calls.length :=
  (List.getElem?_eq_some_iff.mp h).1

theorem mem_added : x ∈ added calls ↔
    x.depth = nesting (calls.take x.index) ∧
      ∃ c, calls[x.index]? = some c ∧ c.fixup? = some x.fixup := by
  simp only [added, Call.added, List.mem_flatMap, Prod.exists, List.mem_zipIdx_iff_getElem?, Option.mem_toList,
    Option.map_eq_some_iff]
  constructor
  · rintro ⟨c, i, hget, f, hf, rfl⟩
    exact ⟨rfl, c, hget, hf⟩
  · rintro ⟨hdepth, c, hget, hf⟩
    exact ⟨c, x.index, hget, x.fixup, hf, by rw [← hdepth]⟩

theorem index_of_mem {c : Call} (h : x ∈ c.added index depth) : x.index = index := by
  simp only [Call.added, Option.mem_toList, Option.map_eq_some_iff] at h
  obtain ⟨f, -, rfl⟩ := h
  rfl

theorem index_lt (h : x ∈ added calls) : x.index < calls.length := by
  obtain ⟨-, c, hget, -⟩ := mem_added.mp h
  exact lt_of_getElem?_eq_some hget

theorem added_append (calls : List Call) (c : Call) :
    added (calls ++ [c]) =
      added calls ++ c.added calls.length (nesting calls) := by
  have hold : ∀ (x : Call) i, calls[i]? = some x →
      x.added i (nesting ((calls ++ [c]).take i)) = x.added i (nesting (calls.take i)) := by
    intro x i hx
    rw [List.take_append_of_le_length (Nat.le_of_lt (lt_of_getElem?_eq_some hx))]
  have happend := flatMap_zipIdx_append hold c
  rw [List.take_left] at happend
  exact happend

namespace Added

theorem closer?_append {x : Added} (hx : x.index < calls.length) (c : Call) :
    x.closer? (calls ++ [c]) =
      (x.closer? calls).or
        (if nesting (calls ++ [c]) < x.depth then some calls.length else none) := by
  have hold : (List.range calls.length).filter
        (fun j => x.index < j ∧ nesting ((calls ++ [c]).take (j + 1)) < x.depth) =
      (List.range calls.length).filter
        (fun j => x.index < j ∧ nesting (calls.take (j + 1)) < x.depth) := by
    apply List.filter_congr
    intro j hj
    rw [List.take_append_of_le_length (List.mem_range.mp hj)]
  have hlast : (calls ++ [c]).take (calls.length + 1) = calls ++ [c] :=
    List.take_of_length_le (by simp)
  rw [closer?, List.length_append, List.length_singleton, List.range_succ, List.find?_append,
    ← List.head?_filter, hold, List.head?_filter, closer?, List.find?_singleton, hlast]
  simp [hx]

theorem closer?_last {x : Added} (hx : x.index = calls.length) (c : Call) :
    x.closer? (calls ++ [c]) = none := by
  rw [closer?, List.find?_eq_none]
  intro j hj
  have hj : j < calls.length + 1 := by simpa using hj
  have hle : ¬ x.index < j := by omega
  simp [hle]

theorem closer?_lt {x : Added} (h : x.closer? calls = some j) : j < calls.length :=
  List.mem_range.mp (List.mem_of_find?_eq_some h)

end Added

theorem pending_append (calls : List Call) (c : Call) :
    pending (calls ++ [c]) =
      (pending calls).filter (fun x => x.depth ≤ nesting (calls ++ [c])) ++
        c.added calls.length (nesting calls) := by
  rw [pending, added_append, List.filter_append, pending, List.filter_filter]
  congr 1
  · apply List.filter_congr
    intro x hx
    rw [x.closer?_append (index_lt hx)]
    cases x.closer? calls <;> simp
  · rw [List.filter_eq_self]
    intro x hx
    simp [x.closer?_last (index_of_mem hx)]

theorem closedBy_append (calls : List Call) (c : Call) (hj : j < calls.length) :
    closedBy (calls ++ [c]) j = closedBy calls j := by
  have hnew : (c.added calls.length (nesting calls)).filter
      (fun x => x.closer? (calls ++ [c]) = some j) = [] := by
    rw [List.filter_eq_nil_iff]
    intro x hx
    simp [x.closer?_last (index_of_mem hx)]
  rw [closedBy, added_append, List.filter_append, hnew, List.append_nil, closedBy]
  apply List.filter_congr
  intro x hx
  rw [x.closer?_append (index_lt hx)]
  cases x.closer? calls with
  | none =>
    simp
    omega
  | some i => simp

theorem closedBy_length (calls : List Call) (c : Call) :
    closedBy (calls ++ [c]) calls.length =
      (pending calls).filter fun x => nesting (calls ++ [c]) < x.depth := by
  have hnew : (c.added calls.length (nesting calls)).filter
      (fun x => x.closer? (calls ++ [c]) = some calls.length) = [] := by
    rw [List.filter_eq_nil_iff]
    intro x hx
    simp [x.closer?_last (index_of_mem hx)]
  rw [closedBy, added_append, List.filter_append, hnew, List.append_nil, pending, List.filter_filter]
  apply List.filter_congr
  intro x hx
  rw [x.closer?_append (index_lt hx)]
  cases h : x.closer? calls with
  | none => simp
  | some i =>
    have := x.closer?_lt h
    simp
    omega

theorem patchesOf_append (calls : List Call) (c : Call) :
    patchesOf (calls ++ [c]) =
      patchesOf calls ++
        c.patches ((pending calls).filter fun x => nesting (calls ++ [c]) < x.depth) := by
  have hold : ∀ (x : Call) j, calls[j]? = some x →
      x.patches (closedBy (calls ++ [c]) j) = x.patches (closedBy calls j) := by
    intro x j hx
    rw [closedBy_append calls c (lt_of_getElem?_eq_some hx)]
  have happend := flatMap_zipIdx_append hold c
  rw [closedBy_length] at happend
  exact happend

-- ---------------------------------------------------------------------------
-- What the buffer keeps
-- ---------------------------------------------------------------------------

/-- For each open loop, innermost first, how many fixups were added outside of it. -/
def marksOf (xs : List Added) : Nat → List Nat
  | 0 => []
  | depth + 1 => xs.countP (·.depth ≤ depth) :: marksOf xs depth

theorem marksOf_filter (xs : List Added) (h : depth ≤ limit) :
    marksOf (xs.filter (·.depth ≤ limit)) depth = marksOf xs depth := by
  induction depth with
  | zero => rfl
  | succ depth ih =>
    rw [marksOf, marksOf, ih (by omega), List.countP_filter]
    congr 1
    apply List.countP_congr
    intro x _
    simp
    omega

theorem marksOf_append (xs : List Added) (h : ∀ x ∈ ys, depth ≤ x.depth) :
    marksOf (xs ++ ys) depth = marksOf xs depth := by
  induction depth with
  | zero => rfl
  | succ depth ih =>
    have hnone : ys.countP (·.depth ≤ depth) = 0 := by
      rw [List.countP_eq_zero]
      intro x hx
      have := h x hx
      simp
      omega
    rw [marksOf, marksOf, ih fun x hx => Nat.le_of_succ_le (h x hx), List.countP_append, hnone,
      Nat.add_zero]

/-- Fixups of outer loops come first, so those of the innermost loop are the last ones. -/
theorem filter_depth {xs : List Added} (h : xs.Pairwise (·.depth ≤ ·.depth)) (d : Nat) :
    xs.filter (·.depth ≤ d) = xs.take (xs.countP (·.depth ≤ d)) ∧
      xs.filter (d < ·.depth) = xs.drop (xs.countP (·.depth ≤ d)) := by
  induction xs with
  | nil => exact ⟨rfl, rfl⟩
  | cons x xs ih =>
    rw [List.pairwise_cons] at h
    obtain ⟨htake, hdrop⟩ := ih h.2
    by_cases hx : x.depth ≤ d
    · simp [hx, htake, hdrop]
    · have hnone : ∀ y ∈ xs, ¬ y.depth ≤ d := by
        intro y hy hle
        exact hx (Nat.le_trans (h.1 y hy) hle)
      have hcount : xs.countP (·.depth ≤ d) = 0 := by simpa using hnone
      have hall : xs.filter (d < ·.depth) = xs := by simpa using hnone
      simp [hx, hcount, htake, hall, Nat.lt_of_not_le hx]

/-- The fixups, marks and patches of a buffer are what its calls ask for. -/
structure Nested (calls : List Call) (b : CodeBuffer) : Prop where
  fixups : b.fixups.toList = (pending calls).map (·.fixup)
  marks : b.marks = marksOf (pending calls) (nesting calls)
  patches : b.patches.toList = patchesOf calls
  sorted : (pending calls).Pairwise (·.depth ≤ ·.depth)
  depth_le : ∀ x ∈ pending calls, x.depth ≤ nesting calls

theorem nested_nil {b : CodeBuffer} (hfixups : b.fixups = #[]) (hmarks : b.marks = [])
    (hpatches : b.patches = #[]) : Nested [] b := by
  refine ⟨?_, ?_, ?_, .nil, fun x hx => (nomatch hx)⟩
  · rw [hfixups]; rfl
  · rw [hmarks]; rfl
  · rw [hpatches]; rfl

theorem Call.nesting_of_fixup {c : Call} (h : c.fixup? = some f) (depth : Nat) :
    c.nesting depth = depth := by
  unfold fixup? at h
  split at h <;> first | rfl | cases h

theorem Nested.grow (h : Nested calls b) (hle : nesting calls ≤ nesting (calls ++ [c]))
    (hfixups : b'.fixups.toList = b.fixups.toList ++ c.fixup?.toList)
    (hmarks : b'.marks = marksOf (pending calls) (nesting (calls ++ [c])))
    (hpatches : b'.patches.toList = b.patches.toList ++ c.patches []) :
    Nested (calls ++ [c]) b' := by
  have hkeep : (pending calls).filter (·.depth ≤ nesting (calls ++ [c])) = pending calls := by
    rw [List.filter_eq_self]
    intro x hx
    simpa using Nat.le_trans (h.depth_le x hx) hle
  have hnone : (pending calls).filter (nesting (calls ++ [c]) < ·.depth) = [] := by
    rw [List.filter_eq_nil_iff]
    intro x hx
    simpa using Nat.le_trans (h.depth_le x hx) hle
  have hnew : ∀ x ∈ c.added calls.length (nesting calls),
      x.depth = nesting calls ∧ nesting (calls ++ [c]) = nesting calls := by
    intro x hx
    simp only [Call.added, Option.mem_toList, Option.map_eq_some_iff] at hx
    obtain ⟨f, hf, rfl⟩ := hx
    exact ⟨rfl, by rw [nesting_append, c.nesting_of_fixup hf]⟩
  have hpending := pending_append calls c
  rw [hkeep] at hpending
  refine ⟨?_, ?_, ?_, ?_, ?_⟩
  · rw [hfixups, hpending, List.map_append, h.fixups, Call.added]
    cases c.fixup? <;> rfl
  · rw [hmarks, hpending, marksOf_append]
    intro x hx
    obtain ⟨hdepth, hnesting⟩ := hnew x hx
    exact Nat.le_of_eq (by rw [hdepth, hnesting])
  · rw [hpatches, patchesOf_append, hnone, h.patches]
  · rw [hpending, List.pairwise_append]
    refine ⟨h.sorted, ?_, ?_⟩
    · rw [Call.added]
      cases c.fixup? <;> simp
    · intro x hx y hy
      rw [(hnew y hy).1]
      exact h.depth_le x hx
  · rw [hpending]
    intro x hx
    rcases List.mem_append.mp hx with hx | hx
    · exact Nat.le_trans (h.depth_le x hx) hle
    · rw [(hnew x hx).1]
      exact hle

theorem Nested.level (h : Nested calls b) (hc : c.nesting (nesting calls) = nesting calls)
    (hfixups : b'.fixups.toList = b.fixups.toList ++ c.fixup?.toList) (hmarks : b'.marks = b.marks)
    (hpatches : b'.patches.toList = b.patches.toList ++ c.patches []) :
    Nested (calls ++ [c]) b' := by
  have hnesting : nesting (calls ++ [c]) = nesting calls := (nesting_append calls c).trans hc
  refine h.grow (Nat.le_of_eq hnesting.symm) hfixups ?_ hpatches
  rw [hmarks, h.marks, hnesting]

structure Call.Quiet (c : Call) : Prop where
  fixup : c.fixup? = none
  nesting : ∀ depth, c.nesting depth = depth
  patches : ∀ closed, c.patches closed = []

theorem Call.quiet_error (op : Op) (e : Failure) : Call.Quiet ⟨op, .error e⟩ := by
  cases op <;> exact ⟨rfl, fun _ => rfl, fun _ => rfl⟩

structure SameLoops (b b' : CodeBuffer) : Prop where
  fixups : b'.fixups = b.fixups
  marks : b'.marks = b.marks
  patches : b'.patches = b.patches

theorem Nested.quiet (h : Nested calls b) (hc : Call.Quiet c) (hb : SameLoops b b') :
    Nested (calls ++ [c]) b' := by
  refine h.level (hc.nesting _) ?_ hb.marks ?_
  · simp [hb.fixups, hc.fixup]
  · simp [hb.patches, hc.patches]

theorem Nested.openLoop (h : Nested calls b) :
    Nested (calls ++ [⟨.openLoop, .ok .done⟩]) b.openLoop := by
  have hnesting : nesting (calls ++ [⟨.openLoop, .ok .done⟩]) = nesting calls + 1 :=
    nesting_append ..
  -- every fixup so far lies outside of the new loop
  have hall : (pending calls).countP (·.depth ≤ nesting calls) = b.fixups.size := by
    rw [List.countP_eq_length.mpr (by simpa using h.depth_le), ← Array.length_toList, h.fixups,
      List.length_map]
  refine h.grow ?_ ?_ ?_ ?_
  · rw [hnesting]
    exact Nat.le_succ _
  · exact (List.append_nil _).symm
  · rw [hnesting, marksOf, hall, ← h.marks]
    rfl
  · exact (List.append_nil _).symm

theorem Nested.closeLoop_none (h : Nested calls b) (hnone : nesting calls = 0) (points : LoopPoints) :
    b.closeLoop points = .error (.internal .noOpenLoop) := by
  have hmarks := h.marks
  rw [hnone] at hmarks
  rw [CodeBuffer.closeLoop, hmarks]
  rfl

/-- Closing a loop takes the fixups from its mark on, and these are the ones added in it. -/
theorem Nested.closeLoop (h : Nested calls b) (hdepth : nesting calls = depth + 1)
    (points : LoopPoints) :
    ∃ b', b.closeLoop points = .ok b' ∧ Nested (calls ++ [⟨.closeLoop points, .ok .done⟩]) b' := by
  have hnesting : nesting (calls ++ [⟨.closeLoop points, .ok .done⟩]) = depth := by
    rw [nesting_append, hdepth]
    rfl
  obtain ⟨htake, hdrop⟩ := filter_depth h.sorted depth
  have hpending := pending_append calls ⟨.closeLoop points, .ok .done⟩
  replace hpending := hpending.trans (List.append_nil _)
  rw [hnesting] at hpending
  have hpatches := patchesOf_append calls ⟨.closeLoop points, .ok .done⟩
  rw [hnesting, hdrop] at hpatches
  have hmarks := h.marks
  rw [hdepth, marksOf] at hmarks
  refine ⟨_, by rw [CodeBuffer.closeLoop, hmarks], ?_, ?_, ?_, ?_, ?_⟩
  · rw [hpending, htake, List.map_take, ← h.fixups]
    simp
  · rw [hpending, hnesting, marksOf_filter _ (Nat.le_refl _)]
  · rw [hpatches, ← h.patches]
    simp [h.fixups, Call.patches, List.map_drop, Function.comp_def]
  · rw [hpending]
    exact h.sorted.filter _
  · rw [hpending, hnesting]
    intro x hx
    simpa using (List.mem_filter.mp hx).2

theorem Nested.apply (hb : Tidy b) (h : Nested calls b) (hop : op ≠ .reset) :
    Nested (calls ++ [⟨op, (b.apply op).1⟩]) (b.apply op).2 := by
  rcases hb.apply_eq op with ⟨e, happly⟩ | ⟨-, happly⟩
  · rw [happly]
    exact h.quiet (Call.quiet_error op e) ⟨rfl, rfl, rfl⟩
  rw [happly]
  cases op with
  | allocate _ | emit _ | emitWords _ | breakLine _ _ =>
    exact h.quiet ⟨rfl, fun _ => rfl, fun _ => rfl⟩ ⟨rfl, rfl, rfl⟩
  | store span words =>
    simp only [run]
    split
    · rename_i hstore
      obtain ⟨-, rfl⟩ := store?_eq_some hstore
      exact h.quiet ⟨rfl, fun _ => rfl, fun _ => rfl⟩ ⟨rfl, rfl, rfl⟩
    · exact h.quiet (Call.quiet_error _ _) ⟨rfl, rfl, rfl⟩
  | emitFixup target => exact h.level rfl Array.toList_push rfl (List.append_nil _).symm
  | addFixup target address => exact h.level rfl Array.toList_push rfl (List.append_nil _).symm
  | patch address value => exact h.level rfl (List.append_nil _).symm rfl Array.toList_push
  | openLoop => exact h.openLoop
  | closeLoop points =>
    cases hdepth : nesting calls with
    | zero =>
      simp only [run, h.closeLoop_none hdepth points]
      exact h.quiet (Call.quiet_error _ _) ⟨rfl, rfl, rfl⟩
    | succ depth =>
      obtain ⟨b', hclose, hnested⟩ := h.closeLoop hdepth points
      simp only [run, hclose]
      exact hnested
  | reset => exact absurd rfl hop

end CodeBuffer

end ScriptBackend
