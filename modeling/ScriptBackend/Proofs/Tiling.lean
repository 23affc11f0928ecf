/-!
# Stretches end to end

Entries of a pool and spans of code are handed out one behind another. `Tiles`
says so of the places that they take up. It follows that they keep apart and that
every place belongs to exactly one of them.
-/

namespace ScriptBackend

structure Stretch where
  start : Nat
  size : Nat
  deriving DecidableEq, Repr

namespace Stretch

def stop (x : Stretch) : Nat := x.start + x.size

instance : Membership Nat Stretch where
  mem x i := x.start ≤ i ∧ i < x.stop

theorem start_le_stop (x : Stretch) : x.start ≤ x.stop := Nat.le_add_right ..

def Tiles : Nat → List Stretch → Nat → Prop
  | first, [], last => last = first
  | first, x :: xs, last => x.start = first ∧ Tiles x.stop xs last

namespace Tiles

theorem concat {xs : List Stretch} (h : Tiles first xs x.start) : Tiles first (xs ++ [x]) x.stop := by
  induction xs generalizing first with
  | nil => exact ⟨h, rfl⟩
  | cons y xs ih => exact ⟨h.1, ih h.2⟩

theorem le {xs : List Stretch} (h : Tiles first xs last) : first ≤ last := by
  induction xs generalizing first with
  | nil => exact Nat.le_of_eq h.symm
  | cons x xs ih =>
    obtain ⟨rfl, h⟩ := h
    exact Nat.le_trans x.start_le_stop (ih h)

theorem bounds {xs : List Stretch} (h : Tiles first xs last) (hx : x ∈ xs) :
    first ≤ x.start ∧ x.stop ≤ last := by
  induction xs generalizing first with
  | nil => cases hx
  | cons y xs ih =>
    obtain ⟨rfl, h⟩ := h
    rcases List.mem_cons.mp hx with rfl | hx
    · exact ⟨Nat.le_refl _, h.le⟩
    · obtain ⟨hfirst, hlast⟩ := ih h hx
      exact ⟨Nat.le_trans y.start_le_stop hfirst, hlast⟩

theorem apart {xs : List Stretch} (h : Tiles first xs last) : xs.Pairwise (·.stop ≤ ·.start) := by
  induction xs generalizing first with
  | nil => exact .nil
  | cons x xs ih => exact .cons (fun y hy => (h.2.bounds hy).1) (ih h.2)

theorem exists_mem {xs : List Stretch} (h : Tiles first xs last) (hfirst : first ≤ i) (hlast : i < last) :
    ∃ x ∈ xs, i ∈ x := by
  induction xs generalizing first with
  | nil =>
    cases h
    exact absurd hfirst (Nat.not_le_of_lt hlast)
  | cons x xs ih =>
    obtain ⟨rfl, h⟩ := h
    rcases Nat.lt_or_ge i x.stop with hi | hi
    · exact ⟨x, List.mem_cons_self, hfirst, hi⟩
    · obtain ⟨y, hy, hmem⟩ := ih h hi
      exact ⟨y, List.mem_cons_of_mem _ hy, hmem⟩

end Tiles

/-- Every place below a total lies in one of the stretches, and in no two, and no other does. -/
structure Partition (xs : List Stretch) (total : Nat) : Prop where
  covered : ∀ i, i < total ↔ ∃ x ∈ xs, i ∈ x
  once : ∀ (j k : Nat) x y i, xs[j]? = some x → xs[k]? = some y → i ∈ x → i ∈ y → j = k

theorem not_mem_of_apart {x y : Stretch} (h : x.stop ≤ y.start) (hx : i ∈ x) : i ∉ y :=
  fun hy => Nat.not_lt_of_le (Nat.le_trans h hy.1) hx.2

theorem Tiles.partition (h : Tiles 0 xs total) : Partition xs total where
  covered i := by
    constructor
    · exact h.exists_mem (Nat.zero_le i)
    · rintro ⟨x, hx, hi⟩
      exact Nat.lt_of_lt_of_le hi.2 (h.bounds hx).2
  once j k x y i hx hy hix hiy := by
    obtain ⟨hj, rfl⟩ := List.getElem?_eq_some_iff.mp hx
    obtain ⟨hk, rfl⟩ := List.getElem?_eq_some_iff.mp hy
    have hapart := List.pairwise_iff_getElem.mp h.apart
    rcases Nat.lt_trichotomy j k with hlt | heq | hlt
    · exact absurd hiy (not_mem_of_apart (hapart j k hj hk hlt) hix)
    · exact heq
    · exact absurd hix (not_mem_of_apart (hapart k j hk hj hlt) hiy)

theorem Tiles.not_mem {xs : List α} {place : α → Stretch} (h : Tiles 0 (xs.map place) total)
    (hx : x ∈ xs) (hy : y ∈ xs) (hne : x ≠ y) (hi : i ∈ place x) : i ∉ place y := by
  intro hiy
  obtain ⟨j, hj⟩ := List.mem_iff_getElem?.mp hx
  obtain ⟨k, hk⟩ := List.mem_iff_getElem?.mp hy
  have hindex : j = k := by
    refine h.partition.once j k (place x) (place y) i ?_ ?_ hi hiy
    · simp [hj]
    · simp [hk]
  subst hindex
  exact hne (Option.some.inj (hj.symm.trans hk))

end Stretch

theorem take_drop_eq {xs part : List α} (hlen : part.length = n)
    (h : ∀ j < n, xs[i + j]? = part[j]?) : (xs.drop i).take n = part := by
  apply List.ext_getElem?
  intro j
  rcases Nat.lt_or_ge j n with hj | hj
  · rw [List.getElem?_take_of_lt hj, List.getElem?_drop, h j hj]
  · rw [List.getElem?_take, if_neg (Nat.not_lt_of_le hj), List.getElem?_eq_none (hlen ▸ hj)]

end ScriptBackend
