import Mathlib.Data.List.Induction

/-!
# First occurrences

`List.eraseDupsBy` keeps an element unless it is related to one kept before it. The
names of a scope, the numbers of a pool and the offsets of a table of references are
listed in this way as calls come in, so what matters is one more element at the end.
-/

namespace ScriptBackend

section
variable {α : Type} {r : α → α → Bool}

theorem eraseDupsBy_concat (xs : List α) (x : α) :
    (xs ++ [x]).eraseDupsBy r =
      xs.eraseDupsBy r ++ if (xs.eraseDupsBy r).any (r x) then [] else [x] := by
  -- The loop carries what it has kept, the newest first.
  have loop : ∀ kept, List.eraseDupsBy.loop r (xs ++ [x]) kept =
      List.eraseDupsBy.loop r xs kept ++
        if (List.eraseDupsBy.loop r xs kept).any (r x) then [] else [x] := by
    induction xs with
    | nil =>
      intro kept
      cases h : kept.any (r x) <;> simp [List.eraseDupsBy.loop, h]
    | cons a xs ih =>
      intro kept
      cases h : kept.any (r a) <;> simp only [List.cons_append, List.eraseDupsBy.loop, h, ih]
  exact loop []

theorem length_eraseDupsBy_le (xs : List α) : (xs.eraseDupsBy r).length ≤ xs.length := by
  induction xs using List.reverseRecOn with
  | nil => exact Nat.le_refl 0
  | append_singleton xs x ih =>
    rw [eraseDupsBy_concat]
    split
    · simp only [List.append_nil, List.length_append]
      exact Nat.le_add_right_of_le ih
    · simpa using ih

theorem pairwise_eraseDupsBy (xs : List α) : (xs.eraseDupsBy r).Pairwise fun a b => r b a = false := by
  induction xs using List.reverseRecOn with
  | nil => exact .nil
  | append_singleton xs x ih =>
    rw [eraseDupsBy_concat]
    split
    · simpa using ih
    · simp_all [List.pairwise_append]

/-- Related elements are found alike, so it is the first of them all that is found. -/
theorem find?_eraseDupsBy {p : α → Bool} (hp : ∀ a b, r a b = true → p a = p b) (xs : List α) :
    (xs.eraseDupsBy r).find? p = xs.find? p := by
  induction xs using List.reverseRecOn with
  | nil => rfl
  | append_singleton xs x ih =>
    rw [eraseDupsBy_concat, List.find?_append, List.find?_append, ih]
    split
    · rename_i hany
      obtain ⟨a, ha, hra⟩ := List.any_eq_true.mp hany
      cases hx : p x with
      | false => simp [hx]
      | true =>
        have hfound : (xs.find? p).isSome = true := by
          rw [← ih, List.find?_isSome]
          exact ⟨a, ha, (hp x a hra).symm.trans hx⟩
        obtain ⟨b, hb⟩ := Option.isSome_iff_exists.mp hfound
        simp [hb]
    · rfl

theorem filter_eq_find? {p : α → Bool} {xs : List α}
    (h : xs.Pairwise fun a b => p a = true → p b = false) : xs.filter p = (xs.find? p).toList := by
  induction h with
  | nil => rfl
  | @cons a xs hfirst _ ih =>
    cases ha : p a with
    | false => simp [ha, ih]
    | true =>
      have hrest : xs.filter p = [] := by
        rw [List.filter_eq_nil_iff]
        intro b hb
        simp [hfirst b hb ha]
      simp [ha, hrest]

end

end ScriptBackend
