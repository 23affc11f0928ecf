import ScriptBackend.FloatPool

/-!
# Float pools hold what they were given

Keys agree with numeric equality: numbers are equal exactly if they share a key.
A pool that interning made therefore answers with the first number equal to the
one asked for, and lists the others bit for bit.
-/

namespace ScriptBackend.FloatPool

open Std (ExtTreeMap)

-- ---------------------------------------------------------------------------
-- Keys and numeric equality
-- ---------------------------------------------------------------------------

theorem isZero_of_bits_eq_zero {x : Binary64} (h : x.bits = 0) : x.isZero = true := by
  simp [Binary64.isZero, Binary64.exponentField, Binary64.fraction, h]

theorem key_eq_some_iff {x : Binary64} :
    key x = some k ↔ x.isNaN = false ∧ k = if x.isZero then 0 else x.bits := by
  unfold key
  cases x.isNaN <;> cases x.isZero <;> simp [eq_comm]

theorem numEq_iff_key {x y : Binary64} :
    x.numEq y = true ↔ ∃ k, key x = some k ∧ key y = some k := by
  simp only [key_eq_some_iff, Binary64.numEq, Bool.and_eq_true, Bool.or_eq_true,
    Bool.not_eq_eq_eq_not, Bool.not_true, beq_iff_eq]
  constructor
  · rintro ⟨⟨hx, hy⟩, hbits | ⟨hzx, hzy⟩⟩
    · obtain rfl : x = y := by cases x; cases y; simp_all
      exact ⟨_, ⟨hx, rfl⟩, hx, rfl⟩
    · exact ⟨0, ⟨hx, by simp [hzx]⟩, hy, by simp [hzy]⟩
  · rintro ⟨k, ⟨hx, hkx⟩, hy, hky⟩
    refine ⟨⟨hx, hy⟩, ?_⟩
    have hne : ∀ {z : Binary64}, z.isZero = false → z.bits ≠ 0 := by
      intro z hz h
      simp [isZero_of_bits_eq_zero h] at hz
    cases hzx : x.isZero <;> cases hzy : y.isZero
    · left
      simp_all
    · exact absurd (by simp_all) (hne hzx)
    · exact absurd (by simp_all) (hne hzy)
    · exact .inr ⟨rfl, rfl⟩

-- ---------------------------------------------------------------------------
-- Interning
-- ---------------------------------------------------------------------------

def Sound (p : FloatPool) : Prop :=
  ∀ k, p.positions[k]? = (p.values.toList.findIdx? (key · == some k)).map UInt32.ofNat

theorem sound_empty : Sound empty := by
  intro k
  simp [empty]

/-- Interning is a search through the numbers in order. -/
theorem Sound.intern_eq (hp : Sound p) (x : Binary64) :
    p.intern x =
      match p.values.toList.findIdx? (·.numEq x) with
      | some i => (UInt32.ofNat i, p)
      | none => (p.count, p.push x) := by
  have hfind : (key x >>= (p.positions[·]?)) =
      (p.values.toList.findIdx? (·.numEq x)).map UInt32.ofNat := by
    cases hk : key x with
    | none =>
      have hnone : p.values.toList.findIdx? (·.numEq x) = none := by
        rw [List.findIdx?_eq_none_iff]
        intro w _
        rw [← Bool.not_eq_true, numEq_iff_key]
        simp [hk]
      rw [hnone]
      rfl
    | some k =>
      have hsame : (fun w : Binary64 => key w == some k) = (·.numEq x) := by
        funext w
        rw [Bool.eq_iff_iff, numEq_iff_key]
        simp [hk]
      rw [← hsame]
      exact hp k
  cases h : p.values.toList.findIdx? (·.numEq x) with
  | none | some i => simp only [intern, hfind, h, Option.map_none, Option.map_some]

theorem Sound.push (hp : Sound p) (hnew : p.values.toList.findIdx? (·.numEq x) = none) :
    Sound (p.push x) := by
  intro k
  rw [List.findIdx?_eq_none_iff] at hnew
  have hlast : (p.push x).values.toList = p.values.toList ++ [x] := by simp [FloatPool.push]
  rw [hlast, List.findIdx?_append, List.findIdx?_singleton]
  cases hx : key x with
  | none =>
    simp [FloatPool.push, hx, hp k]
  | some k' =>
    simp only [FloatPool.push, hx, ExtTreeMap.getElem?_insert, Std.compare_eq_iff_eq]
    by_cases hk : k' = k
    · subst hk
      have hnone : p.values.toList.findIdx? (key · == some k') = none := by
        rw [List.findIdx?_eq_none_iff]
        intro w hw
        have := hnew w hw
        rw [← Bool.not_eq_true, numEq_iff_key] at this
        simp only [beq_eq_false_iff_ne, ne_eq]
        exact fun h => this ⟨k', h, hx⟩
      simp [hnone, count]
    · simp [hk, hp k]

theorem Sound.intern (hp : Sound p) (x : Binary64) : Sound (p.intern x).2 := by
  rw [hp.intern_eq]
  split
  · exact hp
  · exact hp.push ‹_›

theorem Sound.values_prefix (hp : Sound p) (x : Binary64) :
    p.values.toList <+: (p.intern x).2.values.toList := by
  rw [hp.intern_eq]
  split
  · exact List.prefix_rfl
  · simp [FloatPool.push]

theorem Sound.exists_value (hp : Sound p) (x : Binary64) :
    ∃ i w, (p.intern x).1 = UInt32.ofNat i ∧ (p.intern x).2.values.toList[i]? = some w ∧
      (w.numEq x = true ∨ w = x) := by
  rw [hp.intern_eq]
  split
  · rename_i i hi
    obtain ⟨h, heq, -⟩ := List.findIdx?_eq_some_iff_getElem.mp hi
    exact ⟨i, p.values.toList[i], rfl, List.getElem?_eq_getElem h, .inl heq⟩
  · exact ⟨p.values.size, x, rfl, by simp [FloatPool.push], .inr rfl⟩

end ScriptBackend.FloatPool
