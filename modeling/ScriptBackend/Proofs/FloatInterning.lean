import ScriptBackend.Proofs.FirstOccurrences
import ScriptBackend.Proofs.FloatPool
import ScriptBackend.Proofs.History

/-!
# Interning numbers is a scan for the first equal one

Whatever a pool was given before, interning a number answers with the first listed
number that equals it, and lists it only if there is none. Numeric equality is not
equality of patterns: it joins the two zeros, and no NaN equals even itself. So the
zero seen first stands for both, and each NaN has an index of its own.
-/

namespace ScriptBackend

namespace Binary64

theorem numEq_comm (x y : Binary64) : x.numEq y = y.numEq x := by
  rw [Bool.eq_iff_iff, FloatPool.numEq_iff_key, FloatPool.numEq_iff_key]
  simp only [and_comm]

theorem numEq_of_isNaN {x : Binary64} (h : x.isNaN = true) (w : Binary64) : w.numEq x = false := by
  simp [numEq, h]

theorem isZero_eq_of_numEq {x y : Binary64} (h : x.numEq y = true) : x.isZero = y.isZero := by
  simp only [numEq, Bool.and_eq_true, Bool.or_eq_true, beq_iff_eq] at h
  obtain ⟨-, hbits | ⟨hx, hy⟩⟩ := h
  · simp only [isZero, exponentField, fraction, hbits]
  · rw [hx, hy]

theorem numEq_of_isZero {x y : Binary64} (hx : x.isZero = true) (hy : y.isZero = true) :
    x.numEq y = true := by
  have hnan : ∀ {z : Binary64}, z.isZero = true → z.isNaN = false := by
    intro z hz
    simp_all [isZero, isNaN]
  simp [numEq, hx, hy, hnan]

end Binary64

namespace FloatPool

-- ---------------------------------------------------------------------------
-- One number
-- ---------------------------------------------------------------------------

section
variable {p : FloatPool} {x : Binary64}

theorem Sound.intern_of_equal (hp : Sound p) (h : ∃ w ∈ p.values.toList, w.numEq x = true) :
    ∃ (i : Nat) (w : Binary64), p.values[i]? = some w ∧ w.numEq x = true ∧
      (∀ (j : Nat) (v : Binary64), j < i → p.values[j]? = some v → v.numEq x = false) ∧
      p.intern x = (UInt32.ofNat i, p) := by
  cases hfind : p.values.toList.findIdx? (·.numEq x) with
  | none =>
    obtain ⟨w, hw, heq⟩ := h
    simp [List.findIdx?_eq_none_iff.mp hfind w hw] at heq
  | some i =>
    obtain ⟨hi, heq, hbefore⟩ := List.findIdx?_eq_some_iff_getElem.mp hfind
    refine ⟨i, p.values.toList[i], by simp, heq, ?_, by rw [hp.intern_eq, hfind]⟩
    intro j v hj hv
    obtain ⟨hlt, rfl⟩ := Array.getElem?_eq_some_iff.mp hv
    simpa using hbefore j hj

theorem Sound.intern_of_new (hp : Sound p) (h : ∀ w ∈ p.values.toList, w.numEq x = false) :
    p.intern x = (p.count, p.push x) := by
  rw [hp.intern_eq, List.findIdx?_eq_none_iff.mpr h]

theorem Sound.values_intern (hp : Sound p) (x : Binary64) :
    (p.intern x).2.values.toList =
      p.values.toList ++ if p.values.toList.any x.numEq then [] else [x] := by
  by_cases h : ∃ w ∈ p.values.toList, w.numEq x = true
  · obtain ⟨i, w, -, -, -, hintern⟩ := hp.intern_of_equal h
    obtain ⟨v, hv, heq⟩ := h
    have hany : p.values.toList.any x.numEq = true :=
      List.any_eq_true.mpr ⟨v, hv, (x.numEq_comm v).trans heq⟩
    simp [hintern, hany]
  · have hnew : ∀ w ∈ p.values.toList, w.numEq x = false := by simpa using h
    have hany : p.values.toList.any x.numEq = false := by
      rw [List.any_eq_false]
      intro w hw
      simp [x.numEq_comm, hnew w hw]
    rw [hp.intern_of_new hnew, hany]
    exact Array.toList_push

end

-- ---------------------------------------------------------------------------
-- Numbers since a reset
-- ---------------------------------------------------------------------------

inductive Request where
  | intern (x : Binary64)
  | reset
  deriving DecidableEq

structure Call where
  number : Binary64
  index : UInt32

def numbers (calls : List Call) : List Binary64 := calls.map (·.number)

def noteCall (p : FloatPool) : Request → FloatPool × Option (List Call)
  | .intern x => ((p.intern x).2, some [⟨x, (p.intern x).1⟩])
  | .reset => (empty, none)

/-- The pool lists the numbers that equal no earlier one, and each index that was answered leads to
one that equals the number asked for, or is that number. -/
structure Kept (h : History FloatPool Call) : Prop where
  sound : h.state.Sound
  values : h.state.values.toList = (numbers h.log).eraseDupsBy Binary64.numEq
  answered : ∀ c ∈ h.log, ∃ (k : Nat) (w : Binary64), c.index = UInt32.ofNat k ∧
    h.state.values[k]? = some w ∧ (w.numEq c.number = true ∨ w = c.number)
  reached : ∀ k, k < h.state.values.size → ∃ c ∈ h.log, c.index = UInt32.ofNat k
  apart : h.state.values.size < 0x100000000 → h.log.Pairwise fun c d =>
    c.number.isNaN = true ∨ d.number.isNaN = true → c.index ≠ d.index

theorem kept_empty : Kept (.fresh empty) where
  sound := sound_empty
  values := rfl
  answered := by rintro c ⟨⟩
  reached := by rintro k ⟨⟩
  apart _ := .nil

section
variable {h : History FloatPool Call}

theorem Kept.values_serve (hk : Kept h) (x : Binary64) :
    (h.serve noteCall (.intern x)).state.values.toList =
      (numbers (h.serve noteCall (.intern x)).log).eraseDupsBy Binary64.numEq := by
  have hnumbers : numbers (h.serve noteCall (.intern x)).log = numbers h.log ++ [x] := by
    simp [History.serve, noteCall, numbers]
  rw [hnumbers, eraseDupsBy_concat, ← hk.values]
  exact hk.sound.values_intern x

theorem eq_of_ofNat_eq {j k : Nat} (hj : j < 0x100000000) (hk : k < 0x100000000)
    (heq : UInt32.ofNat j = UInt32.ofNat k) : j = k := by
  have := congrArg UInt32.toNat heq
  rwa [UInt32.toNat_ofNat_of_lt' hj, UInt32.toNat_ofNat_of_lt' hk] at this

theorem Kept.intern_of_equal (hk : Kept h) (hx : ∃ w ∈ h.state.values.toList, w.numEq x = true) :
    Kept (h.serve noteCall (.intern x)) := by
  obtain ⟨i, w, hw, heq, -, hintern⟩ := hk.sound.intern_of_equal hx
  have hserve : h.serve noteCall (.intern x) = ⟨h.state, h.log ++ [⟨x, UInt32.ofNat i⟩]⟩ := by
    simp [History.serve, noteCall, hintern]
  have hvalues := hk.values_serve x
  rw [hserve] at hvalues ⊢
  refine ⟨hk.sound, hvalues, ?_, ?_, ?_⟩
  · intro c hc
    rcases List.mem_append.mp hc with hc | hc
    · exact hk.answered c hc
    · obtain rfl := List.mem_singleton.mp hc
      exact ⟨i, w, rfl, hw, .inl heq⟩
  · intro k hlt
    obtain ⟨c, hc, hindex⟩ := hk.reached k hlt
    exact ⟨c, List.mem_append_left _ hc, hindex⟩
  · intro hsize
    refine List.pairwise_append.mpr ⟨hk.apart hsize, List.pairwise_singleton .., ?_⟩
    rintro c hc d hd hnan hsame
    obtain rfl := List.mem_singleton.mp hd
    obtain ⟨k, v, hindex, hv, hstands⟩ := hk.answered c hc
    have hi : i < 0x100000000 := Nat.lt_trans (Array.getElem?_eq_some_iff.mp hw).1 hsize
    have hk' : k < 0x100000000 := Nat.lt_trans (Array.getElem?_eq_some_iff.mp hv).1 hsize
    obtain rfl := eq_of_ofNat_eq hk' hi (hindex.symm.trans hsame)
    obtain rfl := Option.some.inj (hv.symm.trans hw)
    -- what is listed at the index equals `x`, so neither it nor `x` is a NaN
    rcases hnan with hnan | hnan
    · rcases hstands with hstands | rfl
      · simp [Binary64.numEq_of_isNaN hnan] at hstands
      · rw [Binary64.numEq_comm, Binary64.numEq_of_isNaN hnan] at heq
        cases heq
    · simp [Binary64.numEq_of_isNaN hnan] at heq

theorem Kept.intern_of_new (hk : Kept h) (hx : ∀ w ∈ h.state.values.toList, w.numEq x = false) :
    Kept (h.serve noteCall (.intern x)) := by
  have hserve : h.serve noteCall (.intern x) = ⟨h.state.push x, h.log ++ [⟨x, h.state.count⟩]⟩ := by
    simp [History.serve, noteCall, hk.sound.intern_of_new hx]
  have hsound : (h.state.push x).Sound := hk.sound.push (List.findIdx?_eq_none_iff.mpr hx)
  have hpush : (h.state.push x).values = h.state.values.push x := rfl
  have hvalues := hk.values_serve x
  rw [hserve] at hvalues ⊢
  refine ⟨hsound, hvalues, ?_, ?_, ?_⟩
  · intro c hc
    rcases List.mem_append.mp hc with hc | hc
    · obtain ⟨k, w, hindex, hw, hstands⟩ := hk.answered c hc
      have hlt : k < h.state.values.size := (Array.getElem?_eq_some_iff.mp hw).1
      exact ⟨k, w, hindex, by rw [hpush, Array.getElem?_push_lt hlt, ← hw]; simp, hstands⟩
    · obtain rfl := List.mem_singleton.mp hc
      exact ⟨h.state.values.size, x, rfl, by simp [hpush], .inr rfl⟩
  · intro k hlt
    rw [hpush, Array.size_push] at hlt
    rcases Nat.lt_succ_iff_lt_or_eq.mp hlt with hlt | rfl
    · obtain ⟨c, hc, hindex⟩ := hk.reached k hlt
      exact ⟨c, List.mem_append_left _ hc, hindex⟩
    · exact ⟨⟨x, h.state.count⟩, List.mem_append_right _ (List.mem_singleton_self _), rfl⟩
  · intro hsize
    rw [hpush, Array.size_push] at hsize
    have hbefore : h.state.values.size < 0x100000000 := Nat.lt_of_succ_lt hsize
    refine List.pairwise_append.mpr ⟨hk.apart hbefore, List.pairwise_singleton .., ?_⟩
    rintro c hc d hd - hsame
    obtain rfl := List.mem_singleton.mp hd
    obtain ⟨k, w, hindex, hw, -⟩ := hk.answered c hc
    have hlt : k < h.state.values.size := (Array.getElem?_eq_some_iff.mp hw).1
    have heq := eq_of_ofNat_eq (Nat.lt_trans hlt hbefore) hbefore (hindex.symm.trans hsame)
    exact Nat.ne_of_lt hlt heq

theorem Kept.intern (hk : Kept h) (x : Binary64) : Kept (h.serve noteCall (.intern x)) := by
  by_cases hx : ∃ w ∈ h.state.values.toList, w.numEq x = true
  · exact hk.intern_of_equal hx
  · exact hk.intern_of_new (by simpa using hx)

end

theorem kept_after (requests : List Request) : Kept ((History.fresh empty).after noteCall requests) := by
  refine History.after_induction kept_empty ?_ requests
  intro h request hk
  cases request with
  | intern x => exact hk.intern x
  | reset => exact kept_empty

theorem Kept.get?_after {h : History FloatPool Call} (hk : Kept h) {later : List Request}
    (hlater : .reset ∉ later) (hget : h.state.get? i = some w) :
    (h.after noteCall later).state.get? i = some w := by
  induction later generalizing h with
  | nil => exact hget
  | cons request later ih =>
    rw [List.mem_cons, not_or] at hlater
    cases request with
    | reset => exact absurd rfl hlater.1
    | intern x =>
      refine ih (hk.intern x) hlater.2 ?_
      obtain ⟨more, hmore⟩ := hk.sound.values_prefix x
      simp only [get?, History.serve, noteCall, ← Array.getElem?_toList, ← hmore] at hget ⊢
      rw [List.getElem?_append_left (List.getElem?_eq_some_iff.mp hget).1, hget]

-- ---------------------------------------------------------------------------
-- Indices
-- ---------------------------------------------------------------------------

/-- What the calls since a reset have come to. -/
structure Indexed (h : History FloatPool Call) : Prop where
  values : h.state.values.toList = (numbers h.log).eraseDupsBy Binary64.numEq
  dense : ∀ i, (∃ c ∈ h.log, c.index = i) ↔ i < h.state.count
  answered : ∀ c ∈ h.log, ∃ w, h.state.get? c.index = some w ∧
    (w.numEq c.number = true ∨ w = c.number)
  distinct : h.state.values.toList.Pairwise fun v w => v.numEq w = false
  /-- The zero seen first, of either sign, and no other. -/
  zeros : h.state.values.toList.filter (·.isZero) = ((numbers h.log).find? (·.isZero)).toList
  nans : h.log.Pairwise fun c d =>
    c.number.isNaN = true ∨ d.number.isNaN = true → c.index ≠ d.index

theorem Kept.distinct (hk : Kept h) : h.state.values.toList.Pairwise fun v w => v.numEq w = false := by
  rw [hk.values]
  refine (pairwise_eraseDupsBy (numbers h.log)).imp ?_
  intro v w hvw
  rw [Binary64.numEq_comm, hvw]

theorem Kept.zeros (hk : Kept h) :
    h.state.values.toList.filter (·.isZero) = ((numbers h.log).find? (·.isZero)).toList := by
  have honce : h.state.values.toList.Pairwise fun v w => v.isZero = true → w.isZero = false := by
    refine hk.distinct.imp ?_
    intro v w hvw hv
    rw [← Bool.not_eq_true]
    intro hw
    simp [Binary64.numEq_of_isZero hv hw] at hvw
  have halike : ∀ a b : Binary64, a.numEq b = true → a.isZero = b.isZero :=
    fun _ _ => Binary64.isZero_eq_of_numEq
  rw [filter_eq_find? honce, hk.values, find?_eraseDupsBy halike]

theorem toNat_count {p : FloatPool} (hsize : p.values.size < 0x100000000) :
    p.count.toNat = p.values.size := UInt32.toNat_ofNat_of_lt' hsize

theorem Kept.indexed (hk : Kept h) (hsize : h.state.values.size < 0x100000000) : Indexed h where
  values := hk.values
  dense i := by
    rw [UInt32.lt_iff_toNat_lt, toNat_count hsize]
    constructor
    · rintro ⟨c, hc, rfl⟩
      obtain ⟨k, w, hindex, hw, -⟩ := hk.answered c hc
      have hlt : k < h.state.values.size := (Array.getElem?_eq_some_iff.mp hw).1
      rw [hindex, UInt32.toNat_ofNat_of_lt' (Nat.lt_trans hlt hsize)]
      exact hlt
    · intro hlt
      obtain ⟨c, hc, hindex⟩ := hk.reached i.toNat hlt
      exact ⟨c, hc, hindex.trans UInt32.ofNat_toNat⟩
  answered c hc := by
    obtain ⟨k, w, hindex, hw, hstands⟩ := hk.answered c hc
    have hlt : k < h.state.values.size := (Array.getElem?_eq_some_iff.mp hw).1
    refine ⟨w, ?_, hstands⟩
    rw [get?, hindex, UInt32.toNat_ofNat_of_lt' (Nat.lt_trans hlt hsize), hw]
  distinct := hk.distinct
  zeros := hk.zeros
  nans := hk.apart hsize

/-- Whatever was asked of a pool before, interning a number answers with the first listed number
that equals it and changes nothing, or lists it, bit for bit, behind the others if none does. So the
indices answered since a reset are those below the count, and each leads to the same number until
the next reset; of the zeros there is at most the first one seen, and each NaN has an index that no
other call has been answered with. -/
theorem intern_first_equal (requests : List Request) (x : Binary64)
    (hsize : ((History.fresh empty).after noteCall requests).state.values.size < 0x100000000) :
    let h := (History.fresh empty).after noteCall requests
    let p := h.state
    ((∃ w ∈ p.values.toList, w.numEq x = true) →
      ∃ i w, p.get? i = some w ∧ w.numEq x = true ∧
        (∀ j v, j < i → p.get? j = some v → v.numEq x = false) ∧ p.intern x = (i, p)) ∧
    ((∀ w ∈ p.values.toList, w.numEq x = false) →
      ∃ q, p.intern x = (p.count, q) ∧ q.values.toList = p.values.toList ++ [x]) ∧
    p.count.toNat = p.values.size ∧
    Indexed h ∧
    ∀ later, .reset ∉ later → ∀ i w, p.get? i = some w → (h.after noteCall later).state.get? i = some w := by
  intro h p
  have hk : Kept h := kept_after requests
  refine ⟨?_, ?_, toNat_count hsize, hk.indexed hsize, fun _ hlater _ _ => hk.get?_after hlater⟩
  · intro hequal
    obtain ⟨i, w, hw, heq, hbefore, hintern⟩ := hk.sound.intern_of_equal hequal
    have hlt : i < p.values.size := (Array.getElem?_eq_some_iff.mp hw).1
    have hindex : (UInt32.ofNat i).toNat = i := UInt32.toNat_ofNat_of_lt' (Nat.lt_trans hlt hsize)
    refine ⟨UInt32.ofNat i, w, by rw [get?, hindex, hw], heq, ?_, hintern⟩
    intro j v hj hv
    rw [UInt32.lt_iff_toNat_lt, hindex] at hj
    exact hbefore j.toNat v hj hv
  · intro hnew
    exact ⟨p.push x, hk.sound.intern_of_new hnew, Array.toList_push⟩

/-- Both zeros, two NaNs of different payloads, a subnormal twice and an infinity, after a reset. -/
def sampleNumbers : List Request :=
  [.intern .one, .reset, .intern ⟨0x8000000000000000⟩, .intern ⟨0x7FF8000000000000⟩,
    .intern ⟨0⟩, .intern ⟨0xFFF0000000000001⟩, .intern ⟨1⟩, .intern ⟨0x7FF8000000000000⟩,
    .intern (.infinity true), .intern ⟨1⟩]

theorem sampleNumbers_first_equal :
    let h := (History.fresh empty).after noteCall sampleNumbers
    let p := h.state
    p.values.size < 0x100000000 ∧
      (∃ i, p.intern ⟨0⟩ = (i, p)) ∧
      (p.intern ⟨0xFFF0000000000001⟩).1 = p.count ∧
      h.log.map (·.index) = [0, 1, 0, 2, 3, 4, 5, 3] ∧
      p.values.toList.filter (·.isZero) = [⟨0x8000000000000000⟩] ∧
      (h.after noteCall [.intern .one]).state.get? 0 = some ⟨0x8000000000000000⟩ := by
  intro h p
  have hsize : p.values.size < 0x100000000 := by decide +kernel
  obtain ⟨hequal, -, -, hindexed, hkept⟩ := intern_first_equal sampleNumbers ⟨0⟩ hsize
  obtain ⟨-, hnew, -⟩ := intern_first_equal sampleNumbers ⟨0xFFF0000000000001⟩ hsize
  obtain ⟨i, w, -, -, -, hfound⟩ := hequal (by decide +kernel)
  obtain ⟨q, hq, -⟩ := hnew (by decide +kernel)
  exact ⟨hsize, ⟨i, hfound⟩, by rw [hq], by decide +kernel,
    hindexed.zeros.trans (by decide +kernel), hkept [.intern .one] (by decide) 0 _ (by decide +kernel)⟩

end FloatPool

end ScriptBackend
