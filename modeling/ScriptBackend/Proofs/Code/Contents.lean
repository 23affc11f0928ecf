import ScriptBackend.Code.Buffer

/-!
# The words handed out

`contents` is what a buffer holds once its chunks are put end to end and their
unused tails left out. Appending adds to its end, whichever chunk the words go
to, and `read?` looks into it. `Tidy` is the invariant behind both: no chunk is
used beyond its capacity, and the position counts the contents.
-/

namespace ScriptBackend

-- ---------------------------------------------------------------------------
-- Chunks
-- ---------------------------------------------------------------------------

namespace Chunk

@[simp] theorem used_reserve (c : Chunk) (size : Nat) : (c.reserve size).used = c.used + size := rfl
@[simp] theorem capacity_reserve (c : Chunk) (size : Nat) : (c.reserve size).capacity = c.capacity := rfl
@[simp] theorem word_reserve (c : Chunk) (size i : Nat) : (c.reserve size).word i = c.word i := rfl

theorem word_put (c : Chunk) (i j : Nat) (w : Word) :
    (c.put i w).word j = if j = i then w else c.word j := by
  simp only [word, put, Array.getD_eq_getD_getElem?, Array.getElem?_setIfInBounds]
  by_cases h : j = i
  · subst h
    have hin : j < (c.cells ++ Array.replicate (j + 1 - c.cells.size) 0).size := by
      rw [Array.size_append, Array.size_replicate]
      omega
    rw [if_pos rfl, if_pos rfl, if_pos hin]
    rfl
  · rw [if_neg (Ne.symm h), if_neg h, Array.getElem?_append]
    split
    · rfl
    · rename_i hj
      rw [Array.getElem?_eq_none (Nat.le_of_not_lt hj), Array.getElem?_replicate]
      split <;> rfl

@[simp] theorem used_store (c : Chunk) (i : Nat) (ws : List Word) : (c.store i ws).used = c.used := by
  induction ws generalizing c i with
  | nil => rfl
  | cons w ws ih => exact ih (c.put i w) (i + 1)

@[simp] theorem capacity_store (c : Chunk) (i : Nat) (ws : List Word) :
    (c.store i ws).capacity = c.capacity := by
  induction ws generalizing c i with
  | nil => rfl
  | cons w ws ih => exact ih (c.put i w) (i + 1)

theorem word_store_outside {c : Chunk} {ws : List Word} (h : j < i ∨ i + ws.length ≤ j) :
    (c.store i ws).word j = c.word j := by
  induction ws generalizing c i with
  | nil => rfl
  | cons w ws ih =>
    simp only [List.length_cons] at h
    rw [store, ih (by omega), word_put, if_neg (by omega)]

theorem load_store (c : Chunk) (i : Nat) (ws : List Word) : (c.store i ws).load i ws.length = ws := by
  induction ws generalizing c i with
  | nil => rfl
  | cons w ws ih =>
    have hfirst : ((c.put i w).store (i + 1) ws).word i = w := by
      rw [word_store_outside (by omega), word_put, if_pos rfl]
    have hrest := ih (c.put i w) (i + 1)
    simp only [load] at hrest ⊢
    rw [List.length_cons, List.range'_succ, List.map_cons, store, hfirst, hrest]

theorem load_append (c : Chunk) (i m n : Nat) : c.load i (m + n) = c.load i m ++ c.load (i + m) n := by
  simp [load, ← List.range'_append_1]

@[simp] theorem length_load (c : Chunk) (i n : Nat) : (c.load i n).length = n := by simp [load]

def contents (c : Chunk) : List Word := c.load 0 c.used

@[simp] theorem length_contents (c : Chunk) : c.contents.length = c.used := by simp [contents]

@[simp] theorem contents_release (c : Chunk) : c.release.contents = [] := rfl

theorem contents_store_reserve (c : Chunk) (ws : List Word) :
    ((c.reserve ws.length).store c.used ws).contents = c.contents ++ ws := by
  have hold : ((c.reserve ws.length).store c.used ws).load 0 c.used = c.load 0 c.used := by
    apply List.map_congr_left
    intro j hj
    simp only [List.mem_range'_1] at hj
    rw [word_store_outside (by omega), word_reserve]
  rw [contents, used_store, used_reserve, load_append, hold, Nat.zero_add, load_store]
  rfl

end Chunk

-- ---------------------------------------------------------------------------
-- Buffers
-- ---------------------------------------------------------------------------

namespace CodeBuffer

def contents (b : CodeBuffer) : List Word := b.chunks.toList.flatMap Chunk.contents

structure Tidy (b : CodeBuffer) : Prop where
  chunkWords_pos : 0 < b.chunkWords
  chunks : ∀ c ∈ b.chunks.toList,
    c.used ≤ c.capacity ∧ b.chunkWords ≤ c.capacity ∧ c.capacity ≤ Chunk.maxCapacity
  position : b.position = UInt32.ofNat b.contents.length

theorem tidy_new (chunkWords : Nat) : Tidy (new chunkWords) where
  chunkWords_pos := Nat.lt_of_lt_of_le Nat.zero_lt_one (Nat.le_max_right chunkWords 1)
  chunks c hc := by simp [new] at hc
  position := rfl

theorem hasRoom_iff {b : CodeBuffer} :
    b.hasRoom size = true ↔ ∃ front c, b.chunks = Array.push front c ∧ size ≤ c.remaining := by
  simp only [hasRoom, Option.any_eq_true, decide_eq_true_eq, Array.back?_eq_some_iff]
  constructor
  · rintro ⟨c, ⟨front, h⟩, hsize⟩
    exact ⟨front, c, h, hsize⟩
  · rintro ⟨front, c, h, hsize⟩
    exact ⟨c, ⟨front, h⟩, hsize⟩

/-- Whether a request can be met depends on its size and on the least capacity of a chunk only:
a chunk that has room is not too large itself. -/
theorem Tidy.checkRoom_eq (hb : Tidy b) (size : Nat) :
    b.checkRoom size =
      if b.newCapacity size ≤ Chunk.maxCapacity then .ok ()
      else .error (.storage (.chunkTooLarge (b.newCapacity size))) := by
  unfold checkRoom
  cases hroom : b.hasRoom size with
  | false => simp
  | true =>
    obtain ⟨front, c, hchunks, hsize⟩ := hasRoom_iff.mp hroom
    obtain ⟨-, hleast, hmost⟩ := hb.chunks c (by simp [hchunks])
    have : b.newCapacity size ≤ Chunk.maxCapacity := by
      simp only [newCapacity, Chunk.remaining] at *
      omega
    simp [this]

-- ---------------------------------------------------------------------------
-- Appending
-- ---------------------------------------------------------------------------

theorem modify_push (xs : Array α) (x : α) (f : α → α) :
    (xs.push x).modify xs.size f = xs.push (f x) := by
  apply Array.ext
  · simp
  · intro i h₁ h₂
    simp only [Array.getElem_modify, Array.getElem_push]
    grind

theorem Tidy.withRoom_eq (hb : Tidy b) (hcap : b.newCapacity size ≤ Chunk.maxCapacity) :
    ∃ front c, b.withRoom size = Array.push front c ∧ c.used + size ≤ c.capacity ∧
      (front.push c).toList.flatMap Chunk.contents = b.contents ∧
      ∀ x ∈ (front.push c).toList,
        x.used ≤ x.capacity ∧ b.chunkWords ≤ x.capacity ∧ x.capacity ≤ Chunk.maxCapacity := by
  cases hroom : b.hasRoom size with
  | true =>
    obtain ⟨front, c, hchunks, hsize⟩ := hasRoom_iff.mp hroom
    have hc := hb.chunks c (by simp [hchunks])
    refine ⟨front, c, by simp [withRoom, hroom, hchunks], ?_, by rw [contents, hchunks], ?_⟩
    · simp only [Chunk.remaining] at hsize
      omega
    · rw [← hchunks]
      exact hb.chunks
  | false =>
    refine ⟨b.chunks, .new (b.newCapacity size), by simp [withRoom, hroom], ?_, ?_, ?_⟩
    · simp only [Chunk.new, newCapacity]
      omega
    · simp [contents, Chunk.contents, Chunk.new, Chunk.load]
    · intro x hx
      rw [Array.toList_push, List.mem_append, List.mem_singleton] at hx
      rcases hx with hx | rfl
      · exact hb.chunks x hx
      · exact ⟨Nat.zero_le _, Nat.le_max_left .., hcap⟩

theorem allocate_eq {b : CodeBuffer} (h : b.withRoom size = Array.push front c) :
    b.allocate size =
      (⟨front.size, c.used, size, b.position⟩,
       { b with
         chunks := front.push (c.reserve size)
         position := b.position + UInt32.ofNat size }) := by
  simp [allocate, h, modify_push]

theorem emitWords_eq {b : CodeBuffer} (h : b.withRoom ws.length = Array.push front c) :
    b.emitWords ws =
      (b.position,
       { b with
         chunks := front.push ((c.reserve ws.length).store c.used ws)
         position := b.position + UInt32.ofNat ws.length }) := by
  simp [emitWords, allocate_eq h, store, modify_push]

theorem Tidy.contents_emitWords (hb : Tidy b) (hcap : b.newCapacity ws.length ≤ Chunk.maxCapacity) :
    (b.emitWords ws).2.contents = b.contents ++ ws := by
  obtain ⟨front, c, hroom, -, hcontents, -⟩ := hb.withRoom_eq hcap
  rw [emitWords_eq hroom, ← hcontents]
  simp [contents, Chunk.contents_store_reserve]

theorem Tidy.emitWords (hb : Tidy b) (hcap : b.newCapacity ws.length ≤ Chunk.maxCapacity) :
    Tidy (b.emitWords ws).2 := by
  have hcontents := hb.contents_emitWords hcap
  obtain ⟨front, c, hroom, hfit, -, hchunks⟩ := hb.withRoom_eq hcap
  rw [emitWords_eq hroom] at hcontents ⊢
  refine ⟨hb.chunkWords_pos, ?_, ?_⟩
  · intro x hx
    rw [Array.toList_push, List.mem_append, List.mem_singleton] at hx
    rcases hx with hx | rfl
    · exact hchunks x (by simp [hx])
    · have := hchunks c (by simp)
      simpa using ⟨hfit, this.2⟩
  · rw [hcontents, List.length_append, UInt32.ofNat_add, hb.position]

theorem Tidy.store?_allocate (hb : Tidy b) (hcap : b.newCapacity ws.length ≤ Chunk.maxCapacity) :
    (b.allocate ws.length).2.store? (b.allocate ws.length).1 ws = some (b.emitWords ws).2 := by
  obtain ⟨front, c, hroom, hfit, -, -⟩ := hb.withRoom_eq hcap
  simp [emitWords_eq hroom, allocate_eq hroom, store?, load?, store, modify_push, hfit]

-- ---------------------------------------------------------------------------
-- Reading and emptying
-- ---------------------------------------------------------------------------

theorem wordIn?_eq (cs : List Chunk) (i : Nat) :
    wordIn? cs i = (cs.flatMap Chunk.contents)[i]? := by
  induction cs generalizing i with
  | nil => rfl
  | cons c cs ih =>
    rw [wordIn?, List.flatMap_cons, List.getElem?_append, Chunk.length_contents]
    split
    · rename_i h
      simp [Chunk.contents, Chunk.load, h]
    · exact ih _

theorem read?_eq (b : CodeBuffer) (address : UInt32) : b.read? address = b.contents[address.toNat]? :=
  wordIn?_eq _ _

theorem Tidy.toNat_position (hb : Tidy b) (h : b.contents.length < 0x100000000) :
    b.position.toNat = b.contents.length := by
  rw [hb.position, UInt32.toNat_ofNat_of_lt' h]

theorem Tidy.words_eq (hb : Tidy b) (h : b.contents.length < 0x100000000) : b.words = b.contents := by
  show b.contents.take b.position.toNat = b.contents
  rw [hb.toNat_position h, List.take_length]

theorem contents_reset (b : CodeBuffer) : b.reset.contents = [] := by
  show ((b.chunks.extract 0 1).map Chunk.release).toList.flatMap Chunk.contents = []
  rw [Array.toList_map, List.flatMap_map]
  simp

/-- The chunk that is kept is as large as any new one would be. -/
theorem Tidy.reset (hb : Tidy b) : Tidy b.reset where
  chunkWords_pos := Nat.lt_of_lt_of_le Nat.zero_lt_one (Nat.le_max_right b.chunkWords 1)
  chunks c hc := by
    have hpos := hb.chunkWords_pos
    simp only [CodeBuffer.reset, new, Array.toList_map, Array.toList_extract, List.mem_map] at hc
    obtain ⟨x, hx, rfl⟩ := hc
    have := hb.chunks x (List.mem_of_mem_drop (List.mem_of_mem_take hx))
    simp only [CodeBuffer.reset, new, Chunk.release]
    omega
  position := by
    rw [contents_reset]
    rfl

end CodeBuffer

end ScriptBackend
