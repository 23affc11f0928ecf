import ScriptBackend.Proofs.Code.Contents

/-!
# Spans in the storage

Allocating without storing shows whatever the cells held before, and a span can
be stored into at any later time. What remains true then: the storage stays tidy
under every operation, the contents only grow until a reset, and a span covers
the same places of the contents for good. `Covers` is that place, and a store
into the span replaces the words there and no others.
-/

namespace ScriptBackend

namespace Chunk

theorem contents_reserve (c : Chunk) (size : Nat) :
    (c.reserve size).contents = c.contents ++ c.load c.used size := by
  show (c.reserve size).load 0 (c.used + size) = _
  rw [load_append, Nat.zero_add]
  rfl

theorem contents_getElem? (c : Chunk) (j : Nat) :
    c.contents[j]? = if j < c.used then some (c.word j) else none := by
  by_cases hj : j < c.used
  · simp [contents, load, hj]
  · rw [if_neg hj, List.getElem?_eq_none (by simpa using hj)]

theorem word_store_inside {c : Chunk} {ws : List Word} (h : j < ws.length) :
    some ((c.store i ws).word (i + j)) = ws[j]? := by
  have hload := congrArg (·[j]?) (load_store c i ws)
  simpa [load, h] using hload

theorem contents_store_getElem? (c : Chunk) {ws : List Word} (h : i + ws.length ≤ c.used) (j : Nat) :
    (c.store i ws).contents[j]? =
      if i ≤ j ∧ j < i + ws.length then ws[j - i]? else c.contents[j]? := by
  rw [contents_getElem?, contents_getElem?, used_store]
  by_cases hj : i ≤ j ∧ j < i + ws.length
  · obtain ⟨k, rfl⟩ := Nat.exists_eq_add_of_le hj.1
    rw [if_pos hj, if_pos (by omega), Nat.add_sub_cancel_left]
    exact word_store_inside (by omega)
  · rw [if_neg hj, word_store_outside (by omega)]

end Chunk

namespace CodeBuffer

-- ---------------------------------------------------------------------------
-- Storing
-- ---------------------------------------------------------------------------

theorem length_contents_modify (cs : List Chunk) (k i : Nat) (ws : List Word) :
    ((cs.modify k (·.store i ws)).flatMap Chunk.contents).length =
      (cs.flatMap Chunk.contents).length := by
  induction cs generalizing k with
  | nil => simp
  | cons c cs ih =>
    cases k with
    | zero => simp
    | succ k => simp [ih]

theorem length_contents_store (b : CodeBuffer) (s : Span) (ws : List Word) :
    (b.store s ws).contents.length = b.contents.length := by
  simp only [contents, store, Array.toList_modify, length_contents_modify]

theorem Tidy.store (hb : Tidy b) (s : Span) (ws : List Word) : Tidy (b.store s ws) where
  chunkWords_pos := hb.chunkWords_pos
  chunks c hc := by
    simp only [CodeBuffer.store, Array.toList_modify] at hc
    obtain ⟨k, hk, rfl⟩ := List.mem_iff_getElem.mp hc
    rw [List.getElem_modify]
    have hold := hb.chunks _ (List.getElem_mem (by simpa using hk))
    split
    · rw [Chunk.used_store, Chunk.capacity_store]
      exact hold
    · exact hold
  position := by
    rw [length_contents_store]
    exact hb.position

-- ---------------------------------------------------------------------------
-- Allocating
-- ---------------------------------------------------------------------------

theorem Tidy.contents_allocate (hb : Tidy b) (hcap : b.newCapacity size ≤ Chunk.maxCapacity) :
    ∃ ws, ws.length = size ∧ (b.allocate size).2.contents = b.contents ++ ws := by
  obtain ⟨front, c, hroom, -, hcontents, -⟩ := hb.withRoom_eq hcap
  refine ⟨c.load c.used size, c.length_load _ _, ?_⟩
  rw [allocate_eq hroom, ← hcontents]
  simp [contents, Chunk.contents_reserve]

theorem Tidy.allocate (hb : Tidy b) (hcap : b.newCapacity size ≤ Chunk.maxCapacity) :
    Tidy (b.allocate size).2 := by
  obtain ⟨ws, hlen, hcontents⟩ := hb.contents_allocate hcap
  obtain ⟨front, c, hroom, hfit, -, hchunks⟩ := hb.withRoom_eq hcap
  rw [allocate_eq hroom] at hcontents ⊢
  refine ⟨hb.chunkWords_pos, ?_, ?_⟩
  · intro x hx
    rw [Array.toList_push, List.mem_append, List.mem_singleton] at hx
    rcases hx with hx | rfl
    · exact hchunks x (by simp [hx])
    · have := hchunks c (by simp)
      exact ⟨hfit, this.2⟩
  · rw [hcontents, List.length_append, UInt32.ofNat_add, hb.position, hlen]

-- ---------------------------------------------------------------------------
-- Every operation
-- ---------------------------------------------------------------------------

structure SameStorage (b b' : CodeBuffer) : Prop where
  chunks : b'.chunks = b.chunks
  chunkWords : b'.chunkWords = b.chunkWords
  position : b'.position = b.position

theorem SameStorage.contents (h : SameStorage b b') : b'.contents = b.contents := by
  rw [CodeBuffer.contents, h.chunks, CodeBuffer.contents]

theorem SameStorage.tidy (h : SameStorage b b') (hb : Tidy b) : Tidy b' where
  chunkWords_pos := h.chunkWords ▸ hb.chunkWords_pos
  chunks := h.chunkWords ▸ h.chunks ▸ hb.chunks
  position := by rw [h.position, h.contents, hb.position]

theorem closeLoop_sameStorage {b : CodeBuffer} (h : b.closeLoop points = .ok b') :
    SameStorage b b' := by
  unfold closeLoop at h
  split at h
  · cases h
  · cases h
    exact ⟨rfl, rfl, rfl⟩

theorem store?_eq_some {b : CodeBuffer} (h : b.store? s ws = some b') :
    ws.length = s.length ∧ b' = b.store s ws := by
  unfold store? at h
  split at h
  · rename_i hfits
    cases h
    exact ⟨hfits.2, rfl⟩
  · cases h

theorem Tidy.apply_eq (hb : Tidy b) (op : Op) :
    (∃ e, b.apply op = (.error e, b)) ∨
      (∀ n, op.size? = some n → b.newCapacity n ≤ Chunk.maxCapacity) ∧ b.apply op = b.run op := by
  cases hsize : op.size? with
  | none => exact .inr ⟨fun n hn => (nomatch hn), by simp [apply, hsize]⟩
  | some n =>
    by_cases hcap : b.newCapacity n ≤ Chunk.maxCapacity
    · refine .inr ⟨?_, by simp [apply, hsize, hb.checkRoom_eq, hcap]⟩
      rintro _ ⟨⟩
      exact hcap
    · exact .inl ⟨_, by simp [apply, hsize, hb.checkRoom_eq, hcap]; rfl⟩

theorem Tidy.apply_cases (hb : Tidy b) (hop : op ≠ .reset) :
    SameStorage b (b.apply op).2 ∨
      (∃ ws : List Word, b.newCapacity ws.length ≤ Chunk.maxCapacity ∧
        SameStorage (b.emitWords ws).2 (b.apply op).2) ∨
      (∃ size, b.newCapacity size ≤ Chunk.maxCapacity ∧ (b.apply op).2 = (b.allocate size).2) ∨
      ∃ s ws, op = .store s ws ∧ ws.length = s.length ∧ (b.apply op).2 = b.store s ws := by
  rcases hb.apply_eq op with ⟨e, h⟩ | ⟨hcap, h⟩ <;> rw [h]
  · exact .inl ⟨rfl, rfl, rfl⟩
  cases op with
  | allocate size => exact .inr (.inr (.inl ⟨size, hcap size rfl, rfl⟩))
  | store span words =>
    simp only [run]
    split
    · rename_i hstore
      obtain ⟨hlen, rfl⟩ := store?_eq_some hstore
      exact .inr (.inr (.inr ⟨span, words, rfl, hlen, rfl⟩))
    · exact .inl ⟨rfl, rfl, rfl⟩
  | emit word => exact .inr (.inl ⟨[word], hcap 1 rfl, rfl, rfl, rfl⟩)
  | emitWords words => exact .inr (.inl ⟨words, hcap words.length rfl, rfl, rfl, rfl⟩)
  | emitFixup target => exact .inr (.inl ⟨[target.placeholder], hcap 1 rfl, rfl, rfl, rfl⟩)
  | closeLoop points =>
    simp only [run]
    split
    · rename_i hclose
      exact .inl (closeLoop_sameStorage hclose)
    · exact .inl ⟨rfl, rfl, rfl⟩
  | reset => exact absurd rfl hop
  | patch _ _ | breakLine _ _ | openLoop | addFixup _ _ => exact .inl ⟨rfl, rfl, rfl⟩

theorem Tidy.apply (hb : Tidy b) (op : Op) : Tidy (b.apply op).2 := by
  by_cases hop : op = .reset
  · subst hop
    exact hb.reset
  rcases hb.apply_cases hop with h | ⟨ws, hcap, h⟩ | ⟨size, hcap, h⟩ | ⟨s, ws, -, -, h⟩
  · exact h.tidy hb
  · exact h.tidy (hb.emitWords hcap)
  · rw [h]
    exact hb.allocate hcap
  · rw [h]
    exact hb.store s ws

theorem Tidy.length_apply (hb : Tidy b) (hop : op ≠ .reset) :
    b.contents.length ≤ (b.apply op).2.contents.length := by
  rcases hb.apply_cases hop with h | ⟨ws, hcap, h⟩ | ⟨size, hcap, h⟩ | ⟨s, ws, -, -, h⟩
  · exact Nat.le_of_eq (by rw [h.contents])
  · rw [h.contents, hb.contents_emitWords hcap, List.length_append]
    exact Nat.le_add_right ..
  · obtain ⟨ws, -, hcontents⟩ := hb.contents_allocate hcap
    rw [h, hcontents, List.length_append]
    exact Nat.le_add_right ..
  · exact Nat.le_of_eq (by rw [h, length_contents_store])

-- ---------------------------------------------------------------------------
-- The place of a span
-- ---------------------------------------------------------------------------

/-- The words of a span are those of the contents from a place on. -/
def Covers (b : CodeBuffer) (s : Span) (place : Nat) : Prop :=
  ∃ c, b.chunks.toList[s.chunk]? = some c ∧ s.offset + s.length ≤ c.used ∧
    place = ((b.chunks.toList.take s.chunk).flatMap Chunk.contents).length + s.offset

theorem Covers.unique (h : Covers b s i) (h' : Covers b s j) : i = j := by
  obtain ⟨_, -, -, rfl⟩ := h
  obtain ⟨_, -, -, rfl⟩ := h'
  rfl

theorem contents_split {cs : List Chunk} (h : cs[k]? = some c) :
    cs.flatMap Chunk.contents =
      (cs.take k).flatMap Chunk.contents ++
        (c.contents ++ (cs.drop (k + 1)).flatMap Chunk.contents) := by
  obtain ⟨hk, rfl⟩ := List.getElem?_eq_some_iff.mp h
  rw [← List.flatMap_cons, ← List.drop_eq_getElem_cons hk, ← List.flatMap_append,
    List.take_append_drop]

theorem Covers.le (h : Covers b s i) : i + s.length ≤ b.contents.length := by
  obtain ⟨c, hc, hfit, rfl⟩ := h
  rw [contents, contents_split hc, List.length_append, List.length_append, Chunk.length_contents]
  omega

/-- The chunk that takes new words is the last one, and the others stay. -/
theorem Covers.grow (h : Covers b s i) (hroom : b.withRoom size = Array.push front c)
    (hused : c.used ≤ c'.used) (hchunks : b'.chunks = front.push c') : Covers b' s i := by
  obtain ⟨x, hx, hfit, rfl⟩ := h
  have hk := (List.getElem?_eq_some_iff.mp hx).1
  have hprefix : ∃ rest, front.toList ++ [c] = b.chunks.toList ++ rest := by
    rw [← Array.toList_push, ← hroom, withRoom]
    split
    · exact ⟨[], (List.append_nil _).symm⟩
    · exact ⟨[_], Array.toList_push⟩
  obtain ⟨rest, hrest⟩ := hprefix
  have hget : (front.toList ++ [c])[s.chunk]? = some x := by
    rw [hrest, List.getElem?_append_left hk, hx]
  have htake : (front.toList ++ [c]).take s.chunk = b.chunks.toList.take s.chunk := by
    rw [hrest, List.take_append_of_le_length (Nat.le_of_lt hk)]
  have hlast : s.chunk ≤ front.toList.length := by
    have := (List.getElem?_eq_some_iff.mp hget).1
    rw [List.length_append, List.length_singleton] at this
    omega
  rw [List.take_append_of_le_length hlast] at htake
  have htake' : b'.chunks.toList.take s.chunk = b.chunks.toList.take s.chunk := by
    rw [hchunks, Array.toList_push, List.take_append_of_le_length hlast, htake]
  rcases Nat.lt_or_eq_of_le hlast with hlt | heq
  · refine ⟨x, ?_, hfit, by rw [htake']⟩
    rw [List.getElem?_append_left hlt] at hget
    rw [hchunks, Array.toList_push, List.getElem?_append_left hlt, hget]
  · refine ⟨c', ?_, ?_, by rw [htake']⟩
    · rw [hchunks, Array.toList_push, heq, List.getElem?_concat_length]
    · rw [heq, List.getElem?_concat_length] at hget
      cases hget
      exact Nat.le_trans hfit hused

theorem Covers.store (h : Covers b s i) (t : Span) (ws : List Word) : Covers (b.store t ws) s i := by
  obtain ⟨x, hx, hfit, rfl⟩ := h
  have htake : (((b.store t ws).chunks.toList.take s.chunk).flatMap Chunk.contents).length =
      ((b.chunks.toList.take s.chunk).flatMap Chunk.contents).length := by
    simp only [CodeBuffer.store, Array.toList_modify, List.take_modify, length_contents_modify]
  refine ⟨if t.chunk = s.chunk then x.store t.offset ws else x, ?_, ?_, by rw [htake]⟩
  · simp [CodeBuffer.store, Array.toList_modify, List.getElem?_modify, hx]
  · split <;> simpa using hfit

theorem SameStorage.covers (h : SameStorage b b') (hs : Covers b s i) : Covers b' s i := by
  unfold Covers
  rw [h.chunks]
  exact hs

theorem Tidy.covers_allocate (hb : Tidy b) (hcap : b.newCapacity size ≤ Chunk.maxCapacity) :
    Covers (b.allocate size).2 (b.allocate size).1 b.contents.length := by
  obtain ⟨front, c, hroom, -, hcontents, -⟩ := hb.withRoom_eq hcap
  rw [allocate_eq hroom, ← hcontents]
  refine ⟨c.reserve size, ?_, Nat.le_refl _, ?_⟩
  · simp
  · simp

theorem Covers.apply (hb : Tidy b) (hs : Covers b s i) (hop : op ≠ .reset) :
    Covers (b.apply op).2 s i := by
  rcases hb.apply_cases hop with h | ⟨ws, hcap, h⟩ | ⟨size, hcap, h⟩ | ⟨t, ws, -, -, h⟩
  · exact h.covers hs
  · apply h.covers
    obtain ⟨front, c, hroom, -⟩ := hb.withRoom_eq hcap
    rw [emitWords_eq hroom]
    exact hs.grow hroom (by simp) rfl
  · obtain ⟨front, c, hroom, -⟩ := hb.withRoom_eq hcap
    rw [h, allocate_eq hroom]
    exact hs.grow hroom (by simp) rfl
  · rw [h]
    exact hs.store t ws

theorem Covers.contents_store (h : Covers b s i) (hlen : ws.length = s.length) (n : Nat) :
    (b.store s ws).contents[n]? =
      if i ≤ n ∧ n < i + ws.length then ws[n - i]? else b.contents[n]? := by
  obtain ⟨c, hc, hfit, rfl⟩ := h
  obtain ⟨hk, hget⟩ := List.getElem?_eq_some_iff.mp hc
  have hstored : (b.store s ws).contents =
      (b.chunks.toList.take s.chunk).flatMap Chunk.contents ++
        ((c.store s.offset ws).contents ++
          (b.chunks.toList.drop (s.chunk + 1)).flatMap Chunk.contents) := by
    rw [contents, CodeBuffer.store, Array.toList_modify, List.modify_eq_take_cons_drop hk,
      List.flatMap_append, List.flatMap_cons, hget]
  rw [hstored, contents, contents_split hc]
  generalize (b.chunks.toList.take s.chunk).flatMap Chunk.contents = before
  rcases Nat.lt_or_ge n before.length with hn | hn
  · rw [List.getElem?_append_left hn, List.getElem?_append_left hn, if_neg (by omega)]
  obtain ⟨j, rfl⟩ := Nat.exists_eq_add_of_le hn
  rw [List.getElem?_append_right hn, List.getElem?_append_right hn, Nat.add_sub_cancel_left]
  rcases Nat.lt_or_ge j c.used with hj | hj
  · rw [List.getElem?_append_left (by simpa using hj), List.getElem?_append_left (by simpa using hj),
      Chunk.contents_store_getElem? c (hlen ▸ hfit) j]
    by_cases hin : s.offset ≤ j ∧ j < s.offset + ws.length
    · rw [if_pos hin, if_pos (by omega), Nat.add_sub_add_left]
    · rw [if_neg hin, if_neg (by omega)]
  · rw [List.getElem?_append_right (by simpa using hj), List.getElem?_append_right (by simpa using hj),
      if_neg (by omega), Chunk.length_contents, Chunk.length_contents, Chunk.used_store]

theorem Tidy.contents_apply (hb : Tidy b) (hop : op ≠ .reset) (hstore : ∀ s ws, op ≠ .store s ws)
    (hn : n < b.contents.length) : (b.apply op).2.contents[n]? = b.contents[n]? := by
  rcases hb.apply_cases hop with h | ⟨ws, hcap, h⟩ | ⟨size, hcap, h⟩ | ⟨s, ws, hop, -, -⟩
  · rw [h.contents]
  · rw [h.contents, hb.contents_emitWords hcap, List.getElem?_append_left hn]
  · obtain ⟨ws, -, hcontents⟩ := hb.contents_allocate hcap
    rw [h, hcontents, List.getElem?_append_left hn]
  · exact absurd hop (hstore s ws)

end CodeBuffer

end ScriptBackend
