import ScriptBackend.Proofs.Code.Storage
import ScriptBackend.Proofs.History
import ScriptBackend.Proofs.Tiling
import ScriptBackend.Proofs.Wire

/-!
# Spans keep to their places

A span has an address in the code and a place in the storage, and the two are
kept apart. `Held` ties them together: the spans handed out since the last reset
tile the addresses in order, and the words at the address of a span are those at
its place. So a span can be read and replaced at any later time, and whatever is
stored in it reaches no other.
-/

namespace ScriptBackend

open Stretch (Tiles Partition)

def Span.stretch (s : Span) : Stretch := ⟨s.address.toNat, s.length⟩

def Span.Apart (s t : Span) : Prop :=
  s.chunk ≠ t.chunk ∨ s.offset + s.length ≤ t.offset ∨ t.offset + t.length ≤ s.offset

theorem Chunk.load_eq (c : Chunk) (h : offset + length ≤ c.used) :
    c.load offset length = (c.contents.drop offset).take length := by
  obtain ⟨rest, hrest⟩ := Nat.exists_eq_add_of_le h
  rw [Chunk.contents, hrest, Nat.add_assoc, c.load_append, Nat.zero_add, c.load_append,
    List.drop_left' (by simp), List.take_left' (by simp)]

namespace CodeBuffer

-- ---------------------------------------------------------------------------
-- Spans that are taken
-- ---------------------------------------------------------------------------

/-- The span that an operation takes for its words, whether it is answered or not. -/
def taken? (b : CodeBuffer) (op : Op) : Option Span :=
  match (b.apply op).1 with
  | .ok _ => op.size?.map fun size => (b.allocate size).1
  | .error _ => none

def noteSpan (b : CodeBuffer) (op : Op) : CodeBuffer × Option (List Span) :=
  ((b.apply op).2, if op = .reset then none else some (b.taken? op).toList)

theorem log_noteSpan (l : History CodeBuffer Span) (hop : op ≠ .reset) :
    (l.serve noteSpan op).log = l.log ++ (l.state.taken? op).toList :=
  History.log_serve_of_some (if_neg hop)

theorem log_prefix_after (l : History CodeBuffer Span) (h : .reset ∉ later) :
    l.log <+: (l.after noteSpan later).log := by
  induction later generalizing l with
  | nil => exact List.prefix_rfl
  | cons op later ih =>
    rw [List.mem_cons, not_or] at h
    have hserve : l.log <+: (l.serve noteSpan op).log := by
      rw [log_noteSpan l (Ne.symm h.1)]
      exact List.prefix_append _ _
    exact hserve.trans (ih (l.serve noteSpan op) h.2)

theorem Tidy.covers_emitWords (hb : Tidy b) (hcap : b.newCapacity ws.length ≤ Chunk.maxCapacity) :
    Covers (b.emitWords ws).2 (b.allocate ws.length).1 b.contents.length :=
  (hb.covers_allocate hcap).store _ _

/-- A span taken by an operation lies behind all words, and its address is answered. -/
structure Takes (b : CodeBuffer) (op : Op) (s : Span) : Prop where
  taken : b.taken? op = some s
  address : s.address = b.position
  covers : Covers (b.apply op).2 s b.contents.length
  length : (b.apply op).2.contents.length = b.contents.length + s.length
  answer : (b.apply op).1 = .ok (.span s) ∨ (b.apply op).1 = .ok (.address s.address)

structure TakesNone (b : CodeBuffer) (op : Op) : Prop where
  taken : b.taken? op = none
  length : (b.apply op).2.contents.length = b.contents.length
  answer : ∀ a, (b.apply op).1 = .ok a → a = .done

theorem takesNone_of_size {b : CodeBuffer} (hsize : op.size? = none)
    (hlength : (b.run op).2.contents.length = b.contents.length)
    (hanswer : ∀ a, (b.run op).1 = .ok a → a = .done) : TakesNone b op := by
  have happly : b.apply op = b.run op := by simp [apply, hsize]
  refine ⟨?_, happly ▸ hlength, happly ▸ hanswer⟩
  unfold taken?
  split
  · rw [hsize]
    rfl
  · rfl

theorem Tidy.takes_emitWords (hb : Tidy b) (ws : List Word)
    (hcap : b.newCapacity ws.length ≤ Chunk.maxCapacity) (happly : b.apply op = b.run op)
    (hsize : op.size? = some ws.length) (hanswer : (b.run op).1 = .ok (.address b.position))
    (hsame : SameStorage (b.emitWords ws).2 (b.run op).2) : Takes b op (b.allocate ws.length).1 where
  taken := by simp [taken?, happly, hanswer, hsize]
  address := rfl
  covers := happly ▸ hsame.covers (hb.covers_emitWords hcap)
  length := by
    rw [happly, hsame.contents, hb.contents_emitWords hcap, List.length_append]
    rfl
  answer := .inr (happly ▸ hanswer)

theorem Tidy.takes (hb : Tidy b) (hop : op ≠ .reset) : TakesNone b op ∨ ∃ s, Takes b op s := by
  rcases hb.apply_eq op with ⟨e, happly⟩ | ⟨hcap, happly⟩
  · refine .inl ⟨by simp [taken?, happly], by rw [happly], ?_⟩
    rw [happly]
    rintro a ⟨⟩
  cases op with
  | allocate size =>
    obtain ⟨ws, hws, hcontents⟩ := hb.contents_allocate (hcap size rfl)
    refine .inr ⟨(b.allocate size).1, by simp [taken?, happly, run, Op.size?], rfl, ?_, ?_, .inl ?_⟩ <;>
      rw [happly]
    · exact hb.covers_allocate (hcap size rfl)
    · exact (congrArg List.length hcontents).trans (by rw [List.length_append, hws]; rfl)
    · rfl
  | emit word =>
    exact .inr ⟨_, hb.takes_emitWords [word] (hcap 1 rfl) happly rfl rfl ⟨rfl, rfl, rfl⟩⟩
  | emitWords words =>
    exact .inr ⟨_, hb.takes_emitWords words (hcap words.length rfl) happly rfl rfl ⟨rfl, rfl, rfl⟩⟩
  | emitFixup target =>
    exact .inr ⟨_, hb.takes_emitWords [target.placeholder] (hcap 1 rfl) happly rfl rfl ⟨rfl, rfl, rfl⟩⟩
  | store span words =>
    refine .inl (takesNone_of_size rfl ?_ ?_) <;> simp only [run] <;> split
    · rename_i hstore
      obtain ⟨-, rfl⟩ := store?_eq_some hstore
      exact length_contents_store b span words
    · rfl
    · rintro a ⟨⟩
      rfl
    · rintro a ⟨⟩
  | closeLoop points =>
    refine .inl (takesNone_of_size rfl ?_ ?_) <;> simp only [run] <;> split
    · rename_i hclose
      rw [(closeLoop_sameStorage hclose).contents]
    · rfl
    · rintro a ⟨⟩
      rfl
    · rintro a ⟨⟩
  | reset => exact absurd rfl hop
  | patch _ _ | breakLine _ _ | openLoop | addFixup _ _ =>
    refine .inl (takesNone_of_size rfl rfl ?_)
    rintro a ⟨⟩
    rfl

theorem Tidy.takes_of_answer (hb : Tidy b) (h : (b.apply op).1 = .ok a) (ha : a ≠ .done) :
    op ≠ .reset ∧ ∃ s, Takes b op s := by
  have hop : op ≠ .reset := by
    rintro rfl
    cases h
    exact ha rfl
  rcases hb.takes hop with hnone | htakes
  · exact absurd (hnone.answer a h) ha
  · exact ⟨hop, htakes⟩

-- ---------------------------------------------------------------------------
-- Addresses and places
-- ---------------------------------------------------------------------------

/-- The spans tile the addresses, and each covers the words at its address. -/
structure Held (spans : List Span) (b : CodeBuffer) : Prop where
  tiles : Tiles 0 (spans.map Span.stretch) b.contents.length
  covers : ∀ s ∈ spans, Covers b s s.address.toNat

theorem held_nil {b : CodeBuffer} (h : b.contents = []) : Held [] b := by
  refine ⟨?_, fun s hs => (nomatch hs)⟩
  rw [h]
  rfl

theorem Held.apply (h : Held spans b) (hb : Tidy b) (hop : op ≠ .reset)
    (hlen : (b.apply op).2.contents.length < 0x100000000) :
    Held (spans ++ (b.taken? op).toList) (b.apply op).2 := by
  have hold : ∀ s ∈ spans, Covers (b.apply op).2 s s.address.toNat :=
    fun s hs => (h.covers s hs).apply hb hop
  rcases hb.takes hop with hnone | ⟨s, hs⟩
  · rw [hnone.taken, Option.toList_none, List.append_nil]
    exact ⟨hnone.length ▸ h.tiles, hold⟩
  · have haddress : s.address.toNat = b.contents.length := by
      rw [hs.address, hb.toNat_position (Nat.lt_of_le_of_lt (hb.length_apply hop) hlen)]
    have htiles : Tiles 0 (spans.map Span.stretch) s.address.toNat := by
      rw [haddress]
      exact h.tiles
    rw [hs.taken, Option.toList_some]
    constructor
    · rw [List.map_append, hs.length, ← haddress]
      exact Tiles.concat (x := s.stretch) htiles
    · intro t ht
      rcases List.mem_append.mp ht with ht | ht
      · exact hold t ht
      · rw [List.mem_singleton.mp ht, haddress]
        exact hs.covers

structure Ledger (l : History CodeBuffer Span) : Prop where
  tidy : l.state.Tidy
  held : l.state.contents.length < 0x100000000 → Held l.log l.state

theorem ledger_new (chunkWords : Nat) : Ledger (.fresh (new chunkWords)) :=
  ⟨tidy_new chunkWords, fun _ => held_nil rfl⟩

theorem Ledger.serve (hl : Ledger l) (op : Op) : Ledger (l.serve noteSpan op) := by
  by_cases hop : op = .reset
  · subst hop
    exact ⟨hl.tidy.reset, fun _ => held_nil (contents_reset l.state)⟩
  · refine ⟨hl.tidy.apply op, ?_⟩
    intro hlen
    rw [log_noteSpan l hop]
    exact (hl.held (Nat.lt_of_le_of_lt (hl.tidy.length_apply hop) hlen)).apply hl.tidy hop hlen

theorem Ledger.after (hl : Ledger l) (ops : List Op) : Ledger (l.after noteSpan ops) :=
  History.after_induction hl (fun _ op hl => hl.serve op) ops

-- ---------------------------------------------------------------------------
-- Reading and replacing
-- ---------------------------------------------------------------------------

theorem Covers.load?_eq (hb : Tidy b) (h : Covers b s i) :
    b.load? s = some ((b.contents.drop i).take s.length) := by
  obtain ⟨c, hc, hfit, rfl⟩ := h
  have hcapacity := hb.chunks c (List.mem_of_getElem? hc)
  have hget : b.chunks[s.chunk]? = some c := by rw [← hc, Array.getElem?_toList]
  have hpart : (b.contents.drop
        (((b.chunks.toList.take s.chunk).flatMap Chunk.contents).length + s.offset)).take s.length =
      c.load s.offset s.length := by
    rw [contents, contents_split hc, ← List.drop_drop, List.drop_left,
      List.drop_append_of_le_length (by rw [c.length_contents]; omega),
      List.take_append_of_le_length (by rw [List.length_drop, c.length_contents]; omega),
      c.load_eq hfit]
  simp only [load?, hget, Option.bind_eq_bind, Option.bind_some, hpart]
  exact if_pos (by omega)

theorem Covers.apart (hs : Covers b s i) (ht : Covers b t j) (h : i + s.length ≤ j) : s.Apart t := by
  obtain ⟨-, -, -, rfl⟩ := hs
  obtain ⟨-, -, -, rfl⟩ := ht
  by_cases hchunk : s.chunk = t.chunk
  · rw [hchunk] at h
    exact .inr (.inl (by omega))
  · exact .inl hchunk

/-- A span lies in the storage, and its words are those read at its addresses. -/
def Shows (b : CodeBuffer) (s : Span) : Prop :=
  ∃ ws, b.load? s = some ws ∧ ws.length = s.length ∧
    ∀ j < s.length, b.read? (s.address + UInt32.ofNat j) = ws[j]?

theorem Covers.shows (hb : Tidy b) (hlen : b.contents.length < 0x100000000)
    (h : Covers b s s.address.toNat) : b.Shows s := by
  have hle := h.le
  refine ⟨_, h.load?_eq hb, ?_, ?_⟩
  · rw [List.length_take, List.length_drop]
    omega
  · intro j hj
    have haddress : (s.address + UInt32.ofNat j).toNat = s.address.toNat + j := by
      have hsmall : j < 0x100000000 := by omega
      rw [UInt32.toNat_add, UInt32.toNat_ofNat_of_lt' hsmall]
      exact Nat.mod_eq_of_lt (by omega)
    rw [read?_eq, haddress, List.getElem?_take_of_lt hj, List.getElem?_drop]

/-- The words of a span were replaced, and nothing else was. -/
structure Overwritten (b b' : CodeBuffer) (s : Span) (ws : List Word) : Prop where
  read : ∀ a, b'.read? a =
    if s.address.toNat ≤ a.toNat ∧ a.toNat < s.address.toNat + s.length then
      ws[a.toNat - s.address.toNat]?
    else b.read? a
  own : b'.load? s = some ws
  position : b'.position = b.position
  patches : b'.patches = b.patches
  fixups : b'.fixups = b.fixups
  marks : b'.marks = b.marks
  lineBreaks : b'.lineBreaks = b.lineBreaks
  chunkCount : b'.chunks.size = b.chunks.size

theorem Covers.overwritten (hb : Tidy b) (h : Covers b s s.address.toNat) (hlen : ws.length = s.length) :
    b.apply (.store s ws) = (.ok .done, b.store s ws) ∧ Overwritten b (b.store s ws) s ws := by
  have hstore : b.store? s ws = some (b.store s ws) := if_pos ⟨by simp [h.load?_eq hb], hlen⟩
  have happly : b.apply (.store s ws) = b.run (.store s ws) := rfl
  refine ⟨by simp only [happly, run, hstore], ?_, ?_, rfl, rfl, rfl, rfl, rfl, Array.size_modify ..⟩
  · intro a
    rw [read?_eq, h.contents_store hlen, hlen, read?_eq]
  · rw [(h.store s ws).load?_eq (hb.store s ws), take_drop_eq hlen]
    intro j hj
    rw [h.contents_store hlen, if_pos (by omega), Nat.add_sub_cancel_left]

theorem Covers.load?_store (hb : Tidy b) (hs : Covers b s i) (hlen : ws.length = s.length)
    (ht : Covers b t j) (hapart : ∀ n, j ≤ n → n < j + t.length → n < i ∨ i + s.length ≤ n) :
    (b.store s ws).load? t = b.load? t := by
  rw [(ht.store s ws).load?_eq (hb.store s ws), ht.load?_eq hb]
  congr 1
  apply take_drop_eq
  · have := ht.le
    rw [List.length_take, List.length_drop]
    omega
  · intro k hk
    have := hapart (j + k) (by omega) (by omega)
    rw [hs.contents_store hlen, if_neg (by omega), List.getElem?_take_of_lt hk, List.getElem?_drop]

-- ---------------------------------------------------------------------------
-- All spans together
-- ---------------------------------------------------------------------------

/-- Spans that divide the code among them and the storage behind it. -/
structure Tenured (spans : List Span) (b : CodeBuffer) : Prop where
  tiles : Tiles 0 (spans.map Span.stretch) b.position.toNat
  partition : Partition (spans.map Span.stretch) b.position.toNat
  apart : spans.Pairwise Span.Apart
  shows : ∀ s ∈ spans, b.Shows s
  overwrites : ∀ s ∈ spans, ∀ ws, ws.length = s.length →
    ∃ b', b.apply (.store s ws) = (.ok .done, b') ∧ Overwritten b b' s ws ∧
      ∀ t ∈ spans, t ≠ s → b'.load? t = b.load? t

theorem Held.tenured (h : Held spans b) (hb : Tidy b) (hlen : b.contents.length < 0x100000000) :
    Tenured spans b := by
  have htiles : Tiles 0 (spans.map Span.stretch) b.position.toNat := by
    rw [hb.toNat_position hlen]
    exact h.tiles
  refine ⟨htiles, htiles.partition, ?_, fun s hs => (h.covers s hs).shows hb hlen, ?_⟩
  · refine (List.pairwise_map.mp htiles.apart).imp_of_mem ?_
    intro s t hs ht hst
    exact (h.covers s hs).apart (h.covers t ht) hst
  · intro s hs ws hws
    obtain ⟨happly, hover⟩ := (h.covers s hs).overwritten hb hws
    refine ⟨_, happly, hover, ?_⟩
    intro t ht hne
    refine (h.covers s hs).load?_store hb hws (h.covers t ht) ?_
    intro n hlo hhi
    have houtside : ¬ (s.address.toNat ≤ n ∧ n < s.address.toNat + s.length) :=
      htiles.not_mem ht hs hne ⟨hlo, hhi⟩
    omega

/-- Spans stay where they are. Whatever was done since the last reset, the spans taken so far, those
of emitted words included, tile the code in order and share no storage; each shows the words at its
addresses, now and until the next reset, and what is stored in it is read there and nowhere else. -/
theorem spans_keep_their_places (chunkWords : Nat) (ops : List Op) :
    let l := (History.fresh (new chunkWords)).after noteSpan ops
    (∀ op s, (l.state.apply op).1 = .ok (.span s) → (l.serve noteSpan op).log = l.log ++ [s]) ∧
    (∀ op a, (l.state.apply op).1 = .ok (.address a) →
      ∃ s, s.address = a ∧ (l.serve noteSpan op).log = l.log ++ [s]) ∧
    (l.state.contents.length < 0x100000000 → Tenured l.log l.state) ∧
    ∀ later, .reset ∉ later → (l.after noteSpan later).state.contents.length < 0x100000000 →
      ∀ s ∈ l.log, (l.after noteSpan later).state.Shows s := by
  intro l
  have hl : Ledger l := (ledger_new chunkWords).after ops
  refine ⟨?_, ?_, fun hlen => (hl.held hlen).tenured hl.tidy hlen, ?_⟩
  · intro op s hanswer
    obtain ⟨hop, t, ht⟩ := hl.tidy.takes_of_answer hanswer (by simp)
    rcases ht.answer with h | h <;> rw [hanswer] at h <;> cases h
    rw [log_noteSpan l hop, ht.taken, Option.toList_some]
  · intro op a hanswer
    obtain ⟨hop, t, ht⟩ := hl.tidy.takes_of_answer hanswer (by simp)
    rcases ht.answer with h | h <;> rw [hanswer] at h <;> cases h
    exact ⟨t, rfl, by rw [log_noteSpan l hop, ht.taken, Option.toList_some]⟩
  · intro later hlater hlen s hs
    have hafter := hl.after later
    exact ((hafter.held hlen).covers s ((log_prefix_after l hlater).subset hs)).shows hafter.tidy hlen

/-- Spans in a chunk that was kept, one of no words, and more words than a chunk has. -/
def sampleSpans : List Op :=
  [.allocate 3, .reset, .allocate 1, .emit 7, .allocate 0, .emitWords [1, 2, 3, 4, 5], .emit 9]

theorem sampleSpans_keep :
    let l := (History.fresh (new 2)).after noteSpan sampleSpans
    l.state.contents.length < 0x100000000 ∧
      l.log = [⟨0, 0, 1, 0⟩, ⟨0, 1, 1, 1⟩, ⟨0, 2, 0, 2⟩, ⟨1, 0, 5, 2⟩, ⟨2, 0, 1, 7⟩] ∧
      Tenured l.log l.state ∧
      (∃ b', l.state.apply (.store ⟨1, 0, 5, 2⟩ [5, 4, 3, 2, 1]) = (.ok .done, b') ∧
        b'.read? 6 = some 1 ∧ b'.load? ⟨2, 0, 1, 7⟩ = some [9]) ∧
      (l.after noteSpan [.emit 3]).state.Shows ⟨0, 1, 1, 1⟩ ∧
      (l.serve noteSpan (.allocate 4)).log = l.log ++ [⟨3, 0, 4, 8⟩] := by
  intro l
  have hlen : l.state.contents.length < 0x100000000 := by decide +kernel
  have hspans : l.log = [⟨0, 0, 1, 0⟩, ⟨0, 1, 1, 1⟩, ⟨0, 2, 0, 2⟩, ⟨1, 0, 5, 2⟩, ⟨2, 0, 1, 7⟩] := by
    decide +kernel
  obtain ⟨hspan, -, htenured, hlater⟩ := spans_keep_their_places 2 sampleSpans
  refine ⟨hlen, hspans, htenured hlen, ?_, ?_, ?_⟩
  · obtain ⟨b', happly, hover, hothers⟩ :=
      (htenured hlen).overwrites ⟨1, 0, 5, 2⟩ (by rw [hspans]; decide) [5, 4, 3, 2, 1] rfl
    refine ⟨b', happly, (hover.read 6).trans (by decide), ?_⟩
    exact (hothers ⟨2, 0, 1, 7⟩ (by rw [hspans]; decide) (by decide)).trans (by decide +kernel)
  · exact hlater [.emit 3] (by decide) (by decide +kernel) _ (by rw [hspans]; decide)
  · exact hspan (.allocate 4) _ (Wire.eq_ok_of_toOption (by decide +kernel))

end CodeBuffer

end ScriptBackend
