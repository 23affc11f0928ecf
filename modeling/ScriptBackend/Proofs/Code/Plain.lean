import ScriptBackend.Proofs.Code.Contents

/-!
# Chunks cannot be observed

`PlainCode` is code without storage: one list of words, and for each open loop
the fixups that wait for it. A buffer answers every edit as plain code does and
looks the same after it, whatever its chunks are, as long as the code stays
below 2³² words and its chunks can be made at all.
-/

namespace ScriptBackend

namespace CodeBuffer

/-- An operation that leaves no word unwritten. -/
inductive Edit where
  | emit (word : Word)
  | emitWords (words : List Word)
  | emitFixup (target : LoopTarget)
  /-- Take a span and store the whole of it. -/
  | fill (words : List Word)
  | patch (address : UInt32) (value : Word)
  | breakLine (line address : UInt32)
  | openLoop
  | addFixup (target : LoopTarget) (address : UInt32)
  | closeLoop (points : LoopPoints)
  | reset
  deriving DecidableEq, Repr

def Edit.appended? : Edit → Option (List Word)
  | .emit word => some [word]
  | .emitWords words => some words
  | .emitFixup target => some [target.placeholder]
  | .fill words => some words
  | _ => none

def fill (b : CodeBuffer) (words : List Word) : Except Failure Answer × CodeBuffer :=
  match b.apply (.allocate words.length) with
  | (.ok (.span span), b) =>
    let (result, b) := b.apply (.store span words)
    (result.map fun _ => .address span.address, b)
  | failed => failed

def edit (b : CodeBuffer) : Edit → Except Failure Answer × CodeBuffer
  | .emit word => b.apply (.emit word)
  | .emitWords words => b.apply (.emitWords words)
  | .emitFixup target => b.apply (.emitFixup target)
  | .fill words => b.fill words
  | .patch address value => b.apply (.patch address value)
  | .breakLine line address => b.apply (.breakLine line address)
  | .openLoop => b.apply .openLoop
  | .addFixup target address => b.apply (.addFixup target address)
  | .closeLoop points => b.apply (.closeLoop points)
  | .reset => b.apply .reset

structure Observation where
  length : Nat
  read : UInt32 → Option Word
  pendingFixups : Nat
  inLoop : Bool
  lineBreakCount : Nat
  flat : Except Failure FlatCode

def observe (b : CodeBuffer) : Observation where
  length := b.position.toNat
  read := b.read?
  pendingFixups := b.fixups.size
  inLoop := b.inLoop
  lineBreakCount := b.lineBreaks.size
  flat := b.flatten

def trace (b : CodeBuffer) : List Edit → List (Except Failure Answer × Observation)
  | [] => []
  | e :: es => ((b.edit e).1, (b.edit e).2.observe) :: (b.edit e).2.trace es

end CodeBuffer

-- ---------------------------------------------------------------------------
-- Plain code
-- ---------------------------------------------------------------------------

structure PlainCode where
  words : List Word
  patches : List Patch
  /-- Fixups added outside any loop, which nothing resolves. -/
  loose : List Fixup
  /-- The fixups of each open loop, innermost first. -/
  loops : List (List Fixup)
  lineBreaks : List LineBreak
  deriving DecidableEq, Repr

namespace PlainCode

open CodeBuffer (Answer Edit Observation)

def empty : PlainCode := ⟨[], [], [], [], []⟩

def append (t : PlainCode) (words : List Word) : PlainCode := { t with words := t.words ++ words }

def next (t : PlainCode) : UInt32 := UInt32.ofNat t.words.length

def addFixup (t : PlainCode) (f : Fixup) : PlainCode :=
  match t.loops with
  | [] => { t with loose := t.loose ++ [f] }
  | inner :: outer => { t with loops := (inner ++ [f]) :: outer }

def waiting (loose : List Fixup) : List (List Fixup) → List Fixup
  | [] => loose
  | inner :: outer => waiting loose outer ++ inner

def edit (t : PlainCode) : Edit → Except Failure Answer × PlainCode
  | .emit word => (.ok (.address t.next), t.append [word])
  | .emitWords words => (.ok (.address t.next), t.append words)
  | .emitFixup target =>
    (.ok (.address t.next), (t.append [target.placeholder]).addFixup ⟨target, t.next⟩)
  | .fill words => (.ok (.address t.next), t.append words)
  | .patch address value => (.ok .done, { t with patches := t.patches ++ [⟨address, value⟩] })
  | .breakLine line address => (.ok .done, { t with lineBreaks := t.lineBreaks ++ [⟨line, address⟩] })
  | .openLoop => (.ok .done, { t with loops := [] :: t.loops })
  | .addFixup target address => (.ok .done, t.addFixup ⟨target, address⟩)
  | .closeLoop points =>
    match t.loops with
    | [] => (.error (.internal .noOpenLoop), t)
    | inner :: outer =>
      (.ok .done, { t with loops := outer, patches := t.patches ++ inner.map (·.patch points) })
  | .reset => (.ok .done, empty)

def flatten (t : PlainCode) : Except Failure FlatCode :=
  t.patches.foldlM CodeBuffer.applyPatch
    (.ofParts t.words (t.lineBreaks.flatMap fun l => [l.line, l.address]))

def observe (t : PlainCode) : Observation where
  length := t.words.length
  read address := t.words[address.toNat]?
  pendingFixups := (waiting t.loose t.loops).length
  inLoop := !t.loops.isEmpty
  lineBreakCount := t.lineBreaks.length
  flat := t.flatten

def trace (t : PlainCode) : List Edit → List (Except Failure Answer × Observation)
  | [] => []
  | e :: es => ((t.edit e).1, (t.edit e).2.observe) :: (t.edit e).2.trace es

def after (t : PlainCode) (es : List Edit) : PlainCode := es.foldl (fun t e => (t.edit e).2) t

/-- Where the fixups of each open loop begin among those that wait. -/
def marks (loose : List Fixup) : List (List Fixup) → List Nat
  | [] => []
  | _ :: outer => (waiting loose outer).length :: marks loose outer

end PlainCode

-- ---------------------------------------------------------------------------
-- Buffers represent plain code
-- ---------------------------------------------------------------------------

namespace CodeBuffer

structure Represents (b : CodeBuffer) (t : PlainCode) : Prop where
  tidy : b.Tidy
  words : b.contents = t.words
  patches : b.patches.toList = t.patches
  fixups : b.fixups.toList = PlainCode.waiting t.loose t.loops
  marks : b.marks = PlainCode.marks t.loose t.loops
  lineBreaks : b.lineBreaks.toList = t.lineBreaks

theorem represents_new (chunkWords : Nat) : Represents (new chunkWords) .empty :=
  ⟨tidy_new chunkWords, rfl, rfl, rfl, rfl, rfl⟩

theorem Represents.position (h : Represents b t) : b.position = t.next := by
  rw [h.tidy.position, h.words, PlainCode.next]

theorem Tidy.represents_reset (hb : Tidy b) : Represents b.reset .empty :=
  ⟨hb.reset, contents_reset b, rfl, rfl, rfl, rfl⟩

theorem Represents.emitWords (h : Represents b t)
    (hcap : b.newCapacity ws.length ≤ Chunk.maxCapacity) :
    Represents (b.emitWords ws).2 (t.append ws) where
  tidy := h.tidy.emitWords hcap
  words := by rw [h.tidy.contents_emitWords hcap, h.words, PlainCode.append]
  patches := h.patches
  fixups := h.fixups
  marks := h.marks
  lineBreaks := h.lineBreaks

theorem Represents.addFixup (h : Represents b t) (target : LoopTarget) (address : UInt32) :
    Represents (b.addFixup target address) (t.addFixup ⟨target, address⟩) := by
  have hfixups := h.fixups
  have hmarks := h.marks
  unfold PlainCode.addFixup
  split
  · rename_i hloops
    rw [hloops] at hfixups hmarks
    refine ⟨⟨h.tidy.1, h.tidy.2, h.tidy.3⟩, h.words, h.patches, ?_, ?_, h.lineBreaks⟩
    · simpa [CodeBuffer.addFixup, PlainCode.waiting, hloops] using hfixups
    · simpa [CodeBuffer.addFixup, PlainCode.marks, hloops] using hmarks
  · rename_i inner outer hloops
    rw [hloops] at hfixups hmarks
    refine ⟨⟨h.tidy.1, h.tidy.2, h.tidy.3⟩, h.words, h.patches, ?_, hmarks, h.lineBreaks⟩
    simp [CodeBuffer.addFixup, PlainCode.waiting, hfixups]

theorem Represents.closeLoop {inner : List Fixup} (h : Represents b t)
    (hloops : t.loops = inner :: outer) (points : LoopPoints) :
    ∃ b', b.closeLoop points = .ok b' ∧
      Represents b'
        { t with loops := outer, patches := t.patches ++ inner.map (·.patch points) } := by
  have hfixups := h.fixups
  have hmarks := h.marks
  rw [hloops] at hfixups hmarks
  simp only [PlainCode.waiting, PlainCode.marks] at hfixups hmarks
  have hclose : b.closeLoop points = .ok
      { b with
        marks := PlainCode.marks t.loose outer
        fixups := b.fixups.extract 0 (PlainCode.waiting t.loose outer).length
        patches := b.patches ++ (inner.map (·.patch points)).toArray } := by
    rw [CodeBuffer.closeLoop, hmarks]
    simp [hfixups]
  refine ⟨_, hclose, ⟨h.tidy.1, h.tidy.2, h.tidy.3⟩, h.words, ?_, ?_, rfl, h.lineBreaks⟩
  · simp [h.patches]
  · simp [hfixups]

theorem Represents.closeLoop_none (h : Represents b t) (hloops : t.loops = [])
    (points : LoopPoints) : b.closeLoop points = .error (.internal .noOpenLoop) := by
  have hmarks := h.marks
  rw [hloops] at hmarks
  rw [CodeBuffer.closeLoop, hmarks]
  rfl

-- ---------------------------------------------------------------------------
-- Edits
-- ---------------------------------------------------------------------------

theorem Tidy.apply_append (hb : Tidy b) (hsize : op.size? = some n)
    (hcap : b.newCapacity n ≤ Chunk.maxCapacity) : b.apply op = b.run op := by
  simp [apply, hsize, hb.checkRoom_eq, hcap]

theorem Tidy.fill_eq (hb : Tidy b) (hcap : b.newCapacity ws.length ≤ Chunk.maxCapacity) :
    b.fill ws = (.ok (.address b.position), (b.emitWords ws).2) := by
  have hstore : (b.allocate ws.length).2.apply (.store (b.allocate ws.length).1 ws) =
      (.ok .done, (b.emitWords ws).2) := by
    simp [apply, run, Op.size?, hb.store?_allocate hcap]
  have halloc : b.apply (.allocate ws.length) =
      (.ok (.span (b.allocate ws.length).1), (b.allocate ws.length).2) :=
    hb.apply_append rfl hcap
  rw [fill, halloc]
  simp only [hstore]
  rfl

theorem Represents.edit (h : Represents b t)
    (hcap : ∀ ws, e.appended? = some ws → b.newCapacity ws.length ≤ Chunk.maxCapacity) :
    (b.edit e).1 = (t.edit e).1 ∧ Represents (b.edit e).2 (t.edit e).2 := by
  have hanswer : (.ok (.address b.position) : Except Failure Answer) = .ok (.address t.next) := by
    rw [h.position]
  cases e with
  | emit word =>
    have hcap := hcap [word] rfl
    rw [CodeBuffer.edit, h.tidy.apply_append rfl hcap]
    exact ⟨hanswer, h.emitWords hcap⟩
  | emitWords words =>
    have hcap := hcap words rfl
    rw [CodeBuffer.edit, h.tidy.apply_append rfl hcap]
    exact ⟨hanswer, h.emitWords hcap⟩
  | emitFixup target =>
    have hcap := hcap [target.placeholder] rfl
    rw [CodeBuffer.edit, h.tidy.apply_append rfl hcap]
    refine ⟨hanswer, ?_⟩
    rw [PlainCode.edit, ← h.position]
    exact (h.emitWords hcap).addFixup target b.position
  | fill words =>
    have hcap := hcap words rfl
    rw [CodeBuffer.edit, h.tidy.fill_eq hcap]
    exact ⟨hanswer, h.emitWords hcap⟩
  | patch address value =>
    refine ⟨rfl, ⟨h.tidy.1, h.tidy.2, h.tidy.3⟩, h.words, ?_, h.fixups, h.marks, h.lineBreaks⟩
    show (b.patches.push ⟨address, value⟩).toList = t.patches ++ [⟨address, value⟩]
    rw [Array.toList_push, h.patches]
  | breakLine line address =>
    refine ⟨rfl, ⟨h.tidy.1, h.tidy.2, h.tidy.3⟩, h.words, h.patches, h.fixups, h.marks, ?_⟩
    show (b.lineBreaks.push ⟨line, address⟩).toList = t.lineBreaks ++ [⟨line, address⟩]
    rw [Array.toList_push, h.lineBreaks]
  | openLoop =>
    refine ⟨rfl, ⟨h.tidy.1, h.tidy.2, h.tidy.3⟩, h.words, h.patches, ?_, ?_, h.lineBreaks⟩
    · show b.fixups.toList = PlainCode.waiting t.loose t.loops ++ []
      rw [List.append_nil, h.fixups]
    · show b.fixups.size :: b.marks = (PlainCode.waiting t.loose t.loops).length :: _
      rw [← h.fixups, h.marks, Array.length_toList]
      rfl
  | addFixup target address => exact ⟨rfl, h.addFixup target address⟩
  | closeLoop points =>
    have happly : b.edit (.closeLoop points) = b.run (.closeLoop points) := rfl
    rw [happly]
    cases hloops : t.loops with
    | nil =>
      simp only [run, h.closeLoop_none hloops points, PlainCode.edit, hloops]
      exact ⟨trivial, h⟩
    | cons inner outer =>
      obtain ⟨b', hclose, hrep⟩ := h.closeLoop hloops points
      simp only [run, hclose, PlainCode.edit, hloops]
      exact ⟨trivial, hrep⟩
  | reset => exact ⟨rfl, h.tidy.represents_reset⟩

theorem Tidy.edit_of_full (hb : Tidy b) (hwords : e.appended? = some ws)
    (hcap : ¬ b.newCapacity ws.length ≤ Chunk.maxCapacity) :
    b.edit e = (.error (.storage (.chunkTooLarge (b.newCapacity ws.length))), b) := by
  have hcheck : b.checkRoom ws.length =
      .error (.storage (.chunkTooLarge (b.newCapacity ws.length))) := by
    rw [hb.checkRoom_eq, if_neg hcap]
  have happly : ∀ op : Op, op.size? = some ws.length →
      b.apply op = (.error (.storage (.chunkTooLarge (b.newCapacity ws.length))), b) := by
    intro op hop
    simp [apply, hop, hcheck]
  cases e with
  | emit _ | emitWords _ | emitFixup _ =>
    cases hwords
    exact happly _ rfl
  | fill _ =>
    cases hwords
    rw [CodeBuffer.edit, fill, happly _ rfl]
  | _ => cases hwords

theorem Tidy.chunkWords_apply (hb : Tidy b) (op : Op) : (b.apply op).2.chunkWords = b.chunkWords := by
  unfold apply
  split
  · rfl
  · cases op with
    | store span words =>
      simp only [run]
      split
      · rename_i h
        simp only [store?] at h
        split at h
        · cases h
          rfl
        · cases h
      · rfl
    | closeLoop points =>
      simp only [run]
      split
      · rename_i h
        simp only [CodeBuffer.closeLoop] at h
        split at h
        · cases h
        · cases h
          rfl
      · rfl
    | reset => exact Nat.max_eq_left hb.chunkWords_pos
    | _ => rfl

theorem Tidy.chunkWords_edit (hb : Tidy b) (e : Edit) : (b.edit e).2.chunkWords = b.chunkWords := by
  cases e with
  | fill words =>
    by_cases hcap : b.newCapacity words.length ≤ Chunk.maxCapacity
    · rw [edit, hb.fill_eq hcap]
      rfl
    · rw [hb.edit_of_full rfl hcap]
  | _ => exact hb.chunkWords_apply _

theorem Represents.flatten (h : Represents b t) (hlen : t.words.length < 0x100000000) :
    b.flatten = t.flatten := by
  have hlen : b.contents.length < 0x100000000 := h.words ▸ hlen
  rw [CodeBuffer.flatten, PlainCode.flatten, h.tidy.words_eq hlen, h.words, h.patches, h.lineBreaks]

theorem Represents.observe (h : Represents b t) (hlen : t.words.length < 0x100000000) :
    b.observe = t.observe := by
  have hflat := h.flatten hlen
  have hlen : b.contents.length < 0x100000000 := h.words ▸ hlen
  have hread : b.read? = fun address => t.words[address.toNat]? := by
    funext address
    rw [read?_eq, h.words]
  have hloop : b.inLoop = !t.loops.isEmpty := by
    rw [inLoop, h.marks]
    cases t.loops <;> rfl
  rw [CodeBuffer.observe, PlainCode.observe, h.tidy.toNat_position hlen, hflat, hread, hloop, h.words,
    ← h.fixups, ← h.lineBreaks, Array.length_toList, Array.length_toList]

theorem words_edit_append (t : PlainCode) {e : Edit} (h : e.appended? = some ws) :
    (t.edit e).2.words = t.words ++ ws := by
  cases e with
  | emitFixup target =>
    cases h
    simp only [PlainCode.edit, PlainCode.addFixup]
    split <;> rfl
  | emit _ | emitWords _ | fill _ =>
    cases h
    rfl
  | _ => cases h

/-- The run lemma: code that stays below 2³² words looks plain after every edit. The
induction is on the edits; each is one step of `Represents.edit`. -/
theorem Represents.trace (h : Represents b t) (hchunk : b.chunkWords ≤ Chunk.maxCapacity)
    {es : List Edit} (hlen : ∀ n ≤ es.length, (t.after (es.take n)).words.length < 0x100000000) :
    b.trace es = t.trace es := by
  induction es generalizing b t with
  | nil => rfl
  | cons e es ih =>
    have hfirst : (t.edit e).2.words.length < 0x100000000 := hlen 1 (by simp)
    have hcap : ∀ ws, e.appended? = some ws → b.newCapacity ws.length ≤ Chunk.maxCapacity := by
      intro ws hws
      rw [words_edit_append t hws, List.length_append] at hfirst
      simp only [newCapacity, Chunk.maxCapacity] at *
      omega
    obtain ⟨hanswer, hrep⟩ := h.edit hcap
    have hrest := ih hrep (by rwa [h.tidy.chunkWords_edit]) (by
      intro n hn
      exact hlen (n + 1) (by simpa using hn))
    rw [CodeBuffer.trace, PlainCode.trace, hanswer, hrep.observe hfirst, hrest]

/-- Chunks cannot be observed: whatever their capacities, two buffers give the same answers to
the same edits and look the same after each. They answer as a list of words does: an append
gives the length before it, and an address holds the word at that place of the list. -/
theorem chunks_unobservable (c₁ c₂ : Nat) (h₁ : c₁ ≤ Chunk.maxCapacity)
    (h₂ : c₂ ≤ Chunk.maxCapacity) (es : List Edit)
    (hlen : ∀ n ≤ es.length, (PlainCode.empty.after (es.take n)).words.length < 0x100000000) :
    (new c₁).trace es = (new c₂).trace es ∧ (new c₁).trace es = PlainCode.empty.trace es := by
  have hplain : ∀ c ≤ Chunk.maxCapacity, (new c).trace es = PlainCode.empty.trace es := by
    intro c hc
    refine (represents_new c).trace ?_ hlen
    simp only [new, Chunk.maxCapacity] at *
    omega
  exact ⟨(hplain c₁ h₁).trans (hplain c₂ h₂).symm, hplain c₁ h₁⟩

def sampleEdits : List Edit :=
  [.emit 7, .openLoop, .fill [1, 2, 3, 4, 5], .emitFixup .exit, .patch 0 9, .closeLoop ⟨0, 6, 2⟩,
   .reset, .emitWords [8, 8]]

theorem sampleEdits_unobservable :
    (new 0).trace sampleEdits = (new 3).trace sampleEdits ∧
      (new 0).trace sampleEdits = PlainCode.empty.trace sampleEdits :=
  chunks_unobservable 0 3 (by decide) (by decide) sampleEdits (by decide)

/-- A chunk beyond the limit cannot be made, so a buffer that asks for such chunks can be told
from others by its first append. -/
theorem oversized_chunk_observable :
    (new (Chunk.maxCapacity + 1)).trace [.emit 7] ≠ (new 1).trace [.emit 7] := by
  intro h
  have hsucceeds := congrArg (List.map fun step => step.1.toBool) h
  revert hsucceeds
  decide

end CodeBuffer

end ScriptBackend
