import ScriptBackend.Code.Chunk
import ScriptBackend.Failure

/-!
# Code under construction

Words are appended to chunks that never move, so a span that has been handed out
stays where it is. Forward references are kept aside: a patch names an address
and its final word, a fixup names an address and the target of the enclosing loop
that it waits for. Both take effect only in the copy that `flatten` makes.
-/

namespace ScriptBackend

inductive LoopTarget where
  | start
  | exit
  | next
  deriving DecidableEq, Repr

def LoopTarget.placeholder : LoopTarget → Word
  | .start => 0
  | .exit => 1
  | .next => 2

structure LoopPoints where
  start : Word
  exit : Word
  next : Word
  deriving DecidableEq, Repr

def LoopPoints.get (p : LoopPoints) : LoopTarget → Word
  | .start => p.start
  | .exit => p.exit
  | .next => p.next

structure Patch where
  address : UInt32
  value : Word
  deriving DecidableEq, Repr

structure Fixup where
  target : LoopTarget
  address : UInt32
  deriving DecidableEq, Repr

def Fixup.patch (f : Fixup) (points : LoopPoints) : Patch := ⟨f.address, points.get f.target⟩

structure LineBreak where
  line : UInt32
  address : UInt32
  deriving DecidableEq, Repr

/-- A stretch of words handed out: `length` words from `offset` of a chunk on, the
first of them at `address` of the code. -/
structure Span where
  chunk : Nat
  offset : Nat
  length : Nat
  address : UInt32
  deriving DecidableEq, Repr

structure CodeBuffer where
  chunks : Array Chunk
  /-- Least capacity of a new chunk. -/
  chunkWords : Nat
  /-- Address of the next word. -/
  position : UInt32
  patches : Array Patch
  fixups : Array Fixup
  /-- For each open loop, innermost first, the number of fixups before it. -/
  marks : List Nat
  lineBreaks : Array LineBreak
  deriving DecidableEq, Repr

namespace CodeBuffer

def defaultChunkWords : Nat := 4096

def new (chunkWords : Nat) : CodeBuffer :=
  { chunks := #[], chunkWords := max chunkWords 1, position := 0, patches := #[], fixups := #[]
    marks := [], lineBreaks := #[] }

def inLoop (b : CodeBuffer) : Bool := !b.marks.isEmpty

def hasRoom (b : CodeBuffer) (size : Nat) : Bool :=
  b.chunks.back?.any fun c => size ≤ c.remaining

def newCapacity (b : CodeBuffer) (size : Nat) : Nat := max b.chunkWords size

def withRoom (b : CodeBuffer) (size : Nat) : Array Chunk :=
  if b.hasRoom size then b.chunks else b.chunks.push (.new (b.newCapacity size))

def checkRoom (b : CodeBuffer) (size : Nat) : Except Failure Unit :=
  if b.hasRoom size || b.newCapacity size ≤ Chunk.maxCapacity then .ok ()
  else .error (.storage (.chunkTooLarge (b.newCapacity size)))

def allocate (b : CodeBuffer) (size : Nat) : Span × CodeBuffer :=
  let chunks := b.withRoom size
  let last := chunks.size - 1
  let offset := (chunks[last]?.map (·.used)).getD 0
  (⟨last, offset, size, b.position⟩,
   { b with
     chunks := chunks.modify last (·.reserve size)
     position := b.position + UInt32.ofNat size })

def load? (b : CodeBuffer) (s : Span) : Option (List Word) := do
  let c ← b.chunks[s.chunk]?
  if s.offset + s.length ≤ c.capacity then some (c.load s.offset s.length) else none

def store (b : CodeBuffer) (s : Span) (words : List Word) : CodeBuffer :=
  { b with chunks := b.chunks.modify s.chunk (·.store s.offset words) }

def store? (b : CodeBuffer) (s : Span) (words : List Word) : Option CodeBuffer :=
  if (b.load? s).isSome ∧ words.length = s.length then some (b.store s words) else none

def emitWords (b : CodeBuffer) (words : List Word) : UInt32 × CodeBuffer :=
  let (span, b) := b.allocate words.length
  (span.address, b.store span words)

def emit (b : CodeBuffer) (word : Word) : UInt32 × CodeBuffer := b.emitWords [word]

def wordIn? : List Chunk → Nat → Option Word
  | [], _ => none
  | c :: rest, i => if i < c.used then some (c.word i) else wordIn? rest (i - c.used)

/-- The word at an address, patches left aside. -/
def read? (b : CodeBuffer) (address : UInt32) : Option Word :=
  wordIn? b.chunks.toList address.toNat

def patch (b : CodeBuffer) (address : UInt32) (value : Word) : CodeBuffer :=
  { b with patches := b.patches.push ⟨address, value⟩ }

def breakLine (b : CodeBuffer) (line address : UInt32) : CodeBuffer :=
  { b with lineBreaks := b.lineBreaks.push ⟨line, address⟩ }

def openLoop (b : CodeBuffer) : CodeBuffer :=
  { b with marks := b.fixups.size :: b.marks }

def addFixup (b : CodeBuffer) (target : LoopTarget) (address : UInt32) : CodeBuffer :=
  { b with fixups := b.fixups.push ⟨target, address⟩ }

def emitFixup (b : CodeBuffer) (target : LoopTarget) : UInt32 × CodeBuffer :=
  let (address, b) := b.emit target.placeholder
  (address, b.addFixup target address)

/-- Turn the fixups of the innermost loop into patches and leave the loop. -/
def closeLoop (b : CodeBuffer) (points : LoopPoints) : Except Failure CodeBuffer :=
  match b.marks with
  | [] => .error (.internal .noOpenLoop)
  | start :: outer =>
    let closed := (b.fixups.toList.drop start).map (·.patch points)
    .ok { b with
      marks := outer
      fixups := b.fixups.extract 0 start
      patches := b.patches ++ closed.toArray }

def words (b : CodeBuffer) : List Word :=
  (b.chunks.toList.flatMap fun c => c.load 0 c.used).take b.position.toNat

def applyPatch (flat : FlatCode) (p : Patch) : Except Failure FlatCode :=
  match flat.set? p.address.toNat p.value with
  | some flat => .ok flat
  | none => .error (.internal (.patchOutsideCode p.address flat.codeLength))

def flatten (b : CodeBuffer) : Except Failure FlatCode :=
  b.patches.toList.foldlM applyPatch
    (.ofParts b.words (b.lineBreaks.toList.flatMap fun l => [l.line, l.address]))

/-- An empty buffer that keeps the storage of its first chunk. -/
def reset (b : CodeBuffer) : CodeBuffer :=
  { new b.chunkWords with chunks := (b.chunks.extract 0 1).map (·.release) }

inductive Op where
  | allocate (size : Nat)
  | store (span : Span) (words : List Word)
  | emit (word : Word)
  | emitWords (words : List Word)
  | emitFixup (target : LoopTarget)
  | patch (address : UInt32) (value : Word)
  | breakLine (line address : UInt32)
  | openLoop
  | addFixup (target : LoopTarget) (address : UInt32)
  | closeLoop (points : LoopPoints)
  | reset
  deriving DecidableEq, Repr

def Op.size? : Op → Option Nat
  | .allocate size => some size
  | .emit _ => some 1
  | .emitWords words => some words.length
  | .emitFixup _ => some 1
  | _ => none

inductive Answer where
  | done
  | address (address : UInt32)
  | span (span : Span)
  deriving DecidableEq, Repr

def run (b : CodeBuffer) : Op → Except Failure Answer × CodeBuffer
  | .allocate size => let (span, b) := b.allocate size; (.ok (.span span), b)
  | .store span words =>
    match b.store? span words with
    | some b => (.ok .done, b)
    | none => (.error (.storage .spanMismatch), b)
  | .emit word => let (address, b) := b.emit word; (.ok (.address address), b)
  | .emitWords words => let (address, b) := b.emitWords words; (.ok (.address address), b)
  | .emitFixup target => let (address, b) := b.emitFixup target; (.ok (.address address), b)
  | .patch address value => (.ok .done, b.patch address value)
  | .breakLine line address => (.ok .done, b.breakLine line address)
  | .openLoop => (.ok .done, b.openLoop)
  | .addFixup target address => (.ok .done, b.addFixup target address)
  | .closeLoop points =>
    match b.closeLoop points with
    | .ok b => (.ok .done, b)
    | .error e => (.error e, b)
  | .reset => (.ok .done, b.reset)

/-- An operation's answer and the buffer after it; a failure leaves the buffer alone. -/
def apply (b : CodeBuffer) (op : Op) : Except Failure Answer × CodeBuffer :=
  match op.size?.elim (.ok ()) b.checkRoom with
  | .error e => (.error e, b)
  | .ok () => b.run op

end CodeBuffer

end ScriptBackend
