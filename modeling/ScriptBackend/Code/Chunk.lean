import ScriptBackend.Code.FlatCode

/-!
# Chunks

A chunk is storage for a fixed number of words, all zero at first and handed out
from the front. Cells past the last one written are not stored.
-/

namespace ScriptBackend

structure Chunk where
  capacity : Nat
  used : Nat
  /-- The cells up to the last one written. -/
  cells : Array Word
  deriving DecidableEq, Repr

namespace Chunk

/-- No chunk is larger: its size in bytes is below 2⁶³. -/
def maxCapacity : Nat := 0x1FFFFFFFFFFFFFFF

def new (capacity : Nat) : Chunk := ⟨capacity, 0, #[]⟩

def remaining (c : Chunk) : Nat := c.capacity - c.used

def word (c : Chunk) (i : Nat) : Word := c.cells.getD i 0

def load (c : Chunk) (offset length : Nat) : List Word :=
  (List.range' offset length).map c.word

def put (c : Chunk) (i : Nat) (w : Word) : Chunk :=
  { c with cells :=
      (c.cells ++ Array.replicate (i + 1 - c.cells.size) 0).setIfInBounds i w }

def store (c : Chunk) : (offset : Nat) → List Word → Chunk
  | _, [] => c
  | i, w :: rest => (c.put i w).store (i + 1) rest

def reserve (c : Chunk) (size : Nat) : Chunk := { c with used := c.used + size }

/-- The chunk with nothing handed out; its cells keep their words. -/
def release (c : Chunk) : Chunk := { c with used := 0 }

end Chunk

end ScriptBackend
