/-!
# Flat code

Finished code is one buffer: the code words, then the line breaks as pairs of a
line and an address. Stores reach the code only, so a store just past its end is
refused and cannot damage the line breaks.
-/

namespace ScriptBackend

abbrev Word := UInt32

structure FlatCode where
  buffer : Array Word
  codeLength : Nat
  codeLength_le : codeLength ≤ buffer.size
  deriving DecidableEq, Repr

namespace FlatCode

def ofParts (code lineBreaks : List Word) : FlatCode where
  buffer := (code ++ lineBreaks).toArray
  codeLength := code.length
  codeLength_le := by simp

def code (f : FlatCode) : List Word := f.buffer.toList.take f.codeLength

def lineBreaks (f : FlatCode) : List Word := f.buffer.toList.drop f.codeLength

def toParts (f : FlatCode) : List Word × List Word := f.buffer.toList.splitAt f.codeLength

/-- Words two by two; an odd one at the end is left out. -/
def pairs : List Word → List (Word × Word)
  | a :: b :: rest => (a, b) :: pairs rest
  | _ => []

def linePairs (f : FlatCode) : List (Word × Word) := pairs f.lineBreaks

def set? (f : FlatCode) (i : Nat) (w : Word) : Option FlatCode :=
  if i < f.codeLength then
    some { f with
      buffer := f.buffer.setIfInBounds i w
      codeLength_le := by simpa using f.codeLength_le }
  else none

end FlatCode

end ScriptBackend
