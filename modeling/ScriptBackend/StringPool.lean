import ScriptBackend.Decimal.General
import ScriptBackend.Text.Case
import ScriptBackend.Wire.Codec
import Std.Data.ExtTreeMap

/-!
# String pools

A pool lays texts out one after another, each ended by a NUL byte, and names a
text by the offset of its first byte. A text that is already there is not laid
out again: the first entry that matches answers. Tagged entries leave room for a
numeric tag that may later overwrite them, and never match untagged ones.

The entries in order are the pool; the indices only shorten the search.
-/

namespace ScriptBackend

open Std (ExtTreeMap)
open Text (Byte)

namespace StringPool

/-- Room for a tag: a marker, five digits and a NUL. -/
def taggedSize : UInt32 := 7

structure Entry where
  text : String
  start : UInt32
  /-- Bytes reserved, the NUL included. -/
  size : UInt32
  tagged : Bool
  deriving DecidableEq, Repr

structure Index where
  exact : ExtTreeMap String Nat
  folded : ExtTreeMap String Nat

namespace Index

def empty : Index := ⟨∅, ∅⟩

def find? (ix : Index) (text : String) (caseSensitive : Bool) : Option Nat :=
  if caseSensitive then ix.exact[text]? else ix.folded[Text.fold text]?

/-- A text that is indexed already keeps its position. -/
def add (ix : Index) (text : String) (position : Nat) : Index :=
  { exact := ix.exact.insertIfNew text position
    folded := ix.folded.insertIfNew (Text.fold text) position }

end Index

end StringPool

structure StringPool where
  entries : Array StringPool.Entry
  untagged : StringPool.Index
  tagged : StringPool.Index
  /-- Bytes laid out. -/
  size : UInt32

namespace StringPool

def empty : StringPool := ⟨#[], .empty, .empty, 0⟩

/-- The part of a text before its first NUL, which is all that a pool can hold. -/
def cut (s : String) : String := String.ofList (s.toList.takeWhile (· ≠ '\x00'))

def reserved (text : String) (tagged : Bool) : UInt32 :=
  let plain := UInt32.ofNat (Text.size text) + 1
  if tagged && plain < taggedSize then taggedSize else plain

def index (p : StringPool) (tagged : Bool) : Index := if tagged then p.tagged else p.untagged

def push (p : StringPool) (text : String) (tagged : Bool) : StringPool :=
  let position := p.entries.size
  let size := reserved text tagged
  { entries := p.entries.push ⟨text, p.size, size, tagged⟩
    untagged := if tagged then p.untagged else p.untagged.add text position
    tagged := if tagged then p.tagged.add text position else p.tagged
    size := p.size + size }

/-- The offset of a text, laid out at the end unless an entry matches it. -/
def intern (p : StringPool) (text : String) (caseSensitive tagged : Bool) : UInt32 × StringPool :=
  let text := cut text
  match (p.index tagged).find? text caseSensitive >>= (p.entries[·]?) with
  | some entry => (entry.start, p)
  | none => (p.size, p.push text tagged)

def internInt (p : StringPool) (n : Int) : UInt32 × StringPool :=
  p.intern (toString n) true false

def internFloat (p : StringPool) (x : Binary64) : UInt32 × StringPool :=
  p.intern (Decimal.general x) true false

def search (entries : Array Entry) (offset : UInt32) (lo hi : Nat) : Option Entry :=
  if lo < hi then
    let mid := (lo + hi) / 2
    match entries[mid]? with
    | none => none
    | some e =>
      if e.start = offset then some e
      else if e.start < offset then search entries offset (mid + 1) hi
      else search entries offset lo mid
  else none
termination_by hi - lo

def entryAt? (p : StringPool) (offset : UInt32) : Option Entry :=
  search p.entries offset 0 p.entries.size

def get? (p : StringPool) (offset : UInt32) : Option String := (p.entryAt? offset).map (·.text)

def sizeAt? (p : StringPool) (offset : UInt32) : Option UInt32 := (p.entryAt? offset).map (·.size)

def overlay (buffer : Array Byte) : (position : Nat) → List Byte → Array Byte
  | _, [] => buffer
  | i, b :: rest => overlay (buffer.setIfInBounds i b) (i + 1) rest

/-- An entry's text laid over the buffer, never its last byte. -/
def layOut (buffer : Array Byte) (e : Entry) : Array Byte :=
  overlay buffer e.start.toNat ((Text.bytes e.text).take (e.size.toNat - 1))

/-- The pool as bytes: every text at its offset, zeros between. -/
def bytes (p : StringPool) : List Byte :=
  (p.entries.foldl layOut (Array.replicate p.size.toNat 0)).toList

def encode (p : StringPool) : List Byte := Wire.encode p.bytes

end StringPool

end ScriptBackend
