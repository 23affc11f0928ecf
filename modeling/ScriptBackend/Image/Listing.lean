import ScriptBackend.Decimal.Shortest
import ScriptBackend.Image
import ScriptBackend.Text.Column
import ScriptBackend.Text.Quoted

/-!
# Listings

An image as text: pools, references and locals under headings, then the code word
by word with the source lines that begin there and the identifiers it waits for.
-/

namespace ScriptBackend.Image

open Std (ExtTreeMap)
open Text (Byte padRight zeroPad)

/-- The runs of non-zero bytes of a pool, each with the offset of its first byte. -/
def runs (offset : Nat) (pool : List Byte) : List (Nat × List Byte) :=
  match pool with
  | [] => []
  | b :: rest =>
    let run := (b :: rest).takeWhile (· ≠ 0)
    let later := runs (offset + run.length + 1) (((b :: rest).dropWhile (· ≠ 0)).drop 1)
    if run.isEmpty then later else (offset, run) :: later
termination_by pool.length
decreasing_by
  have : ((b :: rest).dropWhile (· ≠ 0)).length ≤ (b :: rest).length :=
    (List.dropWhile_sublist _).length_le
  simp only [List.length_drop, List.length_cons] at *
  omega

def poolTexts (pool : List Byte) : List (Nat × String) :=
  (runs 0 pool).map fun (offset, run) => (offset, Text.ofBytesLossy run)

def rule : String := String.ofList (List.replicate 40 '═')

def heading (title : String) (count : Nat) : List String :=
  [rule, " " ++ title ++ " (" ++ toString count ++ ")", rule]

/-- Lines under a heading, or nothing at all. -/
def listed (title : String) (count : Nat) (lines : List String) : List String :=
  if count = 0 then [] else heading title count ++ lines ++ [""]

def stringLines (title : String) (pool : List Byte) : List String :=
  listed title pool.length <| (poolTexts pool).map fun (offset, text) =>
    "  @" ++ padRight 6 (toString offset) ++ " " ++ Text.quoted text

def floatLines (title : String) (pool : List Binary64) : List String :=
  listed title pool.length <| pool.zipIdx.map fun (x, i) =>
    "  #" ++ padRight 6 (toString i) ++ " " ++ Decimal.shortest x

def nameAt (i : Image) (offset : UInt32) : String := (i.globalText? offset).getD "?"

def addressList (addresses : List UInt32) : String :=
  "[" ++ String.intercalate ", " (addresses.map fun a => toString a.toNat) ++ "]"

def referenceLines (i : Image) : List String :=
  listed "identifier references" i.references.length <| i.references.map fun r =>
    "  @" ++ padRight 6 (toString r.offset.toNat) ++ " " ++ padRight 20 (i.nameAt r.offset) ++ " " ++
      addressList r.addresses

def frameLines (f : Frame) : List String :=
  ("  " ++ f.key) :: f.slots.zipIdx.map fun (name, slot) =>
    "    r" ++ padRight 4 (toString slot) ++ " " ++ name

def localLines (i : Image) : List String :=
  listed "local variables" i.locals.size (i.locals.frames.flatMap frameLines)

/-- The line that begins at an address; the last one noted counts. -/
def lineAt (i : Image) : ExtTreeMap UInt32 UInt32 :=
  i.code.linePairs.foldl (fun m (line, address) => m.insert address line) ∅

def identifierAt (i : Image) : ExtTreeMap UInt32 UInt32 :=
  i.references.foldl
    (fun m r => r.addresses.foldl (fun m address => m.insert address r.offset) m) ∅

def wordLines (i : Image) (lines identifiers : ExtTreeMap UInt32 UInt32) (word : Word) (position : Nat) :
    List String :=
  let address := UInt32.ofNat position
  let line := lines[address]?
  let shown :=
    zeroPad 4 (Nat.toDigits 10 position) ++ " " ++ (if line.isSome then "► " else "  ") ++
      zeroPad 8 (Nat.toDigits 16 word.toNat)
  let note :=
    match identifiers[address]? with
    | some offset => "    ; ident '" ++ i.nameAt offset ++ "'"
    | none => ""
  (line.toList.map fun l => "      ┌─── line " ++ toString l.toNat) ++ [shown ++ note]

def codeLines (i : Image) : List String :=
  let lines := i.lineAt
  let identifiers := i.identifierAt
  heading "code" i.code.codeLength ++
    i.code.code.zipIdx.flatMap fun (word, position) => i.wordLines lines identifiers word position

def lines (i : Image) : List String :=
  ["=== COMPILED IMAGE (" ++ i.mode.text ++ ") ===", ""] ++
    stringLines "global strings" i.globalStrings ++
    stringLines "function strings" i.functionStrings ++
    floatLines "global floats" i.globalFloats ++
    floatLines "function floats" i.functionFloats ++
    i.referenceLines ++ i.localLines ++ i.codeLines

def listing (i : Image) : String := String.join (i.lines.map (· ++ "\n"))

end ScriptBackend.Image
