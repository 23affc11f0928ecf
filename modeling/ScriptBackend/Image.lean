import ScriptBackend.Locals
import ScriptBackend.Options
import ScriptBackend.References
import ScriptBackend.Text.Terminated

/-!
# Images

An image is a compiled unit: constant pools, open identifier references, locals
and flat code. `Image.read` takes one from its form on the wire, part by part, and
refuses anything that is left over.
-/

namespace ScriptBackend

open Text (Byte)

structure Image where
  mode : Mode
  globalStrings : List Byte
  functionStrings : List Byte
  globalFloats : List Binary64
  functionFloats : List Binary64
  /-- Newest first; none unless references are deferred. -/
  references : List Reference
  locals : Locals
  code : FlatCode

namespace Image

def version : UInt32 := 1

structure Header where
  version : UInt32
  mode : Mode
  deriving DecidableEq, Repr

instance : Wire Header where
  encode h := Wire.encode h.version ++ Wire.encode h.mode
  decode := do
    let version ← Wire.decode
    let mode ← Wire.decode
    pure ⟨version, mode⟩

def globalText? (i : Image) (offset : UInt32) : Option String := Text.textAt? i.globalStrings offset

def functionText? (i : Image) (offset : UInt32) : Option String := Text.textAt? i.functionStrings offset

/-- Equality of images with numbers compared as numbers: an image with a NaN is not even
equal to itself. -/
def numEq (a b : Image) : Bool :=
  a.mode == b.mode && a.globalStrings == b.globalStrings && a.functionStrings == b.functionStrings &&
    sameNumbers a.globalFloats b.globalFloats && sameNumbers a.functionFloats b.functionFloats &&
    a.references == b.references && a.locals == b.locals && a.code == b.code
where
  sameNumbers (xs ys : List Binary64) : Bool :=
    xs.length == ys.length && (xs.zip ys).all fun (x, y) => x.numEq y

def writePart {α : Type} [Wire α] (v : α) (sink : List Byte) : List Byte := sink ++ Wire.encode v

abbrev Reader := StateT (List Byte) (Except Failure)

def readPart (α : Type) [Wire α] (name : String) : Reader α := fun bs =>
  match (Wire.decode : Wire.Reader α) bs with
  | .ok result => .ok result
  | .error cause => .error (.decoding name cause)

def readHeader : Reader Mode := do
  let header ← readPart Header "header"
  if header.version = version then pure header.mode
  else throw (.imageVersion header.version version)

/-- The references are on the wire only if they are deferred. -/
def readReferences (mode : Mode) : Reader (List Reference) :=
  match mode with
  | .immediate => pure []
  | .deferred => readPart (List Reference) "identifier table"

def readParts : Reader Image := do
  let mode ← readHeader
  let globalStrings ← readPart (List Byte) "string pool"
  let functionStrings ← readPart (List Byte) "string pool"
  let globalFloats ← readPart (List Binary64) "float pool"
  let functionFloats ← readPart (List Binary64) "float pool"
  let references ← readReferences mode
  let frames ← readPart (List Frame) "local variable table"
  let code ← readPart (List Word) "code"
  let lineBreaks ← readPart (List Word) "line breaks"
  pure {
    mode, globalStrings, functionStrings, globalFloats, functionFloats, references
    locals := .ofFrames frames
    code := .ofParts code lineBreaks }

def read (bs : List Byte) : Except Failure Image := do
  let (image, rest) ← readParts.run bs
  if rest.isEmpty then pure image else throw (.internal (.trailingBytes rest.length))

end Image

end ScriptBackend
