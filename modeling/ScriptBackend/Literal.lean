import ScriptBackend.Literal.Hex
import ScriptBackend.Reporter
import ScriptBackend.Text.Blank
import ScriptBackend.Text.Case

/-!
# Literals as numbers

A literal used where a number is needed counts as the number at its front. One
without a number there is zero, unless it spells a truth value; a zero that comes
from nothing is reported where a location is known.
-/

namespace ScriptBackend.Literal

def beginsWith (word : String) (cs : List Char) : Bool :=
  (cs.take word.length).map Char.toLower == word.toList

/-- The number at the front of a text that has neither blanks nor a sign in front. -/
def unsignedNumber (negative : Bool) (cs : List Char) : Binary64 :=
  let signed (x : Binary64) : Binary64 := if negative then -x else x
  if beginsWith "infinity" cs || beginsWith "inf" cs then .infinity negative
  else if beginsWith "nan" cs then signed .nan
  else
    match cs with
    | '0' :: 'x' :: rest => signed (HexNumeral.scan rest).value
    | '0' :: 'X' :: rest => signed (HexNumeral.scan rest).value
    | _ =>
      match Numeral.scan? cs with
      | some (numeral, _) => numeral.value negative
      | none => .zero false

def leadingNumber (text : String) : Binary64 :=
  let (sign, rest) := Numeral.scanSign (text.toList.dropWhile Text.isBlank)
  unsignedNumber (sign == some '-') rest

def toNumber (text : String) (location : Option Location) : Fallible Reporter Binary64 := do
  let x := leadingNumber text
  if !x.isZero then return x
  if Text.SameName text "true" then return .one
  if Text.SameName text "false" then return .zero false
  if let some location := location then Reporter.report (.alwaysZero location)
  return .zero false

end ScriptBackend.Literal
