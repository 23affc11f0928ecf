import ScriptBackend.Text.Hidden

/-!
# Quoted text

Text between double quotes, on one line and without hidden characters. Quotes,
backslashes and a few controls have short escapes; other controls and the hidden
characters are written by their code points.
-/

namespace ScriptBackend.Text

def codePointEscape (c : Char) : List Char :=
  '\\' :: 'u' :: '\x7b' :: Nat.toDigits 16 c.toNat ++ ['\x7d']

def escapeChar (c : Char) : List Char :=
  if c = '"' ∨ c = '\\' then ['\\', c]
  else if c = '\n' then ['\\', 'n']
  else if c = '\r' then ['\\', 'r']
  else if c = '\t' then ['\\', 't']
  else if c = '\x00' then ['\\', '0']
  else if c < ' ' ∨ c = '\x7f' then codePointEscape c
  else if '\x7f' < c ∧ isHidden c then codePointEscape c
  else [c]

def quoted (s : String) : String :=
  String.ofList ('"' :: s.toList.flatMap escapeChar ++ ['"'])

end ScriptBackend.Text
