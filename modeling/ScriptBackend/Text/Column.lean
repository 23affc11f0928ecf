/-!
# Columns

Text set in columns is padded by characters.
-/

namespace ScriptBackend.Text

def padRight (width : Nat) (s : String) : String :=
  s ++ String.ofList (List.replicate (width - s.length) ' ')

def zeroPad (width : Nat) (digits : List Char) : String :=
  String.ofList (List.replicate (width - digits.length) '0' ++ digits)

end ScriptBackend.Text
