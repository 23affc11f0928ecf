/-!
# Text without case

Names in scripts are compared without regard to the case of ASCII letters.
No other letter is folded, so `É` and `é` stay different names.
-/

namespace ScriptBackend.Text

/-- The text with its ASCII letters lowered. -/
def fold (s : String) : String :=
  String.ofList (s.toList.map Char.toLower)

def SameName (a b : String) : Prop := fold a = fold b

instance (a b : String) : Decidable (SameName a b) :=
  inferInstanceAs (Decidable (fold a = fold b))

@[simp] theorem toList_fold (s : String) : (fold s).toList = s.toList.map Char.toLower := by
  simp [fold]

end ScriptBackend.Text
