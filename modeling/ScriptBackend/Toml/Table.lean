import ScriptBackend.Binary64.Basic

/-!
# TOML tables

The values of a TOML document, and the rules for putting them together. A table
may be written in several places of a document, but not in any way: a header may
add to a table that was only passed through, a dotted key to one that dotted keys
have made, and an inline table is complete as it stands.
-/

namespace ScriptBackend.Toml

mutual

inductive Node where
  | string (s : String)
  | integer (n : Int)
  | float (x : Binary64)
  | boolean (b : Bool)
  /-- A date, a time or both. -/
  | moment
  | array (elements : List Node)
  /-- A table written in braces. -/
  | inline (t : Table)
  | table (t : Table)
  /-- The tables of repeated double-bracket headers. -/
  | tables (ts : List Table)

inductive Table where
  /-- `implicit`: passed through on the way to another table and not written itself;
  `dotted`: made by a dotted key. -/
  | mk (implicit dotted : Bool) (entries : List (String × Node))

end

namespace Table

def implicit : Table → Bool
  | mk implicit _ _ => implicit

def dotted : Table → Bool
  | mk _ dotted _ => dotted

def entries : Table → List (String × Node)
  | mk _ _ entries => entries

def empty : Table := mk false false []

def get? (t : Table) (key : String) : Option Node := t.entries.lookup key

def erase (t : Table) (key : String) : Table :=
  mk t.implicit t.dotted (t.entries.filter (·.1 ≠ key))

def set (t : Table) (key : String) (value : Node) : Table :=
  if (t.get? key).isSome then
    mk t.implicit t.dotted (t.entries.map fun e => if e.1 = key then (key, value) else e)
  else mk t.implicit t.dotted (t.entries ++ [(key, value)])

/-- Change the table at the end of a path, making tables on the way where there are none.
A repeated table stands for its last element. A dotted key enters only tables that were
not written themselves. -/
def update {α : Type} (dotted : Bool) :
    List String → StateT Table Option α → StateT Table Option α
  | [], change, t => change t
  | key :: rest, change, t =>
    match t.get? key with
    | none => do
      let (a, child) ← update dotted rest change (mk true dotted [])
      some (a, t.set key (.table child))
    | some (.table child) =>
      if dotted && !child.implicit then none
      else do
        let (a, child) ← update dotted rest change child
        some (a, t.set key (.table child))
    | some (.tables ts) =>
      match ts.reverse with
      | [] => none
      | last :: before => do
        let (a, last) ← update dotted rest change last
        some (a, t.set key (.tables (before.reverse ++ [last])))
    | some _ => none

/-- A new entry under a dotted key. The table it goes to must have been made by dotted
keys, or be the one that the key is written in. -/
def insert (path : List String) (key : String) (value : Node) : StateT Table Option Unit :=
  update true path fun t =>
    if t.dotted = path.isEmpty || (t.get? key).isSome then none else some ((), t.set key value)

end Table

end ScriptBackend.Toml
