import MethodCompiler.Code.Statement
import MethodCompiler.Error

/-!
# Labels and their positions

A label table lists the labels that code defines, each with the position of its label statement, in
the order of positions. `LabelledCode` keeps code and table together while statements are inserted.
-/

namespace MethodCompiler

/-- The labels of some code with their positions, in the order of positions. -/
abbrev LabelTable := List (String × Nat)

namespace LabelTable

/-- The label statements of `code`, whose first statement has position `start`. -/
def entriesFrom (start : Nat) (code : List Statement) : LabelTable :=
  (code.zipIdx start).filterMap fun (s, i) ↦ s.label?.map (·, i)

/-- The first name that repeats an earlier one. -/
def firstRepeated? : List String → List String → Option String
  | _, [] => none
  | seen, name :: rest => if seen.contains name then some name else firstRepeated? (name :: seen) rest

/-- The table of `code`, which may define no label twice. -/
def build (code : List Statement) : Except Error LabelTable :=
  let entries := entriesFrom 0 code
  match firstRepeated? [] (entries.map (·.1)) with
  | some name => .error (.duplicateLabel name)
  | none => .ok entries

/-- The position of a label. -/
def get? (table : LabelTable) (name : String) : Option Nat :=
  (table.find? (·.1 == name)).map (·.2)

/-- The position of a label that code refers to. -/
def resolve (table : LabelTable) (name : String) : Except Error Nat :=
  match table.get? name with
  | some i => .ok i
  | none => .error (.unresolvedLabel name)

/-- Make room for `n` statements at position `start`: labels there and after it move up. -/
def shift (table : LabelTable) (start n : Nat) : LabelTable :=
  table.map fun (name, i) ↦ (name, if start ≤ i then i + n else i)

/-- The entries in the order of their names. -/
def byName (table : LabelTable) : List (String × Nat) :=
  table.mergeSort fun a b ↦ a.1 ≤ b.1

end LabelTable

/-- Code together with its label table. -/
structure LabelledCode where
  statements : List Statement
  labels : LabelTable
  deriving Repr, Inhabited

namespace LabelledCode

/-- Code with the table of its labels. -/
def ofList (code : List Statement) : Except Error LabelledCode :=
  return ⟨code, ← LabelTable.build code⟩

/-- Insert a statement at a position. Later labels move up, and a label statement enters its own
name, which must be new. -/
def insert (c : LabelledCode) (position : Nat) (s : Statement) : Except Error LabelledCode :=
  let statements := c.statements.take position ++ s :: c.statements.drop position
  let shifted := c.labels.shift position 1
  match s.label? with
  | none => .ok ⟨statements, shifted⟩
  | some name =>
    if (c.labels.get? name).isSome then .error (.duplicateLabel name)
    else
      let earlier := shifted.takeWhile (·.2 < position)
      .ok ⟨statements, earlier ++ (name, position) :: shifted.drop earlier.length⟩

end LabelledCode

end MethodCompiler
