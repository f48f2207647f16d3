import MethodCompiler.Toml.Basic

/-!
# Tables under construction

A table is defined once: by a header, by the dotted keys of one section, or in braces. Until then it
may be implied by the headers of its parts. Each table keeps how it came about, which decides what
may still be added to it.
-/

namespace MethodCompiler.Toml

/-- How a table came about. -/
inductive Origin where
  /-- By a header of its own, or by braces. -/
  | explicit
  /-- By the header of one of its parts. -/
  | implied
  /-- By a dotted key. -/
  | dotted
  deriving DecidableEq, Repr, Inhabited

/-- What stands under a key while a document is read. -/
inductive Item where
  | value (v : Toml)
  | table (origin : Origin) (entries : List (String × Item))
  /-- Tables under headers in double brackets, in order. -/
  | tables (elements : List (List (String × Item)))
  deriving Inhabited

/-- The entries of a table under construction. -/
abbrev Entries := List (String × Item)

namespace Entries

/-- Replace what stands under a key. A new key goes to the end. -/
def alter (key : String) (f : Option Item → Option Item) : Entries → Option Entries
  | [] => (f none).map fun item ↦ [(key, item)]
  | (k, item) :: rest =>
    if k == key then (f (some item)).map fun item ↦ (k, item) :: rest
    else (alter key f rest).map ((k, item) :: ·)

/-- Change the table at the end of a path. Tables that are missing on the way come about as `origin`
says. A dotted key may not lead through a table that has its own header, and of tables in double
brackets the last is meant. -/
def modifyAt (origin : Origin) (f : Origin → Entries → Option Entries) :
    List String → Origin → Entries → Option Entries
  | [], current, entries => f current entries
  | key :: path, _, entries =>
    alter key (fun
      | none => (modifyAt origin f path origin []).map (.table origin)
      | some (.value _) => none
      | some (.table o inner) =>
        if origin == .dotted && o == .explicit then none
        else (modifyAt origin f path o inner).map (.table o)
      | some (.tables elements) =>
        match elements.getLast? with
        | none => none
        | some last =>
          (modifyAt origin f path .explicit last).map fun last ↦
            .tables (elements.dropLast ++ [last])) entries

/-- Enter a value under a new key. -/
def insertNew (key : String) (v : Toml) (entries : Entries) : Option Entries :=
  alter key (fun
    | none => some (.value v)
    | some _ => none) entries

/-- Enter a value under a dotted key. The tables on its way must come about by dotted keys. -/
def insertDotted (path : List String) (key : String) (v : Toml) (entries : Entries) :
    Option Entries :=
  modifyAt .dotted (fun origin inner ↦
    if (origin == .dotted) == path.isEmpty then none else insertNew key v inner)
    path .explicit entries

/-- Open the table of a header, which must not be defined yet. -/
def openTable (path : List String) (key : String) (entries : Entries) : Option Entries :=
  modifyAt .implied (fun _ inner ↦ alter key (fun
    | none => some (.table .explicit [])
    | some (.table .implied inner) => some (.table .explicit inner)
    | some _ => none) inner) path .explicit entries

/-- Open a new table of a header in double brackets. -/
def openElement (path : List String) (key : String) (entries : Entries) : Option Entries :=
  modifyAt .implied (fun _ inner ↦ alter key (fun
    | none => some (.tables [[]])
    | some (.tables elements) => some (.tables (elements ++ [[]]))
    | some _ => none) inner) path .explicit entries

end Entries

mutual

/-- The value of a finished item. -/
def Item.toToml : Item → Toml
  | .value v => v
  | .table _ entries => .table (entriesToml entries)
  | .tables elements => .array (elementsToml elements)

def entriesToml : List (String × Item) → List (String × Toml)
  | [] => []
  | (key, item) :: rest => (key, item.toToml) :: entriesToml rest

def elementsToml : List (List (String × Item)) → List Toml
  | [] => []
  | entries :: rest => .table (entriesToml entries) :: elementsToml rest

end

end MethodCompiler.Toml
