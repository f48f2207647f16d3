import MethodCompiler.Toml.Scalar
import MethodCompiler.Toml.Table

/-!
# Reading TOML

A document is a sequence of lines: keys with values, and headers that say which table the following
keys belong to.
-/

namespace MethodCompiler.Toml

/-- The items of an array after its opening bracket, each read by `item`. A comma may stand after the
last one. -/
def arrayItems (item : Scanner Toml) : Nat → Scanner (List Toml)
  | 0, _ => none
  | fuel + 1, cs =>
    match skipLines cs.length cs with
    | ']' :: rest => some ([], rest)
    | cs => do
      let (v, rest) ← item cs
      match skipLines rest.length rest with
      | ']' :: rest => return ([v], rest)
      | ',' :: rest =>
        let (vs, rest) ← arrayItems item fuel rest
        return (v :: vs, rest)
      | _ => none

/-- A key and its value after the equals sign. -/
def keyValue (item : Scanner Toml) (cs : List Char) :
    Option ((List String × Toml) × List Char) := do
  let (path, rest) ← key cs
  match rest with
  | '=' :: rest =>
    let (v, rest) ← item (skipBlanks rest)
    return ((path, v), rest)
  | _ => none

/-- Enter a value under a key that may have dots. -/
def enter (entries : Entries) (path : List String) (v : Toml) : Option Entries := do
  entries.insertDotted path.dropLast (← path.getLast?) v

/-- The entries of a table in braces after the first `entries`. -/
def inlineEntries (item : Scanner Toml) (entries : Entries) :
    Nat → List Char → Option (Entries × List Char)
  | 0, _ => none
  | fuel + 1, cs => do
    let ((path, v), rest) ← keyValue item cs
    let entries ← enter entries path v
    match skipBlanks rest with
    | '\x7d' :: rest => return (entries, rest)
    | ',' :: rest => inlineEntries item entries fuel rest
    | _ => none

/-- A value in which at most `depth` arrays and tables stand inside each other. -/
def value (depth : Nat) (cs : List Char) : Option (Toml × List Char) :=
  match cs with
  | '"' :: _ | '\'' :: _ => (anyString cs).map fun (s, rest) ↦ (.string s, rest)
  | '[' :: rest =>
    match depth with
    | 0 => none
    | depth + 1 => do
      let (items, rest) ← arrayItems (value depth) (rest.length + 1) rest
      return (.array items, rest)
  | '\x7b' :: rest =>
    match depth with
    | 0 => none
    | depth + 1 =>
      match skipBlanks rest with
      | '\x7d' :: rest => some (.table [], rest)
      | rest => do
        let (entries, rest) ← inlineEntries (value depth) [] (rest.length + 1) rest
        return (.table (entriesToml entries), rest)
  | _ => scalar cs

/-- A document up to some line: its entries, and the path of the table that is open. -/
structure Reading where
  entries : Entries := []
  current : List String := []

namespace Reading

/-- Enter a value into the open table. -/
def assign (r : Reading) (path : List String) (v : Toml) : Option Reading := do
  let entries ← Entries.modifyAt .implied (fun _ inner ↦ enter inner path v) r.current .explicit
    r.entries
  return { r with entries }

/-- Open the table of a header. -/
def openSection (r : Reading) (path : List String)
    (openAt : List String → String → Entries → Option Entries) : Option Reading := do
  return { entries := ← openAt path.dropLast (← path.getLast?) r.entries, current := path }

/-- Read one line that is not blank. -/
def line (r : Reading) (cs : List Char) : Option (Reading × List Char) :=
  match cs with
  | '#' :: _ => do return (r, ← endLine? cs)
  | '\n' :: _ | '\r' :: _ => do return (r, ← lineBreak? cs)
  | '[' :: '[' :: rest => do
    let (path, rest) ← key rest
    match rest with
    | ']' :: ']' :: rest => return (← r.openSection path Entries.openElement, ← endLine? rest)
    | _ => none
  | '[' :: rest => do
    let (path, rest) ← key rest
    match rest with
    | ']' :: rest => return (← r.openSection path Entries.openTable, ← endLine? rest)
    | _ => none
  | _ => do
    let ((path, v), rest) ← keyValue (value (depthLimit - 1)) cs
    return (← r.assign path v, ← endLine? rest)

/-- Read lines to the end of a document. -/
def lines (r : Reading) : Nat → List Char → Option Reading
  | 0, _ => none
  | fuel + 1, cs =>
    match skipBlanks cs with
    | [] => some r
    | cs => do
      let (r, rest) ← r.line cs
      lines r fuel rest

end Reading

/-- The entries of a document. A byte order mark may stand first. -/
def parse? (text : String) : Option (List (String × Toml)) := do
  let cs := match text.toList with
    | '\ufeff' :: cs => cs
    | cs => cs
  let r ← Reading.lines {} (cs.length + 1) cs
  return entriesToml r.entries

end MethodCompiler.Toml
