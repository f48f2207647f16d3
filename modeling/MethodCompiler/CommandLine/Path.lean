/-!
# Paths

The few operations on paths that the command line needs. Parts are separated by slashes; an empty
part and a dot stand for nothing, except for a slash or a dot at the start.
-/

namespace MethodCompiler.Path

/-- Drop the parts at the end that stand for nothing. The parts come last first, and the one at the
start of the path is kept. -/
def dropVoid : List String → List String
  | part :: next :: rest =>
    if part == "" || part == "." then dropVoid (next :: rest) else part :: next :: rest
  | parts => parts

/-- The directory of a path: the path without its last part, and the current directory for the root,
which has none. -/
def directory (path : String) : String :=
  match dropVoid (path.splitOn "/").reverse with
  | [] | [""] => "."
  | _ :: rest =>
    match dropVoid rest with
    | [] => ""
    | [""] => "/"
    | parts => "/".intercalate parts.reverse

/-- The path of a file in a directory. -/
def join (dir file : String) : String :=
  if dir.isEmpty || dir.endsWith "/" then dir ++ file else dir ++ "/" ++ file

/-- A file name without its extension. A dot at the start of a name starts no extension. -/
def stem (name : List Char) : List Char :=
  match (name.reverse.dropWhile (· != '.')).drop 1 with
  | [] => name
  | before => before.reverse

/-- One dot and two dots name directories. -/
def isDots (name : List Char) : Bool := name == ['.'] || name == ['.', '.']

/-- A path of a file with its extension replaced, or added if it has none. Where only dots stand before
the old extension, they name a directory, and a directory gets no extension. -/
def withExtension (path extension : String) : String :=
  let name := (path.toList.reverse.takeWhile (· != '/')).reverse
  let dir := path.toList.take (path.length - name.length)
  let kept := if stem name == name then name else stem name ++ ['.']
  if isDots kept then String.ofList (dir ++ kept)
  else String.ofList (dir ++ stem name) ++ "." ++ extension

end MethodCompiler.Path
