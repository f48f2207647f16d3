/-!
# Blanks, strings and keys of TOML

Every scanner returns what it has read and the characters after it.
-/

namespace MethodCompiler.Toml

/-- A scanner of the characters of a document. -/
abbrev Scanner (α : Type) := List Char → Option (α × List Char)

/-! ## Blanks and comments -/

def isBlank (c : Char) : Bool := c == ' ' || c == '\t'

/-- A character of a comment or a string: no control character but the tab. -/
def isPlain (c : Char) : Bool := c == '\t' || (' ' ≤ c && c != '\x7f')

def skipBlanks (cs : List Char) : List Char := cs.dropWhile isBlank

/-- The characters after a line break. -/
def lineBreak? : List Char → Option (List Char)
  | '\n' :: rest => some rest
  | '\r' :: '\n' :: rest => some rest
  | _ => none

/-- The characters after a comment, if there is one. -/
def skipComment : List Char → List Char
  | '#' :: rest => rest.dropWhile isPlain
  | cs => cs

/-- The characters after the blanks, the comment and the break that end a line. The last line needs
no break. -/
def endLine? (cs : List Char) : Option (List Char) :=
  match skipComment (skipBlanks cs) with
  | [] => some []
  | rest => lineBreak? rest

/-- Skip blanks, and comments with their line breaks, in at most `fuel` steps. -/
def skipLines : Nat → List Char → List Char
  | 0, cs => cs
  | fuel + 1, cs =>
    let cs := skipBlanks cs
    match lineBreak? (skipComment cs) with
    | some rest => skipLines fuel rest
    | none => cs

/-! ## Strings -/

/-- The value of a hexadecimal digit. -/
def hexDigit? (c : Char) : Option Nat :=
  if c.isDigit then some (c.toNat - 48)
  else if 'a' ≤ c && c ≤ 'f' then some (c.toNat - 87)
  else if 'A' ≤ c && c ≤ 'F' then some (c.toNat - 55)
  else none

/-- The character that some hexadecimal digits number. -/
def hexChar? (digits : List Char) : Option Char := do
  let ds ← digits.mapM hexDigit?
  let n := ds.foldl (fun n d ↦ n * 16 + d) 0
  if n.isValidChar then some (Char.ofNat n) else none

/-- The character that a letter after a backslash stands for. -/
def escape? : Char → Option Char
  | 'b' => some '\x08'
  | 'f' => some '\x0c'
  | 'n' => some '\n'
  | 'r' => some '\r'
  | 't' => some '\t'
  | '\\' => some '\\'
  | '"' => some '"'
  | _ => none

/-- Put a character in front of what was read. -/
def consChar (c : Char) (r : List Char × List Char) : List Char × List Char := (c :: r.1, r.2)

/-- The rest of a string in double quotes. -/
def basicBody : Scanner (List Char)
  | [] => none
  | '"' :: rest => some ([], rest)
  | '\\' :: 'u' :: a :: b :: c :: d :: rest => do
    return consChar (← hexChar? [a, b, c, d]) (← basicBody rest)
  | '\\' :: 'U' :: a :: b :: c :: d :: e :: f :: g :: h :: rest => do
    return consChar (← hexChar? [a, b, c, d, e, f, g, h]) (← basicBody rest)
  | '\\' :: c :: rest => do return consChar (← escape? c) (← basicBody rest)
  | c :: rest => if isPlain c then (basicBody rest).map (consChar c) else none

/-- The rest of a string in single quotes, which has no escapes. -/
def literalBody : Scanner (List Char)
  | [] => none
  | '\'' :: rest => some ([], rest)
  | c :: rest => if isPlain c then (literalBody rest).map (consChar c) else none

/-- How far a backslash at the end of a line has taken effect. -/
inductive Joining where
  /-- Not at all. -/
  | none
  /-- The line break has still to come. -/
  | started
  /-- All blanks and line breaks are skipped. -/
  | skipping
  deriving DecidableEq

/-- The rest of a string in three double quotes. Up to two quotes may stand directly before the
closing ones. -/
def multiBasicBody : Joining → Scanner (List Char)
  | _, [] => .none
  | .started, '\n' :: rest => multiBasicBody .skipping rest
  | .started, '\r' :: '\n' :: rest => multiBasicBody .skipping rest
  | .started, c :: rest => if isBlank c then multiBasicBody .started rest else .none
  | .skipping, '\n' :: rest => multiBasicBody .skipping rest
  | .skipping, '\r' :: '\n' :: rest => multiBasicBody .skipping rest
  | .skipping, ' ' :: rest => multiBasicBody .skipping rest
  | .skipping, '\t' :: rest => multiBasicBody .skipping rest
  | _, '"' :: '"' :: '"' :: '"' :: '"' :: rest => some (['"', '"'], rest)
  | _, '"' :: '"' :: '"' :: '"' :: rest => some (['"'], rest)
  | _, '"' :: '"' :: '"' :: rest => some ([], rest)
  | _, '\\' :: 'u' :: a :: b :: c :: d :: rest => do
    return consChar (← hexChar? [a, b, c, d]) (← multiBasicBody .none rest)
  | _, '\\' :: 'U' :: a :: b :: c :: d :: e :: f :: g :: h :: rest => do
    return consChar (← hexChar? [a, b, c, d, e, f, g, h]) (← multiBasicBody .none rest)
  | _, '\\' :: c :: rest =>
    match escape? c with
    | some c => (multiBasicBody .none rest).map (consChar c)
    | .none => multiBasicBody .started (c :: rest)
  | _, '\r' :: '\n' :: rest => (multiBasicBody .none rest).map (consChar '\n')
  | _, c :: rest =>
    if isPlain c || c == '\n' then (multiBasicBody .none rest).map (consChar c) else .none

/-- The rest of a string in three single quotes. -/
def multiLiteralBody : Scanner (List Char)
  | [] => none
  | '\'' :: '\'' :: '\'' :: '\'' :: '\'' :: rest => some (['\'', '\''], rest)
  | '\'' :: '\'' :: '\'' :: '\'' :: rest => some (['\''], rest)
  | '\'' :: '\'' :: '\'' :: rest => some ([], rest)
  | '\r' :: '\n' :: rest => (multiLiteralBody rest).map (consChar '\n')
  | c :: rest =>
    if isPlain c || c == '\n' then (multiLiteralBody rest).map (consChar c) else none

/-- A line break directly after opening quotes does not count. -/
def skipFirstBreak (cs : List Char) : List Char := (lineBreak? cs).getD cs

/-- A string of one line. -/
def shortString : Scanner String
  | '"' :: rest => (basicBody rest).map fun (s, rest) ↦ (String.ofList s, rest)
  | '\'' :: rest => (literalBody rest).map fun (s, rest) ↦ (String.ofList s, rest)
  | _ => none

/-- A string of any kind. -/
def anyString : Scanner String
  | '"' :: '"' :: '"' :: rest =>
    (multiBasicBody .none (skipFirstBreak rest)).map fun (s, rest) ↦ (String.ofList s, rest)
  | '\'' :: '\'' :: '\'' :: rest =>
    (multiLiteralBody (skipFirstBreak rest)).map fun (s, rest) ↦ (String.ofList s, rest)
  | cs => shortString cs

/-! ## Keys -/

/-- A character of a key without quotes. -/
def isKeyChar (c : Char) : Bool := c.isAlphanum || c == '-' || c == '_'

/-- One part of a key. -/
def keyPart (cs : List Char) : Option (String × List Char) :=
  match cs with
  | '"' :: _ | '\'' :: _ => shortString cs
  | _ =>
    match cs.takeWhile isKeyChar with
    | [] => none
    | part => some (String.ofList part, cs.dropWhile isKeyChar)

/-- The parts of a key with dots between them. Blanks may stand around each part. -/
def keyParts : Nat → Scanner (List String)
  | 0, _ => none
  | fuel + 1, cs => do
    let (part, rest) ← keyPart (skipBlanks cs)
    match skipBlanks rest with
    | '.' :: rest =>
      let (parts, rest) ← keyParts fuel rest
      return (part :: parts, rest)
    | rest => return ([part], rest)

/-- The number from which on parts of a key, or arrays and tables inside each other, are too many. -/
def depthLimit : Nat := 80

/-- A key, which may have dots. -/
def key (cs : List Char) : Option (List String × List Char) := do
  let (parts, rest) ← keyParts (cs.length + 1) cs
  if parts.length < depthLimit then some (parts, rest) else none

end MethodCompiler.Toml
