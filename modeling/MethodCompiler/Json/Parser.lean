import MethodCompiler.Json.Lexer

/-!
# Reading JSON text

Strict JSON: one document, nothing after it, no trailing commas. Nesting is not limited here, since
the limit depends on who reads the document.
-/

namespace MethodCompiler.Json

mutual

/-- The document at the start of some tokens, and the tokens after it. -/
def value? : Nat → List Token → Option (Json × List Token)
  | 0, _ => none
  | _ + 1, .null :: rest => some (null, rest)
  | _ + 1, .bool b :: rest => some (bool b, rest)
  | _ + 1, .number n :: rest => some (number n, rest)
  | _ + 1, .string s :: rest => some (string s, rest)
  | _ + 1, .openArray :: .closeArray :: rest => some (array [], rest)
  | fuel + 1, .openArray :: rest => (items? fuel rest).map fun (js, rest) ↦ (array js, rest)
  | _ + 1, .openObject :: .closeObject :: rest => some (object [], rest)
  | fuel + 1, .openObject :: rest => (fields? fuel rest).map fun (fs, rest) ↦ (object fs, rest)
  | _, _ => none

/-- The elements of an array after its opening bracket, and the tokens after its closing one. -/
def items? : Nat → List Token → Option (List Json × List Token)
  | 0, _ => none
  | fuel + 1, tokens =>
    match value? fuel tokens with
    | some (j, .comma :: rest) => (items? fuel rest).map fun (js, rest) ↦ (j :: js, rest)
    | some (j, .closeArray :: rest) => some ([j], rest)
    | _ => none

/-- The fields of an object after its opening brace, and the tokens after its closing one. -/
def fields? : Nat → List Token → Option (List (List StringPiece × Json) × List Token)
  | 0, _ => none
  | fuel + 1, tokens =>
    match tokens with
    | .string name :: .colon :: tokens =>
      match value? fuel tokens with
      | some (j, .comma :: rest) =>
        (fields? fuel rest).map fun (fs, rest) ↦ ((name, j) :: fs, rest)
      | some (j, .closeObject :: rest) => some ([(name, j)], rest)
      | _ => none
    | _ => none

end

/-- Read a JSON text. -/
def parse? (text : String) : Option Json := do
  let tokens ← Token.scan text.toList
  match ← value? (tokens.length + 1) tokens with
  | (j, []) => some j
  | _ => none

end MethodCompiler.Json
