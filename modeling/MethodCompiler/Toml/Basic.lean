/-!
# TOML documents

Numbers with a fraction and dates are kept as they are written; nothing here computes with them.
-/

namespace MethodCompiler

/-- A TOML value. -/
inductive Toml where
  | string (s : String)
  | int (n : Int)
  | float (text : String)
  | bool (b : Bool)
  | dateTime (text : String)
  | array (items : List Toml)
  | table (entries : List (String × Toml))
  deriving Repr, Inhabited

end MethodCompiler
