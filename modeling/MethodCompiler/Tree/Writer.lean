import MethodCompiler.Json.Printer
import MethodCompiler.Text.Decimal
import MethodCompiler.Tree.Stmt

/-!
# Writing units

The document of a unit has every field of every record, in the order of declaration. A variant
without data is its name, any other an object with its name as the only field.
-/

namespace MethodCompiler

namespace Json

/-- A variant with data. -/
def tagged (name : String) (data : Json) : Json := ofFields [(name, data)]

/-- A variant whose data is a record. -/
def taggedFields (name : String) (fields : List (String × Json)) : Json :=
  tagged name (ofFields fields)

/-- A value, or null for none. -/
def ofOption {α : Type} (f : α → Json) : Option α → Json
  | none => null
  | some a => f a

/-- A floating-point number with the fewest digits that read back, and at least one place after the
point. A value that is no finite number is null. -/
def ofFloat (x : Float) : Json :=
  if x.isNaN || x.isInf then null
  else
    let digits := (Text.ofFloat x.abs).toList
    let fraction := (digits.dropWhile (· != '.')).drop 1
    number {
      negative := x.toBits.toNat >>> 63 == 1
      whole := digits.takeWhile (· != '.')
      fraction := if fraction.isEmpty then ['0'] else fraction }

end Json

/-- The document of a type. -/
def Ty.toJson : Ty → Json
  | void => .ofString "Void"
  | bool => .ofString "Bool"
  | char => .ofString "Char"
  | i8 => .ofString "I8"
  | u8 => .ofString "U8"
  | i16 => .ofString "I16"
  | u16 => .ofString "U16"
  | i32 => .ofString "I32"
  | u32 => .ofString "U32"
  | i64 => .ofString "I64"
  | u64 => .ofString "U64"
  | f32 => .ofString "F32"
  | f64 => .ofString "F64"
  | string => .ofString "String"
  | object => .ofString "Object"
  | null => .ofString "Null"
  | named name => .tagged "Named" (.ofString name)
  | array elem => .tagged "Array" elem.toJson
  | table key value => .tagged "Table" (.array [key.toJson, value.toJson])

def Span.toJson (s : Span) : Json :=
  .ofFields [("file_id", .ofNat s.file.toNat), ("start", .ofNat s.start.toNat),
    ("end", .ofNat s.stop.toNat)]

def Literal.toJson : Literal → Json
  | bool b => .tagged "Bool" (.bool b)
  | char c => .tagged "Char" (.ofString (String.ofList [c]))
  | int n => .tagged "Int" (.ofInt n.toInt)
  | uint n => .tagged "UInt" (.ofNat n.toNat)
  | float x => .tagged "Float" (.ofFloat x)
  | string s => .tagged "String" (.ofString s)
  | null => .ofString "Null"

def UnaryOp.toJson : UnaryOp → Json
  | neg => .ofString "Neg"
  | plus => .ofString "Plus"
  | not => .ofString "Not"
  | bitNot => .ofString "BitNot"

def BinaryOp.toJson : BinaryOp → Json
  | add => .ofString "Add"
  | sub => .ofString "Sub"
  | mul => .ofString "Mul"
  | div => .ofString "Div"
  | mod => .ofString "Mod"
  | bitAnd => .ofString "BitAnd"
  | bitOr => .ofString "BitOr"
  | bitXor => .ofString "BitXor"
  | shl => .ofString "Shl"
  | shr => .ofString "Shr"
  | eq => .ofString "Eq"
  | ne => .ofString "Ne"
  | lt => .ofString "Lt"
  | le => .ofString "Le"
  | gt => .ofString "Gt"
  | ge => .ofString "Ge"

def LogicalOp.toJson : LogicalOp → Json
  | and => .ofString "And"
  | or => .ofString "Or"

def CtorRef.toJson (c : CtorRef) : Json :=
  .ofFields [("index", .ofNat c.index.toNat), ("implicit", .bool c.implicit)]

namespace Expr

/-- The record of an expression from what it is. -/
def nodeJson (n : Node) (kind : Json) : Json :=
  .ofFields [("id", .ofNat n.id.toNat), ("kind", kind), ("span", n.span.toJson)]

mutual

/-- The document of an expression. -/
def toJson : Expr → Json
  | literal n value => nodeJson n (.tagged "Literal" value.toJson)
  | name n text => nodeJson n (.tagged "Name" (.ofString text))
  | this n => nodeJson n (.ofString "This")
  | unary n op operand => nodeJson n (.taggedFields "Unary"
      [("op", op.toJson), ("operand", operand.toJson)])
  | binary n op lhs rhs => nodeJson n (.taggedFields "Binary"
      [("op", op.toJson), ("lhs", lhs.toJson), ("rhs", rhs.toJson)])
  | logical n op lhs rhs => nodeJson n (.taggedFields "Logical"
      [("op", op.toJson), ("lhs", lhs.toJson), ("rhs", rhs.toJson)])
  | assign n target op value => nodeJson n (.taggedFields "Assign"
      [("target", target.toJson), ("op", .ofOption BinaryOp.toJson op), ("value", value.toJson)])
  | incDec n target increment first => nodeJson n (.taggedFields "IncDec"
      [("target", target.toJson), ("increment", .bool increment), ("prefix", .bool first)])
  | conditional n cond thenExpr elseExpr => nodeJson n (.taggedFields "Conditional"
      [("cond", cond.toJson), ("then_expr", thenExpr.toJson), ("else_expr", elseExpr.toJson)])
  | member n object field => nodeJson n (.taggedFields "Member"
      [("object", object.toJson), ("name", .ofString field)])
  | index n object key => nodeJson n (.taggedFields "Index"
      [("object", object.toJson), ("index", key.toJson)])
  | call n callee args => nodeJson n (.taggedFields "Call"
      [("callee", callee.toJson), ("args", .array (listJson args))])
  | new n ty ctor args => nodeJson n (.taggedFields "New"
      [("ty", ty.toJson), ("ctor", .ofOption CtorRef.toJson ctor), ("args", .array (listJson args))])
  | newArray n elem len => nodeJson n (.taggedFields "NewArray"
      [("elem", elem.toJson), ("len", len.toJson)])
  | arrayLiteral n elem items => nodeJson n (.taggedFields "ArrayLiteral"
      [("elem", elem.toJson), ("items", .array (listJson items))])
  | tableLiteral n key value entries => nodeJson n (.taggedFields "TableLiteral"
      [("key", key.toJson), ("value", value.toJson), ("entries", .array (entriesJson entries))])
  | cast n ty e => nodeJson n (.taggedFields "Cast" [("ty", ty.toJson), ("expr", e.toJson)])
  | is n e ty => nodeJson n (.taggedFields "Is" [("expr", e.toJson), ("ty", ty.toJson)])
  | as n e ty => nodeJson n (.taggedFields "As" [("expr", e.toJson), ("ty", ty.toJson)])
  | typeOf n ty => nodeJson n (.tagged "TypeOf" ty.toJson)
  | unsupported n construct => nodeJson n (.tagged "Unsupported" (.ofString construct))

def listJson : List Expr → List Json
  | [] => []
  | e :: rest => e.toJson :: listJson rest

def entriesJson : List (Expr × Expr) → List Json
  | [] => []
  | (k, v) :: rest => .array [k.toJson, v.toJson] :: entriesJson rest

end

end Expr

def CaseLabel.toJson : CaseLabel → Json
  | case value => .tagged "Case" value.toJson
  | default => .ofString "Default"

namespace Stmt

/-- The record of a statement from what it is. -/
def nodeJson (span : Span) (kind : Json) : Json := .ofFields [("kind", kind), ("span", span.toJson)]

mutual

/-- The document of a statement. -/
def toJson : Stmt → Json
  | block s body => nodeJson s (.tagged "Block" (bodyJson body))
  | declare s name ty init isConst => nodeJson s (.taggedFields "Local"
      [("name", .ofString name), ("ty", ty.toJson), ("init", .ofOption Expr.toJson init),
        ("is_const", .bool isConst)])
  | eval s e => nodeJson s (.tagged "Expr" e.toJson)
  | ifElse s cond thenBranch elseBranch => nodeJson s (.taggedFields "If"
      [("cond", cond.toJson), ("then_branch", thenBranch.toJson),
        ("else_branch", optionJson elseBranch)])
  | whileLoop s cond body => nodeJson s (.taggedFields "While"
      [("cond", cond.toJson), ("body", body.toJson)])
  | doWhile s body cond => nodeJson s (.taggedFields "DoWhile"
      [("body", body.toJson), ("cond", cond.toJson)])
  | forLoop s init cond step body => nodeJson s (.taggedFields "For"
      [("init", .array (listJson init)), ("cond", .ofOption Expr.toJson cond),
        ("step", .array (step.map Expr.toJson)), ("body", body.toJson)])
  | foreach s var varTy collection body => nodeJson s (.taggedFields "Foreach"
      [("var", .ofString var), ("var_ty", varTy.toJson), ("collection", collection.toJson),
        ("body", body.toJson)])
  | switch s subject sections => nodeJson s (.taggedFields "Switch"
      [("subject", subject.toJson), ("sections", .array (sectionsJson sections))])
  | breakOut s => nodeJson s (.ofString "Break")
  | continueLoop s => nodeJson s (.ofString "Continue")
  | ret s value => nodeJson s (.tagged "Return" (.ofOption Expr.toJson value))
  | throw s value => nodeJson s (.tagged "Throw" (.ofOption Expr.toJson value))
  | tryCatch s body catches cleanup => nodeJson s (.taggedFields "Try"
      [("body", bodyJson body), ("catches", .array (clausesJson catches)),
        ("finally", optionBodyJson cleanup)])
  | empty s => nodeJson s (.ofString "Empty")
  | unsupported s construct => nodeJson s (.tagged "Unsupported" (.ofString construct))

def listJson : List Stmt → List Json
  | [] => []
  | s :: rest => s.toJson :: listJson rest

def optionJson : Option Stmt → Json
  | none => .null
  | some s => s.toJson

def bodyJson : Body → Json
  | .mk stmts span => .ofFields [("stmts", .array (listJson stmts)), ("span", span.toJson)]

def optionBodyJson : Option Body → Json
  | none => .null
  | some b => bodyJson b

def sectionsJson : List SwitchSection → List Json
  | [] => []
  | .mk labels body :: rest =>
    .ofFields [("labels", .array (labels.map CaseLabel.toJson)), ("body", .array (listJson body))] ::
      sectionsJson rest

def clausesJson : List CatchClause → List Json
  | [] => []
  | .mk ty var body :: rest =>
    .ofFields [("ty", .ofOption Ty.toJson ty), ("var", .ofOption Json.ofString var),
      ("body", bodyJson body)] :: clausesJson rest

end

end Stmt

def Param.toJson (p : Param) : Json :=
  .ofFields [("name", .ofString p.name), ("ty", p.ty.toJson), ("by_ref", .bool p.byRef)]

def Method.toJson (m : Method) : Json :=
  .ofFields [("index", .ofNat m.index.toNat), ("name", .ofString m.name),
    ("class", .ofString m.owner), ("is_static", .bool m.isStatic),
    ("params", .array (m.params.map Param.toJson)), ("return_ty", m.returnTy.toJson),
    ("body", Stmt.bodyJson m.body), ("span", m.span.toJson)]

def SymbolKind.toJson : SymbolKind → Json
  | localVar => .ofString "Local"
  | parameter => .ofString "Parameter"
  | field => .ofString "Field"
  | property => .ofString "Property"
  | method => .ofString "Method"
  | type => .ofString "Type"

def Symbol.toJson (s : Symbol) : Json :=
  .ofFields [("kind", s.kind.toJson), ("name", .ofString s.name), ("ty", s.ty.toJson),
    ("is_static", .bool s.isStatic), ("index", .ofNat s.index.toNat),
    ("is_virtual", .bool s.isVirtual), ("implicit", .bool s.implicit)]

/-- A map is an object whose field names are the numbers. -/
def SortedMap.toJson {α : Type} (f : α → Json) (m : SortedMap α) : Json :=
  .ofFields (m.entries.map fun (id, a) ↦ (toString id.toNat, f a))

def SymbolTable.toJson (t : SymbolTable) : Json :=
  .ofFields [("symbols", t.symbols.toJson Symbol.toJson), ("types", t.types.toJson Ty.toJson)]

namespace SourceUnit

/-- The document of a unit. -/
def toJson (u : SourceUnit) : Json :=
  .ofFields [("file", .ofString u.file), ("source", .ofOption Json.ofString u.source),
    ("methods", .array (u.methods.map Method.toJson)), ("symbols", u.symbols.toJson)]

/-- Write a unit as text. -/
def render (u : SourceUnit) : String := u.toJson.render

end SourceUnit

end MethodCompiler
