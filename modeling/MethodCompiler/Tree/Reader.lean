import MethodCompiler.Json.Decoder
import MethodCompiler.Json.Parser
import MethodCompiler.Tree.Stmt

/-!
# Reading units

A unit is written as a JSON text. Types, expressions and statements nest, and a document may hold at
most 127 open objects and arrays at once. Each level of a type, an expression or a statement opens
at least one, so as many levels are enough for every document that can be read.
-/

namespace MethodCompiler

namespace Decoder

/-- The greatest number of objects and arrays that may be open at once. -/
def maxDepth : Nat := 127

/-- A type with at most the given number of levels. -/
def ty : Nat → Decoder Ty
  | 0 => fun _ _ ↦ none
  | levels + 1 => variant fun name data ↦ match name with
    | "Void" => noPayload .void data
    | "Bool" => noPayload .bool data
    | "Char" => noPayload .char data
    | "I8" => noPayload .i8 data
    | "U8" => noPayload .u8 data
    | "I16" => noPayload .i16 data
    | "U16" => noPayload .u16 data
    | "I32" => noPayload .i32 data
    | "U32" => noPayload .u32 data
    | "I64" => noPayload .i64 data
    | "U64" => noPayload .u64 data
    | "F32" => noPayload .f32 data
    | "F64" => noPayload .f64 data
    | "String" => noPayload .string data
    | "Object" => noPayload .object data
    | "Null" => noPayload .null data
    | "Named" => (payload string data).map .named
    | "Array" => (payload (ty levels) data).map .array
    | "Table" => (payload (pair (ty levels) (ty levels)) data).map fun (k, v) ↦ .table k v
    | _ => none

/-- A type of any size that fits into a document. -/
def anyTy : Decoder Ty := ty (maxDepth + 1)

def span : Decoder Span :=
  record ["file_id", "start", "end"] do
    let file ← required uint16
    let start ← required uint32
    let stop ← required uint32
    return { file, start, stop }

def literal : Decoder Literal := variant fun name data ↦ match name with
  | "Bool" => (payload bool data).map .bool
  | "Char" => (payload char data).map .char
  | "Int" => (payload int64 data).map .int
  | "UInt" => (payload uint64 data).map .uint
  | "Float" => (payload float data).map .float
  | "String" => (payload string data).map .string
  | "Null" => noPayload .null data
  | _ => none

def unaryOp : Decoder UnaryOp := variant fun name data ↦ match name with
  | "Neg" => noPayload .neg data
  | "Plus" => noPayload .plus data
  | "Not" => noPayload .not data
  | "BitNot" => noPayload .bitNot data
  | _ => none

def binaryOp : Decoder BinaryOp := variant fun name data ↦ match name with
  | "Add" => noPayload .add data
  | "Sub" => noPayload .sub data
  | "Mul" => noPayload .mul data
  | "Div" => noPayload .div data
  | "Mod" => noPayload .mod data
  | "BitAnd" => noPayload .bitAnd data
  | "BitOr" => noPayload .bitOr data
  | "BitXor" => noPayload .bitXor data
  | "Shl" => noPayload .shl data
  | "Shr" => noPayload .shr data
  | "Eq" => noPayload .eq data
  | "Ne" => noPayload .ne data
  | "Lt" => noPayload .lt data
  | "Le" => noPayload .le data
  | "Gt" => noPayload .gt data
  | "Ge" => noPayload .ge data
  | _ => none

def logicalOp : Decoder LogicalOp := variant fun name data ↦ match name with
  | "And" => noPayload .and data
  | "Or" => noPayload .or data
  | _ => none

def ctorRef : Decoder CtorRef :=
  record ["index", "implicit"] do
    let index ← required uint32
    let implicit ← defaulted bool false
    return { index, implicit }

/-- What an expression is, apart from its node. -/
def exprKind (expr : Decoder Expr) : Decoder (Node → Expr) := variant fun name data ↦ match name with
  | "Literal" => (payload literal data).map fun value n ↦ .literal n value
  | "Name" => (payload string data).map fun name n ↦ .name n name
  | "This" => noPayload .this data
  | "Unary" => payload (record ["op", "operand"] do
      let op ← required unaryOp
      let operand ← required expr
      return fun n ↦ .unary n op operand) data
  | "Binary" => payload (record ["op", "lhs", "rhs"] do
      let op ← required binaryOp
      let lhs ← required expr
      let rhs ← required expr
      return fun n ↦ .binary n op lhs rhs) data
  | "Logical" => payload (record ["op", "lhs", "rhs"] do
      let op ← required logicalOp
      let lhs ← required expr
      let rhs ← required expr
      return fun n ↦ .logical n op lhs rhs) data
  | "Assign" => payload (record ["target", "op", "value"] do
      let target ← required expr
      let op ← optional binaryOp
      let value ← required expr
      return fun n ↦ .assign n target op value) data
  | "IncDec" => payload (record ["target", "increment", "prefix"] do
      let target ← required expr
      let increment ← required bool
      let first ← required bool
      return fun n ↦ .incDec n target increment first) data
  | "Conditional" => payload (record ["cond", "then_expr", "else_expr"] do
      let cond ← required expr
      let thenExpr ← required expr
      let elseExpr ← required expr
      return fun n ↦ .conditional n cond thenExpr elseExpr) data
  | "Member" => payload (record ["object", "name"] do
      let object ← required expr
      let name ← required string
      return fun n ↦ .member n object name) data
  | "Index" => payload (record ["object", "index"] do
      let object ← required expr
      let key ← required expr
      return fun n ↦ .index n object key) data
  | "Call" => payload (record ["callee", "args"] do
      let callee ← required expr
      let args ← required (list expr)
      return fun n ↦ .call n callee args) data
  | "New" => payload (record ["ty", "ctor", "args"] do
      let ty ← required anyTy
      let ctor ← optional ctorRef
      let args ← required (list expr)
      return fun n ↦ .new n ty ctor args) data
  | "NewArray" => payload (record ["elem", "len"] do
      let elem ← required anyTy
      let len ← required expr
      return fun n ↦ .newArray n elem len) data
  | "ArrayLiteral" => payload (record ["elem", "items"] do
      let elem ← required anyTy
      let items ← required (list expr)
      return fun n ↦ .arrayLiteral n elem items) data
  | "TableLiteral" => payload (record ["key", "value", "entries"] do
      let key ← required anyTy
      let value ← required anyTy
      let entries ← required (list (pair expr expr))
      return fun n ↦ .tableLiteral n key value entries) data
  | "Cast" => payload (record ["ty", "expr"] do
      let ty ← required anyTy
      let e ← required expr
      return fun n ↦ .cast n ty e) data
  | "Is" => payload (record ["expr", "ty"] do
      let e ← required expr
      let ty ← required anyTy
      return fun n ↦ .is n e ty) data
  | "As" => payload (record ["expr", "ty"] do
      let e ← required expr
      let ty ← required anyTy
      return fun n ↦ .as n e ty) data
  | "TypeOf" => (payload anyTy data).map fun ty n ↦ .typeOf n ty
  | "Unsupported" => (payload string data).map fun construct n ↦ .unsupported n construct
  | _ => none

/-- An expression with at most the given number of levels. -/
def expr : Nat → Decoder Expr
  | 0 => fun _ _ ↦ none
  | levels + 1 => record ["id", "kind", "span"] do
    let id ← required uint32
    let make ← required (exprKind (expr levels))
    let span ← defaulted span Span.none
    return make { id, span }

/-- An expression of any size that fits into a document. -/
def anyExpr : Decoder Expr := expr (maxDepth + 1)

def caseLabel : Decoder CaseLabel := variant fun name data ↦ match name with
  | "Case" => (payload literal data).map .case
  | "Default" => noPayload .default data
  | _ => none

/-- A sequence of statements. -/
def body (stmt : Decoder Stmt) : Decoder Body :=
  record ["stmts", "span"] do
    let stmts ← required (list stmt)
    let span ← defaulted span Span.none
    return .mk stmts span

def switchSection (stmt : Decoder Stmt) : Decoder SwitchSection :=
  record ["labels", "body"] do
    let labels ← required (list caseLabel)
    let stmts ← required (list stmt)
    return .mk labels stmts

def catchClause (stmt : Decoder Stmt) : Decoder CatchClause :=
  record ["ty", "var", "body"] do
    let ty ← optional anyTy
    let var ← optional string
    let stmts ← required (body stmt)
    return .mk ty var stmts

/-- What a statement is, apart from its position. -/
def stmtKind (stmt : Decoder Stmt) : Decoder (Span → Stmt) := variant fun name data ↦ match name with
  | "Block" => (payload (body stmt) data).map fun b s ↦ .block s b
  | "Local" => payload (record ["name", "ty", "init", "is_const"] do
      let name ← required string
      let ty ← required anyTy
      let init ← optional anyExpr
      let isConst ← defaulted bool false
      return fun s ↦ .declare s name ty init isConst) data
  | "Expr" => (payload anyExpr data).map fun e s ↦ .eval s e
  | "If" => payload (record ["cond", "then_branch", "else_branch"] do
      let cond ← required anyExpr
      let thenBranch ← required stmt
      let elseBranch ← optional stmt
      return fun s ↦ .ifElse s cond thenBranch elseBranch) data
  | "While" => payload (record ["cond", "body"] do
      let cond ← required anyExpr
      let inner ← required stmt
      return fun s ↦ .whileLoop s cond inner) data
  | "DoWhile" => payload (record ["body", "cond"] do
      let inner ← required stmt
      let cond ← required anyExpr
      return fun s ↦ .doWhile s inner cond) data
  | "For" => payload (record ["init", "cond", "step", "body"] do
      let init ← required (list stmt)
      let cond ← optional anyExpr
      let step ← required (list anyExpr)
      let inner ← required stmt
      return fun s ↦ .forLoop s init cond step inner) data
  | "Foreach" => payload (record ["var", "var_ty", "collection", "body"] do
      let var ← required string
      let varTy ← required anyTy
      let collection ← required anyExpr
      let inner ← required stmt
      return fun s ↦ .foreach s var varTy collection inner) data
  | "Switch" => payload (record ["subject", "sections"] do
      let subject ← required anyExpr
      let sections ← required (list (switchSection stmt))
      return fun s ↦ .switch s subject sections) data
  | "Break" => noPayload .breakOut data
  | "Continue" => noPayload .continueLoop data
  | "Return" => (payload (nullable anyExpr) data).map fun e s ↦ .ret s e
  | "Throw" => (payload (nullable anyExpr) data).map fun e s ↦ .throw s e
  | "Try" => payload (record ["body", "catches", "finally"] do
      let inner ← required (body stmt)
      let catches ← required (list (catchClause stmt))
      let cleanup ← optional (body stmt)
      return fun s ↦ .tryCatch s inner catches cleanup) data
  | "Empty" => noPayload .empty data
  | "Unsupported" => (payload string data).map fun construct s ↦ .unsupported s construct
  | _ => none

/-- A statement with at most the given number of levels. -/
def stmt : Nat → Decoder Stmt
  | 0 => fun _ _ ↦ none
  | levels + 1 => record ["kind", "span"] do
    let make ← required (stmtKind (stmt levels))
    let span ← defaulted span Span.none
    return make span

/-- A statement of any size that fits into a document. -/
def anyStmt : Decoder Stmt := stmt (maxDepth + 1)

def param : Decoder Param :=
  record ["name", "ty", "by_ref"] do
    let name ← required string
    let ty ← required anyTy
    let byRef ← defaulted bool false
    return { name, ty, byRef }

def method : Decoder Method :=
  record ["index", "name", "class", "is_static", "params", "return_ty", "body", "span"] do
    let index ← required uint32
    let name ← required string
    let owner ← defaulted string ""
    let isStatic ← defaulted bool false
    let params ← required (list param)
    let returnTy ← required anyTy
    let stmts ← required (body anyStmt)
    let span ← defaulted span Span.none
    return { index, name, owner, isStatic, params, returnTy, body := stmts, span }

def symbolKind : Decoder SymbolKind := variant fun name data ↦ match name with
  | "Local" => noPayload .localVar data
  | "Parameter" => noPayload .parameter data
  | "Field" => noPayload .field data
  | "Property" => noPayload .property data
  | "Method" => noPayload .method data
  | "Type" => noPayload .type data
  | _ => none

def symbol : Decoder Symbol :=
  record ["kind", "name", "ty", "is_static", "index", "is_virtual", "implicit"] do
    let kind ← required symbolKind
    let name ← required string
    let ty ← required anyTy
    let isStatic ← defaulted bool false
    let index ← defaulted uint32 0
    let isVirtual ← defaulted bool false
    let implicit ← defaulted bool false
    return { kind, name, ty, isStatic, index, isVirtual, implicit }

/-- A map over node numbers; a repeated number keeps its last value. -/
def sortedMap {α : Type} (d : Decoder α) : Decoder (SortedMap α) := fun depth j ↦
  (numbered d depth j).map .ofList

def symbolTable : Decoder SymbolTable :=
  record ["symbols", "types"] do
    let symbols ← defaulted (sortedMap symbol) .empty
    let types ← defaulted (sortedMap anyTy) .empty
    return { symbols, types }

def sourceUnit : Decoder SourceUnit :=
  record ["file", "source", "methods", "symbols"] do
    let file ← defaulted string ""
    let source ← defaulted (nullable string) none
    let methods ← required (list method)
    let symbols ← defaulted symbolTable {}
    return { file, source, methods, symbols }

end Decoder

namespace SourceUnit

/-- The unit that a document holds. A unit without a file name takes the path that it was read from. -/
def ofJson? (j : Json) (path : String) : Option SourceUnit := do
  let u ← Decoder.sourceUnit Decoder.maxDepth j
  return if u.file.isEmpty then { u with file := path } else u

/-- Read a unit from its text. -/
def parse? (text path : String) : Option SourceUnit := do
  ofJson? (← Json.parse? text) path

end SourceUnit

end MethodCompiler
