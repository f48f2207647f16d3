import MethodCompiler.Lowering.Literal
import MethodCompiler.Lowering.Place

/-!
# Code of expressions

The code of an expression is built from the code of its parts. It answers in several ways: by a
value, by a branch on a truth value, and, for what can be assigned, by a place.
-/

namespace MethodCompiler.Lowering

/-- The ways to run an expression. -/
structure ExprCode where
  expr : Expr
  /-- Compute the value, in the given place if there is one. The operand that comes back holds it. -/
  value : Option Operand → Lower Operand
  /-- Go to a label exactly when the value is the given truth value. -/
  branch : String → Bool → Lower Unit
  /-- Find the place that the expression names. -/
  place : Lower Place
  /-- Compute the object on which a method of this name is called. -/
  receiver : Lower Operand
  /-- Run the expression for what it does, and drop its value. -/
  run : Lower Unit

namespace ExprCode

/-- Branch on a computed value. -/
def branchOnValue (value : Option Operand → Lower Operand) (target : String) (sense : Bool) :
    Lower Unit := do
  let v ← value none
  emit (if sense then .jumpTrue else .jumpFalse) [v, .label target]

/-- The code of an expression that only has a value. -/
def ofValue (ctx : Context) (e : Expr) (value : Option Operand → Lower Operand) : ExprCode where
  expr := e
  value := value
  branch := branchOnValue value
  place := throw (.unsupported "assignment target" e.span)
  receiver := pure (.this ctx.thisTy)
  run := discard (value none)

/-- The static type of an expression. -/
def ty (ctx : Context) (c : ExprCode) : Ty := ctx.typeOf c.expr.id

/-! ## Literals and names -/

def ofLiteral (ctx : Context) (e : Expr) (lit : Literal) : ExprCode :=
  let ty := ctx.typeOf e.id
  let code := ofValue ctx e fun into ↦ do
    deliver (.immediate (← orFail (literalValue lit ty e.span))) into ty
  match lit with
  | .bool b => { code with
      branch := fun target sense ↦ if b == sense then emitJump target else pure () }
  | _ => code

/-- The value of a local name. -/
def localValue (ctx : Context) (e : Expr) (name : String) (into : Option Operand) :
    Lower Operand := do
  match ← lookup? name with
  | some (.register r ty) => deliver (.register r ty) into ty
  | some (.constant v) => deliver (.immediate v) into (ctx.typeOf e.id)
  | none => throw (.unknownSymbol name e.span)

/-- The place of a local name; constants have none. -/
def localPlace (e : Expr) (name : String) : Lower Place := do
  match ← lookup? name with
  | some (.register r ty) => return .direct (.register r ty) ty
  | some (.constant _) => throw (.unsupported ("assignment to constant '" ++ name ++ "'") e.span)
  | none => throw (.unknownSymbol name e.span)

/-- A method as a value, bound to an object. -/
def bindMethod (object : Operand) (method : UInt32) (into : Option Operand) (ty : Ty) :
    Lower Operand := do
  let dst ← destination into ty
  emit .bind [dst, object, .immediate (.method method)]
  return dst

/-- The place that a name stands for. -/
def namePlace (ctx : Context) (e : Expr) (name : String) : Lower Place :=
  let ty := ctx.typeOf e.id
  match ctx.symbol? e.id with
  | none => localPlace e name
  | some sym =>
    match sym.kind with
    | .localVar => localPlace e name
    | .parameter => return .direct (.input (ctx.method.inputSlot sym.index) sym.ty) sym.ty
    | .field =>
      if sym.isStatic then return .staticField sym.index ty
      else return .direct (.field sym.index ty) ty
    | .property =>
      if sym.isStatic then return .staticProperty sym.index ty
      else return .property (.this ctx.thisTy) sym.index ty
    | .method | .type => throw (.unsupported ("assignment to '" ++ name ++ "'") e.span)

def nameValue (ctx : Context) (e : Expr) (name : String) (into : Option Operand) :
    Lower Operand := do
  let ty := ctx.typeOf e.id
  match ctx.symbol? e.id with
  | none => localValue ctx e name into
  | some sym =>
    match sym.kind with
    | .localVar => localValue ctx e name into
    | .parameter => deliver (.input (ctx.method.inputSlot sym.index) sym.ty) into ty
    | .field | .property => (← namePlace ctx e name).load into
    | .method =>
      bindMethod (if sym.isStatic then .null else .this ctx.thisTy) sym.index into ty
    | .type => throw (.unsupported ("type '" ++ name ++ "' used as a value") e.span)

def ofName (ctx : Context) (e : Expr) (name : String) : ExprCode :=
  { ofValue ctx e (nameValue ctx e name) with place := namePlace ctx e name }

def ofThis (ctx : Context) (e : Expr) : ExprCode :=
  let ty := ctx.typeOf e.id
  ofValue ctx e fun into ↦ deliver (.this ty) into ty

/-! ## Members and elements -/

/-- The place that a member of an object stands for. Fields of `this` are variables. -/
def memberPlace (ctx : Context) (e : Expr) (object : ExprCode) (name : String) : Lower Place := do
  let ty := ctx.typeOf e.id
  match ctx.symbol? e.id with
  | none => throw (.unknownSymbol name e.span)
  | some sym =>
    match sym.kind with
    | .field =>
      if sym.isStatic then return .staticField sym.index ty
      else match object.expr with
        | .this _ => return .direct (.field sym.index ty) ty
        | _ => return .field (← object.value none) sym.index ty
    | .property =>
      if sym.isStatic then return .staticProperty sym.index ty
      else return .property (← object.value none) sym.index ty
    | _ => throw (.unsupported ("member '" ++ name ++ "' is not assignable") e.span)

def memberValue (ctx : Context) (e : Expr) (object : ExprCode) (name : String)
    (into : Option Operand) : Lower Operand := do
  let ty := ctx.typeOf e.id
  match ctx.symbol? e.id with
  | some sym =>
    if sym.kind == .method then
      let target ← if sym.isStatic then pure Operand.null else object.value none
      bindMethod target sym.index into ty
    else (← memberPlace ctx e object name).load into
  | none =>
    if name == "Length" && (object.ty ctx).isSequence then
      let v ← object.value none
      let dst ← destination into ty
      emit .arrayLen [dst, v]
      return dst
    else throw (.unknownSymbol name e.span)

def ofMember (ctx : Context) (e : Expr) (object : ExprCode) (name : String) : ExprCode :=
  { ofValue ctx e (memberValue ctx e object name) with
    place := memberPlace ctx e object name
    receiver := object.value none }

def elementPlace (ctx : Context) (e : Expr) (object key : ExprCode) : Lower Place := do
  let collection ← pin (← object.value none) [key.expr]
  let k ← key.value none
  return .element collection k (object.ty ctx).isTable (ctx.typeOf e.id)

def ofIndex (ctx : Context) (e : Expr) (object key : ExprCode) : ExprCode :=
  let place := elementPlace ctx e object key
  { ofValue ctx e (fun into ↦ do (← place).load into) with place := place }

/-! ## Operators -/

/-- The opcode of a binary operator; adding strings joins them. -/
def binaryOpcode (op : BinaryOp) (strings : Bool) : Opcode :=
  match op with
  | .add => if strings then .concat else .add
  | .sub => .sub
  | .mul => .mul
  | .div => .div
  | .mod => .mod
  | .bitAnd => .and
  | .bitOr => .or
  | .bitXor => .xor
  | .shl => .shl
  | .shr => .shr
  | .eq => .eq
  | .ne => .ne
  | .lt => .lt
  | .le => .le
  | .gt => .gt
  | .ge => .ge

/-- Apply an opcode to computed operands. -/
def apply (op : Opcode) (operands : List Operand) (into : Option Operand) (ty : Ty) :
    Lower Operand := do
  let dst ← destination into ty
  emit op (dst :: operands)
  return dst

def ofUnary (ctx : Context) (e : Expr) (op : UnaryOp) (operand : ExprCode) : ExprCode :=
  let compute (opcode : Opcode) := ofValue ctx e fun into ↦ do
    apply opcode [← operand.value none] into (ctx.typeOf e.id)
  match op with
  | .plus => ofValue ctx e operand.value
  | .neg => compute .neg
  | .bitNot => compute .bitNot
  | .not => { compute .not with branch := fun target sense ↦ operand.branch target (!sense) }

/-- Compute two operands from left to right. -/
def operands (lhs rhs : ExprCode) : Lower (List Operand) := do
  let a ← pin (← lhs.value none) [rhs.expr]
  let b ← rhs.value none
  return [a, b]

/-- Comparisons branch by themselves, on the opposite relation to jump when they are false. -/
def branchOnRelation (relation : Opcode) (lhs rhs : ExprCode) (target : String) (sense : Bool) :
    Lower Unit := do
  let ops ← operands lhs rhs
  emit (if sense then relation else relation.inverted?.getD relation)
    (ops ++ [Operand.label target])

def ofBinary (ctx : Context) (e : Expr) (op : BinaryOp) (lhs rhs : ExprCode) : ExprCode :=
  let strings := (lhs.ty ctx).isString || (rhs.ty ctx).isString
  let code := ofValue ctx e fun into ↦ do
    apply (binaryOpcode op strings) (← operands lhs rhs) into (ctx.typeOf e.id)
  match if op.isRelational then (binaryOpcode op false).branchFor? else none with
  | some relation => { code with branch := branchOnRelation relation lhs rhs }
  | none => code

/-- A conjunction is settled as soon as one side is false, a disjunction as soon as one is true. -/
def branchOnLogical (op : LogicalOp) (lhs rhs : ExprCode) (target : String) (sense : Bool) :
    Lower Unit := do
  if sense == (op == .or) then
    lhs.branch target sense
    rhs.branch target sense
  else
    let n ← newConstruct
    let skip := labelName (if op == .or then "or" else "and") n "skip"
    lhs.branch skip (!sense)
    rhs.branch target sense
    emitLabel skip

/-- A truth value that a branch decides. -/
def valueOfBranch (branch : String → Bool → Lower Unit) (into : Option Operand) :
    Lower Operand := do
  let n ← newConstruct
  let falseLabel := labelName "bool" n "false"
  let endLabel := labelName "bool" n "end"
  let dst ← destination into .bool
  branch falseLabel false
  emit .move [dst, .immediate (.bool true)]
  emitJump endLabel
  emitLabel falseLabel
  emit .move [dst, .immediate (.bool false)]
  emitLabel endLabel
  return dst

def ofLogical (ctx : Context) (e : Expr) (op : LogicalOp) (lhs rhs : ExprCode) : ExprCode :=
  let branch := branchOnLogical op lhs rhs
  { ofValue ctx e (valueOfBranch branch) with branch := branch }

def ofConditional (ctx : Context) (e : Expr) (cond thenCode elseCode : ExprCode) : ExprCode :=
  ofValue ctx e fun into ↦ do
    let n ← newConstruct
    let elseLabel := labelName "cond" n "else"
    let endLabel := labelName "cond" n "end"
    let dst ← destination into (ctx.typeOf e.id)
    cond.branch elseLabel false
    discard (thenCode.value (some dst))
    emitJump endLabel
    emitLabel elseLabel
    discard (elseCode.value (some dst))
    emitLabel endLabel
    return dst

/-! ## Assignments -/

/-- Write a value to a place. A register that holds no reference is computed in place. -/
def assignPlain (place : Place) (value : ExprCode) : Lower Operand := do
  match if place.ty.isReference then none else place.register? with
  | some dst => value.value (some dst)
  | none =>
    let v ← value.value none
    place.store v
    return v

/-- Combine a place with a value. The place is read before the value is computed. -/
def assignCompound (ctx : Context) (op : BinaryOp) (place : Place) (value : ExprCode) :
    Lower Operand := do
  let opcode := binaryOpcode op (place.ty.isString || (value.ty ctx).isString)
  let current ← pin (← place.load none) [value.expr]
  let rhs ← value.value none
  match place.register? with
  | some dst =>
    emit opcode [dst, current, rhs]
    return dst
  | none =>
    let t ← newRegister place.ty
    emit opcode [t, current, rhs]
    place.store t
    return t

def ofAssign (ctx : Context) (e : Expr) (target : ExprCode) (op : Option BinaryOp)
    (value : ExprCode) : ExprCode :=
  ofValue ctx e fun into ↦ do
    let place ← (← target.place).pinned [value.expr]
    let result ← match op with
      | none => assignPlain place value
      | some op => assignCompound ctx op place value
    deliver result into place.ty

/-- Step a register. The old value is copied away first where it is the result. -/
def stepRegister (op : Opcode) (dst one : Operand) (first : Bool) (into : Option Operand) (ty : Ty) :
    Lower Operand := do
  if first then
    emit op [dst, dst, one]
    deliver dst into ty
  else if into == some dst then
    let old ← newRegister ty
    emit .move [old, dst]
    emit op [dst, dst, one]
    deliver old into ty
  else
    let old ← destination into ty
    emit .move [old, dst]
    emit op [dst, dst, one]
    return old

/-- Step a place that is no register. -/
def stepPlace (op : Opcode) (place : Place) (one : Operand) (first : Bool) (into : Option Operand) :
    Lower Operand := do
  let ty := place.ty
  let current ← place.load none
  let old ← if first then pure current
    else do
      let t ← newRegister ty
      emit .move [t, current]
      pure t
  let updated ← newRegister ty
  emit op [updated, old, one]
  place.store updated
  deliver (if first then updated else old) into ty

/-- Step the target up or down by one. -/
def step (target : ExprCode) (increment first : Bool) (into : Option Operand) : Lower Operand := do
  let place ← target.place
  let op : Opcode := if increment then .add else .sub
  let one := Operand.immediate (← orFail (literalValue (.int 1) place.ty target.expr.span))
  match place.register? with
  | some dst => stepRegister op dst one first into place.ty
  | none => stepPlace op place one first into

/-- Whether the old or the new value is the result makes no difference when nobody reads it. -/
def ofIncDec (ctx : Context) (e : Expr) (target : ExprCode) (increment first : Bool) : ExprCode :=
  { ofValue ctx e (step target increment first) with run := discard (step target increment true none) }

/-! ## Calls -/

/-- Compute arguments from left to right. -/
def arguments : List ExprCode → Lower (List Operand)
  | [] => return []
  | arg :: rest => do
    let v ← pin (← arg.value none) (rest.map (·.expr))
    return v :: (← arguments rest)

/-- Push computed arguments. All are computed before the first is pushed, so that the arguments of
nested calls do not come in between. -/
def pushArguments : List Operand → Lower Unit
  | [] => pure ()
  | v :: rest => do
    emit .arg [v]
    pushArguments rest

/-- Call by the opcode that fits a result, or by the one that has none. -/
def emitCall (op voidOp : Opcode) (operands : List Operand) (into : Option Operand) (ty : Ty) :
    Lower Operand := do
  if ty.isVoid then
    emit voidOp operands
    return .null
  else apply op operands into ty

/-- Call a value that holds a method. -/
def callDelegate (ctx : Context) (e : Expr) (callee : ExprCode) (args : List ExprCode)
    (into : Option Operand) : Lower Operand := do
  let delegate ← pin (← callee.value none) (args.map (·.expr))
  pushArguments (← arguments args)
  emitCall .callDelegate .callDelegateVoid [delegate] into (ctx.typeOf e.id)

/-- Call a method by name. A virtual method is looked up in the object; any other takes the object
as its first argument. -/
def callMethod (ctx : Context) (e : Expr) (sym : Symbol) (callee : ExprCode) (args : List ExprCode)
    (into : Option Operand) : Lower Operand := do
  let ty := ctx.typeOf e.id
  if sym.implicit then declareFunction sym.index { name := sym.name, implicit := true }
  let target := Operand.immediate (.method sym.index)
  if sym.isStatic then
    pushArguments (← arguments args)
    emitCall .call .callVoid [target] into ty
  else
    let object ← pin (← callee.receiver) (args.map (·.expr))
    let values ← arguments args
    if sym.isVirtual then
      pushArguments values
      emitCall .callVirt .callVirtVoid [object, target] into ty
    else
      pushArguments (object :: values)
      emitCall .call .callVoid [target] into ty

def ofCall (ctx : Context) (e : Expr) (callee : ExprCode) (args : List ExprCode) : ExprCode :=
  ofValue ctx e fun into ↦
    match (ctx.symbol? callee.expr.id).filter (·.kind == .method) with
    | some sym => callMethod ctx e sym callee args into
    | none => callDelegate ctx e callee args into

/-- Make an object, then run its constructor on it. -/
def ofNew (ctx : Context) (e : Expr) (ty : Ty) (ctor : Option CtorRef) (args : List ExprCode) :
    ExprCode :=
  ofValue ctx e fun into ↦ do
    let dst ← apply .new [.immediate (.type ty.text)] into ty
    match ctor with
    | none => return dst
    | some ctor =>
      if ctor.implicit then
        declareFunction ctor.index { name := ty.text ++ "::.ctor", implicit := true }
      pushArguments (← arguments args)
      emit .callVirtVoid [dst, .immediate (.method ctor.index)]
      return dst

/-! ## Arrays and tables -/

def ofNewArray (ctx : Context) (e : Expr) (len : ExprCode) : ExprCode :=
  ofValue ctx e fun into ↦ do apply .newArray [← len.value none] into (ctx.typeOf e.id)

/-- The values of literals of one type. -/
def literalValues (ty : Ty) : List ExprCode → Lower (List Value)
  | [] => return []
  | item :: rest =>
    match item.expr.literal? with
    | none => literalValues ty rest
    | some lit => do
      let v ← orFail (literalValue lit ty item.expr.span)
      return v :: (← literalValues ty rest)

/-- Store items from a position on. -/
def storeItems (dst : Operand) (position : Nat) : List ExprCode → Lower Unit
  | [] => pure ()
  | item :: rest => do
    let v ← item.value none
    emit .arraySet [dst, .int (Int32.ofNat position), v]
    storeItems dst (position + 1) rest

/-- An array of literals is a constant; any other is filled item by item. -/
def ofArrayLiteral (ctx : Context) (e : Expr) (elem : Ty) (items : List ExprCode) : ExprCode :=
  let ty := ctx.typeOf e.id
  ofValue ctx e fun into ↦ do
    if items.all (·.expr.literal?.isSome) then
      deliver (← loadConstant ctx (.array elem (← literalValues elem items))) into ty
    else
      let dst ← apply .newArray [.int (Int32.ofNat items.length)] into ty
      storeItems dst 0 items
      return dst

/-- The entries of literals. A key that occurs again replaces the value of the first. -/
def literalEntries (key value : Ty) (entries : List (Value × Value)) :
    List (ExprCode × ExprCode) → Lower (List (Value × Value))
  | [] => return entries
  | (k, v) :: rest =>
    match k.expr.literal?, v.expr.literal? with
    | some kl, some vl => do
      let kv ← orFail (literalValue kl key k.expr.span)
      let vv ← orFail (literalValue vl value v.expr.span)
      literalEntries key value (Value.insertEntry kv vv entries) rest
    | _, _ => literalEntries key value entries rest

def storeEntries (dst : Operand) : List (ExprCode × ExprCode) → Lower Unit
  | [] => pure ()
  | (k, v) :: rest => do
    let ops ← operands k v
    emit .tableSet (dst :: ops)
    storeEntries dst rest

/-- A table of literals is a constant; any other is filled entry by entry. -/
def ofTableLiteral (ctx : Context) (e : Expr) (key value : Ty)
    (entries : List (ExprCode × ExprCode)) : ExprCode :=
  let ty := ctx.typeOf e.id
  ofValue ctx e fun into ↦ do
    if entries.all fun (k, v) ↦ k.expr.literal?.isSome && v.expr.literal?.isSome then
      deliver (← loadConstant ctx (.table key value (← literalEntries key value [] entries))) into ty
    else
      let dst ← apply .newTable [] into ty
      storeEntries dst entries
      return dst

/-! ## Types -/

/-- A conversion; none is needed between equal types. -/
def ofCast (ctx : Context) (e : Expr) (ty : Ty) (operand : ExprCode) : ExprCode :=
  ofValue ctx e fun into ↦ do
    if operand.ty ctx == ty then operand.value into
    else apply .convert [← operand.value none, .immediate (.type ty.text)] into ty

def ofTypeTest (ctx : Context) (e : Expr) (op : Opcode) (operand : ExprCode) (ty : Ty) : ExprCode :=
  ofValue ctx e fun into ↦ do
    apply op [← operand.value none, .immediate (.type ty.text)] into (ctx.typeOf e.id)

def ofTypeOf (ctx : Context) (e : Expr) (ty : Ty) : ExprCode :=
  ofValue ctx e fun into ↦ apply .typeOf [.immediate (.type ty.text)] into (ctx.typeOf e.id)

end ExprCode

mutual

/-- The code of an expression. -/
def exprCode (ctx : Context) : Expr → ExprCode
  | e@(.literal _ value) => .ofLiteral ctx e value
  | e@(.name _ name) => .ofName ctx e name
  | e@(.this _) => .ofThis ctx e
  | e@(.unary _ op operand) => .ofUnary ctx e op (exprCode ctx operand)
  | e@(.binary _ op lhs rhs) => .ofBinary ctx e op (exprCode ctx lhs) (exprCode ctx rhs)
  | e@(.logical _ op lhs rhs) => .ofLogical ctx e op (exprCode ctx lhs) (exprCode ctx rhs)
  | e@(.assign _ target op value) =>
    .ofAssign ctx e (exprCode ctx target) op (exprCode ctx value)
  | e@(.incDec _ target increment first) => .ofIncDec ctx e (exprCode ctx target) increment first
  | e@(.conditional _ cond thenExpr elseExpr) =>
    .ofConditional ctx e (exprCode ctx cond) (exprCode ctx thenExpr) (exprCode ctx elseExpr)
  | e@(.member _ object name) => .ofMember ctx e (exprCode ctx object) name
  | e@(.index _ object key) => .ofIndex ctx e (exprCode ctx object) (exprCode ctx key)
  | e@(.call _ callee args) => .ofCall ctx e (exprCode ctx callee) (exprCodes ctx args)
  | e@(.new _ ty ctor args) => .ofNew ctx e ty ctor (exprCodes ctx args)
  | e@(.newArray _ _ len) => .ofNewArray ctx e (exprCode ctx len)
  | e@(.arrayLiteral _ elem items) => .ofArrayLiteral ctx e elem (exprCodes ctx items)
  | e@(.tableLiteral _ key value entries) =>
    .ofTableLiteral ctx e key value (entryCodes ctx entries)
  | e@(.cast _ ty operand) => .ofCast ctx e ty (exprCode ctx operand)
  | e@(.is _ operand ty) => .ofTypeTest ctx e .is (exprCode ctx operand) ty
  | e@(.as _ operand ty) => .ofTypeTest ctx e .as (exprCode ctx operand) ty
  | e@(.typeOf _ ty) => .ofTypeOf ctx e ty
  | e@(.unsupported _ construct) =>
    .ofValue ctx e fun _ ↦ throw (.unsupported construct e.span)

def exprCodes (ctx : Context) : List Expr → List ExprCode
  | [] => []
  | e :: rest => exprCode ctx e :: exprCodes ctx rest

def entryCodes (ctx : Context) : List (Expr × Expr) → List (ExprCode × ExprCode)
  | [] => []
  | (k, v) :: rest => (exprCode ctx k, exprCode ctx v) :: entryCodes ctx rest

end

/-- The code of an expression knows the expression. -/
theorem expr_exprCode (ctx : Context) (e : Expr) : (exprCode ctx e).expr = e := by
  cases e with
  | literal n lit => cases lit <;> rfl
  | unary n op a => cases op <;> rfl
  | binary n op a b =>
    simp only [exprCode, ExprCode.ofBinary]
    split <;> rfl
  | _ => rfl

end MethodCompiler.Lowering
