/-!
# Opcodes

The instruction set of the register machine and its static classification: how many operands an
opcode takes, what it does to its first operand, and how it moves control.
-/

namespace MethodCompiler

/-- An operation of the register machine. -/
inductive Opcode where
  /-- Marks a position; it is no instruction of the machine. -/
  | label
  | move
  | reref
  | convert
  | nullify
  | add
  | sub
  | mul
  | div
  | mod
  | neg
  | concat
  | and
  | or
  | xor
  | shl
  | shr
  | bitNot
  | not
  | eq
  | ne
  | lt
  | le
  | gt
  | ge
  | newArray
  | newTable
  | arrayGet
  | arraySet
  | arrayLen
  | tableGet
  | tableSet
  | tableHas
  | new
  | typeOf
  | is
  | as
  | bind
  | arg
  | call
  | callVoid
  | callVirt
  | callVirtVoid
  | callDelegate
  | callDelegateVoid
  | getField
  | setField
  | getStatic
  | setStatic
  | getProperty
  | setProperty
  | getStaticProperty
  | setStaticProperty
  | jump
  | jumpTrue
  | jumpFalse
  | jumpEq
  | jumpNe
  | jumpLt
  | jumpLe
  | jumpGt
  | jumpGe
  | switch
  | ret
  /-- Opens a protected region; its operands name the catch, finally and end labels. -/
  | enterTry
  | leave
  | endFinally
  | throw
  | rethrow
  | trap
  deriving DecidableEq, Repr, Inhabited

namespace Opcode

/-- What an opcode does to its first operand. -/
inductive Output where
  /-- The first operand, if any, is read like the others. -/
  | none
  /-- The first operand is the destination. -/
  | write
  /-- The first operand is a destination only when it is an immediate register index. -/
  | rebind
  /-- The first two operands are the ends of a register range that is written. -/
  | range
  deriving DecidableEq, Repr, Inhabited

/-- Every opcode, in the order of their numbers. -/
def all : List Opcode :=
  [label, move, reref, convert, nullify, add, sub, mul, div, mod, neg, concat, and, or, xor, shl,
    shr, bitNot, not, eq, ne, lt, le, gt, ge, newArray, newTable, arrayGet, arraySet, arrayLen,
    tableGet, tableSet, tableHas, new, typeOf, is, as, bind, arg, call, callVoid, callVirt,
    callVirtVoid, callDelegate, callDelegateVoid, getField, setField, getStatic, setStatic,
    getProperty, setProperty, getStaticProperty, setStaticProperty, jump, jumpTrue, jumpFalse,
    jumpEq, jumpNe, jumpLt, jumpLe, jumpGt, jumpGe, switch, ret, enterTry, leave, endFinally,
    throw, rethrow, trap]

/-- The number of operands of a well-formed statement. -/
def arity : Opcode → Nat
  | ret | leave | endFinally | rethrow => 0
  | label | newTable | arg | callVoid | callDelegateVoid | jump | throw | trap => 1
  | move | reref | nullify | neg | bitNot | not | newArray | arrayLen | new | typeOf | call
  | callVirtVoid | callDelegate | getStatic | setStatic | getStaticProperty | setStaticProperty
  | jumpTrue | jumpFalse | switch => 2
  | convert | add | sub | mul | div | mod | concat | and | or | xor | shl | shr | eq | ne | lt | le
  | gt | ge | arrayGet | arraySet | tableGet | tableSet | tableHas | is | as | bind | callVirt
  | getField | setField | getProperty | setProperty | jumpEq | jumpNe | jumpLt | jumpLe | jumpGt
  | jumpGe | enterTry => 3

def output : Opcode → Output
  | reref => .rebind
  | nullify => .range
  | move | convert | add | sub | mul | div | mod | neg | concat | and | or | xor | shl | shr
  | bitNot | not | eq | ne | lt | le | gt | ge | newArray | newTable | arrayGet | arrayLen
  | tableGet | tableHas | new | typeOf | is | as | bind | call | callVirt | callDelegate | getField
  | getStatic | getProperty | getStaticProperty => .write
  | _ => .none

/-- The first operand is, or may be, a destination. -/
def hasDestination (op : Opcode) : Bool := op.output != .none

/-- Branches that either go to their target or fall through. -/
def isConditionalBranch : Opcode → Bool
  | jumpTrue | jumpFalse | jumpEq | jumpNe | jumpLt | jumpLe | jumpGt | jumpGe => true
  | _ => false

/-- Opcodes whose last operand is the place to go to. -/
def isBranch (op : Opcode) : Bool := op == jump || op.isConditionalBranch

/-- Opcodes that end their basic block. -/
def exitsBlock : Opcode → Bool
  | jump | jumpTrue | jumpFalse | jumpEq | jumpNe | jumpLt | jumpLe | jumpGt | jumpGe | switch
  | ret | leave | endFinally | throw | rethrow => true
  | _ => false

/-- Control never reaches the next statement. -/
def isUnconditionalExit : Opcode → Bool
  | jump | ret | throw | rethrow => true
  | _ => false

def isThrow : Opcode → Bool
  | throw | rethrow => true
  | _ => false

/-- The branch that fuses a comparison with a jump. -/
def branchFor? : Opcode → Option Opcode
  | eq => some jumpEq
  | ne => some jumpNe
  | lt => some jumpLt
  | le => some jumpLe
  | gt => some jumpGt
  | ge => some jumpGe
  | _ => Option.none

/-- The conditional branch that is taken exactly when this one is not. -/
def inverted? : Opcode → Option Opcode
  | jumpTrue => some jumpFalse
  | jumpFalse => some jumpTrue
  | jumpEq => some jumpNe
  | jumpNe => some jumpEq
  | jumpLt => some jumpGe
  | jumpGe => some jumpLt
  | jumpLe => some jumpGt
  | jumpGt => some jumpLe
  | _ => Option.none

/-- The name of an opcode in module text. -/
def mnemonic : Opcode → String
  | label => "label"
  | move => "move"
  | reref => "reref"
  | convert => "convert"
  | nullify => "nullify"
  | add => "add"
  | sub => "sub"
  | mul => "mul"
  | div => "div"
  | mod => "mod"
  | neg => "neg"
  | concat => "concat"
  | and => "and"
  | or => "or"
  | xor => "xor"
  | shl => "shl"
  | shr => "shr"
  | bitNot => "bnot"
  | not => "not"
  | eq => "eq"
  | ne => "ne"
  | lt => "lt"
  | le => "le"
  | gt => "gt"
  | ge => "ge"
  | newArray => "newarray"
  | newTable => "newtable"
  | arrayGet => "aget"
  | arraySet => "aset"
  | arrayLen => "alen"
  | tableGet => "tget"
  | tableSet => "tset"
  | tableHas => "thas"
  | new => "new"
  | typeOf => "typeof"
  | is => "is"
  | as => "as"
  | bind => "bind"
  | arg => "arg"
  | call => "call"
  | callVoid => "callv"
  | callVirt => "callvirt"
  | callVirtVoid => "callvirtv"
  | callDelegate => "calldel"
  | callDelegateVoid => "calldelv"
  | getField => "getfield"
  | setField => "setfield"
  | getStatic => "getstatic"
  | setStatic => "setstatic"
  | getProperty => "getprop"
  | setProperty => "setprop"
  | getStaticProperty => "getsprop"
  | setStaticProperty => "setsprop"
  | jump => "jump"
  | jumpTrue => "jt"
  | jumpFalse => "jf"
  | jumpEq => "jeq"
  | jumpNe => "jne"
  | jumpLt => "jlt"
  | jumpLe => "jle"
  | jumpGt => "jgt"
  | jumpGe => "jge"
  | switch => "switch"
  | ret => "return"
  | enterTry => "try"
  | leave => "leave"
  | endFinally => "endfinally"
  | throw => "throw"
  | rethrow => "rethrow"
  | trap => "trap"

/-- The opcode with a given mnemonic. -/
def ofMnemonic? (name : String) : Option Opcode := all.find? (·.mnemonic == name)

end Opcode

end MethodCompiler
