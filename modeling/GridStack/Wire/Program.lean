import GridStack.Program.Tree
import GridStack.Wire.Format

/-!
# Programs on the wire

A node is the number of its kind and its parts in their order. Reading a tree is bounded by the bytes that
are left: every node takes at least one, so where the bound is used up nothing is left to read.
-/

namespace GridStack

namespace UnaryOp

/-- All unary operators, in the order of their numbers. -/
def all : List UnaryOp :=
  [neg, not, complement]

end UnaryOp

namespace BinaryOp

/-- All binary operators, in the order of their numbers. -/
def all : List BinaryOp :=
  [add, sub, mul, div, rem, bitAnd, bitOr, bitXor, shl, shr, ushr, eq, ne, lt, le, gt, ge, and, or]

end BinaryOp

namespace Wire

/-- The form of a type name. -/
def typeName : TypeName → List UInt8
  | .int => kind 0
  | .void => kind 1
  | .other name => kind 2 ++ text name

/-- The form of a unary operator. -/
def unaryOp (op : UnaryOp) : List UInt8 :=
  enumeration UnaryOp.all op

/-- The form of a binary operator. -/
def binaryOp (op : BinaryOp) : List UInt8 :=
  enumeration BinaryOp.all op

/-- The form of an assignment operator. -/
def assignOp : AssignOp → List UInt8
  | .plain => kind 0
  | .compound op => kind 1 ++ binaryOp op

mutual

/-- The form of an expression. -/
def expr : Expr → List UInt8
  | .int value => kind 0 ++ int64 value
  | .var name => kind 1 ++ text name
  | .paren inner => kind 2 ++ expr inner
  | .unary op operand => kind 3 ++ unaryOp op ++ expr operand
  | .binary op lhs rhs => kind 4 ++ binaryOp op ++ expr lhs ++ expr rhs
  | .assign op target value => kind 5 ++ assignOp op ++ text target ++ expr value
  | .call name args receiver typeArgs =>
    kind 6 ++ text name ++ (length args.length ++ exprs args) ++ exprOption receiver
      ++ list typeName typeArgs

/-- The forms of expressions, one behind the other. -/
def exprs : List Expr → List UInt8
  | [] => []
  | e :: es => expr e ++ exprs es

/-- The form of an optional expression. -/
def exprOption : Option Expr → List UInt8
  | none => [0]
  | some e => 1 :: expr e

end

/-- The form of a declarator. -/
def declarator (d : Declarator) : List UInt8 :=
  text d.name ++ option expr d.init

/-- The form of a local declaration. -/
def varDecl (decl : VarDecl) : List UInt8 :=
  typeName decl.type ++ list text decl.modifiers ++ list declarator decl.declarators

mutual

/-- The form of a statement. -/
def stmt : Stmt → List UInt8
  | .block body => kind 0 ++ (length body.length ++ stmts body)
  | .expr value => kind 1 ++ expr value
  | .declare decl => kind 2 ++ varDecl decl
  | .branch cond yes no => kind 3 ++ expr cond ++ stmt yes ++ stmtOption no
  | .loop cond body => kind 4 ++ expr cond ++ stmt body
  | .ret value => kind 5 ++ option expr value

/-- The forms of statements, one behind the other. -/
def stmts : List Stmt → List UInt8
  | [] => []
  | s :: rest => stmt s ++ stmts rest

/-- The form of an optional statement. -/
def stmtOption : Option Stmt → List UInt8
  | none => [0]
  | some s => 1 :: stmt s

end

/-- The form of a parameter. -/
def param (p : Param) : List UInt8 :=
  text p.name ++ typeName p.type

/-- The form of a function. -/
def functionDecl (decl : FunctionDecl) : List UInt8 :=
  text decl.name ++ list param decl.params ++ typeName decl.returnType ++ list stmt decl.body
    ++ list text decl.modifiers ++ list text decl.typeParams ++ list text decl.throws

end Wire

namespace Decoder

/-- Reads a type name. -/
def typeName : Decoder TypeName := do
  match ← kind with
  | 0 => return .int
  | 1 => return .void
  | 2 => do
    let name ← text
    return .other name
  | _ => .fail .badVariant

/-- Reads a unary operator. -/
def unaryOp : Decoder UnaryOp :=
  enumeration UnaryOp.all

/-- Reads a binary operator. -/
def binaryOp : Decoder BinaryOp :=
  enumeration BinaryOp.all

/-- Reads an assignment operator. -/
def assignOp : Decoder AssignOp := do
  match ← kind with
  | 0 => return .plain
  | 1 => do
    let op ← binaryOp
    return .compound op
  | _ => .fail .badVariant

/-- Reads an expression of at most `bound` nested nodes. -/
def expr : (bound : Nat) → Decoder Expr
  | 0 => .fail .unexpectedEnd
  | bound + 1 => do
    match ← kind with
    | 0 => do
      let value ← int64
      return .int value
    | 1 => do
      let name ← text
      return .var name
    | 2 => do
      let inner ← expr bound
      return .paren inner
    | 3 => do
      let op ← unaryOp
      let operand ← expr bound
      return .unary op operand
    | 4 => do
      let op ← binaryOp
      let lhs ← expr bound
      let rhs ← expr bound
      return .binary op lhs rhs
    | 5 => do
      let op ← assignOp
      let target ← text
      let value ← expr bound
      return .assign op target value
    | 6 => do
      let name ← text
      let args ← list (expr bound)
      let receiver ← option (expr bound)
      let typeArgs ← list typeName
      return .call name args receiver typeArgs
    | _ => .fail .badVariant

/-- Reads a declarator. -/
def declarator (bound : Nat) : Decoder Declarator := do
  let name ← text
  let init ← option (expr bound)
  return { name, init }

/-- Reads a local declaration. -/
def varDecl (bound : Nat) : Decoder VarDecl := do
  let type ← typeName
  let modifiers ← list text
  let declarators ← list (declarator bound)
  return { type, modifiers, declarators }

/-- Reads a statement of at most `bound` nested nodes. -/
def stmt : (bound : Nat) → Decoder Stmt
  | 0 => .fail .unexpectedEnd
  | bound + 1 => do
    match ← kind with
    | 0 => do
      let body ← list (stmt bound)
      return .block body
    | 1 => do
      let value ← expr bound
      return .expr value
    | 2 => do
      let decl ← varDecl bound
      return .declare decl
    | 3 => do
      let cond ← expr bound
      let yes ← stmt bound
      let no ← option (stmt bound)
      return .branch cond yes no
    | 4 => do
      let cond ← expr bound
      let body ← stmt bound
      return .loop cond body
    | 5 => do
      let value ← option (expr bound)
      return .ret value
    | _ => .fail .badVariant

/-- Reads a parameter. -/
def param : Decoder Param := do
  let name ← text
  let type ← typeName
  return { name, type }

/-- Reads a function. -/
def functionDecl (bound : Nat) : Decoder FunctionDecl := do
  let name ← text
  let params ← list param
  let returnType ← typeName
  let body ← list (stmt bound)
  let modifiers ← list text
  let typeParams ← list text
  let throws ← list text
  return { name, params, returnType, body, modifiers, typeParams, throws }

/-- Reads a program whose nodes are nested at most `bound` deep. -/
def program (bound : Nat) : Decoder Program := do
  let functions ← list (functionDecl bound)
  return { functions }

end Decoder

namespace Program

/-- The bytes of a program. -/
def toBytes (program : Program) : List UInt8 :=
  Wire.list Wire.functionDecl program.functions

/-- The program that bytes begin with. -/
def ofBytes (input : List UInt8) : Except DecodeError Program :=
  (Decoder.program input.length).run input

end Program

end GridStack
