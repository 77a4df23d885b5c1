import Mathlib.Data.Rat.Defs

/-! # Data types, operations and capacity constants -/
namespace AqsiosCoordinator.Common

/-- Data types recognized by the system; `char` is the type of strings. -/
inductive DataType where
  | int
  | float
  | byte
  | char
  deriving DecidableEq

def INT_SIZE : ℕ := 4
def FLOAT_SIZE : ℕ := 4
def BYTE_SIZE : ℕ := 1

def MAX_TABLES : ℕ := 1000
def MAX_QUERIES : ℕ := 1000
def MAX_ATTRS : ℕ := 10
def MAX_OUT_BRANCHING : ℕ := 10

inductive ArithOp where
  | add
  | sub
  | mul
  | div
  deriving DecidableEq

inductive CompOp where
  | lt
  | le
  | gt
  | ge
  | eq
  | ne
  deriving DecidableEq

inductive AggrFn where
  | count
  | sum
  | avg
  | max
  | min
  deriving DecidableEq

def getOutputType (fn : AggrFn) (inputType : DataType) : DataType :=
  if fn = .avg then .float else inputType

/-- A column of a schema: its type and the length of its values. -/
abbrev Column := DataType × ℕ

/-- Constant values; a float constant is the number it stands for. -/
inductive Const where
  | int (ival : ℤ)
  | float (fval : ℚ)
  | byte (bval : Char)
  | char (sval : List Char)
  deriving DecidableEq

def Const.type : Const → DataType
  | .int _ => .int
  | .float _ => .float
  | .byte _ => .byte
  | .char _ => .char

/-- Arithmetic expressions over attributes of type `α`, with their types. -/
inductive Expr (α : Type) where
  | constVal (c : Const)
  | attrRef (type : DataType) (attr : α)
  | compExpr (type : DataType) (op : ArithOp) (left right : Expr α)
  deriving DecidableEq

variable {α β : Type}

def Expr.type : Expr α → DataType
  | .constVal c => c.type
  | .attrRef type _ => type
  | .compExpr type _ _ _ => type

def Expr.map (f : α → β) : Expr α → Expr β
  | .constVal c => .constVal c
  | .attrRef type attr => .attrRef type (f attr)
  | .compExpr type op left right => .compExpr type op (left.map f) (right.map f)

def Expr.attrs : Expr α → List α
  | .constVal _ => []
  | .attrRef _ attr => [attr]
  | .compExpr _ _ left right => left.attrs ++ right.attrs

def Expr.size : Expr α → ℕ
  | .constVal _ => 1
  | .attrRef _ _ => 1
  | .compExpr _ _ left right => 1 + left.size + right.size

structure BExpr (α : Type) where
  op : CompOp
  left : Expr α
  right : Expr α
  deriving DecidableEq

def BExpr.attrs (b : BExpr α) : List α := b.left.attrs ++ b.right.attrs

/-- How a function ends when it does not return 0: with a return code, or in
behaviour the language leaves undefined, or not at all. -/
inductive Failure where
  | code (rc : ℤ)
  | nullDeref
  | outOfBounds
  | nonTermination
  deriving DecidableEq

namespace SysStream

/-- System wide identifier for the system stream. -/
def SS_ID : ℕ := 0
def SS_COLUMNS : List Column :=
  [(.int,INT_SIZE), (.int,INT_SIZE), (.int,INT_SIZE), (.int,INT_SIZE), (.float,FLOAT_SIZE)]

end SysStream
end AqsiosCoordinator.Common
