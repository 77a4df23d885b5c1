import AqsiosCoordinator.Common.Types

/-! # Semantic queries

What the semantic interpreter makes of a parse tree. Tables are referred to by their
position in `refTables`, the variable id, and attributes by variable id and position.
-/
namespace AqsiosCoordinator.Semantic
open Common

structure Attr where
  varId : ℕ
  attrId : ℕ
  deriving DecidableEq

inductive WindowSpec where
  | range (timeUnits : ℕ)
  | row (numRows : ℕ)
  | partition (numRows : ℕ) (attrs : List Attr)
  | now
  | unbounded

inductive Expr where
  | constVal (c : Const)
  | attrRef (type : DataType) (attr : Attr)
  | aggrExpr (type : DataType) (fn : AggrFn) (attr : Attr)
  | compExpr (type : DataType) (op : ArithOp) (left right : Expr)

structure BExpr where
  op : CompOp
  left : Expr
  right : Expr

inductive QueryType where
  | sfwQuery
  | binaryOp
  deriving DecidableEq

inductive R2SOp where
  | istream
  | dstream
  | rstream

inductive BinaryOp where
  | union
  | except
  deriving DecidableEq

/-- A query. The arrays with a counter are lists; the others are read at given positions. -/
structure Query where
  kind : QueryType
  refTables : ℕ → ℕ
  fromClauseTables : List ℕ
  winSpec : ℕ → WindowSpec
  preds : List BExpr
  projExprs : List Expr
  bDistinct : Bool
  gbyAttrs : List Attr
  /-- The relation-to-stream operator, when `bRelToStr` is set. -/
  r2sOp : Option R2SOp
  binOp : BinaryOp

def Query.sources (query : Query) : List ℕ :=
  match query.kind with
  | .sfwQuery => query.fromClauseTables
  | .binaryOp => [0, 1]

end AqsiosCoordinator.Semantic
