import AqsiosCoordinator.Common.Types

/-! # Parse trees

What the parser makes of a query. A list node that is null is the empty list, and a
string or a node that may be null is an `Option`.
-/
namespace AqsiosCoordinator.Parser
open Common

def MAXNODE : ℕ := 100

inductive RelToStrOp where
  | istream
  | dstream
  | rstream
  deriving DecidableEq

inductive TimeUnit where
  | notimeunit
  | second
  | minute
  | hour
  | day
  deriving DecidableEq

/-- An attribute, with the variable name in front of it if there is one. -/
structure AttrRef where
  relVarName : Option (List Char)
  attrName : List Char
  deriving DecidableEq

/-- Arithmetic and aggregation expressions. `countStar` is the aggregation without an
attribute, which the parser makes of `COUNT(*)` only. -/
inductive Expr where
  | constVal (c : Const)
  | attrRef (attr : AttrRef)
  | aggrExpr (fn : AggrFn) (attr : AttrRef)
  | countStar
  | arithExpr (op : ArithOp) (leftExpr rightExpr : Expr)
  deriving DecidableEq

structure Condn where
  op : CompOp
  leftExpr : Expr
  rightExpr : Expr

structure TimeSpec where
  unit : TimeUnit
  len : ℤ

inductive WindowSpec where
  | row (numRows : ℤ)
  | range (timeSpec : TimeSpec)
  | now
  | unbounded
  | partition (partWinAttrList : List AttrRef) (numRows : ℤ)

structure RelVar where
  relName : List Char
  varName : Option (List Char)
  windowSpec : Option WindowSpec

/-- The select clause; an empty list of terms stands for `*`. -/
structure SelectClause where
  bDistinct : Bool
  projTermList : List Expr

structure SfwBlock where
  selectClause : SelectClause
  relList : List RelVar
  conditionList : List Condn
  groupList : List AttrRef

inductive BinOp where
  | union (leftTable rightTable : List Char)
  | except (leftTable rightTable : List Char)

inductive ContQuery where
  | sfwBlock (block : SfwBlock) (reltostrOp : Option RelToStrOp)
  | binOp (op : BinOp) (reltostrOp : Option RelToStrOp)

/-- The attribute references of an expression, other than those inside COUNT. -/
def Expr.refs : Expr → List AttrRef
  | .constVal _ => []
  | .attrRef attr => [attr]
  | .aggrExpr fn attr => if fn = .count then [] else [attr]
  | .countStar => []
  | .arithExpr _ leftExpr rightExpr => leftExpr.refs ++ rightExpr.refs

def Condn.refs (c : Condn) : List AttrRef := c.leftExpr.refs ++ c.rightExpr.refs

def WindowSpec.refs : WindowSpec → List AttrRef
  | .partition partWinAttrList _ => partWinAttrList
  | .row _ | .range _ | .now | .unbounded => []

def SfwBlock.refs (b : SfwBlock) : List AttrRef :=
  b.selectClause.projTermList.flatMap Expr.refs ++ b.conditionList.flatMap Condn.refs ++ b.groupList ++
    b.relList.flatMap fun r => (r.windowSpec.map WindowSpec.refs).getD []

def Expr.nodes : Expr → ℕ
  | .constVal _ => 1
  | .attrRef _ => 1
  | .aggrExpr _ _ => 2
  | .countStar => 1
  | .arithExpr _ leftExpr rightExpr => 1 + leftExpr.nodes + rightExpr.nodes

def Condn.nodes (c : Condn) : ℕ := 1 + c.leftExpr.nodes + c.rightExpr.nodes

def WindowSpec.nodes : WindowSpec → ℕ
  | .range _ => 2
  | .partition partWinAttrList _ => 1 + 2 * partWinAttrList.length
  | .row _ | .now | .unbounded => 1

def RelVar.nodes (r : RelVar) : ℕ := 1 + (r.windowSpec.map WindowSpec.nodes).getD 0

def listNodes {α : Type} (nodes : α → ℕ) : List α → ℕ
  | [] => 0
  | a :: l => 1 + nodes a + listNodes nodes l

def SfwBlock.nodes (b : SfwBlock) : ℕ :=
  2 + listNodes Expr.nodes b.selectClause.projTermList + listNodes RelVar.nodes b.relList +
    listNodes Condn.nodes b.conditionList + 2 * b.groupList.length

def ContQuery.nodes : ContQuery → ℕ
  | .sfwBlock block reltostrOp => 1 + block.nodes + reltostrOp.toList.length
  | .binOp _ reltostrOp => 2 + reltostrOp.toList.length

def ContQuery.hasTable : ContQuery → Bool
  | .sfwBlock block _ => !block.relList.isEmpty
  | .binOp _ _ => true

/-- What the parser can return: a tree with more nodes ends the process, and the grammar
wants a table in the FROM clause. -/
structure ParseTree where
  query : ContQuery
  fits : query.nodes ≤ MAXNODE
  table : query.hasTable = true

theorem listNodes_one {α : Type} (l : List α) : listNodes (fun _ => 1) l = 2 * l.length := by
  induction l with
  | nil => rfl
  | cons a l ih =>
    simp only [listNodes, ih, List.length_cons]
    omega

end AqsiosCoordinator.Parser
