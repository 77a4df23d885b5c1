import AqsiosCoordinator.Common.Types
import AqsiosCoordinator.Foundation.Outcome
import AqsiosCoordinator.Foundation.LinkedList

/-! # Physical operators and their pool

The operators of all queries lie in one array. The links of an operator put it on
the list of used or of free operators; `inputs` and `outputs` are the edges of the
plan graph.
-/
namespace AqsiosCoordinator.Physical
open Common Foundation

@[irreducible] def MAX_OPS : ℕ := 5000
theorem maxOps_pos : 0 < MAX_OPS := by unfold MAX_OPS; decide
def MAX_EXPRS : ℕ := 5000
def MAX_OUTPUT : ℕ := 1000
def MAX_GROUP_ATTRS : ℕ := 10
def MAX_AGGR_ATTRS : ℕ := 10

/-- The attribute at `pos` in the output schema of an operator's input. -/
structure Attr where
  input : ℕ
  pos : ℕ
  deriving DecidableEq

abbrev Expr := Common.Expr Attr
abbrev BExpr := Common.BExpr Attr

/-- The kind of an operator with its parameters. A predicate is the list of its
conjuncts; the empty list is the null predicate. -/
inductive Body where
  | select (pred : List BExpr)
  | project (projs : List Expr)
  | join (numOuterAttrs numInnerAttrs : ℕ) (pred : List BExpr)
  | strJoin (numOuterAttrs numInnerAttrs : ℕ) (pred : List BExpr)
  | joinProject (projs : List Expr) (pred : List BExpr)
  | strJoinProject (projs : List Expr) (pred : List BExpr)
  | groupAggr (groupAttrs : List Attr) (aggrs : List (AggrFn × Attr))
  | distinct
  | rowWin (numRows : ℕ)
  | rangeWin (timeUnits : ℕ)
  | partnWin (partnAttrs : List Attr) (numRows : ℕ)
  | istream
  | dstream
  | rstream
  | union
  | except
  | streamSource (strId srcId : ℕ)
  | relnSource (relId srcId : ℕ)
  | querySource
  | output (outputId queryId : ℕ)
  | sink
  | ssGen
  deriving DecidableEq

inductive OperatorKind where
  | select
  | project
  | join
  | strJoin
  | joinProject
  | strJoinProject
  | groupAggr
  | distinct
  | rowWin
  | rangeWin
  | partnWin
  | istream
  | dstream
  | rstream
  | union
  | except
  | streamSource
  | relnSource
  | querySource
  | output
  | sink
  | ssGen
  deriving DecidableEq

def Body.kind : Body → OperatorKind
  | .select _ => .select
  | .project _ => .project
  | .join _ _ _ => .join
  | .strJoin _ _ _ => .strJoin
  | .joinProject _ _ => .joinProject
  | .strJoinProject _ _ => .strJoinProject
  | .groupAggr _ _ => .groupAggr
  | .distinct => .distinct
  | .rowWin _ => .rowWin
  | .rangeWin _ => .rangeWin
  | .partnWin _ _ => .partnWin
  | .istream => .istream
  | .dstream => .dstream
  | .rstream => .rstream
  | .union => .union
  | .except => .except
  | .streamSource _ _ => .streamSource
  | .relnSource _ _ => .relnSource
  | .querySource => .querySource
  | .output _ _ => .output
  | .sink => .sink
  | .ssGen => .ssGen

abbrev OpId := Fin MAX_OPS

instance : LawfulBEq OpId := inferInstanceAs (LawfulBEq (Fin MAX_OPS))

structure Operator where
  queryClassId : ℤ
  body : Body
  attrs : List Column
  bStream : Bool
  outputs : List OpId
  inputs : List OpId

structure PlanState where
  ops : OpId → Operator
  links : Links OpId
  freeOps : Option OpId
  usedOps : Option OpId
  numExprs : ℕ
  numBExprs : ℕ
  numBaseTables : ℕ
  numOutputs : ℕ
  /-- The source operator of each table: `sourceOps[0..numTables)`. -/
  sourceOps : List (ℕ × OpId)
  /-- The operator that produces the output of each query: `queryOutOps[0..numQueries)`. -/
  queryOutOps : List (ℕ × OpId)
  currentQueryClass : ℤ

abbrev M := EStateM Failure PlanState

namespace PlanState

def setOp (s : PlanState) (o : OpId) (op : Operator) : PlanState := { s with ops := Function.update s.ops o op }

def used (s : PlanState) : List OpId := s.links.walk MAX_OPS s.usedOps

def free (s : PlanState) : List OpId := s.links.walk MAX_OPS s.freeOps

end PlanState

def getOp (o : OpId) : M Operator := do return (← get).ops o

def modifyOp (o : OpId) (f : Operator → Operator) : M Unit := modify (fun s => s.setOp o (f (s.ops o)))

/-- Picks the first free operator and moves it to the front of the used ones. On the
last free operator the code writes through the null link to the next one. -/
def newOp (body : Body) : M OpId := do
  let s ← get
  match s.freeOps with
  | none => throw (.code (-1))
  | some op =>
    match s.links.next op with
    | none => throw .nullDeref
    | some rest =>
      let links := s.links.setPrev rest none
      let links := links.setNext op s.usedOps
      let links := links.setPrevAt s.usedOps (some op)
      let o := { s.ops op with body := body, attrs := [], outputs := [], inputs := [] }
      set { s.setOp op o with links := links, freeOps := some rest, usedOps := some op }
      return op

def freeOp (op : OpId) : M Unit :=
  modify fun s =>
    let usedOps := if s.links.prev op = none then s.links.next op else s.usedOps
    let links := s.links.setNextAt (s.links.prev op) (s.links.next op)
    let links := links.setPrevAt (s.links.next op) (s.links.prev op)
    let links := links.setNext op s.freeOps
    let links := links.setPrev op none
    let links := links.setPrevAt s.freeOps (some op)
    { s with links := links, usedOps := usedOps, freeOps := some op }

def addOutput (child parent : OpId) : M Unit := do
  let c ← getOp child
  failIf (c.outputs.length ≥ MAX_OUT_BRANCHING) (.code (-1))
  modifyOp child (fun c => { c with outputs := c.outputs ++ [parent] })

def addOutputs (children : List OpId) (parent : OpId) : M Unit :=
  match children with
  | [] => pure ()
  | c :: cs => do addOutput c parent; addOutputs cs parent

/-- Takes `n` cells from the pool of expressions; the pool is used up when they do not suffice. -/
def newExprs (n : ℕ) : M Unit := do
  let s ← get
  set { s with numExprs := min (s.numExprs + n) MAX_EXPRS }
  failIf (s.numExprs + n > MAX_EXPRS) (.code (-1))

def newBExpr : M Unit := do
  let s ← get
  failIf (s.numBExprs ≥ MAX_EXPRS) (.code (-1))
  set { s with numBExprs := s.numBExprs + 1 }

def PlanState.init (mem : OpId → Operator) : PlanState where
  ops := mem
  links := {
    next := fun o => if h : o.val + 1 < MAX_OPS then some ⟨o.val + 1,h⟩ else none
    prev := fun o => if o.val = 0 then none else some ⟨o.val - 1,by omega⟩ }
  freeOps := some ⟨0,maxOps_pos⟩
  usedOps := none
  numExprs := 0
  numBExprs := 0
  numBaseTables := 0
  numOutputs := 0
  sourceOps := []
  queryOutOps := []
  currentQueryClass := 1

end AqsiosCoordinator.Physical
