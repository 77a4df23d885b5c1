import AqsiosCoordinator.Querygen.LogicalOperator

/-! # Constructing logical plans

The constructors of logical operators on the trees that the operators form. They
return no plan when the pool of operators is used up or a capacity is exceeded.
-/
namespace AqsiosCoordinator.Logical
open Common Foundation Metadata

def MAXEXPR : ℕ := 500

/-- How much of the pools of operators and of expressions is in use. -/
structure Usage where
  operatorPtr : ℕ
  exprPtr : ℕ

abbrev Gen := EStateM Failure Usage

/-- Takes an expression off the pool. Without one the code continues with a null pointer that it reads later. -/
def takeExpr : Gen Unit := do
  let u ← get
  failIf (u.exprPtr = MAXEXPR) .nullDeref
  set { u with exprPtr := u.exprPtr + 1 }

namespace Plan

/-- Reads from a pointer that the code takes to be non-null. -/
def deref (p : Option Plan) : Gen Plan :=
  match p with
  | some p => pure p
  | none => throw .nullDeref

def orFail (p : Option Plan) : Gen Plan :=
  match p with
  | some p => pure p
  | none => throw (.code (-1))

/-- Takes an operator off the pool and fills it in; without one there is no plan. -/
def newop (fields : Gen Plan) : Gen (Option Plan) := do
  let u ← get
  if u.operatorPtr = MAXOPERATOR then return none
  set { u with operatorPtr := u.operatorPtr + 1 }
  return some (← fields)

def appendSchema (dest src : List Attr) : List Attr :=
  if dest.length + src.length > MAX_ATTRS then dest else dest ++ src

def mkStreamSource (tableMgr : TableManager) (varId strId : ℕ) : Gen (Option Plan) :=
  newop do return .node (.streamSource varId strId) (tableAttrs tableMgr varId strId) true []

def mkRelnSource (tableMgr : TableManager) (varId relId : ℕ) : Gen (Option Plan) :=
  newop do return .node (.relnSource varId relId) (tableAttrs tableMgr varId relId) false []

/-- The operators with one input whose output schema is that of the input. -/
def mkUnary (kind : Kind) (bStream : Bool → Bool) (input : Option Plan) : Gen (Option Plan) := newop do
  let i ← deref input
  return .node kind i.outAttrs (bStream i.bStream) [i]

def mkRangeWindow (input : Option Plan) (timeUnits : ℕ) := mkUnary (.rangeWin timeUnits) (fun _ => false) input
def mkRowWindow (input : Option Plan) (numRows : ℕ) := mkUnary (.rowWin numRows) (fun _ => false) input
def mkNowWindow (input : Option Plan) := mkUnary .nowWin (fun _ => false) input
def mkPartnWindow (input : Option Plan) (numRows : ℕ) := mkUnary (.partnWin [] numRows) (fun _ => false) input
def mkSelect (input : Option Plan) (bexpr : BExpr) := mkUnary (.select bexpr) (fun b => b) input
def mkDistinct (input : Option Plan) := mkUnary .distinct (fun b => b) input
def mkIstream (input : Option Plan) := mkUnary .istream (fun _ => true) input
def mkDstream (input : Option Plan) := mkUnary .dstream (fun _ => true) input
def mkRstream (input : Option Plan) := mkUnary .rstream (fun _ => true) input

def partnWindowAddAttr (pwin : Option Plan) (attr : Attr) : Gen (Option Plan) := do
  match ← deref pwin with
  | .node (.partnWin partnAttrs numRows) outAttrs bStream inputs =>
    if partnAttrs.length = MAX_GROUP_ATTRS then return none
    return some (.node (.partnWin (partnAttrs ++ [attr]) numRows) outAttrs bStream inputs)
  | p => return some p

def mkProject (input : Option Plan) : Gen (Option Plan) := newop do
  let i ← deref input
  return .node (.project []) [] i.bStream [i]

def exprAttr : Expr → Attr
  | .attrRef _ attr => attr
  | e => .unnamed e.type

def addProjectExpr (proj : Option Plan) (expr : Expr) : Gen (Option Plan) := do
  match ← deref proj with
  | .node (.project projExprs) outAttrs bStream inputs =>
    if outAttrs.length = MAX_ATTRS then return none
    return some (.node (.project (projExprs ++ [expr])) (outAttrs ++ [exprAttr expr]) bStream inputs)
  | p => return some p

def mkCross : Gen (Option Plan) :=
  newop do return .node .cross [] true []

def crossAddInput (cross input : Option Plan) : Gen (Option Plan) := do
  let c ← deref cross
  let i ← deref input
  if c.outAttrs.length + i.outAttrs.length > MAX_ATTRS then return none
  if c.inputs.length = MAX_INPUT_OPS then return none
  return some (.node c.kind (c.outAttrs ++ i.outAttrs) (c.bStream && i.bStream) (c.inputs ++ [i]))

def mkGroupAggr (input : Option Plan) : Gen (Option Plan) := newop do
  let i ← deref input
  return .node (.groupAggr [] []) [] false [i]

/-- The array of output attributes is not checked for its end. -/
def addGroupAttr (op : Option Plan) (attr : Attr) : Gen (Option Plan) := do
  match ← deref op with
  | .node (.groupAggr groupAttrs aggrs) outAttrs bStream inputs =>
    if groupAttrs.length = MAX_GROUP_ATTRS then return none
    failIf (outAttrs.length ≥ MAX_ATTRS) .outOfBounds
    return some (.node (.groupAggr (groupAttrs ++ [attr]) aggrs) (outAttrs ++ [attr]) bStream inputs)
  | p => return some p

/-- The attribute that an aggregation yields. Aggregated attributes are never aggregates. -/
def aggrAttr (fn : AggrFn) : Attr → Attr
  | .named varId tableId attrId => .aggr varId tableId attrId fn
  | .unnamed type => .unnamed (getOutputType fn type)
  | a => a

def addAggr (op : Option Plan) (fn : AggrFn) (attr : Attr) : Gen (Option Plan) := do
  match ← deref op with
  | .node (.groupAggr groupAttrs aggrs) outAttrs bStream inputs =>
    if aggrs.length = MAX_AGGR_ATTRS then return none
    failIf (outAttrs.length ≥ MAX_ATTRS) .outOfBounds
    return some (.node (.groupAggr groupAttrs (aggrs ++ [(fn,attr)])) (outAttrs ++ [aggrAttr fn attr]) bStream inputs)
  | p => return some p

def mkStreamCross (streamInput : Option Plan) : Gen (Option Plan) := newop do
  let i ← deref streamInput
  return .node .streamCross i.outAttrs true [i]

def streamCrossAddInput (op input : Option Plan) : Gen (Option Plan) := do
  let c ← deref op
  if c.inputs.length = MAX_INPUT_OPS then return none
  let i ← deref input
  if c.outAttrs.length + i.outAttrs.length > MAX_ATTRS then return none
  return some (.node c.kind (c.outAttrs ++ i.outAttrs) c.bStream (c.inputs ++ [i]))

def attrType (tableMgr : TableManager) : Attr → DataType
  | .named _ tableId attrId => tableMgr.getAttrType tableId attrId
  | .aggr _ tableId attrId fn => getOutputType fn (tableMgr.getAttrType tableId attrId)
  | .unnamed type => type

/-- Union and except: the schema is that of the left input, without the names. -/
def mkSetOp (tableMgr : TableManager) (kind : Kind) (bStream : Bool → Bool → Bool) (left right : Option Plan) :
    Gen (Option Plan) := newop do
  let l ← deref left
  let r ← deref right
  return .node kind (l.outAttrs.map fun a => .unnamed (attrType tableMgr a)) (bStream l.bStream r.bStream) [l, r]

def mkUnion (tableMgr : TableManager) (left right : Option Plan) := mkSetOp tableMgr .union (fun l r => l && r) left right
def mkExcept (tableMgr : TableManager) (left right : Option Plan) :=
  mkSetOp tableMgr .except (fun _ _ => false) left right

end Plan
end AqsiosCoordinator.Logical
