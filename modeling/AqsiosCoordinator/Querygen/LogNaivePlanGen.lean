import AqsiosCoordinator.Querygen.PlanConstructors
import AqsiosCoordinator.Querygen.SemanticQuery

/-! # Naive logical plans

The plan of a query as its clauses say it: the tables of the FROM clause with their
windows, their cross product, one select for each predicate, the aggregations, the
project, and at the top the duplicate elimination and the conversion to a stream.
-/
namespace AqsiosCoordinator.Logical.Plan
open Common Foundation Metadata Semantic

section Transform
variable (query : Query)

def transformAttr (a : Semantic.Attr) : Attr := .named a.varId (query.refTables a.varId) a.attrId

def transformAggrAttr (fn : AggrFn) (a : Semantic.Attr) : Attr := .aggr a.varId (query.refTables a.varId) a.attrId fn

def transformExpr : Semantic.Expr → Gen Expr
  | .constVal c => do
    takeExpr
    return .constVal c
  | .attrRef type attr => do
    takeExpr
    return .attrRef type (transformAttr query attr)
  | .aggrExpr type fn attr => do
    takeExpr
    return .attrRef type (transformAggrAttr query fn attr)
  | .compExpr _ op left right => do
    let l ← transformExpr left
    let r ← transformExpr right
    takeExpr
    return .compExpr l.type op l r

def transformBExpr (b : Semantic.BExpr) : Gen BExpr := do
  let l ← transformExpr query b.left
  let r ← transformExpr query b.right
  return ⟨b.op,l,r⟩

/-- Adds the aggregations of an expression that are not yet among `aggrs`. -/
def collectAggrs : Semantic.Expr → List (AggrFn × Attr) → Option (List (AggrFn × Attr))
  | .constVal _, aggrs => some aggrs
  | .attrRef _ _, aggrs => some aggrs
  | .aggrExpr _ fn attr, aggrs =>
    let new := transformAttr query attr
    if aggrs.any (fun a => a.2.same new && a.1 == fn) then some aggrs
    else if aggrs.length = MAX_AGGR_ATTRS then none
    else some (aggrs ++ [(fn,new)])
  | .compExpr _ _ left right, aggrs => do
    let aggrs ← collectAggrs left aggrs
    collectAggrs right aggrs

def collectAllAggrs : List Semantic.Expr → List (AggrFn × Attr) → Option (List (AggrFn × Attr))
  | [], aggrs => some aggrs
  | e :: es, aggrs => do
    let aggrs ← collectAggrs query e aggrs
    collectAllAggrs es aggrs

/-- A window over a stream; the unbounded window is no operator. -/
def applyWindow (win : WindowSpec) (inputStr : Option Plan) : Gen (Option Plan) :=
  match win with
  | .range timeUnits => mkRangeWindow inputStr timeUnits
  | .row numRows => mkRowWindow inputStr numRows
  | .partition numRows attrs => do
    let winOp ← mkPartnWindow inputStr numRows
    attrs.foldlM (fun winOp a => do
      -- the result is not used: what does not fit is left out
      match ← partnWindowAddAttr winOp (transformAttr query a) with
      | some p => return some p
      | none => return winOp) winOp
  | .now => mkNowWindow inputStr
  | .unbounded => pure inputStr

end Transform

def getSource (tableMgr : TableManager) (varId tableId : ℕ) : Gen Plan := do
  let source ← (if tableMgr.isStream tableId then mkStreamSource tableMgr varId tableId
    else mkRelnSource tableMgr varId tableId : Gen (Option Plan))
  orFail source

def tablePlan (tableMgr : TableManager) (query : Query) (t varId : ℕ) : Gen (Option Plan) := do
  let tableId := query.refTables varId
  let tableSource ← getSource tableMgr varId tableId
  if tableMgr.isStream tableId then applyWindow query (query.winSpec t) (some tableSource)
  else return some tableSource

def crossTables (tableMgr : TableManager) (query : Query) : ℕ → List ℕ → Plan → Gen Plan
  | _, [], cross => pure cross
  | t, varId :: vars, cross => do
    let table ← tablePlan tableMgr query t varId
    let cross ← orFail (← crossAddInput (some cross) table)
    crossTables tableMgr query (t + 1) vars cross

def joinTables (tableMgr : TableManager) (query : Query) : Gen (Option Plan) :=
  match query.fromClauseTables with
  | [] => throw .outOfBounds
  | [varId] => tablePlan tableMgr query 0 varId
  | vars => do
    let cross ← orFail (← mkCross)
    return some (← crossTables tableMgr query 0 vars cross)

def applyPreds (query : Query) (inputPlan : Option Plan) : Gen (Option Plan) :=
  query.preds.foldlM (fun plan p => do
    let bExpr ← transformBExpr query p
    return some (← orFail (← mkSelect plan bExpr))) inputPlan

def applyAggr (query : Query) (inputPlan : Option Plan) : Gen (Option Plan) :=
  match collectAllAggrs query query.projExprs [] with
  | none => throw (.code (-1))
  | some aggrs => do
    if aggrs = [] ∧ query.gbyAttrs = [] then return inputPlan
    let aggrOp ← orFail (← mkGroupAggr inputPlan)
    let aggrOp ← query.gbyAttrs.foldlM (fun op a => addGroupAttr op (transformAttr query a)) (some aggrOp)
    aggrs.foldlM (fun op a => addAggr op a.1 a.2) aggrOp

def doProjs (query : Query) (inputPlan : Option Plan) : Gen (Option Plan) := do
  let project ← orFail (← mkProject inputPlan)
  query.projExprs.foldlM (fun project e => do addProjectExpr project (← transformExpr query e)) (some project)

def applyDistinct (query : Query) (inputPlan : Option Plan) : Gen Plan := do
  let distinct ← (if query.bDistinct then mkDistinct inputPlan else pure inputPlan : Gen (Option Plan))
  orFail distinct

def applyR2SOps (query : Query) (inputPlan : Option Plan) : Gen (Option Plan) := do
  match query.r2sOp with
  | none => return inputPlan
  | some .istream => return some (← orFail (← mkIstream inputPlan))
  | some .dstream => return some (← orFail (← mkDstream inputPlan))
  | some .rstream => return some (← orFail (← mkRstream inputPlan))

def genSFWPlan (tableMgr : TableManager) (query : Query) : Gen (Option Plan) := do
  let join ← joinTables tableMgr query
  let select ← applyPreds query join
  let aggr ← applyAggr query select
  let project ← doProjs query aggr
  let distinct ← applyDistinct query project
  applyR2SOps query (some distinct)

def genBinOpPlan (tableMgr : TableManager) (query : Query) : Gen (Option Plan) := do
  let leftSource ← getSource tableMgr 0 (query.refTables 0)
  let rightSource ← getSource tableMgr 0 (query.refTables 1)
  let binOp ← (if query.binOp = .union then mkUnion tableMgr (some leftSource) (some rightSource)
    else mkExcept tableMgr (some leftSource) (some rightSource) : Gen (Option Plan))
  applyR2SOps query binOp

/-- The pools are empty at the start. -/
def genPlan (tableMgr : TableManager) (query : Query) : Gen (Option Plan) := do
  set (⟨0,0⟩ : Usage)
  if query.kind = .sfwQuery then genSFWPlan tableMgr query else genBinOpPlan tableMgr query

end AqsiosCoordinator.Logical.Plan
