import AqsiosCoordinator.Metadata.GenPhysicalPlan

/-! # Registration with the plan manager -/
namespace AqsiosCoordinator.Physical
open Common Foundation Metadata

/-- The generator of the system stream, registered as the source of table `SS_ID`. -/
def createSSGen : M Unit := do
  let op ← newOp .ssGen
  modifyOp op (fun o => { o with attrs := SysStream.SS_COLUMNS, bStream := true, queryClassId := 1 })
  modify (fun s => { s with sourceOps := s.sourceOps ++ [(SysStream.SS_ID,op)] })

def newPlanManager (mem : OpId → Operator) : PlanState := Foundation.finalState (createSSGen (PlanState.init mem))

def addBaseTable (tableMgr : TableManager) (tableId : ℕ) : M Unit := do
  let srcId := (← get).numBaseTables
  let isStream := tableMgr.isStream tableId
  let op ← newOp (if isStream then .streamSource tableId srcId else .relnSource tableId srcId)
  modifyOp op (fun o => { o with bStream := isStream })
  failIf (tableMgr.getNumAttrs tableId > MAX_ATTRS) (.code (-1))
  modifyOp op (fun o => { o with attrs := tableMgr.columns tableId })
  failIf ((← get).numBaseTables ≥ MAX_TABLES) (.code (-1))
  modify (fun s => { s with numBaseTables := s.numBaseTables + 1 })
  failIf ((← get).sourceOps.length ≥ MAX_TABLES) (.code (-1))
  modify (fun s => { s with sourceOps := s.sourceOps ++ [(tableId,op)] })

/-- Gives the class of the current query to an operator and what it reads from, as
long as they have a class of lower priority or none. -/
def addQueryClasses : ℕ → OpId → M Unit
  | 0, _ => throw .nonTermination
  | fuel+1, phyOp => do
    let op ← getOp phyOp
    let current := (← get).currentQueryClass
    if op.queryClassId = 0 ∨ op.queryClassId > current then
      modifyOp phyOp (fun o => { o with queryClassId := current })
      op.inputs.forM (addQueryClasses fuel)

/-- Registers a query; `output` tells whether its result is required externally. -/
def addLogicalQueryPlan (u : Uninit) (queryId : ℕ) (logPlan : Logical.Plan) (output : Bool) : M Unit := do
  let phyPlan ← genPhysicalPlan u logPlan
  let querySource ← mkQrySrc phyPlan
  failIf ((← get).queryOutOps.length ≥ MAX_QUERIES) (.code (-1))
  modify (fun s => { s with queryOutOps := s.queryOutOps ++ [(queryId,querySource)] })
  if output then
    failIf ((← get).numOutputs ≥ MAX_OUTPUT) (.code (-1))
    let outputOp ← mkOutput phyPlan
    let outputId := (← get).numOutputs
    modifyOp outputOp (fun o => { o with body := .output outputId queryId })
    modify (fun s => { s with numOutputs := s.numOutputs + 1 })
    addQueryClasses (MAX_OPS + 1) outputOp

def map (tableMgr : TableManager) (queryId tableId : ℕ) : M Unit := do
  let s ← get
  match s.queryOutOps.find? (fun e => e.1 == queryId) with
  | none => throw (.code (-1))
  | some (_,queryOutOp) =>
    failIf (tableMgr.columns tableId ≠ (s.ops queryOutOp).attrs) (.code (-1))
    failIf (s.sourceOps.length ≥ MAX_TABLES) (.code (-1))
    set { s with sourceOps := s.sourceOps ++ [(tableId,queryOutOp)] }

end AqsiosCoordinator.Physical
