import AqsiosCoordinator.Metadata.PlanManager
import AqsiosCoordinator.Metadata.SharedOperators
import AqsiosCoordinator.Metadata.TableRegistration
import AqsiosCoordinator.Querygen.LogPlanGen

/-! # The server

Registration of tables, queries and views with the table manager, the query manager and
the plan manager. What a call has done before it fails stays.
-/
namespace AqsiosCoordinator.Server
open Common Foundation Metadata Physical

def INVALID_USE_ERR : ℤ := 100
def INVALID_PARAM_ERR : ℤ := 101
def PARSE_ERR : ℤ := 101
def QRY_BUF_LEN : ℕ := 40906

/-- The query manager by what it has handed out: ids, and space of its buffer. -/
structure QueryManager where
  numQueries : ℕ
  next : ℕ

def QueryManager.registerQuery (m : QueryManager) (qryStr : List Char) : Except ℤ (ℕ × QueryManager) :=
  if m.next + qryStr.length ≥ QRY_BUF_LEN then .error (-1)
  else if m.numQueries ≥ MAX_QUERIES then .error (-1)
  else .ok (m.numQueries,⟨m.numQueries + 1,m.next + (qryStr.length + 1)⟩)

structure Frontend (Node : Type) where
  parseCommand : List Char → Option Node
  /-- The contents of a REL_SPEC or a STR_SPEC node. -/
  tableSpec : Node → Option TableSpec
  interpretQuery : TableManager → Node → Except {rc : ℤ // rc ≠ 0} Semantic.Query

/-- What the interpreter does with table names: it resolves them with the table manager. -/
def Frontend.ResolvesTables {Node : Type} (front : Frontend Node) : Prop :=
  ∀ tableMgr node query, front.interpretQuery tableMgr node = .ok query →
    ∀ v ∈ query.sources, query.refTables v < tableMgr.numTables

inductive State where
  | init
  | appSpec
  | planGen
  | exec
  | int
  | end
  deriving DecidableEq

structure ServerImpl where
  state : State
  tableMgr : TableManager
  qryMgr : QueryManager
  planMgr : PlanState
  currentQueryClass : ℤ

abbrev M := EStateM Failure ServerImpl

/-- The server after `beginAppSpecification`; `mem` is the memory of the plan manager. -/
def beginAppSpecification (mem : OpId → Operator) : ServerImpl where
  state := .appSpec
  tableMgr := .new
  qryMgr := ⟨0,0⟩
  planMgr := newPlanManager mem
  currentQueryClass := 1

def callPlanMgr {α : Type} (m : Physical.M α) : M α := fun s =>
  match m s.planMgr with
  | .ok a planMgr => .ok a { s with planMgr := planMgr }
  | .error e planMgr => .error e { s with planMgr := planMgr }

/-- `registerRelation` or `registerStream`, by the kind of the specification. -/
def registerSpec (spec : TableSpec) : M ℕ := fun s =>
  match s.tableMgr.registerSpec spec with
  | (.ok tableId,tableMgr) => .ok tableId { s with tableMgr := tableMgr }
  | (.error rc,tableMgr) => .error (.code rc) { s with tableMgr := tableMgr }

variable {Node : Type} (front : Frontend Node)

/-- The beginning that `registerBaseTable` and `registerView` share: the id of the new table. -/
def registerTableInfo (tableInfo : Option (List Char)) : M ℕ := do
  failIf ((← get).state ≠ .appSpec) (.code INVALID_USE_ERR)
  match tableInfo with
  | none => throw (.code INVALID_PARAM_ERR)
  | some text =>
    match front.parseCommand text with
    | none => throw (.code PARSE_ERR)
    | some parseTree =>
      match front.tableSpec parseTree with
      | none => throw (.code PARSE_ERR)
      | some spec => registerSpec spec

def registerBaseTable (tableInfo : Option (List Char)) : M Unit := do
  let tableId ← registerTableInfo front tableInfo
  let s ← get
  callPlanMgr (addBaseTable s.tableMgr tableId)

def registerView (queryId : ℕ) (tableInfo : Option (List Char)) : M Unit := do
  let tableId ← registerTableInfo front tableInfo
  let s ← get
  callPlanMgr (map s.tableMgr queryId tableId)

def planQuery (querySpec : List Char) : M (ℕ × Logical.Plan) := do
  failIf ((← get).state ≠ .appSpec) (.code INVALID_USE_ERR)
  let s ← get
  match front.parseCommand querySpec with
  | none => throw (.code PARSE_ERR)
  | some parseTree =>
    match front.interpretQuery s.tableMgr parseTree with
    | .error rc => throw (.code rc)
    | .ok semQuery =>
      match s.qryMgr.registerQuery querySpec with
      | .error rc => throw (.code rc)
      | .ok (queryId,qryMgr) =>
        set { s with qryMgr := qryMgr }
        match (Logical.genLogPlan s.tableMgr semQuery).run ⟨0,0⟩ with
        | .error e _ => throw e
        | .ok logPlan _ => return (queryId,logPlan)

/-- Registers a query; `output` tells whether its result is required externally. -/
def registerQuery (u : Uninit) (querySpec : List Char) (output : Bool) : M ℕ := do
  let (queryId,logPlan) ← planQuery front querySpec
  modify fun s => { s with planMgr := { s.planMgr with currentQueryClass := s.currentQueryClass } }
  callPlanMgr (addLogicalQueryPlan u queryId logPlan output)
  return queryId

/-- Ends the registrations: the plan is optimized, and the server leaves the state in which it accepts more. -/
def endAppSpecification (sharingAmongClasses : Bool) : M Unit := do
  failIf ((← get).state ≠ .appSpec) (.code INVALID_USE_ERR)
  callPlanMgr (optimizePlan sharingAmongClasses)
  modify fun s => { s with state := .planGen }

end AqsiosCoordinator.Server
