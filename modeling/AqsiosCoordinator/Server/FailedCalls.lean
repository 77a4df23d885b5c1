import AqsiosCoordinator.Server.CallEffects
import AqsiosCoordinator.Metadata.FailedPlans

/-! # Registrations that fail

A call commits with one manager after the other. Only the table manager takes back what
it has done when a registration fails there, and an id of a query is never taken back.
-/
namespace AqsiosCoordinator.Server
open Common Foundation Foundation.Outcome Metadata Physical

variable {Node : Type} (front : Frontend Node) (u : Uninit)

def Request.run : Request → M Unit
  | .registerBaseTable tableInfo => Server.registerBaseTable front tableInfo
  | .registerQuery querySpec output => do let _ ← Server.registerQuery front u querySpec output
  | .registerView queryId tableInfo => Server.registerView front queryId tableInfo

/-- The servers that registrations reach, with calls that return and calls that fail. -/
inductive Reached (mem : OpId → Operator) : ServerImpl → Prop where
  | start : Reached mem (beginAppSpecification mem)
  | call {s : ServerImpl} (h : Reached mem s) (request : Request) : Reached mem (finalState (request.run front u s))
  | queryClass {s : ServerImpl} (h : Reached mem s) (queryClass : ℤ) :
      Reached mem { s with currentQueryClass := queryClass }

/-- The same tables, and the same maps and graph of the plan manager. -/
structure ServerImpl.SameRegistered (s t : ServerImpl) : Prop where
  tables : t.tableMgr = s.tableMgr
  plan : s.planMgr.SameGraph t.planMgr

/-- The call fails, if it fails, before it has done anything: the table manager refuses the
table, and nothing is created for the plan of a query. -/
def Request.Harmless (s : ServerImpl) : Request → Prop
  | .registerBaseTable tableInfo => Refused front s tableInfo
  | .registerView _ tableInfo => Refused front s tableInfo
  | .registerQuery querySpec _ => ∀ queryId plan s', planQuery front querySpec s = .ok (queryId,plan) s' →
    NothingCreated s.planMgr plan

/-- The table manager does not accept the table, or the query manager the query. -/
def Request.Refused (s : ServerImpl) : Request → Prop
  | .registerBaseTable tableInfo => Server.Refused front s tableInfo
  | .registerView _ tableInfo => Server.Refused front s tableInfo
  | .registerQuery querySpec _ => QueryRefused front s querySpec

inductive LaterCall where
  | request (request : Request)
  | setQueryClass (queryClass : ℤ)
  | endAppSpecification (sharingAmongClasses : Bool)

/-- What a call returns: the id of a query that is registered. -/
def LaterCall.reply : LaterCall → M (Option ℕ)
  | .request (.registerQuery querySpec output) => do return some (← Server.registerQuery front u querySpec output)
  | .request r => do
    r.run front u
    return none
  | .setQueryClass queryClass => do
    modify fun s => { s with currentQueryClass := queryClass }
    return none
  | .endAppSpecification sharingAmongClasses => do
    Server.endAppSpecification sharingAmongClasses
    return none

def replies : List LaterCall → ServerImpl → List (Except Failure (Option ℕ))
  | [], _ => []
  | call :: rest, s =>
    match call.reply front u s with
    | .ok reply t => .ok reply :: replies rest t
    | .error (.code rc) t => .error (.code rc) :: replies rest t
    | .error e _ => [.error e]

/-- Nothing of a call is left, and no later call can tell that it has been made. -/
structure ServerImpl.Undone (s t : ServerImpl) : Prop where
  registered : s.SameRegistered t
  queries : t.qryMgr = s.qryMgr
  later : ∀ calls, replies front u calls t = replies front u calls s

variable {front u} {mem : OpId → Operator} {s t : ServerImpl}

theorem regInv_of_call {p : PlanState} (h : RegInv p) (call : Call) : RegInv (finalState (call.run p)) :=
  (framed_call call p h trivial).1

/-- What a table registration leaves, for a call of the plan manager that keeps its invariant. -/
theorem registerTableWith_keeps {tableInfo : Option (List Char)} {f : TableManager → ℕ → Physical.M Unit}
    (hf : ∀ tableMgr tableId p, RegInv p → RegInv (finalState (f tableMgr tableId p)))
    (hs : s.state = .appSpec ∧ RegInv s.planMgr) :
    (finalState (registerTableWith front tableInfo f s)).state = .appSpec ∧
      RegInv (finalState (registerTableWith front tableInfo f s)).planMgr := by
  cases h : registerTableWith front tableInfo f s with
  | ok a t =>
    obtain ⟨spec,p,-,hp,rfl⟩ := registerTableWith_ok h
    have hreg := hf (withTable s.tableMgr spec) s.tableMgr.numTables s.planMgr hs.2
    rw [hp] at hreg
    exact ⟨hs.1,hreg⟩
  | error e t =>
    rcases registerTableWith_error h with ⟨-,rfl⟩ | ⟨spec,p,-,hp,rfl⟩
    · exact hs
    · have hreg := hf (withTable s.tableMgr spec) s.tableMgr.numTables s.planMgr hs.2
      rw [hp] at hreg
      exact ⟨hs.1,hreg⟩

theorem registerQuery_keeps {querySpec : List Char} {output : Bool} (hs : s.state = .appSpec ∧ RegInv s.planMgr) :
    (finalState (registerQuery front u querySpec output s)).state = .appSpec ∧
      RegInv (finalState (registerQuery front u querySpec output s)).planMgr := by
  have hclass := regInv_of_call hs.2 (.setQueryClass s.currentQueryClass)
  have hreg (queryId : ℕ) (plan : Logical.Plan) : RegInv (finalState (addLogicalQueryPlan u queryId plan output
      { s.planMgr with currentQueryClass := s.currentQueryClass })) :=
    regInv_of_call hclass (.addLogicalQueryPlan u queryId plan output)
  cases h : registerQuery front u querySpec output s with
  | ok queryId t =>
    obtain ⟨_,plan,_,_,p,-,-,-,hp,rfl⟩ := registerQuery_ok h
    have hp' := hreg queryId plan
    rw [hp] at hp'
    exact ⟨hs.1,hp'⟩
  | error e t =>
    rcases registerQuery_error h with ⟨-,-,rfl⟩ | ⟨queryId,_,-,-,⟨-,rfl⟩ | ⟨plan,p,-,hp,rfl⟩⟩
    · exact hs
    · exact hs
    · have hp' := hreg queryId plan
      rw [hp] at hp'
      exact ⟨hs.1,hp'⟩

theorem finalState_discard {ε σ α : Type} (m : EStateM ε σ α) (s : σ) :
    finalState ((do let _ ← m : EStateM ε σ Unit) s) = finalState (m s) := by
  cases h : m s with
  | ok a t =>
    rw [bind_of_ok h]
    rfl
  | error e t =>
    rw [bind_of_error h]
    rfl

theorem Reached.inv (h : Reached front u mem s) : s.state = .appSpec ∧ RegInv s.planMgr := by
  induction h with
  | start => exact ⟨rfl,newPlanManager_regInv mem⟩
  | queryClass _ _ ih => exact ih
  | call _ request ih =>
    cases request with
    | registerBaseTable tableInfo =>
      exact registerTableWith_keeps (fun tableMgr tableId p hp => regInv_of_call hp (.addBaseTable tableMgr tableId)) ih
    | registerView queryId tableInfo =>
      exact registerTableWith_keeps (f := fun tableMgr tableId => map tableMgr queryId tableId)
        (fun tableMgr tableId p hp => regInv_of_call hp (.map tableMgr queryId tableId)) ih
    | registerQuery querySpec output =>
      unfold Request.run
      rw [finalState_discard]
      exact registerQuery_keeps ih

/-- A table registration that fails leaves everything as it was exactly when the table is refused. -/
theorem registerTableWith_sameRegistered_iff {tableInfo : Option (List Char)} {f : TableManager → ℕ → Physical.M Unit}
    {e : Failure} (hstate : s.state = .appSpec) (h : registerTableWith front tableInfo f s = .error e t) :
    s.SameRegistered t ↔ Refused front s tableInfo := by
  rcases registerTableWith_error h with ⟨hrefused,rfl⟩ | ⟨spec,p,haccepted,-,rfl⟩
  · exact ⟨fun _ => hrefused hstate,fun _ => ⟨rfl,.refl _⟩⟩
  · refine ⟨fun hsame => absurd (congrArg TableManager.numTables hsame.tables) ?_,fun hrefused => absurd hrefused haccepted⟩
    show (withTable s.tableMgr spec).numTables ≠ _
    rw [withTable_numTables]
    omega

theorem registerQuery_sameRegistered_iff {querySpec : List Char} {output : Bool} {rc : ℤ} (hs : RegInv s.planMgr)
    (h : registerQuery front u querySpec output s = .error (.code rc) t) :
    s.SameRegistered t ↔ Request.Harmless front s (.registerQuery querySpec output) := by
  rcases registerQuery_error h with ⟨-,hno,rfl⟩ | ⟨queryId,qryMgr,-,-,⟨hno,rfl⟩ | ⟨plan,p,hplan,hp,rfl⟩⟩
  · exact ⟨fun _ queryId plan s' hok => absurd hok (hno _ _),fun _ => ⟨rfl,.refl _⟩⟩
  · exact ⟨fun _ queryId plan s' hok => absurd hok (hno _ _),fun _ => ⟨rfl,.refl _⟩⟩
  have hclass := regInv_of_call hs (.setQueryClass s.currentQueryClass)
  -- neither the graph nor the pools know of the class of the current query
  have hgraph := addLogicalQueryPlan_sameGraph_iff hclass hp
  have hnothing : NothingCreated { s.planMgr with currentQueryClass := s.currentQueryClass } plan ↔
      NothingCreated s.planMgr plan := Iff.rfl
  constructor
  · intro hsame queryId' plan' s' hok
    rw [hplan] at hok
    cases hok
    apply hnothing.mp
    apply hgraph.mp
    exact ⟨hsame.plan.sources,hsame.plan.queries,hsame.plan.used,hsame.plan.edges⟩
  · intro hharmless
    have hsame := hgraph.mpr (hnothing.mpr (hharmless _ _ _ hplan))
    exact ⟨rfl,hsame.sources,hsame.queries,hsame.used,hsame.edges⟩

theorem registerQuery_of_run {querySpec : List Char} {output : Bool} {e : Failure}
    (h : (Request.registerQuery querySpec output).run front u s = .error e t) : registerQuery front u querySpec output s = .error e t := by
  cases hr : registerQuery front u querySpec output s with
  | ok a t' =>
    have hok : Request.run front u (.registerQuery querySpec output) s = .ok () t' := bind_of_ok hr
    rw [h] at hok
    cases hok
  | error e' t' =>
    have hfail : Request.run front u (.registerQuery querySpec output) s = .error e' t' := bind_of_error hr
    rw [h] at hfail
    cases hfail
    rfl

/-- A registration that returns an error leaves the tables, the maps and the plan graph as
they were exactly when it fails before it has created anything. -/
theorem failed_sameRegistered_iff {request : Request} {rc : ℤ} (hs : Reached front u mem s)
    (h : request.run front u s = .error (.code rc) t) : s.SameRegistered t ↔ request.Harmless front s := by
  obtain ⟨hstate,hreg⟩ := hs.inv
  cases request with
  | registerBaseTable tableInfo => exact registerTableWith_sameRegistered_iff hstate h
  | registerView queryId tableInfo =>
    exact registerTableWith_sameRegistered_iff (f := fun tableMgr tableId => map tableMgr queryId tableId) hstate h
  | registerQuery querySpec output => exact registerQuery_sameRegistered_iff hreg (registerQuery_of_run h)

theorem ServerImpl.Undone.refl (s : ServerImpl) : s.Undone front u s := ⟨⟨rfl,.refl _⟩,rfl,fun _ => rfl⟩

theorem registerTableWith_undone_iff {tableInfo : Option (List Char)} {f : TableManager → ℕ → Physical.M Unit}
    {e : Failure} (hstate : s.state = .appSpec) (h : registerTableWith front tableInfo f s = .error e t) :
    s.Undone front u t ↔ Server.Refused front s tableInfo := by
  constructor
  · exact fun hundone => (registerTableWith_sameRegistered_iff hstate h).mp hundone.registered
  · intro hrefused
    rcases registerTableWith_error h with ⟨-,rfl⟩ | ⟨_,_,haccepted,-,-⟩
    · exact .refl t
    · exact absurd hrefused haccepted

theorem registerQuery_numQueries {m m' : QueryManager} {text : List Char} {queryId : ℕ}
    (h : m.registerQuery text = .ok (queryId,m')) : m'.numQueries = m.numQueries + 1 := by
  unfold QueryManager.registerQuery at h
  split_ifs at h
  cases h
  rfl

theorem registerQuery_undone_iff {querySpec : List Char} {output : Bool} {e : Failure} (hstate : s.state = .appSpec)
    (h : registerQuery front u querySpec output s = .error e t) : s.Undone front u t ↔ QueryRefused front s querySpec := by
  rcases registerQuery_error h with ⟨hrefused,-,rfl⟩ | ⟨queryId,qryMgr,haccepted,hroom,hrest⟩
  · exact ⟨fun _ => hrefused hstate,fun _ => .refl t⟩
  · refine ⟨fun hundone => ?_,fun hrefused => absurd hrefused haccepted⟩
    have hqueries : t.qryMgr = qryMgr := by
      rcases hrest with ⟨-,rfl⟩ | ⟨plan,p,-,-,rfl⟩ <;> rfl
    have hnum := registerQuery_numQueries hroom
    rw [← hqueries, hundone.queries] at hnum
    omega

/-- A registration that returns an error leaves the tables, the maps, the plan graph and the ids of queries
as they were, and all later calls return what they would have returned without it, exactly when the table
manager or the query manager does not accept what is registered. -/
theorem failed_undone_iff {request : Request} {rc : ℤ} (hs : Reached front u mem s)
    (h : request.run front u s = .error (.code rc) t) : s.Undone front u t ↔ request.Refused front s := by
  obtain ⟨hstate,-⟩ := hs.inv
  cases request with
  | registerBaseTable tableInfo => exact registerTableWith_undone_iff hstate h
  | registerView queryId tableInfo =>
    exact registerTableWith_undone_iff (f := fun tableMgr tableId => map tableMgr queryId tableId) hstate h
  | registerQuery querySpec output => exact registerQuery_undone_iff hstate (registerQuery_of_run h)

def oneTableFrontend : Frontend (List Char) := listedFrontend [(['S'],⟨['S'],true,[⟨['a'],.int,4⟩]⟩)] []

def failureCode {σ α : Type} : EStateM.Result Failure σ α → Option ℤ
  | .error (.code rc) _ => some rc
  | _ => none

theorem error_of_failureCode {σ α : Type} {r : EStateM.Result Failure σ α} {rc : ℤ} (h : failureCode r = some rc) :
    r = .error (.code rc) (finalState r) := by
  unfold failureCode at h
  split at h
  · cases h
    rfl
  · cases h

def oneTable : ServerImpl :=
  finalState ((Request.registerBaseTable (some ['S'])).run oneTableFrontend blankUninit (beginAppSpecification blankMemory))

/-- The second registration of a table fails and changes nothing. -/
theorem duplicate_undone : ∃ t,
    (Request.registerBaseTable (some ['S'])).run oneTableFrontend blankUninit oneTable = .error (.code 102) t ∧
      oneTable.Undone oneTableFrontend blankUninit t := by
  have hcode : failureCode ((Request.registerBaseTable (some ['S'])).run oneTableFrontend blankUninit oneTable) = some 102 := by
    decide +kernel
  have hrun := error_of_failureCode hcode
  have hreached : Reached oneTableFrontend blankUninit blankMemory oneTable := .call .start _
  refine ⟨_,hrun,(failed_undone_iff hreached hrun).mpr fun spec hspec tableId tableMgr hok => ?_⟩
  have hread : oneTableFrontend.readTable (some ['S']) = some ⟨['S'],true,[⟨['a'],.int,4⟩]⟩ := rfl
  obtain rfl : _ = spec := Option.some.inj (hread.symm.trans hspec)
  have hdup : (match (oneTable.tableMgr.registerSpec ⟨['S'],true,[⟨['a'],.int,4⟩]⟩).1 with
    | .ok _ => true
    | .error _ => false) = false := by decide +kernel
  rw [hok] at hdup
  cases hdup

/-- A view of a query that does not exist is refused by the plan manager when the table
manager has entered its table, which can then not be registered again. -/
theorem failedView_keeps_table : ∃ t,
    (Request.registerView 0 (some ['S'])).run oneTableFrontend blankUninit (beginAppSpecification blankMemory) =
        .error (.code (-1)) t ∧
      ¬ (beginAppSpecification blankMemory).SameRegistered t ∧
      ¬ (beginAppSpecification blankMemory).Undone oneTableFrontend blankUninit t ∧
      failureCode ((Request.registerBaseTable (some ['S'])).run oneTableFrontend blankUninit t) = some 102 ∧
      returns ((Request.registerBaseTable (some ['S'])).run oneTableFrontend blankUninit
        (beginAppSpecification blankMemory)) = true := by
  have hcode : failureCode ((Request.registerView 0 (some ['S'])).run oneTableFrontend blankUninit
      (beginAppSpecification blankMemory)) = some (-1) := by decide +kernel
  have hrun := error_of_failureCode hcode
  have hchanged : ¬ (beginAppSpecification blankMemory).SameRegistered
      (finalState ((Request.registerView 0 (some ['S'])).run oneTableFrontend blankUninit (beginAppSpecification blankMemory))) := by
    intro hsame
    have hnum := congrArg TableManager.numTables hsame.tables
    revert hnum
    decide +kernel
  exact ⟨_,hrun,hchanged,fun hundone => hchanged hundone.registered,by decide +kernel,by decide +kernel⟩

end AqsiosCoordinator.Server
