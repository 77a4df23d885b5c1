import AqsiosCoordinator.Server.CallEffects
import AqsiosCoordinator.Foundation.Runs

/-! # Streams and relations across the managers

The table manager, the logical plan and the physical plan each compute whether
something is a stream. `map` compares the columns of a view with those of its query,
and nothing compares the kinds.
-/
namespace AqsiosCoordinator.Server
open Common Foundation Foundation.Outcome Metadata Physical

/-- A server with what has been registered: the plan of each query, the operator that
stands for each logical operator, and the query and the table of each view. -/
structure Session where
  server : ServerImpl
  queries : List (ℕ × Logical.Plan)
  generated : List (Logical.Plan × OpId)
  views : List (ℕ × ℕ)

def returned {ε σ α : Type} : EStateM.Result ε σ α → Option (α × σ)
  | .ok a s => some (a,s)
  | .error _ _ => none

theorem returned_eq_some {ε σ α : Type} {r : EStateM.Result ε σ α} {a : α} {s : σ} :
    returned r = some (a,s) ↔ r = .ok a s := by
  cases r <;> simp [returned]

namespace Session
variable {Node : Type} (front : Frontend Node) (u : Uninit)

def start (mem : OpId → Operator) : Session := ⟨beginAppSpecification mem,[],[],[]⟩

def step (c : Session) : Request → Option Session
  | .registerBaseTable tableInfo => do
    let ((),server) ← returned (registerBaseTable front tableInfo c.server)
    return { c with server := server }
  | .registerQuery querySpec output => do
    let ((queryId,plan),planned) ← returned (planQuery front querySpec c.server)
    let ((_,record),_) ← returned
      (genRecorded u plan { planned.planMgr with currentQueryClass := planned.currentQueryClass })
    let (_,server) ← returned (registerQuery front u querySpec output c.server)
    return ⟨server,c.queries ++ [(queryId,plan)],c.generated ++ record,c.views⟩
  | .registerView queryId tableInfo => do
    let ((),server) ← returned (registerView front queryId tableInfo c.server)
    return { c with server := server, views := c.views ++ [(queryId,c.server.tableMgr.numTables)] }

/-- The kinds agree: of each view with the query source of its query and with what its
table leads to, and of each logical operator with the operator that stands for it. -/
structure KindsAgree (c : Session) : Prop where
  query : ∀ e ∈ c.views, ∃ q, c.server.planMgr.queryOutOps.find? (fun x => x.1 == e.1) = some q ∧
    c.server.tableMgr.isStream e.2 = (c.server.planMgr.ops q.2).bStream
  table : ∀ e ∈ c.views, c.server.tableMgr.isStream e.2 =
    (c.server.planMgr.ops (lookupSource e.2 c.server.planMgr.sourceOps)).bStream
  generated : ∀ e ∈ c.generated, (c.server.planMgr.ops e.2).bStream = e.1.bStream

/-- A view is declared a stream exactly when the plan of its query is one, and a query
reads table `SS_ID`, which leads to the system stream, only when it is a stream. -/
def Allowed (c : Session) : Request → Prop
  | .registerBaseTable _ => True
  | .registerQuery querySpec _ => ∀ query ∈ front.readQuery c.server.tableMgr querySpec, ∀ v ∈ query.sources,
    query.refTables v = SysStream.SS_ID → c.server.tableMgr.isStream SysStream.SS_ID = true
  | .registerView queryId tableInfo => ∀ spec ∈ front.readTable tableInfo, ∀ plan, (queryId,plan) ∈ c.queries →
    spec.isStream = plan.bStream

def Known (c : Session) (id : ℕ) : Prop :=
  id < c.server.tableMgr.numTables ∧ (id = SysStream.SS_ID → c.server.tableMgr.isStream SysStream.SS_ID = true)

structure Inv (c : Session) : Prop where
  reg : RegInv c.server.planMgr
  sys : c.server.planMgr.sourceOps.find? (fun e => e.1 == SysStream.SS_ID) = some (SysStream.SS_ID,⟨0,maxOps_pos⟩) ∧
    (c.server.planMgr.ops ⟨0,maxOps_pos⟩).bStream = true
  ids : ∀ e ∈ c.server.planMgr.sourceOps, e.1 = SysStream.SS_ID ∨ e.1 < c.server.tableMgr.numTables
  agrees : c.server.planMgr.AgreesOn c.Known c.server.tableMgr
  queries : ∀ e ∈ c.server.planMgr.queryOutOps, c.server.tableMgr.numTables ≠ 0 ∧
    ∃ plan, (e.1,plan) ∈ c.queries ∧ (c.server.planMgr.ops e.2).bStream = plan.bStream
  generated : ∀ e ∈ c.generated, e.2 ∈ c.server.planMgr.used ∧ (c.server.planMgr.ops e.2).bStream = e.1.bStream
  views : ∀ e ∈ c.views, c.Known e.2 ∧ ∃ q, c.server.planMgr.queryOutOps.find? (fun x => x.1 == e.1) = some q ∧
    c.server.tableMgr.isStream e.2 = (c.server.planMgr.ops q.2).bStream

theorem Inv.kindsAgree {c : Session} (h : c.Inv) : c.KindsAgree where
  query := fun e he => (h.views e he).2
  table := fun e he => (h.agrees e.2 (h.views e he).1).symm
  generated := fun e he => (h.generated e he).2

theorem start_inv (mem : OpId → Operator) : (start mem).Inv := by
  obtain ⟨hpool,hused,hop,hsrc,hqry⟩ := newPlanManager_started mem
  refine ⟨newPlanManager_regInv mem,⟨?_,?_⟩,fun e he => ?_,fun id hid => ?_,fun e he => ?_,by simp [start],by simp [start]⟩
  · show (newPlanManager mem).sourceOps.find? _ = _
    rw [hsrc]
    rfl
  · show ((newPlanManager mem).ops _).bStream = true
    rw [hop]
  · have hmem : e ∈ (newPlanManager mem).sourceOps := he
    rw [hsrc] at hmem
    exact .inl (by rw [List.mem_singleton.mp hmem])
  · exact absurd hid.1 (Nat.not_lt_zero id)
  · have hmem : e ∈ (newPlanManager mem).queryOutOps := he
    rw [hqry] at hmem
    exact absurd hmem List.not_mem_nil

/-! Each request keeps the invariant. -/

variable {front : Frontend Node} {u : Uninit} {c d : Session}

theorem later_bStream {s t : PlanState} (h : Later s t) {o : OpId} (ho : o ∈ s.used) :
    (t.ops o).bStream = (s.ops o).bStream := by
  obtain ⟨qc,ext,h1,-⟩ := h.old o ho
  rw [h1]

theorem lookupSource_append {id : ℕ} {l : List (ℕ × OpId)} {e : ℕ × OpId}
    (h : e.1 ≠ id ∨ ∃ x ∈ l, x.1 = id) : lookupSource id (l ++ [e]) = lookupSource id l := by
  unfold lookupSource
  rw [List.find?_append]
  cases hfind : l.find? (fun x => x.1 == id) with
  | some x => rfl
  | none =>
    have hne : e.1 ≠ id := by
      rcases h with h | ⟨x,hx,hid⟩
      · exact h
      · have hno := List.find?_eq_none.mp hfind x hx
        exact absurd (by simpa using hid) hno
    simp [hne]

theorem lookupSource_append_new {id : ℕ} {l : List (ℕ × OpId)} {o : OpId} (h : ∀ x ∈ l, x.1 ≠ id) :
    lookupSource id (l ++ [(id,o)]) = o := by
  unfold lookupSource
  rw [List.find?_append, List.find?_eq_none.mpr fun x hx => by simpa using h x hx]
  simp

/-- One more table, which leads to an operator of its kind. -/
theorem Inv.withTable (h : c.Inv) {spec : TableSpec} {p : PlanState} {o : OpId} (hreg : RegInv p)
    (hlater : Later c.server.planMgr p)
    (hsrc : p.sourceOps = c.server.planMgr.sourceOps ++ [(c.server.tableMgr.numTables,o)])
    (hqry : p.queryOutOps = c.server.planMgr.queryOutOps) (hflag : (p.ops o).bStream = spec.isStream) :
    Inv { c with server := { c.server with tableMgr := withTable c.server.tableMgr spec, planMgr := p } } := by
  have hnum := withTable_numTables c.server.tableMgr spec
  have hsys : p.sourceOps.find? (fun e => e.1 == SysStream.SS_ID) = some (SysStream.SS_ID,⟨0,maxOps_pos⟩) := by
    rw [hsrc, List.find?_append, h.sys.1]
    rfl
  have hdefault : (p.ops ⟨0,maxOps_pos⟩).bStream = true := by
    rw [later_bStream hlater h.reg.default.1]
    exact h.sys.2
  have hknown {id : ℕ} (hlt : id < c.server.tableMgr.numTables)
      (hk : id = SysStream.SS_ID → (Server.withTable c.server.tableMgr spec).isStream SysStream.SS_ID = true) :
      c.Known id := by
    refine ⟨hlt,fun hid => ?_⟩
    rw [← hk hid, withTable_isStream spec (hid ▸ hlt)]
  refine ⟨hreg,⟨hsys,hdefault⟩,fun e he => ?_,fun id hid => ?_,fun e he => ?_,fun e he => ?_,fun e he => ?_⟩
  · show e.1 = _ ∨ e.1 < (Server.withTable c.server.tableMgr spec).numTables
    have hmem : e ∈ p.sourceOps := he
    rw [hsrc] at hmem
    rcases List.mem_append.mp hmem with hmem | hmem
    · rcases h.ids e hmem with hs | hlt
      · exact .inl hs
      · exact .inr (by omega)
    · rw [List.mem_singleton.mp hmem]
      exact .inr (by omega)
  · obtain ⟨hlt,hk⟩ := hid
    show (p.ops (lookupSource id p.sourceOps)).bStream = (Server.withTable c.server.tableMgr spec).isStream id
    have hlt' : id < (Server.withTable c.server.tableMgr spec).numTables := hlt
    by_cases hsysid : id = SysStream.SS_ID
    · have hlook : lookupSource id p.sourceOps = ⟨0,maxOps_pos⟩ := by
        rw [hsysid, lookupSource, hsys]
        rfl
      rw [hlook, hdefault, hsysid]
      exact (hk hsysid).symm
    by_cases hnew : id = c.server.tableMgr.numTables
    · subst hnew
      rw [withTable_isStream_new, hsrc, lookupSource_append_new fun x hx => ?_]
      · exact hflag
      · rcases h.ids x hx with hs | hlt
        · exact fun he => hsysid (he.symm.trans hs)
        · omega
    · have hold : id < c.server.tableMgr.numTables := by omega
      rw [withTable_isStream spec hold, hsrc, lookupSource_append (.inl (Ne.symm hnew)),
        later_bStream hlater (h.reg.lookupSource_mem id)]
      exact h.agrees id (hknown hold hk)
  · have hmem : e ∈ c.server.planMgr.queryOutOps := hqry ▸ he
    obtain ⟨-,plan,hplan,hf⟩ := h.queries e hmem
    refine ⟨?_,plan,hplan,(later_bStream hlater (h.reg.queries e hmem).1).trans hf⟩
    show (Server.withTable c.server.tableMgr spec).numTables ≠ 0
    omega
  · obtain ⟨hused,hf⟩ := h.generated e he
    exact ⟨hlater.used _ hused,(later_bStream hlater hused).trans hf⟩
  · obtain ⟨hk,q,hq,hf⟩ := h.views e he
    have hstream := withTable_isStream spec hk.1
    refine ⟨⟨?_,fun hid => ?_⟩,q,?_,?_⟩
    · show e.2 < (Server.withTable c.server.tableMgr spec).numTables
      have hlt := hk.1
      omega
    · show (Server.withTable c.server.tableMgr spec).isStream SysStream.SS_ID = true
      rw [withTable_isStream spec (hid ▸ hk.1)]
      exact hk.2 hid
    · show p.queryOutOps.find? _ = some q
      rw [hqry]
      exact hq
    · show (Server.withTable c.server.tableMgr spec).isStream e.2 = (p.ops q.2).bStream
      rw [hstream, later_bStream hlater (h.reg.queries q (List.mem_of_find?_eq_some hq)).1]
      exact hf

theorem Inv.withView (h : c.Inv) {e : ℕ × ℕ} (hk : c.Known e.2) {q : ℕ × OpId}
    (hq : c.server.planMgr.queryOutOps.find? (fun x => x.1 == e.1) = some q)
    (hf : c.server.tableMgr.isStream e.2 = (c.server.planMgr.ops q.2).bStream) :
    Inv { c with views := c.views ++ [e] } := by
  refine ⟨h.reg,h.sys,h.ids,h.agrees,h.queries,h.generated,fun e' he => ?_⟩
  rcases List.mem_append.mp he with he | he
  · exact h.views e' he
  · rw [List.mem_singleton.mp he]
    exact ⟨hk,q,hq,hf⟩

/-- One more query, with the operators of its plan. -/
theorem Inv.withQuery (h : c.Inv) {p : PlanState} {qryMgr : QueryManager} {queryId : ℕ} {plan : Logical.Plan}
    {querySource : OpId} {record : List (Logical.Plan × OpId)} (hreg : RegInv p) (hlater : Later c.server.planMgr p)
    (hsrc : p.sourceOps = c.server.planMgr.sourceOps)
    (hqry : p.queryOutOps = c.server.planMgr.queryOutOps ++ [(queryId,querySource)])
    (htables : c.server.tableMgr.numTables ≠ 0) (hflag : (p.ops querySource).bStream = plan.bStream)
    (hrecord : ∀ e ∈ record, e.2 ∈ p.used ∧ (p.ops e.2).bStream = e.1.bStream) :
    Inv ⟨{ c.server with planMgr := p, qryMgr := qryMgr },c.queries ++ [(queryId,plan)],c.generated ++ record,c.views⟩ := by
  refine ⟨hreg,⟨?_,?_⟩,fun e he => ?_,fun id hid => ?_,fun e he => ?_,fun e he => ?_,fun e he => ?_⟩
  · show p.sourceOps.find? _ = _
    rw [hsrc]
    exact h.sys.1
  · show (p.ops _).bStream = true
    rw [later_bStream hlater h.reg.default.1]
    exact h.sys.2
  · have hmem : e ∈ p.sourceOps := he
    rw [hsrc] at hmem
    exact h.ids e hmem
  · show (p.ops (lookupSource id p.sourceOps)).bStream = _
    rw [hsrc, later_bStream hlater (h.reg.lookupSource_mem id)]
    exact h.agrees id hid
  · refine ⟨htables,?_⟩
    have hmem : e ∈ p.queryOutOps := he
    rw [hqry] at hmem
    rcases List.mem_append.mp hmem with hmem | hmem
    · obtain ⟨-,plan',hplan,hf⟩ := h.queries e hmem
      exact ⟨plan',List.mem_append_left _ hplan,(later_bStream hlater (h.reg.queries e hmem).1).trans hf⟩
    · rw [List.mem_singleton.mp hmem]
      exact ⟨plan,List.mem_append_right _ (List.mem_singleton_self _),hflag⟩
  · rcases List.mem_append.mp he with he | he
    · obtain ⟨hused,hf⟩ := h.generated e he
      exact ⟨hlater.used _ hused,(later_bStream hlater hused).trans hf⟩
    · exact hrecord e he
  · obtain ⟨hk,q,hq,hf⟩ := h.views e he
    refine ⟨hk,q,?_,?_⟩
    · show p.queryOutOps.find? _ = some q
      rw [hqry, List.find?_append, hq]
      rfl
    · show c.server.tableMgr.isStream e.2 = (p.ops q.2).bStream
      rw [later_bStream hlater (h.reg.queries q (List.mem_of_find?_eq_some hq)).1]
      exact hf

/-- A call of the plan manager that returns leaves it as it should be. -/
theorem later_of_call {s t : PlanState} (hs : RegInv s) (call : Call) (h : call.run s = .ok () t) :
    RegInv t ∧ Later s t := by
  obtain ⟨h1,h2,-⟩ := framed_call call s hs trivial
  rw [h] at h1 h2
  exact ⟨h1,h2⟩

theorem step_registerBaseTable {tableInfo : Option (List Char)} (h : c.Inv)
    (hstep : c.step front u (.registerBaseTable tableInfo) = some d) : d.Inv := by
  obtain ⟨⟨⟨⟩,server⟩,hret,hd⟩ := Option.bind_eq_some_iff.mp hstep
  obtain rfl := Option.some.inj hd
  obtain ⟨spec,p,-,hp,rfl⟩ := registerTableWith_ok (returned_eq_some.mp hret)
  obtain ⟨hreg,hlater⟩ := later_of_call h.reg (.addBaseTable _ _) hp
  obtain ⟨op,s',hadd,rfl⟩ := addBaseTable_ok h.reg.pool hp
  refine h.withTable (o := op) hreg hlater ?_ ?_ ?_
  · show s'.sourceOps ++ _ = _
    rw [show s'.sourceOps = c.server.planMgr.sourceOps from congrArg Tables.sourceOps hadd.tables]
  · exact congrArg Tables.queryOutOps hadd.tables
  · show (s'.ops op).bStream = _
    rw [hadd.self]
    exact withTable_isStream_new c.server.tableMgr spec

theorem step_registerView {queryId : ℕ} {tableInfo : Option (List Char)} (h : c.Inv)
    (hallowed : c.Allowed front (.registerView queryId tableInfo))
    (hstep : c.step front u (.registerView queryId tableInfo) = some d) : d.Inv := by
  obtain ⟨⟨⟨⟩,server⟩,hret,hd⟩ := Option.bind_eq_some_iff.mp hstep
  obtain rfl := Option.some.inj hd
  obtain ⟨spec,p,hspec,hp,rfl⟩ :=
    registerTableWith_ok (f := fun tableMgr tableId => map tableMgr queryId tableId) (returned_eq_some.mp hret)
  obtain ⟨hreg,hlater⟩ := later_of_call h.reg (.map _ _ _) hp
  obtain ⟨q,queryOutOp,hfind,-,rfl⟩ := map_ok hp
  have hid : q = queryId := by simpa using List.find?_some hfind
  subst hid
  obtain ⟨htables,plan,hplan,hflag⟩ := h.queries _ (List.mem_of_find?_eq_some hfind)
  have hkind : (c.server.planMgr.ops queryOutOp).bStream = spec.isStream :=
    hflag.trans (hallowed spec hspec plan hplan).symm
  have hnew := h.withTable (o := queryOutOp) hreg hlater rfl rfl hkind
  refine hnew.withView (e := (q,c.server.tableMgr.numTables)) ⟨?_,fun hsys => absurd hsys htables⟩ hfind ?_
  · show c.server.tableMgr.numTables < (Server.withTable c.server.tableMgr spec).numTables
    rw [withTable_numTables]
    exact Nat.lt_succ_self _
  · show (Server.withTable c.server.tableMgr spec).isStream c.server.tableMgr.numTables = _
    rw [withTable_isStream_new]
    exact hkind.symm

theorem readQuery_resolved (hfront : front.ResolvesTables) {tableMgr : TableManager} {text : List Char}
    {query : Semantic.Query} (h : front.readQuery tableMgr text = some query) :
    ∀ v ∈ query.sources, query.refTables v < tableMgr.numTables := by
  obtain ⟨node,-,hnode⟩ := Option.bind_eq_some_iff.mp h
  cases hinterp : front.interpretQuery tableMgr node with
  | error rc => simp [hinterp] at hnode
  | ok q =>
    obtain rfl : q = query := by simpa [hinterp] using hnode
    exact hfront _ _ _ hinterp

theorem step_registerQuery (hfront : front.ResolvesTables) {querySpec : List Char} {output : Bool} (h : c.Inv)
    (hallowed : c.Allowed front (.registerQuery querySpec output))
    (hstep : c.step front u (.registerQuery querySpec output) = some d) : d.Inv := by
  obtain ⟨⟨⟨queryId,plan⟩,planned⟩,hplanned,hstep⟩ := Option.bind_eq_some_iff.mp hstep
  obtain ⟨⟨⟨op,record⟩,r⟩,hrecord,hstep⟩ := Option.bind_eq_some_iff.mp hstep
  obtain ⟨⟨_,server⟩,hret,hd⟩ := Option.bind_eq_some_iff.mp hstep
  obtain rfl := Option.some.inj hd
  have hplanned := returned_eq_some.mp hplanned
  obtain ⟨query,plan',usage,qryMgr,p,hquery,hgen,hok,hp,rfl⟩ := registerQuery_ok (returned_eq_some.mp hret)
  rw [hok] at hplanned
  cases hplanned
  have hresolved := readQuery_resolved hfront hquery
  have hknown : ∀ v ∈ query.sources, c.Known (query.refTables v) :=
    fun v hv => ⟨hresolved v hv,fun hid => hallowed query hquery v hv hid⟩
  have hflagged := Logical.genLogPlan_flagged hknown _ _ _ hgen
  have htables : c.server.tableMgr.numTables ≠ 0 := by
    obtain ⟨v,hv⟩ := List.exists_mem_of_ne_nil _ (Logical.genLogPlan_sources _ _ _ hgen)
    have hlt := hresolved v hv
    omega
  -- the class of the current query is no part of the graph
  obtain ⟨hregClass,hlaterClass⟩ := later_of_call h.reg (.setQueryClass c.server.currentQueryClass) rfl
  obtain ⟨hreg,hlater⟩ := later_of_call hregClass (.addLogicalQueryPlan u queryId plan output) hp
  obtain ⟨querySource,hqry,hsrc,hflag,hflags⟩ :=
    addLogicalQueryPlan_flags hregClass.pool hregClass.lookupSource_mem h.agrees hflagged (returned_eq_some.mp hrecord) hp
  exact h.withQuery hreg (Later.trans _ _ _ hlaterClass hlater) hsrc hqry htables hflag hflags

theorem step_inv (hfront : front.ResolvesTables) {request : Request} (h : c.Inv) (hallowed : c.Allowed front request)
    (hstep : c.step front u request = some d) : d.Inv := by
  cases request with
  | registerBaseTable tableInfo => exact step_registerBaseTable h hstep
  | registerQuery querySpec output => exact step_registerQuery hfront h hallowed hstep
  | registerView queryId tableInfo => exact step_registerView h hallowed hstep

/-- In every run of registrations in which views are declared as the plans of their queries
are, and table `SS_ID` is only read as a stream, the kinds agree. -/
theorem kindsAgree_of_runsWithin {mem : OpId → Operator} (hfront : front.ResolvesTables) {requests : List Request}
    (hrun : runAll (step front u) (start mem) requests = some c)
    (hallowed : RunsWithin (step front u) (Allowed front) (start mem) requests) : c.KindsAgree := by
  have hinv : c.Inv := hallowed.invariant (fun _ _ _ h ha hs => step_inv hfront h ha hs) (start_inv mem) hrun
  exact hinv.kindsAgree

def streamRows : Semantic.Query where
  kind := .sfwQuery
  refTables := fun _ => 1
  fromClauseTables := [0]
  winSpec := fun _ => .unbounded
  preds := []
  projExprs := [.attrRef .int ⟨0,0⟩]
  bDistinct := false
  gbyAttrs := []
  r2sOp := none
  binOp := .union

/-- A table that nobody reads, a stream, and a view that is declared in both ways. -/
def exampleFrontend : Frontend (List Char) :=
  listedFrontend [(['D'],⟨['D'],true,[⟨['a'],.int,4⟩]⟩), (['S'],⟨['S'],true,[⟨['a'],.int,4⟩]⟩),
    (['V'],⟨['V'],true,[⟨['a'],.int,4⟩]⟩), (['R'],⟨['R'],false,[⟨['a'],.int,4⟩]⟩)] [(['Q'],streamRows)]

def queryOfStream : List Request :=
  [.registerBaseTable (some ['D']), .registerBaseTable (some ['S']), .registerQuery ['Q'] false]

/-- A view of the rows of a stream, declared as a stream. -/
theorem streamView_kindsAgree : ∃ c, runAll (step exampleFrontend blankUninit) (start blankMemory)
    (queryOfStream ++ [.registerView 0 (some ['V'])]) = some c ∧ c.KindsAgree := by
  have hchecks : (match runAll (step exampleFrontend blankUninit) (start blankMemory) queryOfStream with
    | some c => c.queries.all (fun e => e.2.bStream) && (c.step exampleFrontend blankUninit (.registerView 0 (some ['V']))).isSome
    | none => false) = true := by decide +kernel
  cases hb : runAll (step exampleFrontend blankUninit) (start blankMemory) queryOfStream with
  | none => simp [hb] at hchecks
  | some b =>
    simp only [hb, Bool.and_eq_true] at hchecks
    obtain ⟨hstreams,hview⟩ := hchecks
    obtain ⟨c,hc⟩ := Option.isSome_iff_exists.mp hview
    have hrun := runAll_concat.mpr ⟨b,hb,hc⟩
    refine ⟨c,hrun,kindsAgree_of_runsWithin (listedFrontend_resolves _ _) hrun ?_⟩
    refine (RunsWithin.append hb).mpr ⟨RunsWithin.of_forall fun s a ha => ?_,⟨?_,fun _ _ => trivial⟩⟩
    · simp only [queryOfStream, List.mem_cons, List.not_mem_nil, or_false] at ha
      rcases ha with rfl | rfl | rfl
      · trivial
      · trivial
      · intro query hquery v hv hid
        obtain ⟨e,he,rfl⟩ := listedFrontend_readQuery hquery
        rw [List.mem_singleton.mp he] at hid
        simp [streamRows,SysStream.SS_ID] at hid
    · intro spec hspec plan hplan
      have hread : exampleFrontend.readTable (some ['V']) = some ⟨['V'],true,[⟨['a'],.int,4⟩]⟩ := rfl
      obtain rfl : _ = spec := Option.some.inj (hread.symm.trans hspec)
      exact (List.all_eq_true.mp hstreams _ hplan).symm

/-- The same view is accepted as a relation, although its query and the operator that it leads to are streams. -/
theorem relationView_accepted : ∃ c, runAll (step exampleFrontend blankUninit) (start blankMemory)
    (queryOfStream ++ [.registerView 0 (some ['R'])]) = some c ∧ c.views = [(0,2)] ∧
    c.server.tableMgr.isStream 2 = false ∧
    (c.server.planMgr.ops (lookupSource 2 c.server.planMgr.sourceOps)).bStream = true ∧ ¬ c.KindsAgree := by
  have hchecks : (match runAll (step exampleFrontend blankUninit) (start blankMemory)
      (queryOfStream ++ [.registerView 0 (some ['R'])]) with
    | some c => decide (c.views = [(0,2)]) && !c.server.tableMgr.isStream 2 &&
        (c.server.planMgr.ops (lookupSource 2 c.server.planMgr.sourceOps)).bStream
    | none => false) = true := by decide +kernel
  cases hc : runAll (step exampleFrontend blankUninit) (start blankMemory)
      (queryOfStream ++ [.registerView 0 (some ['R'])]) with
  | none => simp [hc] at hchecks
  | some c =>
    simp only [hc, Bool.and_eq_true, decide_eq_true_eq, Bool.not_eq_true'] at hchecks
    obtain ⟨⟨hviews,hkind⟩,hflag⟩ := hchecks
    refine ⟨c,rfl,hviews,hkind,hflag,fun hagree => ?_⟩
    have h := hagree.table (0,2) (by simp [hviews])
    simp [hkind,hflag] at h

end Session
end AqsiosCoordinator.Server
