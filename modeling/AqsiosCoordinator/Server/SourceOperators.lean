import AqsiosCoordinator.Server.StreamKinds

/-! # The source operators of tables

The table manager numbers tables from 0 on. The plan manager looks for the source of a table in a list
whose first entry is the system stream, under the id `SS_ID`.
-/
namespace AqsiosCoordinator.Server
open Common Foundation Foundation.Outcome Metadata Physical

/-- A server with the operator that was made for each base table, and the query of each view. -/
structure Registrations where
  server : ServerImpl
  bases : List (ℕ × OpId)
  views : List (ℕ × ℕ)

namespace Registrations
variable {Node : Type} (front : Frontend Node) (u : Uninit)

def start (mem : OpId → Operator) : Registrations := ⟨beginAppSpecification mem,[],[]⟩

/-- A registration that succeeds. A new operator is the head of `usedOps`. -/
def step (c : Registrations) : Request → Option Registrations
  | .registerBaseTable tableInfo => do
    let ((),server) ← returned (registerBaseTable front tableInfo c.server)
    let op ← server.planMgr.used.head?
    return { c with server := server, bases := c.bases ++ [(c.server.tableMgr.numTables,op)] }
  | .registerQuery querySpec output => do
    let (_,server) ← returned (registerQuery front u querySpec output c.server)
    return { c with server := server }
  | .registerView queryId tableInfo => do
    let ((),server) ← returned (registerView front queryId tableInfo c.server)
    return { c with server := server, views := c.views ++ [(queryId,c.server.tableMgr.numTables)] }

def IsSource (c : Registrations) (tableId : ℕ) (op : OpId) : Prop :=
  (∃ p, mkStreamSource tableId c.server.planMgr = .ok op p) ∨ ∃ p, mkRelnSource tableId c.server.planMgr = .ok op p

def ReadsTable (c : Registrations) (tableId : ℕ) (op : OpId) : Prop :=
  ∃ srcId, (c.server.planMgr.ops op).body =
    if c.server.tableMgr.isStream tableId then .streamSource tableId srcId else .relnSource tableId srcId

/-- The table leads to its own source: the operator that was made for it, or the source of its query. -/
structure Resolves (c : Registrations) (tableId : ℕ) : Prop where
  known : (∃ e ∈ c.bases, e.1 = tableId) ∨ ∃ e ∈ c.views, e.2 = tableId
  base : ∀ e ∈ c.bases, e.1 = tableId → ∀ op, c.IsSource tableId op → op = e.2 ∧ c.ReadsTable tableId op
  view : ∀ e ∈ c.views, e.2 = tableId → ∀ op, c.IsSource tableId op →
    ∃ q, c.server.planMgr.queryOutOps.find? (fun x => x.1 == e.1) = some q ∧ op = q.2
  apart : ∀ e ∈ c.bases, e.1 = tableId → ∀ other < c.server.tableMgr.numTables, other ≠ tableId →
    ∀ op, c.IsSource other op → op ≠ e.2
  notSys : ∀ op, c.IsSource tableId op → (c.server.planMgr.ops op).body ≠ .ssGen

def source (c : Registrations) (tableId : ℕ) : OpId := lookupSource tableId c.server.planMgr.sourceOps

variable {front : Frontend Node} {u : Uninit} {c d : Registrations}

theorem isSource_iff {tableId : ℕ} {op : OpId} : c.IsSource tableId op ↔ op = c.source tableId := by
  constructor
  · rintro (⟨p,h⟩ | ⟨p,h⟩) <;> cases h <;> rfl
  · rintro rfl
    exact .inl ⟨_,rfl⟩

/-- The entries of the list, with the entry of the system stream in front. -/
structure Inv (c : Registrations) : Prop where
  reg : RegInv c.server.planMgr
  sys : c.server.planMgr.sourceOps.find? (fun e => e.1 == SysStream.SS_ID) = some (SysStream.SS_ID,⟨0,maxOps_pos⟩) ∧
    (c.server.planMgr.ops ⟨0,maxOps_pos⟩).body = .ssGen
  ids : ∀ e ∈ c.server.planMgr.sourceOps, e.1 = SysStream.SS_ID ∨ e.1 < c.server.tableMgr.numTables
  known : ∀ id < c.server.tableMgr.numTables, (∃ e ∈ c.bases, e.1 = id) ∨ ∃ e ∈ c.views, e.2 = id
  bases : ∀ e ∈ c.bases, e.1 < c.server.tableMgr.numTables ∧ e.2 ∈ c.server.planMgr.used ∧ c.ReadsTable e.1 e.2 ∧
    (e.1 ≠ SysStream.SS_ID → c.source e.1 = e.2)
  views : ∀ e ∈ c.views, e.2 < c.server.tableMgr.numTables ∧
    ∃ q, c.server.planMgr.queryOutOps.find? (fun x => x.1 == e.1) = some q ∧ (e.2 ≠ SysStream.SS_ID → c.source e.2 = q.2)

theorem source_sys (h : c.Inv) : c.source SysStream.SS_ID = ⟨0,maxOps_pos⟩ := by
  unfold source lookupSource
  rw [h.sys.1]
  rfl

theorem ReadsTable.body {tableId : ℕ} {op : OpId} (h : c.ReadsTable tableId op) :
    (c.server.planMgr.ops op).body ≠ .ssGen ∧ (c.server.planMgr.ops op).body ≠ .querySource := by
  obtain ⟨srcId,hb⟩ := h
  rw [hb]
  split <;> exact ⟨by simp,by simp⟩

theorem ReadsTable.unique {tableId other : ℕ} {op : OpId} (h : c.ReadsTable tableId op) (h' : c.ReadsTable other op) : tableId = other := by
  obtain ⟨srcId,hb⟩ := h
  obtain ⟨srcId',hb'⟩ := h'
  rw [hb] at hb'
  split at hb' <;> split at hb' <;> cases hb' <;> rfl

theorem Inv.querySource (h : c.Inv) {e : ℕ × ℕ} {q : ℕ × OpId}
    (hq : c.server.planMgr.queryOutOps.find? (fun x => x.1 == e.1) = some q) : (c.server.planMgr.ops q.2).body = .querySource := by
  have hkind := (h.reg.queries q (List.mem_of_find?_eq_some hq)).2
  revert hkind
  cases (c.server.planMgr.ops q.2).body <;> simp [Body.kind]

/-- A table leads to its own source unless its id is that of the system stream. -/
theorem Inv.resolves_iff (h : c.Inv) {tableId : ℕ} (hid : tableId < c.server.tableMgr.numTables) :
    c.Resolves tableId ↔ tableId ≠ SysStream.SS_ID := by
  constructor
  · rintro hres rfl
    apply hres.notSys _ (isSource_iff.mpr rfl)
    rw [source_sys h]
    exact h.sys.2
  · intro hne
    have hbase : ∀ e ∈ c.bases, e.1 = tableId → c.source tableId = e.2 ∧ c.ReadsTable tableId e.2 := by
      rintro e he rfl
      obtain ⟨-,-,hreads,hsource⟩ := h.bases e he
      exact ⟨hsource hne,hreads⟩
    constructor
    · exact h.known tableId hid
    · intro e he hide op hop
      obtain ⟨hsource,hreads⟩ := hbase e he hide
      rw [isSource_iff.mp hop, hsource]
      exact ⟨rfl,hreads⟩
    · rintro e he rfl op hop
      obtain ⟨-,q,hq,hsource⟩ := h.views e he
      exact ⟨q,hq,(isSource_iff.mp hop).trans (hsource hne)⟩
    · intro e he hide other hother hapart op hop heq
      obtain ⟨-,hreads⟩ := hbase e he hide
      rw [isSource_iff] at hop
      rw [← heq, hop] at hreads
      by_cases hsys : other = SysStream.SS_ID
      · rw [hsys, source_sys h] at hreads
        exact hreads.body.1 h.sys.2
      · obtain ⟨e',he',rfl⟩ | ⟨e',he',rfl⟩ := h.known other hother
        · obtain ⟨-,-,hreads',hsource'⟩ := h.bases e' he'
          rw [hsource' hsys] at hreads
          exact hapart (hreads'.unique hreads)
        · obtain ⟨-,q,hq,hsource'⟩ := h.views e' he'
          rw [hsource' hsys] at hreads
          exact hreads.body.2 (h.querySource hq)
    · intro op hop
      rw [isSource_iff.mp hop]
      obtain ⟨e,he,hide⟩ | ⟨e,he,rfl⟩ := h.known tableId hid
      · obtain ⟨hsource,hreads⟩ := hbase e he hide
        rw [hsource]
        exact hreads.body.1
      · obtain ⟨-,q,hq,hsource⟩ := h.views e he
        rw [hsource hne, h.querySource hq]
        simp

theorem start_inv (mem : OpId → Operator) : (start mem).Inv := by
  obtain ⟨-,-,hop,hsrc,-⟩ := newPlanManager_started mem
  have hsources : (start mem).server.planMgr.sourceOps = [(SysStream.SS_ID,⟨0,maxOps_pos⟩)] := hsrc
  refine ⟨newPlanManager_regInv mem,⟨?_,?_⟩,?_,?_,by simp [start],by simp [start]⟩
  · rw [hsources]
    rfl
  · have hbody : ((start mem).server.planMgr.ops ⟨0,maxOps_pos⟩).body = _ := congrArg Operator.body hop
    exact hbody
  · intro e he
    rw [hsources] at he
    exact .inl (congrArg Prod.fst (List.mem_singleton.mp he))
  · intro id hid
    exact absurd hid (Nat.not_lt_zero id)

theorem later_body {s t : PlanState} (h : Later s t) {op : OpId} (hop : op ∈ s.used) : (t.ops op).body = (s.ops op).body := by
  obtain ⟨qc,ext,h1,-⟩ := h.old op hop
  rw [h1]

/-- A server on which at most one table has been registered since. -/
structure Extends (c : Registrations) (server : ServerImpl) (sources queries : List (ℕ × OpId)) : Prop where
  reg : RegInv server.planMgr
  later : Later c.server.planMgr server.planMgr
  sourceOps : server.planMgr.sourceOps = c.server.planMgr.sourceOps ++ sources
  queryOutOps : server.planMgr.queryOutOps = c.server.planMgr.queryOutOps ++ queries
  numTables : c.server.tableMgr.numTables ≤ server.tableMgr.numTables
  isStream : ∀ id < c.server.tableMgr.numTables, server.tableMgr.isStream id = c.server.tableMgr.isStream id
  new : ∀ e ∈ sources, e.1 = c.server.tableMgr.numTables ∧ c.server.tableMgr.numTables < server.tableMgr.numTables

section Extends
variable {server : ServerImpl} {sources queries : List (ℕ × OpId)} {bases : List (ℕ × OpId)} {views : List (ℕ × ℕ)}

theorem Extends.source (hx : c.Extends server sources queries) {id : ℕ} (hid : id < c.server.tableMgr.numTables) :
    Registrations.source ⟨server,bases,views⟩ id = c.source id := by
  have hnone : sources.find? (fun e => e.1 == id) = none := by
    apply List.find?_eq_none.mpr
    intro e he
    have hnew := (hx.new e he).1
    simp only [beq_iff_eq]
    omega
  unfold Registrations.source lookupSource
  rw [hx.sourceOps, List.find?_append, hnone, Option.or_none]

/-- What is known of the earlier tables stays, and it has to be said where the new one leads to. -/
theorem Inv.extend (h : c.Inv) (hx : c.Extends server sources queries)
    (hknown : ∀ id < server.tableMgr.numTables, id < c.server.tableMgr.numTables ∨
      (∃ e ∈ bases, e.1 = id) ∨ ∃ e ∈ views, e.2 = id)
    (hbases : ∀ e ∈ bases, e.1 < server.tableMgr.numTables ∧ e.2 ∈ server.planMgr.used ∧
      Registrations.ReadsTable ⟨server,c.bases ++ bases,c.views ++ views⟩ e.1 e.2 ∧
      (e.1 ≠ SysStream.SS_ID → Registrations.source ⟨server,c.bases ++ bases,c.views ++ views⟩ e.1 = e.2))
    (hviews : ∀ e ∈ views, e.2 < server.tableMgr.numTables ∧
      ∃ q, server.planMgr.queryOutOps.find? (fun x => x.1 == e.1) = some q ∧
        (e.2 ≠ SysStream.SS_ID → Registrations.source ⟨server,c.bases ++ bases,c.views ++ views⟩ e.2 = q.2)) :
    Inv ⟨server,c.bases ++ bases,c.views ++ views⟩ := by
  have hle := hx.numTables
  constructor
  · exact hx.reg
  · constructor
    · show server.planMgr.sourceOps.find? _ = _
      rw [hx.sourceOps, List.find?_append, h.sys.1]
      rfl
    · exact (later_body hx.later h.reg.default.1).trans h.sys.2
  · intro e he
    have hmem : e ∈ server.planMgr.sourceOps := he
    rw [hx.sourceOps] at hmem
    rcases List.mem_append.mp hmem with hold | hnew
    · exact (h.ids e hold).imp_right fun hlt => Nat.lt_of_lt_of_le hlt hle
    · have hid := hx.new e hnew
      right
      show e.1 < server.tableMgr.numTables
      omega
  · intro id hid
    obtain hold | ⟨e,he,hide⟩ | ⟨e,he,hide⟩ := hknown id hid
    · obtain ⟨e,he,hide⟩ | ⟨e,he,hide⟩ := h.known id hold
      · exact .inl ⟨e,List.mem_append_left _ he,hide⟩
      · exact .inr ⟨e,List.mem_append_left _ he,hide⟩
    · exact .inl ⟨e,List.mem_append_right _ he,hide⟩
    · exact .inr ⟨e,List.mem_append_right _ he,hide⟩
  · intro e he
    rcases List.mem_append.mp he with he | he
    · obtain ⟨hlt,hused,⟨srcId,hbody⟩,hsource⟩ := h.bases e he
      refine ⟨Nat.lt_of_lt_of_le hlt hle,hx.later.used _ hused,⟨srcId,?_⟩,?_⟩
      · show (server.planMgr.ops e.2).body = if server.tableMgr.isStream e.1 then _ else _
        rw [later_body hx.later hused, hx.isStream _ hlt]
        exact hbody
      · intro hne
        rw [hx.source hlt]
        exact hsource hne
    · exact hbases e he
  · intro e he
    rcases List.mem_append.mp he with he | he
    · obtain ⟨hlt,q,hq,hsource⟩ := h.views e he
      refine ⟨Nat.lt_of_lt_of_le hlt hle,q,?_,?_⟩
      · show server.planMgr.queryOutOps.find? _ = _
        rw [hx.queryOutOps, List.find?_append, hq]
        rfl
      · intro hne
        rw [hx.source hlt]
        exact hsource hne
    · exact hviews e he

end Extends

/-- The new table leads to the operator that is entered for it, unless it has the id of the system stream. -/
theorem source_new (h : c.Inv) {server : ServerImpl} {bases : List (ℕ × OpId)} {views : List (ℕ × ℕ)} {op : OpId}
    (hsrc : server.planMgr.sourceOps = c.server.planMgr.sourceOps ++ [(c.server.tableMgr.numTables,op)])
    (hne : c.server.tableMgr.numTables ≠ SysStream.SS_ID) : Registrations.source ⟨server,bases,views⟩ c.server.tableMgr.numTables = op := by
  unfold source
  rw [hsrc]
  apply Session.lookupSource_append_new
  intro e he
  rcases h.ids e he with hsys | hlt
  · exact fun heq => hne (heq.symm.trans hsys)
  · exact Nat.ne_of_lt hlt

section WithTable
variable {spec : TableSpec} {p : PlanState} {op : OpId}

theorem extends_withTable (hreg : RegInv p) (hlater : Later c.server.planMgr p)
    (hsrc : p.sourceOps = c.server.planMgr.sourceOps ++ [(c.server.tableMgr.numTables,op)])
    (hqry : p.queryOutOps = c.server.planMgr.queryOutOps) :
    c.Extends { c.server with tableMgr := withTable c.server.tableMgr spec, planMgr := p } [(c.server.tableMgr.numTables,op)] [] := by
  have hnum := withTable_numTables c.server.tableMgr spec
  refine ⟨hreg,hlater,hsrc,?_,hnum ▸ Nat.le_succ _,fun id hid => withTable_isStream spec hid,?_⟩
  · rw [List.append_nil]
    exact hqry
  · intro e he
    obtain rfl := List.mem_singleton.mp he
    exact ⟨rfl,hnum ▸ Nat.lt_succ_self _⟩

/-- The new table is a base table. -/
theorem Inv.withBase (h : c.Inv) (hreg : RegInv p) (hlater : Later c.server.planMgr p)
    (hsrc : p.sourceOps = c.server.planMgr.sourceOps ++ [(c.server.tableMgr.numTables,op)])
    (hqry : p.queryOutOps = c.server.planMgr.queryOutOps) (hused : op ∈ p.used) {srcId : ℕ}
    (hbody : (p.ops op).body = if (withTable c.server.tableMgr spec).isStream c.server.tableMgr.numTables
      then .streamSource c.server.tableMgr.numTables srcId else .relnSource c.server.tableMgr.numTables srcId) :
    Inv ⟨{ c.server with tableMgr := withTable c.server.tableMgr spec, planMgr := p },
      c.bases ++ [(c.server.tableMgr.numTables,op)],c.views⟩ := by
  have hnum := withTable_numTables c.server.tableMgr spec
  rw [← List.append_nil c.views]
  apply h.extend (extends_withTable hreg hlater hsrc hqry)
  · intro id hid
    have hlt : id < (withTable c.server.tableMgr spec).numTables := hid
    rcases Nat.lt_or_ge id c.server.tableMgr.numTables with hold | hnew
    · exact .inl hold
    · exact .inr (.inl ⟨_,List.mem_singleton_self _,show c.server.tableMgr.numTables = id by omega⟩)
  · intro e he
    obtain rfl := List.mem_singleton.mp he
    exact ⟨hnum ▸ Nat.lt_succ_self _,hused,⟨srcId,hbody⟩,source_new h hsrc⟩
  · intro e he
    cases he

/-- The new table is a view. -/
theorem Inv.withView (h : c.Inv) (hreg : RegInv p) (hlater : Later c.server.planMgr p)
    (hsrc : p.sourceOps = c.server.planMgr.sourceOps ++ [(c.server.tableMgr.numTables,op)])
    (hqry : p.queryOutOps = c.server.planMgr.queryOutOps) {queryId q : ℕ}
    (hfind : p.queryOutOps.find? (fun x => x.1 == queryId) = some (q,op)) :
    Inv ⟨{ c.server with tableMgr := withTable c.server.tableMgr spec, planMgr := p },
      c.bases,c.views ++ [(queryId,c.server.tableMgr.numTables)]⟩ := by
  have hnum := withTable_numTables c.server.tableMgr spec
  rw [← List.append_nil c.bases]
  apply h.extend (extends_withTable hreg hlater hsrc hqry)
  · intro id hid
    have hlt : id < (withTable c.server.tableMgr spec).numTables := hid
    rcases Nat.lt_or_ge id c.server.tableMgr.numTables with hold | hnew
    · exact .inl hold
    · exact .inr (.inr ⟨_,List.mem_singleton_self _,show c.server.tableMgr.numTables = id by omega⟩)
  · intro e he
    cases he
  · intro e he
    obtain rfl := List.mem_singleton.mp he
    exact ⟨hnum ▸ Nat.lt_succ_self _,_,hfind,source_new h hsrc⟩

end WithTable

theorem step_registerBaseTable {tableInfo : Option (List Char)} (h : c.Inv)
    (hstep : c.step front u (.registerBaseTable tableInfo) = some d) : d.Inv := by
  obtain ⟨⟨⟨⟩,server⟩,hret,hstep⟩ := Option.bind_eq_some_iff.mp hstep
  obtain ⟨head,hhead,hd⟩ := Option.bind_eq_some_iff.mp hstep
  obtain rfl := Option.some.inj hd
  obtain ⟨spec,p,-,hp,rfl⟩ := registerTableWith_ok (returned_eq_some.mp hret)
  obtain ⟨hreg,hlater⟩ := Session.later_of_call h.reg (.addBaseTable _ _) hp
  obtain ⟨op,s',hadd,hadded⟩ := addBaseTable_ok h.reg.pool hp
  have hsources : s'.sourceOps = c.server.planMgr.sourceOps := congrArg Tables.sourceOps hadd.tables
  have hsrc : p.sourceOps = c.server.planMgr.sourceOps ++ [(c.server.tableMgr.numTables,op)] := by rw [hadded, hsources]
  have hqry : p.queryOutOps = c.server.planMgr.queryOutOps := by
    rw [hadded]
    exact congrArg Tables.queryOutOps hadd.tables
  have hused : p.used = op :: c.server.planMgr.used := by
    rw [hadded]
    exact hadd.used
  obtain rfl : op = head := by
    have hfirst : p.used.head? = some head := hhead
    rw [hused] at hfirst
    exact Option.some.inj hfirst
  apply h.withBase hreg hlater hsrc hqry (hused ▸ List.mem_cons_self)
  rw [hadded]
  show (s'.ops op).body = _
  rw [hadd.self]

theorem step_registerView {queryId : ℕ} {tableInfo : Option (List Char)} (h : c.Inv)
    (hstep : c.step front u (.registerView queryId tableInfo) = some d) : d.Inv := by
  obtain ⟨⟨⟨⟩,server⟩,hret,hd⟩ := Option.bind_eq_some_iff.mp hstep
  obtain rfl := Option.some.inj hd
  obtain ⟨spec,p,-,hp,rfl⟩ :=
    registerTableWith_ok (f := fun tableMgr tableId => map tableMgr queryId tableId) (returned_eq_some.mp hret)
  obtain ⟨hreg,hlater⟩ := Session.later_of_call h.reg (.map _ _ _) hp
  obtain ⟨q,queryOutOp,hfind,-,rfl⟩ := map_ok hp
  exact h.withView hreg hlater rfl rfl hfind

/-- A query is entered in the list of queries, and in no other one. -/
theorem addLogicalQueryPlan_tables {queryId : ℕ} {plan : Logical.Plan} {output : Bool} {a : Unit} {s t : PlanState}
    (hs : PoolInv s) (hsrc : ∀ id, lookupSource id s.sourceOps ∈ s.used) (h : addLogicalQueryPlan u queryId plan output s = .ok a t) :
    t.sourceOps = s.sourceOps ∧ ∃ querySource, t.queryOutOps = s.queryOutOps ++ [(queryId,querySource)] := by
  have hbuilt {op : OpId} {r : PlanState} (hplan : genPhysicalPlan u plan s = .ok op r) :
      r.sourceOps = s.sourceOps ∧ r.queryOutOps = s.queryOutOps := by
    have htables := (genPhysicalPlan_built plan hs hsrc hplan).1.tables
    exact ⟨congrArg Tables.sourceOps htables,congrArg Tables.queryOutOps htables⟩
  cases addLogicalQueryPlan_ok hs hsrc h with
  | inner hplan hadd =>
    obtain ⟨hsources,hqueries⟩ := hbuilt hplan
    exact ⟨(congrArg Tables.sourceOps hadd.tables).trans hsources,_,
      congrArg (· ++ [_]) ((congrArg Tables.queryOutOps hadd.tables).trans hqueries)⟩
  | outer hplan hadd hout hclass =>
    obtain ⟨hsources,hqueries⟩ := hbuilt hplan
    obtain ⟨f,rfl⟩ := hclass
    have hsources' := congrArg Tables.sourceOps hout.tables
    have hqueries' := congrArg Tables.queryOutOps hout.tables
    exact ⟨hsources'.trans ((congrArg Tables.sourceOps hadd.tables).trans hsources),_,
      hqueries'.trans (congrArg (· ++ [_]) ((congrArg Tables.queryOutOps hadd.tables).trans hqueries))⟩

theorem step_registerQuery {querySpec : List Char} {output : Bool} (h : c.Inv)
    (hstep : c.step front u (.registerQuery querySpec output) = some d) : d.Inv := by
  obtain ⟨⟨queryId,server⟩,hret,hd⟩ := Option.bind_eq_some_iff.mp hstep
  obtain rfl := Option.some.inj hd
  obtain ⟨query,plan,usage,qryMgr,p,-,-,-,hp,rfl⟩ := registerQuery_ok (returned_eq_some.mp hret)
  obtain ⟨hregClass,hlaterClass⟩ := Session.later_of_call h.reg (.setQueryClass c.server.currentQueryClass) rfl
  obtain ⟨hreg,hlater⟩ := Session.later_of_call hregClass (.addLogicalQueryPlan u queryId plan output) hp
  obtain ⟨hsources,querySource,hqueries⟩ := addLogicalQueryPlan_tables hregClass.pool hregClass.lookupSource_mem hp
  have hx : c.Extends { c.server with qryMgr := qryMgr, planMgr := p } [] [(queryId,querySource)] :=
    ⟨hreg,Later.trans _ _ _ hlaterClass hlater,hsources.trans (List.append_nil _).symm,hqueries,le_rfl,fun _ _ => rfl,by simp⟩
  have hnew := @Inv.extend c _ _ _ [] [] h hx (fun id hid => .inl hid) (by simp) (by simp)
  rw [List.append_nil, List.append_nil] at hnew
  exact hnew

theorem step_inv {request : Request} (h : c.Inv) (hstep : c.step front u request = some d) : d.Inv := by
  cases request with
  | registerBaseTable tableInfo => exact step_registerBaseTable h hstep
  | registerQuery querySpec output => exact step_registerQuery h hstep
  | registerView queryId tableInfo => exact step_registerView h hstep

/-- After every run of registrations a table leads to its own source exactly if its id is not that of
the system stream. -/
theorem resolves_iff_of_runAll {mem : OpId → Operator} {requests : List Request}
    (hrun : runAll (step front u) (start mem) requests = some c) :
    ∀ tableId < c.server.tableMgr.numTables, c.Resolves tableId ↔ tableId ≠ SysStream.SS_ID := by
  have hinv : c.Inv := runAll_invariant (fun _ _ _ h hs => step_inv h hs) (start_inv mem) hrun
  intro tableId hid
  exact hinv.resolves_iff hid

/-- Two base tables, the second one a stream that a query reads. -/
theorem streamTable_resolves : ∃ c, runAll (step Session.exampleFrontend blankUninit) (start blankMemory) Session.queryOfStream = some c ∧
    c.Resolves 1 := by
  have hcheck : ((runAll (step Session.exampleFrontend blankUninit) (start blankMemory) Session.queryOfStream).map
      fun c => c.server.tableMgr.numTables) = some 2 := by decide +kernel
  obtain ⟨c,hc,hnum⟩ := Option.map_eq_some_iff.mp hcheck
  refine ⟨c,hc,(resolves_iff_of_runAll hc 1 ?_).mpr (by decide)⟩
  rw [hnum]
  decide

/-- The first table that is registered leads to the system stream. -/
theorem firstTable_not_resolved : ∃ c, runAll (step Session.exampleFrontend blankUninit) (start blankMemory)
    [.registerBaseTable (some ['D'])] = some c ∧ ¬ ∀ tableId < c.server.tableMgr.numTables, c.Resolves tableId := by
  have hcheck : ((runAll (step Session.exampleFrontend blankUninit) (start blankMemory) [.registerBaseTable (some ['D'])]).map
      fun c => c.server.tableMgr.numTables) = some 1 := by decide +kernel
  obtain ⟨c,hc,hnum⟩ := Option.map_eq_some_iff.mp hcheck
  have hinv : c.Inv := runAll_invariant (fun _ _ _ h hs => step_inv h hs) (start_inv blankMemory) hc
  have hid : 0 < c.server.tableMgr.numTables := by
    rw [hnum]
    decide
  exact ⟨c,hc,fun hall => (hinv.resolves_iff hid).mp (hall 0 hid) rfl⟩

end Registrations
end AqsiosCoordinator.Server
