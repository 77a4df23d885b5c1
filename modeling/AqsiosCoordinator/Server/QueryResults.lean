import AqsiosCoordinator.Metadata.BodyReferences
import AqsiosCoordinator.Server.SourceOperators

/-! # The results of queries

A view holds what its query computes, and queries read base tables and views. After every
run of registrations the plan graph computes the results of all queries from the base
tables.
-/
namespace AqsiosCoordinator.Server
open Common Foundation Foundation.Outcome Metadata Physical
open Logical.Plan (HasWidth ReadsTables WellFormed References DerivedBinary)

structure Accepted where
  queryId : ℕ
  query : Semantic.Query
  plan : Logical.Plan
  output : Bool

/-- A server with its tables and the queries that it has accepted. -/
structure Network where
  regs : Registrations
  queries : List Accepted

/-- The query reads tables that lead to their own sources, and the operators of its plan find
in their inputs what they refer to. -/
structure Answerable (tableMgr : TableManager) (query : Semantic.Query) : Prop where
  tables : ∀ v ∈ query.sources, query.refTables v < tableMgr.numTables ∧ query.refTables v ≠ SysStream.SS_ID
  plans : ∀ plan usage, (Logical.genLogPlan tableMgr query).run ⟨0,0⟩ = .ok plan usage →
    References plan ∧ plan.Everywhere fun kind _ inputs => kind.Compatible inputs

namespace Network
variable {Node : Type} (front : Frontend Node) (u : Uninit)

abbrev server (c : Network) : ServerImpl := c.regs.server
abbrev planMgr (c : Network) : PlanState := c.regs.server.planMgr
abbrev tableMgr (c : Network) : TableManager := c.regs.server.tableMgr

def start (mem : OpId → Operator) : Network := ⟨.start mem,[]⟩

def step (c : Network) : Request → Option Network
  | .registerQuery querySpec output => do
    let query ← front.readQuery c.tableMgr querySpec
    let ((queryId,plan),_) ← returned (planQuery front querySpec c.server)
    let regs ← c.regs.step front u (.registerQuery querySpec output)
    return ⟨regs,c.queries ++ [⟨queryId,query,plan,output⟩]⟩
  | request => do
    let regs ← c.regs.step front u request
    return { c with regs := regs }

def Allowed (c : Network) : Request → Prop
  | .registerQuery querySpec _ => ∀ query ∈ front.readQuery c.tableMgr querySpec, Answerable c.tableMgr query
  | _ => True

section Contents
variable {α : Type} [DecidableEq α] (I : Interp α)

def Fits (c : Network) (S : Sources α) : Prop :=
  ∀ e ∈ c.regs.bases, (S.table e.1).AllRows (HasWidth (c.tableMgr.columns e.1).length)

/-- The base tables hold what comes from outside, and every view what its query computes. -/
structure Contents (c : Network) (S T : Sources α) : Prop where
  order : T.order = S.order
  base : ∀ e ∈ c.regs.bases, e.1 ≠ SysStream.SS_ID → T.table e.1 = S.table e.1
  view : ∀ e ∈ c.regs.views, ∀ q ∈ c.queries, q.queryId = e.1 → T.table e.2 = q.plan.denote I T

end Contents

def Known (c : Network) (id : ℕ) : Prop := id < c.tableMgr.numTables ∧ id ≠ SysStream.SS_ID

structure Inv (mem : OpId → Operator) (c : Network) : Prop where
  registered : Registered mem c.planMgr
  refers : c.planMgr.Refers
  regs : c.regs.Inv
  columns : ∀ id, c.Known id → (c.planMgr.ops (c.regs.source id)).attrs = c.tableMgr.columns id
  answered : List.Forall₂ (fun q e => e.1 = q.queryId ∧ Answered c.planMgr q.plan e.2) c.queries c.planMgr.queryOutOps
  shown : ∀ q ∈ c.queries, q.output = true →
    ∃ o outputId, c.planMgr.ReadsPlan q.plan o ∧ (c.planMgr.ops o).body = .output outputId q.queryId
  outputs : ∀ o, c.planMgr.IsOutput o → ∃ q ∈ c.queries, q.output = true ∧ c.planMgr.ReadsPlan q.plan o ∧
    ∃ outputId, (c.planMgr.ops o).body = .output outputId q.queryId
  ids : (c.queries.map Accepted.queryId).Nodup ∧ ∀ q ∈ c.queries, q.queryId < c.server.qryMgr.numQueries
  plans : ∀ q ∈ c.queries, (∃ tableMgr, DerivedBinary tableMgr q.plan) ∧ ReadsTables c.tableMgr c.Known q.plan
  views : ∀ e ∈ c.regs.views, e.2 ≠ SysStream.SS_ID ∧ ∃ q ∈ c.queries, q.queryId = e.1 ∧ ReadsTables c.tableMgr (· < e.2) q.plan
  tables : c.queries ≠ [] → 0 < c.tableMgr.numTables

variable {front : Frontend Node} {u : Uninit} {mem : OpId → Operator} {c d : Network}

section Meaning
variable {α : Type} [DecidableEq α] {I : Interp α} {S T T' : Sources α} {D : OpId → TimeVarying α}

omit [DecidableEq α] in
theorem supplies_of {known : ℕ → Prop} {p : Logical.Plan} (hp : ReadsTables c.tableMgr known p)
    (h : ∀ id, known id → (D (c.regs.source id)).AllRows (HasWidth (c.tableMgr.columns id).length)) : c.planMgr.Supplies D p := by
  apply Logical.Plan.Everywhere.imp hp
  intro kind outAttrs inputs hreads id hid
  obtain ⟨hknown,hwidth⟩ := hreads id hid
  rw [hwidth]
  exact h id hknown

/-- The source of a base table carries what comes from outside. -/
theorem value_base (h : c.Inv mem) (hD : c.planMgr.Meaning I S D) {e : ℕ × OpId} (he : e ∈ c.regs.bases)
    (hne : e.1 ≠ SysStream.SS_ID) : D (c.regs.source e.1) = S.table e.1 := by
  obtain ⟨-,hused,⟨srcId,hbody⟩,hsource⟩ := h.regs.bases e he
  have hself : D e.2 = (c.planMgr.ops e.2).body.meaning I S _ _ := hD e.2 hused
  rw [hsource hne, hself]
  split at hbody
  · rw [show (c.planMgr.ops e.2).body = _ from hbody]
    rfl
  · rw [show (c.planMgr.ops e.2).body = _ from hbody]
    rfl

/-- The query of a view, and the source of its results. -/
theorem Inv.view (h : c.Inv mem) {e : ℕ × ℕ} (he : e ∈ c.regs.views) : e.2 ≠ SysStream.SS_ID ∧
    ∃ q ∈ c.queries, q.queryId = e.1 ∧ ReadsTables c.tableMgr (· < e.2) q.plan ∧ Answered c.planMgr q.plan (c.regs.source e.2) := by
  obtain ⟨hne,q,hq,hid,hreads⟩ := h.views e he
  obtain ⟨-,x,hfind,hsource⟩ := h.regs.views e he
  obtain ⟨q',hq',hx,hans⟩ := forall₂_mem_right h.answered (List.mem_of_find?_eq_some hfind)
  have hxe : x.1 = e.1 := by simpa using List.find?_some hfind
  obtain rfl : q' = q := List.inj_on_of_nodup_map h.ids.1 hq' hq (by rw [← hx, hxe, hid])
  exact ⟨hne,q',hq,hid,hreads,hsource hne ▸ hans⟩

theorem Inv.known (h : c.Inv mem) {id : ℕ} (hid : c.Known id) : (∃ e ∈ c.regs.bases, e.1 = id) ∨ ∃ e ∈ c.regs.views, e.2 = id :=
  h.regs.known id hid.1

/-- The rows of every table have its columns. The tables that a view is computed from are older than it. -/
theorem rows_fit (h : c.Inv mem) (hI : I.CountsRows) (hD : c.planMgr.Meaning I S D) (hS : c.Fits S) (id : ℕ) (hid : c.Known id) :
    (D (c.regs.source id)).AllRows (HasWidth (c.tableMgr.columns id).length) := by
  induction id using Nat.strong_induction_on with
  | _ id ih =>
    obtain ⟨e,he,rfl⟩ | ⟨e,he,rfl⟩ := h.known hid
    · rw [value_base h hD he hid.2]
      exact hS e he
    · obtain ⟨-,q,hq,-,hreads,hans⟩ := h.view he
      obtain ⟨⟨tableMgr,hderived⟩,hknown⟩ := h.plans q hq
      have hsup : c.planMgr.Supplies D q.plan := by
        have hboth : ReadsTables c.tableMgr (fun id => id < e.2 ∧ c.Known id) q.plan :=
          Logical.Plan.Everywhere.imp (hreads.and hknown) fun _ _ _ hr id hid => ⟨⟨(hr.1 id hid).1,(hr.2 id hid).1⟩,(hr.1 id hid).2⟩
        exact supplies_of hboth fun id hid => ih id hid.1 hid.2
      rw [hans.value hI hD hsup, ← h.columns e.2 hid, hans.width]
      exact hderived.width

theorem supplies (h : c.Inv mem) (hI : I.CountsRows) (hD : c.planMgr.Meaning I S D) (hS : c.Fits S) {q : Accepted} (hq : q ∈ c.queries) :
    c.planMgr.Supplies D q.plan := supplies_of (h.plans q hq).2 fun id hid => rows_fit h hI hD hS id hid

/-- What the sources of the tables carry are contents of the tables. -/
theorem contents_tableSources (h : c.Inv mem) (hI : I.CountsRows) (hD : c.planMgr.Meaning I S D) (hS : c.Fits S) :
    c.Contents I S (c.planMgr.tableSources S D) := by
  constructor
  · rfl
  · exact fun e he hne => value_base h hD he hne
  · intro e he q hq hid
    obtain ⟨-,q',hq',hid',-,hans⟩ := h.view he
    obtain rfl : q' = q := List.inj_on_of_nodup_map h.ids.1 hq' hq (hid'.trans hid.symm)
    exact hans.value hI hD (supplies h hI hD hS hq)

/-- There is only one way to fill the tables. -/
theorem Contents.unique (hT : c.Contents I S T) (hT' : c.Contents I S T') (h : c.Inv mem) (id : ℕ) (hid : c.Known id) :
    T.table id = T'.table id := by
  induction id using Nat.strong_induction_on with
  | _ id ih =>
    obtain ⟨e,he,rfl⟩ | ⟨e,he,rfl⟩ := h.known hid
    · rw [hT.base e he hid.2, hT'.base e he hid.2]
    · obtain ⟨-,q,hq,hide,hreads,-⟩ := h.view he
      rw [hT.view e he q hq hide, hT'.view e he q hq hide]
      apply Logical.Plan.denote_congr (hT.order.trans hT'.order.symm)
      exact Logical.Plan.Everywhere.imp (hreads.and (h.plans q hq).2) fun _ _ _ hr id hid => ih id (hr.1 id hid).1 (hr.2 id hid).1

theorem Contents.denote_eq (hT : c.Contents I S T) (hT' : c.Contents I S T') (h : c.Inv mem) {q : Accepted} (hq : q ∈ c.queries) :
    q.plan.denote I T = q.plan.denote I T' := by
  apply Logical.Plan.denote_congr (hT.order.trans hT'.order.symm)
  exact Logical.Plan.Everywhere.imp (h.plans q hq).2 fun _ _ _ hr id hid => hT.unique hT' h id (hr id hid).1

end Meaning

theorem start_inv (mem : OpId → Operator) : (start mem).Inv mem := by
  obtain ⟨-,hused,hop,-,hqry⟩ := newPlanManager_started mem
  have hqueries : (start mem).planMgr.queryOutOps = [] := hqry
  constructor
  · exact .start
  · exact newPlanManager_refers mem
  · exact Registrations.start_inv mem
  · exact fun id hid => absurd hid.1 (Nat.not_lt_zero id)
  · rw [hqueries]
    exact .nil
  · exact fun q hq => absurd hq List.not_mem_nil
  · rintro o ⟨ho,hk⟩
    have husedEq : (start mem).planMgr.used = [⟨0,maxOps_pos⟩] := hused
    rw [husedEq] at ho
    obtain rfl := List.mem_singleton.mp ho
    have hbody : ((start mem).planMgr.ops ⟨0,maxOps_pos⟩).body = _ := congrArg Operator.body hop
    rw [hbody] at hk
    cases hk
  · exact ⟨List.nodup_nil,fun q hq => absurd hq List.not_mem_nil⟩
  · exact fun q hq => absurd hq List.not_mem_nil
  · exact fun e he => absurd he List.not_mem_nil
  · exact fun h => absurd rfl h

theorem withTable_columns {tableMgr : TableManager} (spec : TableSpec) {id : ℕ} (h : id < tableMgr.numTables) :
    (withTable tableMgr spec).columns id = tableMgr.columns id := by
  unfold withTable TableManager.columns TableManager.attrs
  rw [List.getElem?_append_left h]

/-- The tables of a plan lead to where they have led. -/
theorem same_sources {server : ServerImpl} {sources queries : List (ℕ × OpId)} (hx : c.regs.Extends server sources queries)
    {p : Logical.Plan} (hp : ReadsTables c.tableMgr c.Known p) : p.Everywhere fun kind _ _ => ∀ id, kind.tableId = some id →
      lookupSource id server.planMgr.sourceOps = lookupSource id c.planMgr.sourceOps :=
  Logical.Plan.Everywhere.imp hp fun _ _ _ hr id hid => @Registrations.Extends.source _ _ _ _ [] [] hx id (hr id hid).1.1

structure Kept (c : Network) (server : ServerImpl) : Prop where
  answered : List.Forall₂ (fun q e => e.1 = q.queryId ∧ Answered server.planMgr q.plan e.2) c.queries c.planMgr.queryOutOps
  reads : ∀ q ∈ c.queries, ∀ o, c.planMgr.ReadsPlan q.plan o →
    server.planMgr.ReadsPlan q.plan o ∧ (server.planMgr.ops o).body = (c.planMgr.ops o).body

theorem Inv.kept {server : ServerImpl} {sources queries : List (ℕ × OpId)} (h : c.Inv mem)
    (hx : c.regs.Extends server sources queries) : c.Kept server := by
  constructor
  · have hboth := (List.forall₂_and_left c.queries _).mpr ⟨fun q hq => (h.plans q hq).2,h.answered⟩
    apply hboth.imp
    rintro q e ⟨hreads,hid,hans⟩
    exact ⟨hid,hans.extend hx.later (same_sources hx hreads)⟩
  · intro q hq o ho
    exact ⟨ho.extend hx.later (same_sources hx (h.plans q hq).2),Registrations.later_body hx.later ho.1⟩

theorem Kept.shown {server : ServerImpl} (hk : c.Kept server) (h : c.Inv mem) : ∀ q ∈ c.queries, q.output = true →
    ∃ o outputId, server.planMgr.ReadsPlan q.plan o ∧ (server.planMgr.ops o).body = .output outputId q.queryId := by
  intro q hq hout
  obtain ⟨o,outputId,hreads,hbody⟩ := h.shown q hq hout
  obtain ⟨hreads',hsame⟩ := hk.reads q hq o hreads
  exact ⟨o,outputId,hreads',hsame.trans hbody⟩

theorem Kept.outputs {server : ServerImpl} (hk : c.Kept server) (h : c.Inv mem) {o : OpId} (ho : c.planMgr.IsOutput o) :
    ∃ q ∈ c.queries, q.output = true ∧ server.planMgr.ReadsPlan q.plan o ∧
      ∃ outputId, (server.planMgr.ops o).body = .output outputId q.queryId := by
  obtain ⟨q,hq,hout,hreads,outputId,hbody⟩ := h.outputs o ho
  obtain ⟨hreads',hsame⟩ := hk.reads q hq o hreads
  exact ⟨q,hq,hout,hreads',outputId,hsame.trans hbody⟩

theorem ReadsTables.imp {tableMgr tableMgr' : TableManager} {known known' : ℕ → Prop} {p : Logical.Plan} (hp : ReadsTables tableMgr known p)
    (h : ∀ id, known id → known' id ∧ tableMgr'.columns id = tableMgr.columns id) : ReadsTables tableMgr' known' p := by
  apply Logical.Plan.Everywhere.imp hp
  intro kind outAttrs inputs hr id hid
  obtain ⟨hknown,hwidth⟩ := hr id hid
  obtain ⟨hknown',hcols⟩ := h id hknown
  rw [hcols]
  exact ⟨hknown',hwidth⟩

/-- A table has been registered. -/
theorem Inv.withTable (h : c.Inv mem) {server : ServerImpl} {spec : TableSpec} {op : OpId} {bases : List (ℕ × OpId)}
    {views : List (ℕ × ℕ)} (hx : c.regs.Extends server [(c.tableMgr.numTables,op)] [])
    (hregs : Registrations.Inv ⟨server,bases,c.regs.views ++ views⟩)
    (htable : server.tableMgr = withTable c.tableMgr spec) (hqry : server.qryMgr = c.server.qryMgr)
    (hregistered : Registered mem server.planMgr) (hrefers : server.planMgr.Refers) (hcols : (server.planMgr.ops op).attrs = server.tableMgr.columns c.tableMgr.numTables)
    (hout : ∀ o, server.planMgr.IsOutput o → c.planMgr.IsOutput o)
    (hviews : ∀ e ∈ views, e.2 = c.tableMgr.numTables ∧ ∃ q ∈ c.queries, q.queryId = e.1) :
    Inv mem ⟨⟨server,bases,c.regs.views ++ views⟩,c.queries⟩ := by
  have hnum : server.tableMgr.numTables = c.tableMgr.numTables + 1 := htable ▸ withTable_numTables c.tableMgr spec
  have hold {id : ℕ} (hid : id < c.tableMgr.numTables) : server.tableMgr.columns id = c.tableMgr.columns id :=
    htable ▸ withTable_columns spec hid
  have hkept := h.kept hx
  constructor
  · exact hregistered
  · exact hrefers
  · exact hregs
  · rintro id ⟨hid,hne⟩
    have hlt : id < server.tableMgr.numTables := hid
    have hsame : id < c.tableMgr.numTables → Registrations.source ⟨server,bases,c.regs.views ++ views⟩ id = c.regs.source id :=
      fun hid => hx.source hid
    show (server.planMgr.ops (Registrations.source ⟨server,bases,c.regs.views ++ views⟩ id)).attrs = server.tableMgr.columns id
    rcases Nat.lt_or_ge id c.tableMgr.numTables with hlt' | hge
    · rw [hsame hlt', hold hlt', ← h.columns id ⟨hlt',hne⟩]
      obtain ⟨qc,ext,heq,-⟩ := hx.later.old (c.regs.source id) (h.regs.reg.lookupSource_mem id)
      rw [heq]
    · obtain rfl : id = c.tableMgr.numTables := by omega
      rw [Registrations.source_new h.regs hx.sourceOps hne]
      exact hcols
  · show List.Forall₂ _ c.queries server.planMgr.queryOutOps
    rw [hx.queryOutOps, List.append_nil]
    exact hkept.answered
  · exact hkept.shown h
  · exact fun o ho => hkept.outputs h (hout o ho)
  · exact ⟨h.ids.1,fun q hq => hqry ▸ h.ids.2 q hq⟩
  · intro q hq
    have hlt {id : ℕ} (hid : id < c.tableMgr.numTables) : id < server.tableMgr.numTables := hnum ▸ Nat.lt_succ_of_lt hid
    exact ⟨(h.plans q hq).1,ReadsTables.imp (h.plans q hq).2 fun id hid => ⟨⟨hlt hid.1,hid.2⟩,hold hid.1⟩⟩
  · intro e he
    rcases List.mem_append.mp he with he | he
    · obtain ⟨hne,q,hq,hid,hview⟩ := h.views e he
      have hlt := (h.regs.views e he).1
      exact ⟨hne,q,hq,hid,ReadsTables.imp hview fun id hid => ⟨hid,hold (hid.trans hlt)⟩⟩
    · obtain ⟨hid,q,hq,hqid⟩ := hviews e he
      have hpos := h.tables (List.ne_nil_of_mem hq)
      rw [hid]
      exact ⟨Nat.ne_of_gt hpos,q,hq,hqid,ReadsTables.imp (h.plans q hq).2 fun id hid => ⟨hid.1,hold hid.1⟩⟩
  · intro hne
    show 0 < server.tableMgr.numTables
    omega

theorem step_registerBaseTable {tableInfo : Option (List Char)} (h : c.Inv mem)
    (hstep : c.step front u (.registerBaseTable tableInfo) = some d) : d.Inv mem := by
  obtain ⟨regs,hregs,hd⟩ := Option.bind_eq_some_iff.mp hstep
  obtain rfl := Option.some.inj hd
  have hinv := Registrations.step_inv h.regs hregs
  obtain ⟨⟨⟨⟩,server⟩,hret,hrest⟩ := Option.bind_eq_some_iff.mp hregs
  obtain ⟨head,hhead,hd⟩ := Option.bind_eq_some_iff.mp hrest
  obtain rfl := Option.some.inj hd
  obtain ⟨spec,p,-,hp,rfl⟩ := registerTableWith_ok (returned_eq_some.mp hret)
  obtain ⟨hreg,hlater⟩ := Session.later_of_call h.regs.reg (.addBaseTable _ _) hp
  obtain ⟨op,s',hadd,hadded⟩ := addBaseTable_ok h.regs.reg.pool hp
  have hsources : s'.sourceOps = c.planMgr.sourceOps := congrArg Tables.sourceOps hadd.tables
  have hqueries : s'.queryOutOps = c.planMgr.queryOutOps := congrArg Tables.queryOutOps hadd.tables
  have hsrc : p.sourceOps = c.planMgr.sourceOps ++ [(c.tableMgr.numTables,op)] := by
    rw [hadded, hsources]
  have hqry : p.queryOutOps = c.planMgr.queryOutOps := by
    rw [hadded]
    exact hqueries
  have hregistered : Registered mem p := .call h.registered (.addBaseTable _ _) hp
  rw [← List.append_nil c.regs.views] at hinv ⊢
  have hx : c.regs.Extends { c.server with tableMgr := withTable c.tableMgr spec, planMgr := p } _ _ :=
    Registrations.extends_withTable hreg hlater hsrc hqry
  apply h.withTable hx hinv rfl rfl hregistered (addBaseTable_refers h.regs.reg.pool h.refers hp)
  · show (p.ops op).attrs = _
    rw [hadded]
    show (s'.ops op).attrs = _
    rw [hadd.self]
  · intro o ho
    have ho' : s'.IsOutput o := by
      rw [show (p : PlanState) = _ from hadded] at ho
      exact ho
    rw [hadd.isOutput_iff h.regs.reg.pool] at ho'
    rcases ho' with ⟨-,hk⟩ | hold
    · split at hk <;> cases hk
    · exact hold
  · exact fun e he => absurd he List.not_mem_nil

theorem step_registerView {queryId : ℕ} {tableInfo : Option (List Char)} (h : c.Inv mem)
    (hstep : c.step front u (.registerView queryId tableInfo) = some d) : d.Inv mem := by
  obtain ⟨regs,hregs,hd⟩ := Option.bind_eq_some_iff.mp hstep
  obtain rfl := Option.some.inj hd
  have hinv := Registrations.step_inv h.regs hregs
  obtain ⟨⟨⟨⟩,server⟩,hret,hd⟩ := Option.bind_eq_some_iff.mp hregs
  obtain rfl := Option.some.inj hd
  obtain ⟨spec,p,-,hp,rfl⟩ :=
    registerTableWith_ok (f := fun tableMgr tableId => map tableMgr queryId tableId) (returned_eq_some.mp hret)
  obtain ⟨hreg,hlater⟩ := Session.later_of_call h.regs.reg (.map _ _ _) hp
  obtain ⟨q,queryOutOp,hfind,hcols,hadded⟩ := map_ok hp
  have hsrc : p.sourceOps = c.planMgr.sourceOps ++ [(c.tableMgr.numTables,queryOutOp)] := by rw [hadded]
  have hqry : p.queryOutOps = c.planMgr.queryOutOps := by rw [hadded]
  have hregistered : Registered mem p := .call h.registered (.map _ _ _) hp
  have hx : c.regs.Extends { c.server with tableMgr := withTable c.tableMgr spec, planMgr := p } _ _ :=
    Registrations.extends_withTable hreg hlater hsrc hqry
  apply h.withTable hx hinv rfl rfl hregistered (map_refers h.refers hp)
  · show (p.ops queryOutOp).attrs = _
    rw [hadded]
    exact hcols.symm
  · intro o ho
    rw [show (p : PlanState) = _ from hadded] at ho
    exact ho
  · intro e he
    obtain rfl := List.mem_singleton.mp he
    obtain ⟨q',hq',hid,-⟩ := forall₂_mem_right h.answered (List.mem_of_find?_eq_some hfind)
    have hqid : q = queryId := by simpa using List.find?_some hfind
    exact ⟨rfl,q',hq',hid.symm.trans hqid⟩

/-- The plans that the planner makes of a query read the tables of the query. -/
theorem reads_of_flagged {known : ℕ → Prop} {tableMgr : TableManager} {p : Logical.Plan} (hf : p.Flagged known tableMgr)
    (hd : DerivedBinary tableMgr p) : ReadsTables tableMgr known p := by
  induction hd with
  | @node kind outAttrs bStream inputs here _ ih =>
    obtain ⟨hreg,-,-,hbelow⟩ := Logical.Plan.flagged_node.mp hf
    refine .node (fun id hid => ?_) fun i hi => ih i hi (hbelow i hi)
    obtain ⟨hderives,-⟩ := here
    cases kind with
    | streamSource varId tableId | relnSource varId tableId =>
      obtain rfl : tableId = id := Option.some.inj hid
      refine ⟨hreg.1,?_⟩
      rw [show outAttrs = _ from hderives.2]
      simp [Logical.tableAttrs,TableManager.columns,TableManager.getNumAttrs]
    | _ => cases hid

/-- Queries are numbered in the order in which they are accepted. -/
theorem planQuery_id {text : List Char} {s t : ServerImpl} {queryId : ℕ} {plan : Logical.Plan}
    (h : planQuery front text s = .ok (queryId,plan) t) : queryId = s.qryMgr.numQueries ∧ t.qryMgr.numQueries = queryId + 1 := by
  obtain ⟨_,_,h1,h⟩ := bind_eq_ok.mp h
  obtain ⟨rfl,rfl⟩ := get_eq_ok.mp h1
  obtain ⟨_,_,h2,h⟩ := bind_eq_ok.mp h
  obtain ⟨-,rfl⟩ := failIf_eq_ok.mp h2
  obtain ⟨_,_,h3,h⟩ := bind_eq_ok.mp h
  obtain ⟨rfl,rfl⟩ := get_eq_ok.mp h3
  cases hparse : front.parseCommand text with
  | none => simp [hparse] at h
  | some node =>
    simp only [hparse] at h
    cases hinterp : front.interpretQuery s.tableMgr node with
    | error rc => simp [hinterp] at h
    | ok query =>
      simp only [hinterp] at h
      cases hreg : s.qryMgr.registerQuery text with
      | error rc => simp [hreg] at h
      | ok r =>
        simp only [hreg] at h
        obtain ⟨_,_,h4,h⟩ := bind_eq_ok.mp h
        obtain rfl := set_eq_ok.mp h4
        cases hgen : (Logical.genLogPlan s.tableMgr query).run ⟨0,0⟩ with
        | error e usage => simp [hgen] at h
        | ok plan usage =>
          simp only [hgen] at h
          obtain ⟨he,rfl⟩ := pure_eq_ok.mp h
          obtain ⟨rfl,-⟩ := Prod.mk.inj he
          unfold QueryManager.registerQuery at hreg
          split at hreg
          · cases hreg
          split at hreg
          · cases hreg
          cases hreg
          exact ⟨rfl,rfl⟩

/-- A query has been registered. -/
theorem Inv.withQuery (h : c.Inv mem) {server : ServerImpl} {q : Accepted} {s : PlanState} {querySource : OpId}
    (hx : c.regs.Extends server [] [(q.queryId,querySource)]) (hregs : Registrations.Inv ⟨server,c.regs.bases,c.regs.views⟩)
    (htable : server.tableMgr = c.tableMgr) (hid : q.queryId = c.server.qryMgr.numQueries)
    (hqry : server.qryMgr.numQueries = q.queryId + 1) (hregistered : Registered mem server.planMgr) (hrefers : server.planMgr.Refers)
    (hans : QueryAnswered q.plan q.queryId q.output querySource s server.planMgr) (hs : s.IsOutput = c.planMgr.IsOutput)
    {tableMgr : TableManager} (hderived : DerivedBinary tableMgr q.plan) (hreads : ReadsTables c.tableMgr c.Known q.plan)
    (hpos : 0 < c.tableMgr.numTables) : Inv mem ⟨⟨server,c.regs.bases,c.regs.views⟩,c.queries ++ [q]⟩ := by
  have hkept := h.kept hx
  have hsame (id : ℕ) (hid : id < c.tableMgr.numTables) :
      Registrations.source ⟨server,c.regs.bases,c.regs.views⟩ id = c.regs.source id := hx.source hid
  constructor
  · exact hregistered
  · exact hrefers
  · exact hregs
  · rintro id ⟨hlt,hne⟩
    have hlt' : id < c.tableMgr.numTables := htable ▸ hlt
    show (server.planMgr.ops (Registrations.source ⟨server,c.regs.bases,c.regs.views⟩ id)).attrs = server.tableMgr.columns id
    rw [hsame id hlt', htable, ← h.columns id ⟨hlt',hne⟩]
    obtain ⟨qc,ext,heq,-⟩ := hx.later.old (c.regs.source id) (h.regs.reg.lookupSource_mem id)
    rw [heq]
  · show List.Forall₂ _ (c.queries ++ [q]) server.planMgr.queryOutOps
    rw [hx.queryOutOps]
    exact List.rel_append hkept.answered (.cons ⟨rfl,hans.answered⟩ .nil)
  · intro q' hq' hout
    rcases List.mem_append.mp hq' with hold | hnew
    · exact hkept.shown h q' hold hout
    · obtain rfl := List.mem_singleton.mp hnew
      exact hans.shown hout
  · intro o ho
    rcases hans.outputs o ho with hold | ⟨hout,hro,hbody⟩
    · obtain ⟨q',hq',hrest⟩ := hkept.outputs h (hs ▸ hold)
      exact ⟨q',List.mem_append_left _ hq',hrest⟩
    · exact ⟨q,List.mem_append_right _ (List.mem_singleton_self q),hout,hro,hbody⟩
  · constructor
    · rw [List.map_append, List.map_singleton, List.nodup_append]
      refine ⟨h.ids.1,List.nodup_singleton _,fun a ha b hb => ?_⟩
      obtain ⟨q',hq',rfl⟩ := List.mem_map.mp ha
      obtain rfl := List.mem_singleton.mp hb
      have hlt := h.ids.2 q' hq'
      omega
    · intro q' hq'
      show q'.queryId < server.qryMgr.numQueries
      rcases List.mem_append.mp hq' with hold | hnew
      · have hlt := h.ids.2 q' hold
        omega
      · obtain rfl := List.mem_singleton.mp hnew
        omega
  · intro q' hq'
    have hknown : ∀ id, c.Known id → Known ⟨⟨server,c.regs.bases,c.regs.views⟩,c.queries ++ [q]⟩ id ∧
        server.tableMgr.columns id = c.tableMgr.columns id := by
      intro id hid
      rw [htable]
      exact ⟨⟨show id < server.tableMgr.numTables from htable ▸ hid.1,hid.2⟩,rfl⟩
    rcases List.mem_append.mp hq' with hold | hnew
    · exact ⟨(h.plans q' hold).1,ReadsTables.imp (h.plans q' hold).2 hknown⟩
    · obtain rfl := List.mem_singleton.mp hnew
      exact ⟨⟨_,hderived⟩,ReadsTables.imp hreads hknown⟩
  · intro e he
    obtain ⟨hne,q',hq',hide,hview⟩ := h.views e he
    exact ⟨hne,q',List.mem_append_left _ hq',hide,show ReadsTables server.tableMgr _ _ from htable ▸ hview⟩
  · intro _
    show 0 < server.tableMgr.numTables
    exact htable ▸ hpos

theorem step_registerQuery {querySpec : List Char} {output : Bool} (h : c.Inv mem)
    (hallowed : c.Allowed front (.registerQuery querySpec output))
    (hstep : c.step front u (.registerQuery querySpec output) = some d) : d.Inv mem := by
  obtain ⟨query,hquery,hstep⟩ := Option.bind_eq_some_iff.mp hstep
  obtain ⟨⟨⟨queryId,plan⟩,planned⟩,hplanned,hstep⟩ := Option.bind_eq_some_iff.mp hstep
  obtain ⟨regs,hregs,hd⟩ := Option.bind_eq_some_iff.mp hstep
  obtain rfl := Option.some.inj hd
  have hplanned := returned_eq_some.mp hplanned
  have hinv := Registrations.step_inv h.regs hregs
  obtain ⟨⟨queryId',server⟩,hret,hd⟩ := Option.bind_eq_some_iff.mp hregs
  obtain rfl := Option.some.inj hd
  obtain ⟨query',plan',usage,qryMgr,p,hquery',hgen,hok,hp,rfl⟩ := registerQuery_ok (returned_eq_some.mp hret)
  obtain rfl : query = query' := Option.some.inj (hquery.symm.trans hquery')
  rw [hok] at hplanned
  cases hplanned
  obtain ⟨hid,hnext⟩ := planQuery_id hok
  have hanswerable := hallowed query hquery
  -- the plan is as the plan manager relies on it
  obtain ⟨hrefs,hcompatible⟩ := hanswerable.plans plan usage hgen
  have hderived : DerivedBinary c.tableMgr plan := (Logical.genLogPlan_derived _ _ _ hgen).1
  have hflagged : plan.Flagged c.Known c.tableMgr := Logical.genLogPlan_flagged hanswerable.tables _ _ _ hgen
  have hreads := reads_of_flagged hflagged hderived
  have hpos : 0 < c.tableMgr.numTables := by
    obtain ⟨v,hv⟩ := List.exists_mem_of_ne_nil _ (Logical.genLogPlan_sources _ _ _ hgen)
    exact Nat.zero_lt_of_lt (hanswerable.tables v hv).1
  -- the class of the query is entered first
  have hclass : Registered mem { c.planMgr with currentQueryClass := c.server.currentQueryClass } :=
    .call h.registered (.setQueryClass c.server.currentQueryClass) rfl
  obtain ⟨hregClass,hlaterClass⟩ := Session.later_of_call h.regs.reg (.setQueryClass c.server.currentQueryClass) rfl
  obtain ⟨hreg,hlater⟩ := Session.later_of_call hregClass (.addLogicalQueryPlan u queryId plan output) hp
  have hmap : PlanState.Maps { c.planMgr with currentQueryClass := c.server.currentQueryClass } plan := by
    apply Logical.Plan.Everywhere.imp hreads
    intro kind outAttrs inputs hr id hkind
    obtain ⟨hknown,hwidth⟩ := hr id hkind
    rw [hwidth, ← h.columns id hknown]
    rfl
  have hwell : WellFormed c.tableMgr plan := ⟨hderived,hrefs,hcompatible⟩
  obtain ⟨querySource,hans⟩ := addLogicalQueryPlan_answered (registered_sound hclass) hregClass hwell hmap hp
  have hrefersClass : PlanState.Refers { c.planMgr with currentQueryClass := c.server.currentQueryClass } := h.refers.of_bodies rfl fun _ => rfl
  have hx : c.regs.Extends { c.server with qryMgr := qryMgr, planMgr := p } [] [(queryId,querySource)] :=
    ⟨hreg,Later.trans _ _ _ hlaterClass hlater,hans.sourceOps.trans (List.append_nil _).symm,hans.queryOutOps,le_rfl,fun _ _ => rfl,by simp⟩
  exact @Inv.withQuery _ _ h _ ⟨queryId,query,plan,output⟩ _ _ hx hinv rfl hid hnext
    (.call hclass (.addLogicalQueryPlan u queryId plan output) hp)
    (addLogicalQueryPlan_refers hregClass.pool hregClass.lookupSource_mem hrefersClass hwell hp) hans rfl _ hderived hreads hpos

theorem step_inv {request : Request} (h : c.Inv mem) (hallowed : c.Allowed front request)
    (hstep : c.step front u request = some d) : d.Inv mem := by
  cases request with
  | registerBaseTable tableInfo => exact step_registerBaseTable h hstep
  | registerQuery querySpec output => exact step_registerQuery h hallowed hstep
  | registerView queryId tableInfo => exact step_registerView h hstep

/-- By every contents that agree with the queries of the views, the source and the output of each query get
what its plan computes. -/
theorem Inv.results (h : c.Inv mem) {α : Type} [DecidableEq α] {I : Interp α} (hI : I.CountsRows) {S : Sources α} (hS : c.Fits S)
    {T : Sources α} {D : OpId → TimeVarying α} (hT : c.Contents I S T) (hD : c.planMgr.Meaning I S D) :
    (∀ q ∈ c.queries, (∃ op, (q.queryId,op) ∈ c.planMgr.queryOutOps ∧ D op = q.plan.denote I T) ∧
      (q.output = true → ∃ o ∈ c.planMgr.used, ∃ outputId, (c.planMgr.ops o).body = .output outputId q.queryId)) ∧
    ∀ o ∈ c.planMgr.used, ∀ outputId queryId, (c.planMgr.ops o).body = .output outputId queryId →
      ∃ q ∈ c.queries, q.queryId = queryId ∧ q.output = true ∧ c.planMgr.received D o = [q.plan.denote I T] := by
  have hdenote {q : Accepted} (hq : q ∈ c.queries) : q.plan.denote I (c.planMgr.tableSources S D) = q.plan.denote I T :=
    (contents_tableSources h hI hD hS).denote_eq hT h hq
  constructor
  · intro q hq
    constructor
    · obtain ⟨e,he,hid,hans⟩ := forall₂_mem_right h.answered.flip hq
      refine ⟨e.2,?_,(hans.value hI hD (supplies h hI hD hS hq)).trans (hdenote hq)⟩
      rw [← hid]
      exact he
    · intro hout
      obtain ⟨o,outputId,hreads,hbody⟩ := h.shown q hq hout
      exact ⟨o,hreads.1,outputId,hbody⟩
  · intro o ho outputId queryId hbody
    obtain ⟨q,hq,hout,hreads,outputId',hbody'⟩ := h.outputs o ⟨ho,by rw [hbody]; rfl⟩
    obtain ⟨-,hid⟩ := Body.output.inj (hbody'.symm.trans hbody)
    refine ⟨q,hq,hid,hout,?_⟩
    rw [hreads.received hI hD (supplies h hI hD hS hq), hdenote hq]

/-- In every run of registrations of queries that can be answered, the tables have contents that agree
with the queries of the views, and by every such contents the source and the output of each query get
what its plan computes. No output belongs to anything else. -/
theorem results_of_runsWithin {requests : List Request} (hallowed : RunsWithin (step front u) (Allowed front) (start mem) requests)
    (hrun : runAll (step front u) (start mem) requests = some c) {α : Type} [DecidableEq α] {I : Interp α} (hI : I.CountsRows)
    {S : Sources α} (hS : c.Fits S) :
    (∃ T, c.Contents I S T) ∧ (∃ D, c.planMgr.Meaning I S D) ∧ ∀ T D, c.Contents I S T → c.planMgr.Meaning I S D →
      (∀ q ∈ c.queries, (∃ op, (q.queryId,op) ∈ c.planMgr.queryOutOps ∧ D op = q.plan.denote I T) ∧
        (q.output = true → ∃ o ∈ c.planMgr.used, ∃ outputId, (c.planMgr.ops o).body = .output outputId q.queryId)) ∧
      ∀ o ∈ c.planMgr.used, ∀ outputId queryId, (c.planMgr.ops o).body = .output outputId queryId →
        ∃ q ∈ c.queries, q.queryId = queryId ∧ q.output = true ∧ c.planMgr.received D o = [q.plan.denote I T] := by
  have h : c.Inv mem := hallowed.invariant (fun _ _ _ h ha hs => step_inv h ha hs) (start_inv mem) hrun
  have hsound := registered_sound h.registered
  obtain ⟨D₀,hD₀⟩ := exists_meaning I S hsound.consistent hsound.acyclic
  exact ⟨⟨_,contents_tableSources h hI hD₀ hS⟩,⟨D₀,hD₀⟩,fun _ _ hT hD => h.results hI hS hT hD⟩

def positiveQuery (tableId : ℕ) : Semantic.Query where
  kind := .sfwQuery
  refTables := fun _ => tableId
  fromClauseTables := [0]
  winSpec := fun _ => .unbounded
  preds := [⟨.gt,.attrRef .int ⟨0,0⟩,.constVal (.int 0)⟩]
  projExprs := [.attrRef .int ⟨0,0⟩]
  bDistinct := false
  gbyAttrs := []
  r2sOp := none
  binOp := .union

def viewFrontend : Frontend (List Char) :=
  listedFrontend [(['D'],⟨['D'],true,[⟨['a'],.int,4⟩]⟩), (['S'],⟨['S'],true,[⟨['a'],.int,4⟩]⟩),
    (['V'],⟨['V'],true,[⟨['a'],.int,4⟩]⟩)] [(['Q'],positiveQuery 1), (['P'],positiveQuery 2)]

def queryOfView : List Request :=
  [.registerBaseTable (some ['D']), .registerBaseTable (some ['S']), .registerQuery ['Q'] false, .registerView 0 (some ['V']),
    .registerQuery ['P'] true]

deriving instance DecidableEq for Table, TableManager

theorem tableMgr_of_run {requests : List Request} {tableMgr : TableManager} (h : runAll (step front u) (start mem) requests = some c)
    (hcheck : (runAll (step front u) (start mem) requests).map Network.tableMgr = some tableMgr) : c.tableMgr = tableMgr := by
  rw [h] at hcheck
  exact Option.some.inj hcheck

theorem positiveQuery_answerable {tableMgr : TableManager} {tableId : ℕ} {usage : Logical.Usage} (hlt : tableId < tableMgr.numTables)
    (hne : tableId ≠ SysStream.SS_ID) (hplan : (Logical.genLogPlan tableMgr (positiveQuery tableId)).run ⟨0,0⟩ = .ok (positiveRows tableId) usage) :
    Answerable tableMgr (positiveQuery tableId) := by
  refine ⟨fun _ _ => ⟨hlt,hne⟩,fun plan usage' h => ?_⟩
  rw [hplan] at h
  cases h
  unfold positiveRows
  constructor
  · simp [References,Logical.Plan.everywhere_node,Logical.Kind.Finds,Logical.Kind.refs,BExpr.attrs,Expr.attrs,Logical.Attr.same]
  · simp [Logical.Plan.everywhere_node,Logical.Kind.Compatible]

theorem queryOfView_allowed : RunsWithin (step viewFrontend blankUninit) (Allowed viewFrontend) (start blankMemory) queryOfView := by
  refine ⟨trivial,fun s₁ h₁ => ⟨trivial,fun s₂ h₂ => ⟨?_,fun s₃ h₃ => ⟨trivial,fun s₄ h₄ => ⟨?_,fun _ _ => trivial⟩⟩⟩⟩⟩
  · have hrun : runAll (step viewFrontend blankUninit) (start blankMemory) (queryOfView.take 2) = some s₂ :=
      runAll_cons.mpr ⟨s₁,h₁,runAll_cons.mpr ⟨s₂,h₂,rfl⟩⟩
    have htables : s₂.tableMgr = ⟨oneAttrTables.tableList.take 2⟩ := tableMgr_of_run hrun (by decide +kernel)
    intro query hquery
    rw [htables] at hquery ⊢
    obtain rfl : positiveQuery 1 = query := Option.some.inj hquery
    exact positiveQuery_answerable (by decide) (by decide) rfl
  · have hrun : runAll (step viewFrontend blankUninit) (start blankMemory) (queryOfView.take 4) = some s₄ :=
      runAll_cons.mpr ⟨s₁,h₁,runAll_cons.mpr ⟨s₂,h₂,runAll_cons.mpr ⟨s₃,h₃,runAll_cons.mpr ⟨s₄,h₄,rfl⟩⟩⟩⟩
    have htables : s₄.tableMgr = oneAttrTables := tableMgr_of_run hrun (by decide +kernel)
    intro query hquery
    rw [htables] at hquery ⊢
    obtain rfl : positiveQuery 2 = query := Option.some.inj hquery
    exact positiveQuery_answerable (by decide) (by decide) rfl

/-- The query over the view has an output, which receives the positive rows of the view. -/
theorem queryOfView_results : ∃ c, runAll (step viewFrontend blankUninit) (start blankMemory) queryOfView = some c ∧
    ∃ T D, c.Contents intInterp (oneRow [1]) T ∧ c.planMgr.Meaning intInterp (oneRow [1]) D ∧
      ∃ q ∈ c.queries, ∃ o ∈ c.planMgr.used, c.planMgr.received D o = [q.plan.denote intInterp T] := by
  have hcheck : ((runAll (step viewFrontend blankUninit) (start blankMemory) queryOfView).map fun c =>
      c.regs.bases.all (fun e => (c.tableMgr.columns e.1).length = 1) && c.queries.any Accepted.output) = some true := by decide +kernel
  obtain ⟨c,hc,hchecks⟩ := Option.map_eq_some_iff.mp hcheck
  obtain ⟨hwidth,hout⟩ := Bool.and_eq_true_iff.mp hchecks
  have hfits : c.Fits (oneRow [1]) := by
    intro e he now r hr
    obtain rfl := Multiset.mem_singleton.mp hr
    have hone := List.all_eq_true.mp hwidth e he
    simpa [HasWidth] using (of_decide_eq_true hone).symm
  have hcounts : intInterp.CountsRows := fun xs ys hxy => by simp [intInterp,hxy]
  obtain ⟨⟨T,hT⟩,⟨D,hD⟩,hresults⟩ := results_of_runsWithin queryOfView_allowed hc hcounts hfits
  obtain ⟨hqueries,houtputs⟩ := hresults T D hT hD
  obtain ⟨q,hq,hqout⟩ := List.any_eq_true.mp hout
  obtain ⟨o,ho,outputId,hbody⟩ := (hqueries q hq).2 hqout
  obtain ⟨q',hq',-,-,hrec⟩ := houtputs o ho outputId q.queryId hbody
  exact ⟨c,hc,T,D,hT,hD,q',hq',o,ho,hrec⟩

end Network
end AqsiosCoordinator.Server
