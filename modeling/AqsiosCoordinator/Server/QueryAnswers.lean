import AqsiosCoordinator.Server.AnswerableQueries
import AqsiosCoordinator.Server.OptimizedResults
import AqsiosCoordinator.Querygen.InstantsApart
import AqsiosCoordinator.Querygen.StreamMeaning

/-! # The answers of queries

What a server computes is said without its plans: the base tables hold what comes from
outside, every view holds the answer of its query over the tables, and the output of a query
gets its answer.
-/
namespace AqsiosCoordinator.Server
open Common Foundation Foundation.Outcome Metadata Physical

theorem negOne_ne_zero : (-1 : ℤ) ≠ 0 := by decide

def errorCode : { rc : ℤ // rc ≠ 0 } := ⟨-1,negOne_ne_zero⟩

def readTree (tableMgr : TableManager) (parseTree : Parser.ParseTree) : Except { rc : ℤ // rc ≠ 0 } Semantic.Query :=
  match Semantic.interpretQuery tableMgr parseTree.query 0 with
  | .ok query _ => .ok query
  | .error (.code rc) _ => if hrc : rc = 0 then .error errorCode else .error ⟨rc,hrc⟩
  | .error _ _ => .error errorCode

/-- The semantic interpreter behind a parser, which makes the contents of a specification of a table
or the tree of a query of a text. -/
def interpreterFrontend (parse : List Char → Option (TableSpec ⊕ Parser.ParseTree)) : Frontend (TableSpec ⊕ Parser.ParseTree) where
  parseCommand := parse
  tableSpec := Sum.getLeft?
  interpretQuery tableMgr := Sum.elim (fun _ => .error errorCode) (readTree tableMgr)

variable {parse : List Char → Option (TableSpec ⊕ Parser.ParseTree)}

/-- The queries that are read are those that the interpreter makes. -/
theorem readQuery_interpreted {tableMgr : TableManager} {text : List Char} {query : Semantic.Query}
    (h : (interpreterFrontend parse).readQuery tableMgr text = some query) :
    ∃ parseTree n, Semantic.interpretQuery tableMgr parseTree 0 = .ok query n := by
  obtain ⟨node,-,hnode⟩ := Option.bind_eq_some_iff.mp h
  cases node with
  | inl spec => cases hnode
  | inr parseTree =>
    have hread : (interpreterFrontend parse).interpretQuery tableMgr (.inr parseTree) = readTree tableMgr parseTree := rfl
    rw [hread, readTree] at hnode
    cases hr : Semantic.interpretQuery tableMgr parseTree.query 0 with
    | ok query' n =>
      rw [hr] at hnode
      obtain rfl : query' = query := Option.some.inj hnode
      exact ⟨parseTree.query,n,hr⟩
    | error e n =>
      rw [hr] at hnode
      cases e with
      | code rc => by_cases hrc : rc = 0 <;> simp [hrc] at hnode
      | _ => cases hnode

namespace Network
variable {u : Uninit} {mem : OpId → Operator} {c d : Network}

/-- The queries that are registered are grounded and read no table that leads to the system stream,
and a view is declared a stream exactly when the plan of its query is one. -/
def Admitted (parse : List Char → Option (TableSpec ⊕ Parser.ParseTree)) (c : Network) : Request → Prop
  | .registerBaseTable _ => True
  | .registerQuery querySpec _ => ∀ query ∈ (interpreterFrontend parse).readQuery c.tableMgr querySpec,
    (∀ v ∈ query.sources, query.refTables v ≠ SysStream.SS_ID) ∧ (query.kind = .sfwQuery → query.Grounded c.tableMgr)
  | .registerView queryId tableInfo => ∀ spec ∈ (interpreterFrontend parse).readTable tableInfo,
    ∀ q ∈ c.queries, q.queryId = queryId → spec.isStream = q.plan.bStream

theorem Admitted.allowed {request : Request} (h : c.Admitted parse request) : c.Allowed (interpreterFrontend parse) request := by
  cases request with
  | registerBaseTable tableInfo => trivial
  | registerView queryId tableInfo => trivial
  | registerQuery querySpec output =>
    intro query hquery
    obtain ⟨parseTree,n,hinterp⟩ := readQuery_interpreted hquery
    obtain ⟨htables,hgrounded⟩ := h query hquery
    exact answerable_of_grounded hinterp htables hgrounded

structure Planned (tableMgr current : TableManager) (q : Accepted) : Prop where
  gen : ∃ usage, (Logical.genLogPlan tableMgr q.query).run ⟨0,0⟩ = .ok q.plan usage
  wellFormed : q.query.WellFormed tableMgr
  tables : ∀ v ∈ q.query.sources, q.query.refTables v < tableMgr.numTables ∧ q.query.refTables v ≠ SysStream.SS_ID
  older : tableMgr.tableList <+: current.tableList

/-- A network whose views are declared as the plans of their queries are. -/
structure Declared (mem : OpId → Operator) (c : Network) : Prop where
  inv : c.Inv mem
  planned : ∀ q ∈ c.queries, ∃ tableMgr, Planned tableMgr c.tableMgr q
  views : ∀ e ∈ c.regs.views, ∃ q ∈ c.queries, q.queryId = e.1 ∧ c.tableMgr.isStream e.2 = q.plan.bStream ∧
    ∃ tableMgr, Planned tableMgr c.tableMgr q ∧ tableMgr.numTables ≤ e.2

theorem start_declared (mem : OpId → Operator) : (start mem).Declared mem :=
  ⟨start_inv mem,fun _ hq => absurd hq List.not_mem_nil,fun _ he => absurd he List.not_mem_nil⟩

theorem Planned.withTable {tableMgr current : TableManager} {q : Accepted} (h : Planned tableMgr current q) (spec : TableSpec) :
    Planned tableMgr (withTable current spec) q :=
  { h with older := h.older.trans (List.prefix_append _ _) }

theorem Planned.le {tableMgr current : TableManager} {q : Accepted} (h : Planned tableMgr current q) :
    tableMgr.numTables ≤ current.numTables := h.older.length_le

/-- One more table, which is no view or one that is declared as its query is. -/
theorem Declared.withTable (h : c.Declared mem) {spec : TableSpec} {regs : Registrations} {views : List (ℕ × ℕ)}
    (hinv : Inv mem ⟨regs,c.queries⟩) (htable : regs.server.tableMgr = Server.withTable c.tableMgr spec)
    (hregs : regs.views = c.regs.views ++ views) (hlt : ∀ e ∈ c.regs.views, e.2 < c.tableMgr.numTables)
    (hviews : ∀ e ∈ views, e.2 = c.tableMgr.numTables ∧ ∃ q ∈ c.queries, q.queryId = e.1 ∧ spec.isStream = q.plan.bStream) :
    Declared mem ⟨regs,c.queries⟩ := by
  refine ⟨hinv,fun q hq => ?_,fun e he => ?_⟩
  · obtain ⟨tableMgr,hplanned⟩ := h.planned q hq
    refine ⟨tableMgr,?_⟩
    show Planned tableMgr regs.server.tableMgr q
    rw [htable]
    exact hplanned.withTable spec
  · have he : e ∈ c.regs.views ++ views := hregs ▸ he
    show ∃ q ∈ c.queries, q.queryId = e.1 ∧ regs.server.tableMgr.isStream e.2 = q.plan.bStream ∧
      ∃ tableMgr, Planned tableMgr regs.server.tableMgr q ∧ tableMgr.numTables ≤ e.2
    rw [htable]
    rcases List.mem_append.mp he with hold | hnew
    · obtain ⟨q,hq,hid,hstream,tableMgr,hplanned,hle⟩ := h.views e hold
      refine ⟨q,hq,hid,?_,tableMgr,hplanned.withTable spec,hle⟩
      rw [withTable_isStream spec (hlt e hold)]
      exact hstream
    · obtain ⟨hid,q,hq,hqid,hstream⟩ := hviews e hnew
      obtain ⟨tableMgr,hplanned⟩ := h.planned q hq
      refine ⟨q,hq,hqid,?_,tableMgr,hplanned.withTable spec,hid ▸ hplanned.le⟩
      rw [hid, withTable_isStream_new]
      exact hstream

theorem step_declared {request : Request} (h : c.Declared mem) (hadmitted : c.Admitted parse request)
    (hstep : c.step (interpreterFrontend parse) u request = some d) : d.Declared mem := by
  have hinv : d.Inv mem := step_inv h.inv hadmitted.allowed hstep
  have hlt : ∀ e ∈ c.regs.views, e.2 < c.tableMgr.numTables := fun e he => (h.inv.regs.views e he).1
  cases request with
  | registerBaseTable tableInfo =>
    obtain ⟨regs,hregs,hd⟩ := Option.bind_eq_some_iff.mp hstep
    obtain rfl := Option.some.inj hd
    obtain ⟨⟨⟨⟩,server⟩,hret,hrest⟩ := Option.bind_eq_some_iff.mp hregs
    obtain ⟨head,hhead,hd⟩ := Option.bind_eq_some_iff.mp hrest
    obtain rfl := Option.some.inj hd
    obtain ⟨spec,p,-,-,rfl⟩ := registerTableWith_ok (returned_eq_some.mp hret)
    exact h.withTable hinv rfl (List.append_nil _).symm hlt (by simp)
  | registerView queryId tableInfo =>
    obtain ⟨regs,hregs,hd⟩ := Option.bind_eq_some_iff.mp hstep
    obtain rfl := Option.some.inj hd
    obtain ⟨⟨⟨⟩,server⟩,hret,hd⟩ := Option.bind_eq_some_iff.mp hregs
    obtain rfl := Option.some.inj hd
    obtain ⟨spec,p,hspec,hp,rfl⟩ :=
      registerTableWith_ok (f := fun tableMgr tableId => map tableMgr queryId tableId) (returned_eq_some.mp hret)
    refine h.withTable hinv rfl (show _ = c.regs.views ++ [(queryId,c.tableMgr.numTables)] from rfl) hlt fun e he => ?_
    obtain rfl := List.mem_singleton.mp he
    -- the view has a query, since it has been mapped
    obtain ⟨-,q,hq,hid,-⟩ := hinv.views (queryId,c.tableMgr.numTables) (List.mem_append_right _ (List.mem_singleton_self _))
    exact ⟨rfl,q,hq,hid,hadmitted spec hspec q hq hid⟩
  | registerQuery querySpec output =>
    obtain ⟨query,hquery,hstep⟩ := Option.bind_eq_some_iff.mp hstep
    obtain ⟨⟨⟨queryId,plan⟩,planned⟩,hplanned,hstep⟩ := Option.bind_eq_some_iff.mp hstep
    obtain ⟨regs,hregs,hd⟩ := Option.bind_eq_some_iff.mp hstep
    obtain rfl := Option.some.inj hd
    have hplanned := returned_eq_some.mp hplanned
    obtain ⟨⟨queryId',server⟩,hret,hd⟩ := Option.bind_eq_some_iff.mp hregs
    obtain rfl := Option.some.inj hd
    obtain ⟨query',plan',usage,qryMgr,p,hquery',hgen,hok,hp,rfl⟩ := registerQuery_ok (returned_eq_some.mp hret)
    obtain rfl : query = query' := Option.some.inj (hquery.symm.trans hquery')
    rw [hok] at hplanned
    cases hplanned
    obtain ⟨parseTree,n,hinterp⟩ := readQuery_interpreted hquery
    have htables := (hadmitted query hquery).1
    refine ⟨hinv,fun q hq => ?_,fun e he => ?_⟩
    · rcases List.mem_append.mp hq with hold | hnew
      · exact h.planned q hold
      · obtain rfl := List.mem_singleton.mp hnew
        refine ⟨c.tableMgr,⟨usage,hgen⟩,Semantic.interpretQuery_wellFormed hinterp,fun v hv => ?_,List.prefix_rfl⟩
        exact ⟨Semantic.interpretQuery_tables hinterp v hv,htables v hv⟩
    · obtain ⟨q,hq,hrest⟩ := h.views e he
      exact ⟨q,List.mem_append_left _ hq,hrest⟩

theorem Planned.sameTables {tableMgr current : TableManager} {q : Accepted} (h : Planned tableMgr current q) :
    q.query.SameTables tableMgr current := by
  obtain ⟨rest,hrest⟩ := h.older
  intro v hv
  have hget : current.tableList[q.query.refTables v]? = tableMgr.tableList[q.query.refTables v]? := by
    rw [← hrest]
    exact List.getElem?_append_left (h.tables v hv).1
  constructor
  · unfold TableManager.isStream
    rw [hget]
  · unfold TableManager.getNumAttrs TableManager.attrs
    rw [hget]

section Answers
variable {α : Type} [DecidableEq α] {I : Interp α} {S T : Sources α}

/-- The plan of a query computes its answer. -/
theorem Planned.answer {tableMgr current : TableManager} {q : Accepted} (h : Planned tableMgr current q)
    (hgrow : q.query.StreamsGrow T current) : q.plan.denote I T = q.query.answer I T current := by
  obtain ⟨usage,hgen⟩ := h.gen
  have hsame := h.sameTables
  have hgrow' : q.query.StreamsGrow T tableMgr := fun v hv hs => hgrow v hv ((hsame v hv).1.trans hs)
  rw [hsame.answer]
  exact Logical.Plan.denote_genLogPlan h.wellFormed hgrow' hgen

/-- A plan that is a stream only grows when the streams that its query reads do. -/
theorem Planned.monotone {tableMgr current : TableManager} {q : Accepted} (h : Planned tableMgr current q) (hflag : q.plan.bStream = true)
    (hgrow : ∀ id, id < tableMgr.numTables ∧ id ≠ SysStream.SS_ID → tableMgr.isStream id = true → Monotone (T.table id)) :
    Monotone (q.plan.denote I T) := by
  obtain ⟨usage,hgen⟩ := h.gen
  exact (Logical.genLogPlan_flagged h.tables _ _ _ hgen).monotone hgrow hflag

/-- The base tables hold what comes from outside, and every view the answer of its query. -/
structure Answers (I : Interp α) (c : Network) (S T : Sources α) : Prop where
  order : T.order = S.order
  base : ∀ e ∈ c.regs.bases, e.1 ≠ SysStream.SS_ID → T.table e.1 = S.table e.1
  view : ∀ e ∈ c.regs.views, ∀ q ∈ c.queries, q.queryId = e.1 → T.table e.2 = q.query.answer I T c.tableMgr

def StreamsGrow (c : Network) (S : Sources α) : Prop := ∀ e ∈ c.regs.bases, c.tableMgr.isStream e.1 = true → Monotone (S.table e.1)

/-- The tables that are streams lose no rows, whether views hold what plans compute or answers. -/
theorem Declared.grows (h : c.Declared mem) (hS : c.StreamsGrow S)
    (hbase : ∀ e ∈ c.regs.bases, e.1 ≠ SysStream.SS_ID → T.table e.1 = S.table e.1)
    (hview : ∀ e ∈ c.regs.views, ∀ q ∈ c.queries, q.queryId = e.1 →
      T.table e.2 = q.plan.denote I T ∨ T.table e.2 = q.query.answer I T c.tableMgr)
    (id : ℕ) (hid : c.Known id) (hs : c.tableMgr.isStream id = true) : Monotone (T.table id) := by
  induction id using Nat.strong_induction_on with
  | _ id ih =>
    obtain ⟨e,he,rfl⟩ | ⟨e,he,rfl⟩ := h.inv.known hid
    · rw [hbase e he hid.2]
      exact hS e he hs
    · obtain ⟨q,hq,hqid,hstream,tableMgr,hplanned,hle⟩ := h.views e he
      -- the tables that the query reads are older than the view
      have hold (id : ℕ) (hlt : id < tableMgr.numTables) (hne : id ≠ SysStream.SS_ID) (hs : c.tableMgr.isStream id = true) :
          Monotone (T.table id) := ih id (Nat.lt_of_lt_of_le hlt hle) ⟨Nat.lt_of_lt_of_le hlt hplanned.le,hne⟩ hs
      have hgrow : q.query.StreamsGrow T c.tableMgr := fun v hv hs => hold _ (hplanned.tables v hv).1 (hplanned.tables v hv).2 hs
      have hrows : T.table e.2 = q.plan.denote I T := by
        rcases hview e he q hq hqid with hrows | hrows
        · exact hrows
        · rw [hrows, hplanned.answer hgrow]
      rw [hrows]
      refine hplanned.monotone (hstream.symm.trans hs) fun id hid hs => hold id hid.1 hid.2 ?_
      obtain ⟨rest,hrest⟩ := hplanned.older
      unfold TableManager.isStream at hs ⊢
      rwa [← hrest, List.getElem?_append_left hid.1]

theorem Declared.query_grows (h : c.Declared mem)
    (hgrows : ∀ id, c.Known id → c.tableMgr.isStream id = true → Monotone (T.table id)) {q : Accepted} (hq : q ∈ c.queries) :
    q.plan.denote I T = q.query.answer I T c.tableMgr := by
  obtain ⟨tableMgr,hplanned⟩ := h.planned q hq
  apply hplanned.answer
  intro v hv hs
  obtain ⟨hlt,hne⟩ := hplanned.tables v hv
  exact hgrows _ ⟨Nat.lt_of_lt_of_le hlt hplanned.le,hne⟩ hs

/-- Views hold the answers of their queries exactly when they hold what their plans compute. -/
theorem Declared.contents_iff (h : c.Declared mem) (hS : c.StreamsGrow S) : c.Contents I S T ↔ c.Answers I S T := by
  constructor
  · rintro ⟨horder,hbase,hview⟩
    have hgrows := h.grows hS hbase fun e he q hq hid => .inl (hview e he q hq hid)
    exact ⟨horder,hbase,fun e he q hq hid => (hview e he q hq hid).trans (h.query_grows hgrows hq)⟩
  · rintro ⟨horder,hbase,hview⟩
    have hgrows := h.grows hS hbase fun e he q hq hid => .inr (hview e he q hq hid)
    exact ⟨horder,hbase,fun e he q hq hid => (hview e he q hq hid).trans (h.query_grows hgrows hq).symm⟩

end Answers

/-- After every run of registrations of grounded queries, on whose plan every level of sharing starts with
operators in use: when the specification ends, the tables have contents in which views hold the answers of their
queries, by all such contents the tables that are streams lose no rows, and the optimized plan has the output of each query
that is to have one, which gets the answer of the query, and no other output. -/
theorem optimized_answers {requests : List Request}
    (hadmitted : RunsWithin (step (interpreterFrontend parse) u) (Admitted parse) (start mem) requests)
    (hrun : runAll (step (interpreterFrontend parse) u) (start mem) requests = some c) (hlevels : c.planMgr.SharesOrderly)
    {server : ServerImpl} (hend : endAppSpecification true c.server = .ok () server) {α : Type} [DecidableEq α] {I : Interp α}
    (hI : I.CountsRows) (hT : I.IgnoresTypes) {S : Sources α} (hS : c.Fits S) (hgrow : c.StreamsGrow S) :
    (∃ T, c.Answers I S T) ∧ (∃ D, server.planMgr.Meaning I S D) ∧ ∀ T D, c.Answers I S T → server.planMgr.Meaning I S D →
      (∀ id, c.Known id → c.tableMgr.isStream id = true → Monotone (T.table id)) ∧
      (∀ q ∈ c.queries, q.output = true → ∃ o ∈ server.planMgr.used, ∃ outputId, (server.planMgr.ops o).body = .output outputId q.queryId) ∧
      ∀ o ∈ server.planMgr.used, ∀ outputId queryId, (server.planMgr.ops o).body = .output outputId queryId →
        ∃ q ∈ c.queries, q.queryId = queryId ∧ q.output = true ∧ server.planMgr.received D o = [q.query.answer I T c.tableMgr] := by
  have h : c.Declared mem := hadmitted.invariant (fun _ _ _ h ha hs => step_declared h ha hs) (start_declared mem) hrun
  obtain ⟨⟨T,hT'⟩,hD,hresults⟩ := h.inv.optimized hlevels hend hI hT hS
  refine ⟨⟨T,(h.contents_iff hgrow).mp hT'⟩,hD,fun T D hT' hD => ?_⟩
  have hgrows := h.grows hgrow hT'.base fun e he q hq hid => .inr (hT'.view e he q hq hid)
  obtain ⟨hqueries,houtputs⟩ := hresults T D ((h.contents_iff hgrow).mpr hT') hD
  refine ⟨hgrows,hqueries,fun o ho outputId queryId hbody => ?_⟩
  obtain ⟨q,hq,hid,hout,hrec⟩ := houtputs o ho outputId queryId hbody
  refine ⟨q,hq,hid,hout,?_⟩
  rw [hrec, h.query_grows hgrows hq]

def positiveTree (table : List Char) : Parser.ParseTree where
  query := .sfwBlock ⟨⟨false,[.attrRef ⟨none,['a']⟩]⟩,[⟨table,none,none⟩],[⟨.gt,.attrRef ⟨none,['a']⟩,.constVal (.int 0)⟩],[]⟩ none
  fits := Nat.le_of_ble_eq_true rfl
  table := rfl

def oneAttrSpec (name : List Char) : TableSpec := ⟨name,true,[⟨['a'],.int,4⟩]⟩

def positiveTexts (text : List Char) : Option (TableSpec ⊕ Parser.ParseTree) :=
  if text = ['Q'] then some (.inr (positiveTree ['S']))
  else if text = ['P'] then some (.inr (positiveTree ['V']))
  else some (.inl (oneAttrSpec text))

/-- What of a positive query is to be known, when its table is none that leads to the system stream. -/
theorem positiveTexts_admitted {c : Network} {text : List Char} {output : Bool} {tables : TableManager} (htables : c.tableMgr = tables)
    (hcheck : (((interpreterFrontend positiveTexts).readQuery tables text).map fun query =>
      query.sources.all (fun v => query.refTables v != SysStream.SS_ID) && query.gbyAttrs.isEmpty && query.aggrs.isEmpty &&
        query.preds.all (fun b => b.left.aggrs.isEmpty && b.right.aggrs.isEmpty) &&
        query.fromClauseTables.zipIdx.all fun x => decide (query.winSpec x.2 = .unbounded)) = some true) :
    c.Admitted positiveTexts (.registerQuery text output) := by
  intro query hquery
  rw [htables] at hquery
  rw [show (interpreterFrontend positiveTexts).readQuery tables text = some query from hquery] at hcheck
  simp only [Option.map_some, Option.some.injEq, Bool.and_eq_true, List.all_eq_true, bne_iff_ne, List.isEmpty_iff, decide_eq_true_eq] at hcheck
  obtain ⟨⟨⟨⟨hsources,hgby⟩,haggrs⟩,hpreds⟩,hwins⟩ := hcheck
  refine ⟨hsources,fun _ => ⟨fun x hx _ numRows attrs hwin => ?_,hpreds,fun hu => absurd ⟨haggrs,hgby⟩ hu⟩⟩
  rw [hwins x hx] at hwin
  cases hwin

theorem queryOfView_admitted :
    RunsWithin (step (interpreterFrontend positiveTexts) blankUninit) (Admitted positiveTexts) (start blankMemory) queryOfView := by
  refine ⟨trivial,fun s₁ h₁ => ⟨trivial,fun s₂ h₂ => ⟨?_,fun s₃ h₃ => ⟨?_,fun s₄ h₄ => ⟨?_,fun _ _ => trivial⟩⟩⟩⟩⟩
  · have hrun : runAll (step (interpreterFrontend positiveTexts) blankUninit) (start blankMemory) (queryOfView.take 2) = some s₂ :=
      runAll_cons.mpr ⟨s₁,h₁,runAll_cons.mpr ⟨s₂,h₂,rfl⟩⟩
    have htables : s₂.tableMgr = ⟨oneAttrTables.tableList.take 2⟩ := tableMgr_of_run hrun (by decide +kernel)
    exact positiveTexts_admitted htables (by decide +kernel)
  · have hrun : runAll (step (interpreterFrontend positiveTexts) blankUninit) (start blankMemory) (queryOfView.take 3) = some s₃ :=
      runAll_cons.mpr ⟨s₁,h₁,runAll_cons.mpr ⟨s₂,h₂,runAll_cons.mpr ⟨s₃,h₃,rfl⟩⟩⟩
    have hcheck : ((runAll (step (interpreterFrontend positiveTexts) blankUninit) (start blankMemory) (queryOfView.take 3)).map fun c =>
        c.queries.all (·.plan.bStream)) = some true := by decide +kernel
    rw [hrun, Option.map_some, Option.some.injEq, List.all_eq_true] at hcheck
    intro spec hspec q hq _
    obtain rfl : oneAttrSpec ['V'] = spec := Option.some.inj hspec
    exact (hcheck q hq).symm
  · have hrun : runAll (step (interpreterFrontend positiveTexts) blankUninit) (start blankMemory) (queryOfView.take 4) = some s₄ :=
      runAll_cons.mpr ⟨s₁,h₁,runAll_cons.mpr ⟨s₂,h₂,runAll_cons.mpr ⟨s₃,h₃,runAll_cons.mpr ⟨s₄,h₄,rfl⟩⟩⟩⟩
    have htables : s₄.tableMgr = oneAttrTables := tableMgr_of_run hrun (by decide +kernel)
    exact positiveTexts_admitted htables (by decide +kernel)

/-- The output of the query over the view receives its answer, in a plan that has become smaller. -/
theorem queryOfView_answers : ∃ c server,
    runAll (step (interpreterFrontend positiveTexts) blankUninit) (start blankMemory) queryOfView = some c ∧
    endAppSpecification true c.server = .ok () server ∧ server.planMgr.used.length < c.planMgr.used.length ∧
    ∃ T D, c.Answers intInterp (oneRow [1]) T ∧ server.planMgr.Meaning intInterp (oneRow [1]) D ∧
      ∃ q ∈ c.queries, ∃ o ∈ server.planMgr.used, server.planMgr.received D o = [q.query.answer intInterp T c.tableMgr] := by
  have hcheck : ((runAll (step (interpreterFrontend positiveTexts) blankUninit) (start blankMemory) queryOfView).map fun c =>
      (c.regs.bases.all (fun e => (c.tableMgr.columns e.1).length = 1) && c.queries.any Accepted.output) &&
      (returns (removeQuerySources c.planMgr) && returns (addSinks (finalState (removeQuerySources c.planMgr))) &&
        returns (mergeSelects (finalState (addSinks (finalState (removeQuerySources c.planMgr))))) &&
        decide (JoinsFiltered (preparedPlan c.planMgr)) &&
        decide (LevelsClear (MAX_OPS + 1) (preparedPlan c.planMgr).dataSources (preparedPlan c.planMgr))) &&
      (returns (endAppSpecification true c.server) &&
        decide ((finalState (endAppSpecification true c.server)).planMgr.used.length < c.planMgr.used.length))) = some true := by decide +kernel
  obtain ⟨c,hc,hchecks⟩ := Option.map_eq_some_iff.mp hcheck
  simp only [Bool.and_eq_true] at hchecks
  obtain ⟨⟨⟨hwidth,hout⟩,⟨⟨hpasses,hjoins⟩,hclear⟩⟩,hreturns,hsmaller⟩ := hchecks
  have hfits : c.Fits (oneRow [1]) := by
    intro e he now r hr
    obtain rfl := Multiset.mem_singleton.mp hr
    have hone := List.all_eq_true.mp hwidth e he
    simpa [Logical.Plan.HasWidth] using (of_decide_eq_true hone).symm
  have hgrow : c.StreamsGrow (oneRow [1]) := fun e he hs s t hst => le_refl _
  have hcounts : intInterp.CountsRows := fun xs ys hxy => by simp [intInterp,hxy]
  have hdeclared : c.Declared blankMemory :=
    queryOfView_admitted.invariant (fun _ _ _ h ha hs => step_declared h ha hs) (start_declared blankMemory) hc
  obtain ⟨s₁,s₂,h1,h2,h3⟩ := preparedPlan_passes (s := c.planMgr) (by simpa [Bool.and_eq_true] using hpasses)
  have hlevels : c.planMgr.SharesOrderly :=
    .of_clear hdeclared.inv.registered h1 h2 h3 (of_decide_eq_true hjoins) (of_decide_eq_true hclear)
  have hend := eq_ok_of_returns hreturns
  obtain ⟨⟨T,hT⟩,⟨D,hD⟩,hresults⟩ :=
    optimized_answers queryOfView_admitted hc hlevels hend hcounts intInterp_ignoresTypes hfits hgrow
  obtain ⟨-,hqueries,houtputs⟩ := hresults T D hT hD
  obtain ⟨q,hq,hqout⟩ := List.any_eq_true.mp hout
  obtain ⟨o,ho,outputId,hbody⟩ := hqueries q hq hqout
  obtain ⟨q',hq',-,-,hrec⟩ := houtputs o ho outputId q.queryId hbody
  exact ⟨c,_,hc,hend,of_decide_eq_true hsmaller,T,D,hT,hD,q',hq',o,ho,hrec⟩

end Network
end AqsiosCoordinator.Server
