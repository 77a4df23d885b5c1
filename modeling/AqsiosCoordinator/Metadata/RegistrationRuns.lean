import AqsiosCoordinator.Metadata.RegistrationFrame

/-! # Runs of registration calls

The calls may fail, and what a call has done before it fails stays.
-/
namespace AqsiosCoordinator.Physical
open Common Foundation Foundation.Outcome Metadata

inductive Call where
  | addBaseTable (tableMgr : TableManager) (tableId : ℕ)
  | addLogicalQueryPlan (u : Uninit) (queryId : ℕ) (logPlan : Logical.Plan) (output : Bool)
  | map (tableMgr : TableManager) (queryId tableId : ℕ)
  | setQueryClass (queryClass : ℤ)

def Call.run : Call → M Unit
  | .addBaseTable tableMgr tableId => Physical.addBaseTable tableMgr tableId
  | .addLogicalQueryPlan u queryId logPlan output => Physical.addLogicalQueryPlan u queryId logPlan output
  | .map tableMgr queryId tableId => Physical.map tableMgr queryId tableId
  | .setQueryClass queryClass => modify (fun s => { s with currentQueryClass := queryClass })

/-- The states that registration reaches, with calls that return and calls that fail. -/
inductive Reachable (mem : OpId → Operator) : PlanState → Prop where
  | start : Reachable mem (newPlanManager mem)
  | call {s : PlanState} (h : Reachable mem s) (c : Call) : Reachable mem (finalState (c.run s))

/-- What tables and queries lead to. Operator 0 is where unknown tables lead to. -/
structure RegInv (s : PlanState) : Prop where
  pool : PoolInv s
  sources : ∀ e ∈ s.sourceOps, e.2 ∈ s.used ∧ isSourceKind (s.ops e.2).body.kind
  queries : ∀ e ∈ s.queryOutOps, e.2 ∈ s.used ∧ (s.ops e.2).body.kind = .querySource
  default : ⟨0,maxOps_pos⟩ ∈ s.used ∧ isSourceKind (s.ops ⟨0,maxOps_pos⟩).body.kind

/-- The operators in use have only got another query class and new operators as readers. -/
def Later (s t : PlanState) : Prop := Grown s.used s t

variable {s t : PlanState} {α : Type} {P : PlanState → Prop}

theorem Later.refl (s : PlanState) : Later s s := Grown.refl s

theorem Later.of_same (hu : t.used = s.used) (ho : t.ops = s.ops) : Later s t :=
  ⟨fun o h => hu ▸ h,fun o _ => ⟨(s.ops o).queryClassId,[],by rw [ho]; simp,by simp⟩⟩

theorem Later.trans (s t u : PlanState) (h : Later s t) (h' : Later t u) : Later s u := by
  refine Grown.trans s t u h ⟨h'.used,fun o ho => ?_⟩
  obtain ⟨qc,ext,h1,h2⟩ := h'.old o (h.used o ho)
  exact ⟨qc,ext,h1,fun x hx => ⟨(h2 x hx).1,fun hs => (h2 x hx).2 (h.used x hs)⟩⟩

theorem RegInv.sourcesIn (hs : RegInv s) :
    SourcesIn s.used (s.used.filter (fun o => isSourceKind (s.ops o).body.kind)) s where
  pool := hs.pool
  base := fun _ ho => ho
  source := fun o ho => by simpa using ho
  tables := fun e he => by simpa using hs.sources e he
  queries := hs.queries
  default := by simpa using hs.default

theorem SourcesIn.regInv {B S : List OpId} (hs : SourcesIn B S s) : RegInv s where
  pool := hs.pool
  sources := fun e he =>
    have h := hs.source e.2 (hs.tables e he)
    ⟨hs.base _ h.1,h.2⟩
  queries := fun e he => ⟨hs.base _ (hs.queries e he).1,(hs.queries e he).2⟩
  default := have h := hs.source _ hs.default; ⟨hs.base _ h.1,h.2⟩

/-- The frame within a call with respect to the operators in use when the program starts. -/
theorem Framed.of_registers {m : M α} {Q : α → PlanState → Prop}
    (h : ∀ B S, Registers B S P m (fun _ _ => True)) (hQ : ∀ s, RegInv s → P s → ∀ a t, m s = .ok a t → Q a t) :
    Framed RegInv Later P m Q := by
  intro s hs hP
  obtain ⟨h1,h2,-⟩ := h _ _ s hs.sourcesIn hP
  exact ⟨h1.regInv,h2,fun a t he => hQ s hs hP a t he⟩

theorem newOp_init (mem : OpId → Operator) (body : Body) :
    ∃ s, newOp body (PlanState.init mem) = .ok ⟨0,maxOps_pos⟩ s := by
  have hnext : (PlanState.init mem).links.next ⟨0,maxOps_pos⟩ = some ⟨1,by unfold MAX_OPS; decide⟩ :=
    dif_pos (by unfold MAX_OPS; decide)
  have hfree : (PlanState.init mem).freeOps = some ⟨0,maxOps_pos⟩ := rfl
  simp only [newOp, bind, EStateM.bind, get_apply, hfree, hnext, set_apply, pure,
    EStateM.pure]
  exact ⟨_,rfl⟩

theorem newPlanManager_eq (mem : OpId → Operator) : ∃ s, NewOp .ssGen ⟨0,maxOps_pos⟩ (PlanState.init mem) s ∧
    newPlanManager mem = { s.setOp ⟨0,maxOps_pos⟩ { s.ops ⟨0,maxOps_pos⟩ with
      attrs := SysStream.SS_COLUMNS, bStream := true, queryClassId := 1 } with
      sourceOps := s.sourceOps ++ [(SysStream.SS_ID,⟨0,maxOps_pos⟩)] } := by
  obtain ⟨s,hs⟩ := newOp_init mem .ssGen
  refine ⟨s,newOp_ok (init_poolInv mem).1 hs,?_⟩
  unfold newPlanManager createSSGen
  rw [bind_of_ok hs]
  rfl

/-- The plan manager starts with the generator of the system stream. -/
theorem newPlanManager_started (mem : OpId → Operator) :
    PoolInv (newPlanManager mem) ∧ (newPlanManager mem).used = [⟨0,maxOps_pos⟩] ∧
      (newPlanManager mem).ops ⟨0,maxOps_pos⟩ = ⟨1,.ssGen,SysStream.SS_COLUMNS,true,[],[]⟩ ∧
      (newPlanManager mem).sourceOps = [(SysStream.SS_ID,⟨0,maxOps_pos⟩)] ∧
      (newPlanManager mem).queryOutOps = [] := by
  obtain ⟨s,hnew,hrun⟩ := newPlanManager_eq mem
  have htab : s.sourceOps = [] := congrArg Tables.sourceOps hnew.tables
  have hqry : s.queryOutOps = [] := congrArg Tables.queryOutOps hnew.tables
  rw [hrun]
  refine ⟨⟨hnew.inv.1,hnew.inv.2,hnew.inv.3⟩,?_,?_,?_,hqry⟩
  · rw [← (init_poolInv mem).2.1]
    exact hnew.used
  · simp only [setOp_ops_self, hnew.self]
  · simp [htab]

/-- What holds after `op` has been created in `s` while its fields are set and it is registered as a source. -/
structure AfterNew (s : PlanState) (op : OpId) (body : Body) (t : PlanState) : Prop where
  pool : PoolInv t
  used : t.used = op :: s.used
  new : op ∉ s.used
  body : (t.ops op).body = body
  other : ∀ o, o ≠ op → t.ops o = s.ops o
  sources : ∀ e ∈ t.sourceOps, e ∈ s.sourceOps ∨ e.2 = op
  queries : t.queryOutOps = s.queryOutOps

variable {op : OpId} {body : Body}

theorem NewOp.afterNew (h : NewOp body op s t) (hs : PoolInv s) : AfterNew s op body t where
  pool := h.inv
  used := h.used
  new := h.not_mem hs
  body := by rw [h.self]
  other := h.other
  sources := fun e he => .inl (by
    have htab : t.sourceOps = s.sourceOps := congrArg Tables.sourceOps h.tables
    rwa [htab] at he)
  queries := congrArg Tables.queryOutOps h.tables

theorem AfterNew.regInv (h : AfterNew s op body t) (hs : RegInv s) (hb : isSourceKind body.kind) :
    RegInv t ∧ Later s t := by
  have hne (o : OpId) (ho : o ∈ s.used) : t.ops o = s.ops o := h.other o fun he => h.new (he ▸ ho)
  have hsub (o : OpId) (ho : o ∈ s.used) : o ∈ t.used := h.used ▸ List.mem_cons_of_mem _ ho
  refine ⟨⟨h.pool,fun e he => ?_,fun e he => ?_,⟨hsub _ hs.default.1,by rw [hne _ hs.default.1]; exact hs.default.2⟩⟩,
    ⟨hsub,fun o ho => ⟨(s.ops o).queryClassId,[],by rw [hne o ho]; simp,by simp⟩⟩⟩
  · rcases h.sources e he with he | rfl
    · obtain ⟨h1,h2⟩ := hs.sources e he
      exact ⟨hsub _ h1,by rw [hne _ h1]; exact h2⟩
    · exact ⟨h.used ▸ List.mem_cons_self,by rw [h.body]; exact hb⟩
  · rw [h.queries] at he
    obtain ⟨h1,h2⟩ := hs.queries e he
    exact ⟨hsub _ h1,by rw [hne _ h1]; exact h2⟩

theorem afterNew_modifyOp {f : Operator → Operator} (hf : ∀ o, (f o).body = o.body) :
    Framed (AfterNew s op body) (fun _ _ => True) P (modifyOp op f) (fun _ _ => True) := by
  refine framed_modify fun t ht _ => ⟨⟨ht.pool.setOp _ _,ht.used,ht.new,?_,fun o ho => ?_,ht.sources,ht.queries⟩,trivial⟩
  · rw [setOp_ops_self, hf]
    exact ht.body
  · rw [setOp_ops_of_ne _ ho]
    exact ht.other o ho

theorem framed_read {Q : PlanState → PlanState → Prop} {I : PlanState → Prop} {R : PlanState → PlanState → Prop}
    (hR : ∀ s, R s s) (h : ∀ s, I s → P s → Q s s) : Framed I R P (get : M PlanState) Q := by
  intro s hs hP
  refine ⟨hs,hR s,fun a t he => ?_⟩
  obtain ⟨rfl,rfl⟩ := get_eq_ok.mp he
  exact h s hs hP

/-- Creating a source and then changing nothing but it and its registration. -/
theorem framed_newSource {tail : OpId → M Unit} (hb : isSourceKind body.kind)
    (h : ∀ s op, Framed (AfterNew s op body) (fun _ _ => True) (fun _ => True) (tail op) (fun _ _ => True)) :
    Framed RegInv Later P (newOp body >>= tail) (fun _ _ => True) := by
  intro s hs _
  cases hn : newOp body s with
  | error e t =>
    rw [bind_of_error hn]
    obtain rfl := newOp_error hn
    exact ⟨hs,Later.refl _,fun _ _ _ => trivial⟩
  | ok op t =>
    rw [bind_of_ok hn]
    have hafter := (h s op t ((newOp_ok hs.pool hn).afterNew hs.pool) trivial).1
    obtain ⟨h1,h2⟩ := hafter.regInv hs hb
    exact ⟨h1,h2,fun _ _ _ => trivial⟩

/-- One of the steps that complete a new source, and the others. -/
theorem AfterNew.step {m : M α} {f : α → M Unit}
    (hm : Framed (AfterNew s op body) (fun _ _ => True) (fun _ => True) m (fun _ _ => True))
    (hf : ∀ a, Framed (AfterNew s op body) (fun _ _ => True) (fun _ => True) (f a) (fun _ _ => True)) :
    Framed (AfterNew s op body) (fun _ _ => True) (fun _ => True) (m >>= f) (fun _ _ => True) :=
  hm.bind (fun _ _ _ _ _ => trivial) hf

theorem afterNew_failIf {c : Prop} [Decidable c] {e : Failure} :
    Framed (AfterNew s op body) (fun _ _ => True) P (failIf c e) (fun _ _ => True) :=
  (framed_failIf fun _ => trivial).weaken (fun _ _ h => h) fun _ _ _ _ => trivial

theorem afterNew_read : Framed (AfterNew s op body) (fun _ _ => True) P (get : M PlanState) (fun _ _ => True) :=
  framed_read (fun _ => trivial) fun _ _ _ => trivial

theorem framed_addBaseTable (tableMgr : TableManager) (tableId : ℕ) :
    Framed RegInv Later (fun _ => True) (addBaseTable tableMgr tableId) (fun _ _ => True) := by
  refine Framed.bind Later.trans (framed_read (Q := fun _ _ => True) Later.refl fun _ _ _ => trivial) fun s₀ => ?_
  refine framed_newSource (by cases tableMgr.isStream tableId <;> rfl) fun s op => ?_
  refine AfterNew.step (afterNew_modifyOp fun _ => rfl) fun _ => AfterNew.step afterNew_failIf fun _ => ?_
  refine AfterNew.step (afterNew_modifyOp fun _ => rfl) fun _ => AfterNew.step afterNew_read fun _ => ?_
  refine AfterNew.step afterNew_failIf fun _ => AfterNew.step (framed_modify fun t ht _ => ?_) fun _ => ?_
  · exact ⟨⟨⟨ht.pool.1,ht.pool.2,ht.pool.3⟩,ht.used,ht.new,ht.body,ht.other,ht.sources,ht.queries⟩,trivial⟩
  refine AfterNew.step afterNew_read fun _ => AfterNew.step afterNew_failIf fun _ => framed_modify fun t ht _ => ?_
  refine ⟨⟨⟨ht.pool.1,ht.pool.2,ht.pool.3⟩,ht.used,ht.new,ht.body,ht.other,fun e he => ?_,ht.queries⟩,trivial⟩
  rcases List.mem_append.mp he with he | he
  · exact ht.sources e he
  · exact .inr (by rw [List.mem_singleton.mp he])

theorem framed_registerQuery (queryId : ℕ) (querySource : OpId) :
    Framed RegInv Later (fun s => querySource ∈ s.used ∧ (s.ops querySource).body.kind = .querySource)
      (modify (fun s => { s with queryOutOps := s.queryOutOps ++ [(queryId,querySource)] }) : M Unit)
      (fun _ _ => True) := by
  refine framed_modify fun s hs hq => ⟨⟨⟨hs.pool.1,hs.pool.2,hs.pool.3⟩,hs.sources,fun e he => ?_,hs.default⟩,
    Later.of_same rfl rfl⟩
  rcases List.mem_append.mp he with he | he
  · exact hs.queries e he
  · rw [List.mem_singleton.mp he]
    exact hq

/-- Registers the query source of a plan, and creates the output on top of the plan. -/
def completeQuery (queryId : ℕ) (output : Bool) (phyPlan querySource : OpId) : M Unit := do
  failIf ((← get).queryOutOps.length ≥ MAX_QUERIES) (.code (-1))
  modify (fun s => { s with queryOutOps := s.queryOutOps ++ [(queryId,querySource)] })
  if output then
    failIf ((← get).numOutputs ≥ MAX_OUTPUT) (.code (-1))
    let outputOp ← mkOutput phyPlan
    let outputId := (← get).numOutputs
    modifyOp outputOp (fun o => { o with body := .output outputId queryId })
    modify (fun s => { s with numOutputs := s.numOutputs + 1 })
    addQueryClasses (MAX_OPS + 1) outputOp

theorem addLogicalQueryPlan_eq (u : Uninit) (queryId : ℕ) (logPlan : Logical.Plan) (output : Bool) :
    addLogicalQueryPlan u queryId logPlan output =
      genPhysicalPlan u logPlan >>= fun phyPlan => mkQrySrc phyPlan >>= completeQuery queryId output phyPlan := rfl

theorem framed_genPhysicalPlan (u : Uninit) (logPlan : Logical.Plan) :
    Framed RegInv Later (fun _ => True) (genPhysicalPlan u logPlan) (fun o s => o ∈ s.used) := by
  intro s hs hP
  obtain ⟨h1,h2,h3⟩ := registers_genPhysicalPlan u logPlan s hs.sourcesIn hP
  refine ⟨h1.regInv,h2,fun o t he => ?_⟩
  rw [he] at h1
  rcases h3 o t he with h | h
  · exact h.1
  · exact h1.base o (h1.source o h).1

theorem framed_mkQrySrc (phyPlan : OpId) : Framed RegInv Later (fun s => phyPlan ∈ s.used) (mkQrySrc phyPlan)
    (fun o s => o ∈ s.used ∧ (s.ops o).body.kind = .querySource) := by
  refine Framed.of_registers (fun B S => (registers_mkUnary _ _ _).weaken (fun _ _ h => h) fun _ _ _ _ => trivial) ?_
  intro s hs hmem o t h
  have hadd := mkUnary_ok hs.pool hmem h
  exact ⟨hadd.used ▸ List.mem_cons_self,by rw [hadd.self]; rfl⟩

theorem framed_completeQuery (queryId : ℕ) (output : Bool) (phyPlan querySource : OpId) :
    Framed RegInv Later (fun s => querySource ∈ s.used ∧ (s.ops querySource).body.kind = .querySource)
      (completeQuery queryId output phyPlan querySource) (fun _ _ => True) := by
  refine Framed.bind Later.trans (framed_read (Q := fun _ s => querySource ∈ s.used ∧
    (s.ops querySource).body.kind = .querySource) Later.refl fun _ _ h => h) fun s₀ => ?_
  refine Framed.bind Later.trans (framed_failIf Later.refl) fun _ => ?_
  refine ((framed_registerQuery queryId querySource).weaken (fun _ _ h => h.1) fun _ _ _ h => h).bind Later.trans
    fun _ => ?_
  split
  · refine Framed.of_registers (fun B S => ?_) fun _ _ _ _ _ _ => trivial
    refine Registers.bind (Q := fun _ _ => True) (framed_read Grown.refl fun _ _ _ => trivial) fun _ => ?_
    refine registers_failIf_any.bind fun _ => ?_
    refine (registers_mkUnary (.output 0 0) (fun b => b) phyPlan).bind fun outputOp => ?_
    refine Registers.skip (framed_read Grown.refl fun _ _ _ => trivial) fun s₁ => ?_
    refine registers_modifyFresh.bind fun _ => ?_
    refine Registers.bind (Q := fun _ _ => True) (Registers.of_counters fun s => ⟨rfl,rfl,rfl,rfl,rfl,rfl⟩) fun _ => ?_
    exact registers_addQueryClasses _ _
  · exact framed_pure Later.refl fun _ _ _ => trivial

theorem framed_addLogicalQueryPlan (u : Uninit) (queryId : ℕ) (logPlan : Logical.Plan) (output : Bool) :
    Framed RegInv Later (fun _ => True) (addLogicalQueryPlan u queryId logPlan output) (fun _ _ => True) := by
  rw [addLogicalQueryPlan_eq]
  refine (framed_genPhysicalPlan u logPlan).bind Later.trans fun phyPlan => ?_
  exact (framed_mkQrySrc phyPlan).bind Later.trans fun querySource => framed_completeQuery _ _ _ _

theorem framed_map (tableMgr : TableManager) (queryId tableId : ℕ) :
    Framed RegInv Later (fun _ => True) (map tableMgr queryId tableId) (fun _ _ => True) := by
  refine Framed.bind Later.trans (framed_read (Q := fun a s => a = s) Later.refl fun _ _ _ => rfl) fun s₀ => ?_
  cases h : s₀.queryOutOps.find? (fun e => e.1 == queryId) with
  | none => exact framed_throw Later.refl
  | some e =>
    refine (framed_failIf Later.refl).bind Later.trans fun _ => (framed_failIf Later.refl).bind Later.trans fun _ => ?_
    intro s hs hs₀
    obtain rfl := hs₀.1.1
    obtain ⟨hused,hkind⟩ := hs.queries e (List.mem_of_find?_eq_some h)
    refine ⟨⟨⟨hs.pool.1,hs.pool.2,hs.pool.3⟩,fun e' he => ?_,hs.queries,hs.default⟩,Later.of_same rfl rfl,fun _ _ _ => trivial⟩
    rcases List.mem_append.mp he with he | he
    · exact hs.sources e' he
    · rw [List.mem_singleton.mp he]
      exact ⟨hused,by show isSourceKind (s₀.ops e.2).body.kind; rw [hkind]; rfl⟩

theorem framed_call (c : Call) : Framed RegInv Later (fun _ => True) c.run (fun _ _ => True) := by
  cases c with
  | addBaseTable tableMgr tableId => exact framed_addBaseTable tableMgr tableId
  | addLogicalQueryPlan u queryId logPlan output => exact framed_addLogicalQueryPlan u queryId logPlan output
  | map tableMgr queryId tableId => exact framed_map tableMgr queryId tableId
  | setQueryClass queryClass =>
    exact Framed.of_registers (fun B S => Registers.of_counters fun s => ⟨rfl,rfl,rfl,rfl,rfl,rfl⟩)
      fun _ _ _ _ _ _ => trivial

theorem newPlanManager_regInv (mem : OpId → Operator) : RegInv (newPlanManager mem) := by
  obtain ⟨hpool,hused,hop,hsrc,hqry⟩ := newPlanManager_started mem
  have hkind : ((newPlanManager mem).ops ⟨0,maxOps_pos⟩).body = .ssGen := by rw [hop]
  have hmem : ⟨0,maxOps_pos⟩ ∈ (newPlanManager mem).used ∧
      isSourceKind ((newPlanManager mem).ops ⟨0,maxOps_pos⟩).body.kind := by
    rw [hused, hkind]
    exact ⟨List.mem_singleton_self _,rfl⟩
  refine ⟨hpool,fun e he => ?_,fun e he => ?_,hmem⟩
  · rw [hsrc] at he
    rw [List.mem_singleton.mp he]
    exact hmem
  · rw [hqry] at he
    simp at he

theorem reachable_regInv {mem : OpId → Operator} (h : Reachable mem s) : RegInv s := by
  induction h with
  | start => exact newPlanManager_regInv mem
  | call _ c ih => exact (framed_call c _ ih trivial).1

/-- A successful registration of a query changes nothing of what earlier queries compute:
the operators in use keep everything but their query class and their outputs, and their
outputs get only operators that the call has created. -/
theorem addLogicalQueryPlan_keeps_earlier {mem : OpId → Operator} {s t : PlanState} (hs : Reachable mem s)
    (u : Uninit) (queryId : ℕ) (logPlan : Logical.Plan) (output : Bool)
    (h : addLogicalQueryPlan u queryId logPlan output s = .ok () t) (o : OpId) (ho : o ∈ s.used) :
    o ∈ t.used ∧ (t.ops o).body = (s.ops o).body ∧ (t.ops o).attrs = (s.ops o).attrs ∧
      (t.ops o).bStream = (s.ops o).bStream ∧ (t.ops o).inputs = (s.ops o).inputs ∧
      ∃ created, (t.ops o).outputs = (s.ops o).outputs ++ created ∧ ∀ x ∈ created, x ∈ t.used ∧ x ∉ s.used := by
  have hframe := (framed_addLogicalQueryPlan u queryId logPlan output s (reachable_regInv hs) trivial).2.1
  rw [h] at hframe
  obtain ⟨qc,ext,hop,hext⟩ := hframe.old o ho
  have hop' : t.ops o = { s.ops o with queryClassId := qc, outputs := (s.ops o).outputs ++ ext } := hop
  rw [hop']
  exact ⟨hframe.used o ho,rfl,rfl,rfl,rfl,ext,rfl,hext⟩

def blankMemory : OpId → Operator := fun _ => ⟨0,.sink,[],false,[],[]⟩
def blankUninit : Uninit := ⟨fun _ => ⟨0,0⟩,(.int,INT_SIZE)⟩

def positiveRows (tableId : ℕ) : Logical.Plan :=
  .node (.select ⟨.gt,.attrRef .int (.named 0 tableId 0),.constVal (.int 0)⟩) [.named 0 tableId 0] true
    [.node (.streamSource 0 tableId) [.named 0 tableId 0] true []]

def oneAttrTables : TableManager :=
  ⟨[⟨['D'],true,[⟨['a'],.int,4⟩]⟩,⟨['S'],true,[⟨['a'],.int,4⟩]⟩,⟨['V'],true,[⟨['a'],.int,4⟩]⟩]⟩

def viewOfStream : PlanState :=
  let s₁ := finalState ((Call.addBaseTable oneAttrTables 1).run (newPlanManager blankMemory))
  let s₂ := finalState ((Call.addLogicalQueryPlan blankUninit 0 (positiveRows 1) true).run s₁)
  finalState ((Call.map oneAttrTables 0 2).run s₂)

/-- A select over the view leaves the view's select alone. -/
theorem select_over_view_keeps_earlier : ∃ t,
    addLogicalQueryPlan blankUninit 1 (positiveRows 2) true viewOfStream = .ok () t ∧
    ∀ o ∈ viewOfStream.used, o ∈ t.used ∧ (t.ops o).body = (viewOfStream.ops o).body := by
  have hreach : Reachable blankMemory viewOfStream := ((Reachable.start.call _).call _).call _
  obtain ⟨_,t,h⟩ := exists_of_returns
    (r := addLogicalQueryPlan blankUninit 1 (positiveRows 2) true viewOfStream) (by decide +kernel)
  refine ⟨t,h,fun o ho => ?_⟩
  have hkeep := addLogicalQueryPlan_keeps_earlier hreach blankUninit 1 (positiveRows 2) true h o ho
  exact ⟨hkeep.1,hkeep.2.1⟩

end AqsiosCoordinator.Physical
