import AqsiosCoordinator.Metadata.MadeOperators

/-! # Registration leaves earlier operators alone

`B` are the operators in use when a call begins and `S` those of them that a table
can resolve to. Whatever the call does, and also when it fails, an operator of `B`
only gets new readers. A select is completed in place, but never one of `B`: what a
plan resolves to is new or in `S`, and no operator of `S` is a select.
-/
namespace AqsiosCoordinator.Physical
open Common Foundation Foundation.Outcome

def isSourceKind (k : OperatorKind) : Bool := k = .ssGen || k = .streamSource || k = .relnSource || k = .querySource

structure SourcesIn (B S : List OpId) (s : PlanState) : Prop where
  pool : PoolInv s
  base : ∀ o ∈ B, o ∈ s.used
  source : ∀ o ∈ S, o ∈ B ∧ isSourceKind (s.ops o).body.kind
  tables : ∀ e ∈ s.sourceOps, e.2 ∈ S
  queries : ∀ e ∈ s.queryOutOps, e.2 ∈ B ∧ (s.ops e.2).body.kind = .querySource
  default : ⟨0,maxOps_pos⟩ ∈ S

/-- The operators of `B` have only got another query class and new readers. -/
structure Grown (B : List OpId) (s t : PlanState) : Prop where
  used : ∀ o ∈ s.used, o ∈ t.used
  old : ∀ o ∈ B, ∃ qc ext, t.ops o = { s.ops o with queryClassId := qc, outputs := (s.ops o).outputs ++ ext } ∧
    ∀ x ∈ ext, x ∈ t.used ∧ x ∉ B

variable {B S : List OpId} {s t u : PlanState}

theorem Grown.refl (s : PlanState) : Grown B s s :=
  ⟨fun _ h => h,fun o _ => ⟨(s.ops o).queryClassId,[],by simp,by simp⟩⟩

theorem Grown.trans (s t u : PlanState) (h : Grown B s t) (h' : Grown B t u) : Grown B s u := by
  refine ⟨fun o ho => h'.used o (h.used o ho),fun o ho => ?_⟩
  obtain ⟨qc,ext,h1,h2⟩ := h.old o ho
  obtain ⟨qc',ext',h3,h4⟩ := h'.old o ho
  refine ⟨qc',ext ++ ext',by rw [h3, h1]; simp,fun x hx => ?_⟩
  rcases List.mem_append.mp hx with hx | hx
  · exact ⟨h'.used x (h2 x hx).1,(h2 x hx).2⟩
  · exact h4 x hx

def Fresh (B : List OpId) (o : OpId) (s : PlanState) : Prop := o ∈ s.used ∧ o ∉ B

def Resolved (B S : List OpId) (o : OpId) (s : PlanState) : Prop := Fresh B o s ∨ o ∈ S

theorem stable_fresh (o : OpId) : Stable (SourcesIn B S) (Grown B) (Fresh B o) :=
  fun _ _ _ _ hg h => ⟨hg.used o h.1,h.2⟩

theorem stable_resolved (o : OpId) : Stable (SourcesIn B S) (Grown B) (Resolved B S o) := by
  intro s t hs ht hg h
  rcases h with h | h
  · exact .inl (stable_fresh o s t hs ht hg h)
  · exact .inr h

/-- The frame of a registration call on a program with precondition `P`. -/
abbrev Registers (B S : List OpId) {α : Type} (P : PlanState → Prop) (m : M α) (Q : α → PlanState → Prop) : Prop :=
  Framed (SourcesIn B S) (Grown B) P m Q

variable {α β : Type} {P : PlanState → Prop}

theorem Registers.bind {m : M α} {f : α → M β} {Q : α → PlanState → Prop} {Q' : β → PlanState → Prop}
    (hm : Registers B S P m Q) (hf : ∀ a, Registers B S (Q a) (f a) Q') : Registers B S P (m >>= f) Q' :=
  Framed.bind Grown.trans hm hf

/-- Sequencing that keeps a stable precondition. -/
theorem Registers.seq {m : M α} {f : α → M β} {Q : α → PlanState → Prop} {Q' : β → PlanState → Prop}
    (hP : Stable (SourcesIn B S) (Grown B) P) (hm : Registers B S P m Q)
    (hf : ∀ a, Registers B S (fun s => P s ∧ Q a s) (f a) Q') : Registers B S P (m >>= f) Q' :=
  Framed.bind Grown.trans (hm.keep hP) hf

theorem registers_return {a : α} {Q : α → PlanState → Prop} (h : ∀ s, SourcesIn B S s → P s → Q a s) :
    Registers B S P (pure a) Q := framed_pure Grown.refl h

theorem registers_throw {e : Failure} {Q : α → PlanState → Prop} : Registers B S P (throw e : M α) Q :=
  framed_throw Grown.refl

theorem registers_failIf {c : Prop} [Decidable c] {e : Failure} :
    Registers B S P (failIf c e) (fun _ s => P s ∧ ¬ c) := framed_failIf Grown.refl

theorem registers_getOp (o : OpId) : Registers B S P (getOp o) (fun x s => P s ∧ x = s.ops o) :=
  framed_get (f := fun s => s.ops o) Grown.refl

/-- Changes of the state that concern neither the pool nor the tables' sources. -/
theorem SourcesIn.of_same (hs : SourcesIn B S s) (hl : t.links = s.links) (hu : t.usedOps = s.usedOps)
    (hf : t.freeOps = s.freeOps) (ho : t.sourceOps = s.sourceOps) (hq : t.queryOutOps = s.queryOutOps)
    (hk : ∀ o ∈ B, (t.ops o).body.kind = (s.ops o).body.kind) : SourcesIn B S t := by
  have hused : t.used = s.used := by simp only [PlanState.used, hl, hu]
  have hfree : t.free = s.free := by simp only [PlanState.free, hl, hf]
  refine ⟨⟨?_,?_,?_⟩,?_,?_,?_,?_,hs.default⟩
  · rw [hused, hl, hu]; exact hs.pool.usedList
  · rw [hfree, hl, hf]; exact hs.pool.freeList
  · rw [hused, hfree]; exact hs.pool.disjoint
  · rw [hused]; exact hs.base
  · intro o hoS
    obtain ⟨h1,h2⟩ := hs.source o hoS
    exact ⟨h1,by rw [hk o h1]; exact h2⟩
  · rw [ho]; exact hs.tables
  · rw [hq]
    intro e he
    obtain ⟨h1,h2⟩ := hs.queries e he
    exact ⟨h1,by rw [hk e.2 h1]; exact h2⟩

theorem registers_newOp (body : Body) : Registers B S P (newOp body) (fun op s => Fresh B op s) := by
  refine Framed.of_final (fun s hs _ op t h => ?_) fun s hs _ e t h => ?_
  · have hn := newOp_ok hs.pool h
    have hB : ∀ o ∈ B, o ≠ op := fun o ho he => hn.not_mem hs.pool (he ▸ hs.base o ho)
    have hsub : ∀ o ∈ s.used, o ∈ t.used := fun o ho => hn.used ▸ List.mem_cons_of_mem _ ho
    have htab : t.sourceOps = s.sourceOps := congrArg Tables.sourceOps hn.tables
    have hqry : t.queryOutOps = s.queryOutOps := congrArg Tables.queryOutOps hn.tables
    refine ⟨⟨hn.inv,fun o ho => hsub o (hs.base o ho),?_,htab ▸ hs.tables,?_,hs.default⟩,⟨hsub,?_⟩,?_,?_⟩
    · intro o ho
      obtain ⟨h1,h2⟩ := hs.source o ho
      exact ⟨h1,by rw [hn.other o (hB o h1)]; exact h2⟩
    · rw [hqry]
      intro e he
      obtain ⟨h1,h2⟩ := hs.queries e he
      exact ⟨h1,by rw [hn.other e.2 (hB e.2 h1)]; exact h2⟩
    · intro o ho
      exact ⟨(s.ops o).queryClassId,[],by rw [hn.other o (hB o ho)]; simp,by simp⟩
    · exact hn.used ▸ List.mem_cons_self
    · exact fun ho => hB op ho rfl
  · rw [newOp_error h]
    exact ⟨hs,Grown.refl s⟩

theorem registers_modifyFresh {op : OpId} {f : Operator → Operator} :
    Registers B S (Fresh B op) (modifyOp op f) (fun _ _ => True) := by
  refine framed_modify fun s hs hop => ?_
  have hB : ∀ o ∈ B, (s.setOp op (f (s.ops op))).ops o = s.ops o :=
    fun o ho => setOp_ops_of_ne _ fun he => hop.2 (he ▸ ho)
  refine ⟨hs.of_same rfl rfl rfl rfl rfl fun o ho => by rw [hB o ho],⟨fun o ho => ho,fun o ho => ?_⟩⟩
  exact ⟨(s.ops o).queryClassId,[],by rw [hB o ho]; simp,by simp⟩

theorem registers_addOutput (child parent : OpId) :
    Registers B S (Fresh B parent) (addOutput child parent) (fun _ _ => True) := by
  refine (registers_getOp child).bind fun c => registers_failIf.bind fun _ => framed_modify fun s hs hop => ?_
  have hself (o : OpId) : (s.setOp child { s.ops child with outputs := (s.ops child).outputs ++ [parent] }).ops o =
      { s.ops o with outputs := (s.ops o).outputs ++ if o = child then [parent] else [] } := by
    by_cases ho : o = child
    · subst ho; simp
    · rw [setOp_ops_of_ne _ ho]; simp [ho]
  refine ⟨hs.of_same rfl rfl rfl rfl rfl fun o _ => by rw [hself o],⟨fun o ho => ho,fun o _ => ?_⟩⟩
  refine ⟨(s.ops o).queryClassId,if o = child then [parent] else [],by rw [hself o],fun x hx => ?_⟩
  split at hx
  · obtain rfl := List.mem_singleton.mp hx
    exact hop.1.1
  · simp at hx

/-- Changes of the counters and of nothing else. -/
theorem Registers.of_counters {m : M α}
    (h : ∀ s, (finalState (m s)).ops = s.ops ∧ (finalState (m s)).links = s.links ∧
      (finalState (m s)).usedOps = s.usedOps ∧ (finalState (m s)).freeOps = s.freeOps ∧
      (finalState (m s)).sourceOps = s.sourceOps ∧ (finalState (m s)).queryOutOps = s.queryOutOps) : Registers B S P m (fun _ _ => True) := by
  intro s hs _
  obtain ⟨h1,h2,h3,h4,h5,h6⟩ := h s
  refine ⟨hs.of_same h2 h3 h4 h5 h6 fun o _ => by rw [h1],⟨fun o ho => ?_,fun o _ => ?_⟩,fun _ _ _ => trivial⟩
  · simpa only [PlanState.used, h2, h3] using ho
  · exact ⟨(s.ops o).queryClassId,[],by rw [h1]; simp,by simp⟩

theorem registers_newExprs (n : ℕ) : Registers B S P (newExprs n) (fun _ _ => True) := by
  refine Registers.of_counters fun s => ?_
  by_cases h : s.numExprs + n > MAX_EXPRS <;>
    simp [newExprs,failIf,h,bind,EStateM.bind,get_apply,set_apply,throw_apply,pure,EStateM.pure]

theorem registers_newBExpr : Registers B S P newBExpr (fun _ _ => True) := by
  refine Registers.of_counters fun s => ?_
  by_cases h : s.numBExprs ≥ MAX_EXPRS <;>
    simp [newBExpr,failIf,h,bind,EStateM.bind,get_apply,set_apply,throw_apply,pure,EStateM.pure]

theorem registers_transformExpr (u : Uninit) (schemas : List (List Logical.Attr)) (e : Logical.Expr) :
    Registers B S P (transformExpr u schemas e) (fun _ _ => True) :=
  (registers_newExprs _).bind fun _ => registers_return fun _ _ _ => trivial

theorem registers_transformBExpr (u : Uninit) (schemas : List (List Logical.Attr)) (b : Logical.BExpr) :
    Registers B S P (transformBExpr u schemas b) (fun _ _ => True) :=
  (registers_newExprs _).bind fun _ => registers_newBExpr.bind fun _ => registers_return fun _ _ _ => trivial

theorem registers_mapM (f : α → M β) (l : List α) (h : ∀ a, Registers B S (fun _ => True) (f a) (fun _ _ => True)) :
    Registers B S (fun _ => True) (l.mapM f) (fun _ _ => True) := by
  induction l with
  | nil =>
    rw [List.mapM_nil]
    exact registers_return fun _ _ _ => trivial
  | cons a l ih =>
    rw [List.mapM_cons]
    exact (h a).bind fun _ => ih.bind fun _ => registers_return fun _ _ _ => trivial

theorem registers_addOutputs (children : List OpId) (parent : OpId) :
    Registers B S (Fresh B parent) (addOutputs children parent) (fun _ _ => True) := by
  induction children with
  | nil => exact registers_return fun _ _ _ => trivial
  | cons c cs ih =>
    exact Registers.seq (stable_fresh parent) (registers_addOutput c parent) fun _ => ih.weaken (fun _ _ h => h.1) fun _ _ _ => id

theorem registers_connect (op : OpId) (body : Body) (attrs : List Column) (bStream : Bool) (inputs : List OpId) :
    Registers B S (Fresh B op) (connect op body attrs bStream inputs) (fun _ => Fresh B op) := by
  refine Registers.seq (stable_fresh op) registers_modifyFresh fun _ => ?_
  refine ((registers_addOutputs inputs op).keep (stable_fresh op)).weaken (fun _ _ h => h.1) fun _ _ _ h => h.1

theorem registers_phyChild (children : List OpId) (i : ℕ) :
    Registers B S P (phyChild children i) (fun c s => P s ∧ c ∈ children) := by
  unfold phyChild
  cases h : children[i]? with
  | none => exact registers_throw
  | some c => exact registers_return fun s _ hP => ⟨hP,List.mem_of_getElem? h⟩

/-- Everything between the allocation of an operator and its completion. -/
theorem Registers.skip {op : OpId} {m : M α} {f : α → M β} {Q : β → PlanState → Prop}
    (hm : Registers B S (fun _ => True) m (fun _ _ => True)) (hf : ∀ a, Registers B S (Fresh B op) (f a) Q) :
    Registers B S (Fresh B op) (m >>= f) Q := by
  refine Registers.seq (stable_fresh op) (hm.weaken (fun _ _ _ => trivial) fun _ _ _ h => h) fun a => ?_
  exact (hf a).weaken (fun _ _ h => h.1) fun _ _ _ h => h

theorem registers_complete (op : OpId) (body : Body) (attrs : List Column) (bStream : Bool) (inputs : List OpId) :
    Registers B S (Fresh B op) (do connect op body attrs bStream inputs; return op) (Fresh B) :=
  (registers_connect op body attrs bStream inputs).bind fun _ => registers_return fun _ _ h => h

theorem registers_getOp_any (o : OpId) : Registers B S P (getOp o) (fun _ _ => True) :=
  (registers_getOp o).weaken (fun _ _ h => h) fun _ _ _ _ => trivial

theorem registers_phyChild_any (children : List OpId) (i : ℕ) :
    Registers B S P (phyChild children i) (fun _ _ => True) :=
  (registers_phyChild children i).weaken (fun _ _ h => h) fun _ _ _ _ => trivial

theorem registers_failIf_any {c : Prop} [Decidable c] {e : Failure} :
    Registers B S P (failIf c e) (fun _ _ => True) :=
  registers_failIf.weaken (fun _ _ h => h) fun _ _ _ _ => trivial

/-- The program creates an operator before anything else and completes it. -/
def Begins (B S : List OpId) (m : M OpId) : Prop :=
  ∃ body tail, m = newOp body >>= tail ∧ ∀ op, Registers B S (Fresh B op) (tail op) (Fresh B)

theorem Begins.registers {m : M OpId} (h : Begins B S m) : Registers B S P m (Fresh B) := by
  obtain ⟨body,tail,rfl,htail⟩ := h
  exact (registers_newOp body).bind htail

theorem begins_mkUnary (body : Body) (bStream : Bool → Bool) (child : OpId) : Begins B S (mkUnary body bStream child) := by
  refine ⟨body,_,rfl,fun op => (registers_getOp_any child).skip fun c => ?_⟩
  exact registers_complete op body c.attrs (bStream c.bStream) [child]

theorem begins_mkProject (u : Uninit) (schemas : List (List Logical.Attr)) (projExprs : List Logical.Expr)
    (numOutAttrs : ℕ) (children : List OpId) : Begins B S (mkProject u schemas projExprs numOutAttrs children) := by
  refine ⟨.project [],_,rfl,fun op => ?_⟩
  refine registers_failIf_any.skip fun _ => registers_failIf_any.skip fun _ => ?_
  refine (registers_mapM _ _ fun e => registers_transformExpr u schemas e).skip fun projs => ?_
  refine (registers_phyChild_any children 0).skip fun child => (registers_getOp_any child).skip fun c => ?_
  exact registers_complete op (.project projs) (projs.map (projColumn u c)) c.bStream [child]

theorem begins_mkBinaryJoin (body : ℕ → ℕ → List BExpr → Body) (bStream : Bool → Bool → Bool)
    (children : List OpId) : Begins B S (mkBinaryJoin body bStream children) := by
  refine ⟨body 0 0 [],_,rfl,fun op => ?_⟩
  refine (registers_phyChild_any children 0).skip fun outer => (registers_phyChild_any children 1).skip fun inner => ?_
  refine (registers_getOp_any outer).skip fun o => (registers_getOp_any inner).skip fun i => registers_failIf_any.skip fun _ => ?_
  exact registers_complete op _ _ _ _

theorem begins_mkGroupAggr (u : Uninit) (schemas : List (List Logical.Attr)) (groupAttrs : List Logical.Attr)
    (aggrs : List (AggrFn × Logical.Attr)) (children : List OpId) :
    Begins B S (mkGroupAggr u schemas groupAttrs aggrs children) := by
  refine ⟨.groupAggr [] [],_,rfl,fun op => registers_failIf_any.skip fun _ => ?_⟩
  refine (registers_phyChild_any children 0).skip fun child => (registers_getOp_any child).skip fun c => ?_
  exact registers_complete op _ _ _ _

theorem begins_mkSetOp (body : Body) (bStream : Bool → Bool → Bool) (u : Uninit) (children : List OpId) :
    Begins B S (mkSetOp body bStream u children) := by
  refine ⟨body,_,rfl,fun op => ?_⟩
  refine (registers_phyChild_any children 0).skip fun l => (registers_phyChild_any children 1).skip fun r => ?_
  refine (registers_getOp_any l).skip fun _ => (registers_getOp_any r).skip fun _ => ?_
  exact registers_complete op _ _ _ _

theorem registers_mkUnary (body : Body) (bStream : Bool → Bool) (child : OpId) :
    Registers B S P (mkUnary body bStream child) (Fresh B) :=
  (begins_mkUnary body bStream child).registers

theorem registers_ofChild {f : OpId → M OpId} (children : List OpId)
    (hf : ∀ c, Registers B S (fun _ => True) (f c) (Fresh B)) :
    Registers B S P (do f (← phyChild children 0)) (Fresh B) :=
  (registers_phyChild_any children 0).bind hf

/-- A select that is completed in place is a child, and not in `B`, as sources are no selects. -/
theorem registers_mkSelect (u : Uninit) (schemas : List (List Logical.Attr)) (bexpr : Logical.BExpr)
    (children : List OpId) :
    Registers B S (fun s => ∀ c ∈ children, Resolved B S c s) (mkSelect u schemas bexpr children) (Fresh B) := by
  have hst : Stable (SourcesIn B S) (Grown B) (fun s => ∀ c ∈ children, Resolved B S c s) :=
    fun s t hs ht hg h c hc => stable_resolved c s t hs ht hg (h c hc)
  refine Registers.seq hst (registers_transformBExpr u schemas bexpr) fun pred => ?_
  refine (registers_phyChild children 0).bind fun child => (registers_getOp child).bind fun c => ?_
  cases hbody : c.body with
  | select preds =>
    have hfresh : ∀ s, SourcesIn B S s → (((∀ c ∈ children, Resolved B S c s) ∧ True) ∧ child ∈ children) ∧
        c = s.ops child → Fresh B child s := by
      rintro s hs ⟨⟨⟨hres,-⟩,hmem⟩,rfl⟩
      rcases hres child hmem with h | h
      · exact h
      · have hk := (hs.source child h).2
        rw [hbody] at hk
        simp [Body.kind,isSourceKind] at hk
    refine Registers.bind (Q := fun _ => Fresh B child) ?_ fun _ => registers_return fun _ _ h => h
    exact (registers_modifyFresh.keep (stable_fresh child)).weaken hfresh fun _ _ _ h => h.1
  | _ => exact registers_mkUnary _ _ _

theorem registers_lookup (tableId : ℕ) : Registers B S P (do return lookupSource tableId (← get).sourceOps)
    (Resolved B S) := by
  refine (framed_get (f := fun s => lookupSource tableId s.sourceOps) Grown.refl).weaken (fun _ _ h => h) ?_
  rintro o s hs ⟨-,rfl⟩
  unfold lookupSource
  cases h : s.sourceOps.find? (fun e => e.1 == tableId) with
  | none => exact .inr hs.default
  | some e => exact .inr (hs.tables e (List.mem_of_find?_eq_some h))

theorem registers_mkOperator (u : Uninit) (kind : Logical.Kind) (numOutAttrs : ℕ) (schemas : List (List Logical.Attr))
    (children : List OpId) : Registers B S (fun s => ∀ c ∈ children, Resolved B S c s)
      (mkOperator u kind numOutAttrs schemas children) (Resolved B S) := by
  have hfresh : ∀ (o : OpId) (s : PlanState), SourcesIn B S s → Fresh B o s → Resolved B S o s := fun _ _ _ h => .inl h
  have hunary (body : Body) (bStream : Bool → Bool) : Registers B S (fun s => ∀ c ∈ children, Resolved B S c s)
      (do mkUnary body bStream (← phyChild children 0)) (Resolved B S) :=
    (registers_ofChild children fun c => registers_mkUnary body bStream c).weaken (fun _ _ _ => trivial) hfresh
  cases kind with
  | streamSource varId strId => exact registers_lookup strId
  | relnSource varId relId => exact registers_lookup relId
  | rowWin numRows => exact hunary _ _
  | rangeWin timeUnits => exact hunary _ _
  | nowWin => exact hunary _ _
  | partnWin partnAttrs numRows => exact registers_failIf_any.bind fun _ => (registers_ofChild children fun c =>
      registers_mkUnary _ _ c).weaken (fun _ _ _ => trivial) hfresh
  | select bexpr => exact (registers_mkSelect u schemas bexpr children).weaken (fun _ _ h => h) hfresh
  | project projExprs =>
    exact (begins_mkProject u schemas projExprs numOutAttrs children).registers.weaken (fun _ _ h => h) hfresh
  | cross =>
    simp only [mkOperator, mkJoin]
    split
    · exact registers_throw
    · exact (begins_mkBinaryJoin _ _ children).registers.weaken (fun _ _ h => h) hfresh
  | streamCross =>
    simp only [mkOperator, mkStrJoin]
    split
    · exact registers_throw
    · exact (begins_mkBinaryJoin _ _ children).registers.weaken (fun _ _ h => h) hfresh
  | groupAggr groupAttrs aggrs =>
    exact (begins_mkGroupAggr u schemas groupAttrs aggrs children).registers.weaken (fun _ _ h => h) hfresh
  | distinct => exact hunary _ _
  | istream => exact hunary _ _
  | dstream => exact hunary _ _
  | rstream => exact hunary _ _
  | union =>
    simp only [mkOperator, mkUnion]
    exact (begins_mkSetOp _ _ u children).registers.weaken (fun _ _ h => h) hfresh
  | except =>
    simp only [mkOperator, mkExcept]
    exact (begins_mkSetOp _ _ u children).registers.weaken (fun _ _ h => h) hfresh

mutual

theorem registers_genPhysicalPlan (u : Uninit) :
    (p : Logical.Plan) → Registers B S (fun _ => True) (genPhysicalPlan u p) (Resolved B S)
  | .node kind outAttrs _ inputs => by
    unfold genPhysicalPlan
    exact (registers_genChildPlans u inputs).bind fun children => registers_mkOperator u kind _ _ children

theorem registers_genChildPlans (u : Uninit) : (ps : List Logical.Plan) →
    Registers B S (fun _ => True) (genChildPlans u ps) (fun cs s => ∀ c ∈ cs, Resolved B S c s)
  | [] => by
    unfold genChildPlans
    exact registers_return fun _ _ _ => by simp
  | p :: ps => by
    unfold genChildPlans
    refine (registers_genPhysicalPlan u p).bind fun c => ?_
    refine Registers.seq (stable_resolved c) ((registers_genChildPlans u ps).weaken (fun _ _ _ => trivial)
      fun _ _ _ h => h) fun cs => registers_return ?_
    rintro s hs ⟨hc,hcs⟩ x hx
    rcases List.mem_cons.mp hx with rfl | hx
    · exact hc
    · exact hcs x hx

end

theorem registers_forM {f : OpId → M PUnit} (l : List OpId)
    (h : ∀ o, Registers B S (fun _ => True) (f o) (fun _ _ => True)) :
    Registers B S (fun _ => True) (l.forM f) (fun _ _ => True) := by
  induction l with
  | nil => exact registers_return fun _ _ _ => trivial
  | cons o l ih => exact (h o).bind fun _ => ih

/-- The class of an operator is the one thing of `B` that a call changes. -/
theorem registers_setQueryClass (o : OpId) (qc : ℤ) :
    Registers B S P (modifyOp o (fun x => { x with queryClassId := qc })) (fun _ _ => True) := by
  refine framed_modify fun s hs _ => ?_
  have hself (p : OpId) : ∃ c, (s.setOp o { s.ops o with queryClassId := qc }).ops p = { s.ops p with queryClassId := c } := by
    by_cases hp : p = o
    · subst hp
      exact ⟨qc,setOp_ops_self _ _⟩
    · exact ⟨(s.ops p).queryClassId,setOp_ops_of_ne _ hp⟩
  refine ⟨hs.of_same rfl rfl rfl rfl rfl fun p _ => ?_,⟨fun p hp => hp,fun p _ => ?_⟩⟩
  · obtain ⟨c,hc⟩ := hself p
    rw [hc]
  · obtain ⟨c,hc⟩ := hself p
    exact ⟨c,[],by rw [hc]; simp,by simp⟩

theorem registers_addQueryClasses (fuel : ℕ) (o : OpId) :
    Registers B S (fun _ => True) (addQueryClasses fuel o) (fun _ _ => True) := by
  induction fuel generalizing o with
  | zero => exact registers_throw
  | succ fuel ih =>
    unfold addQueryClasses
    refine (registers_getOp_any o).bind fun x => ?_
    refine Registers.bind (Q := fun _ _ => True) (Registers.of_counters fun s => ⟨rfl,rfl,rfl,rfl,rfl,rfl⟩) fun s => ?_
    dsimp only
    split
    · exact (registers_setQueryClass o _).bind fun _ => registers_forM _ ih
    · exact registers_return fun _ _ _ => trivial

end AqsiosCoordinator.Physical
