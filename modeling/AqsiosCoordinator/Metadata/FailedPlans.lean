import AqsiosCoordinator.Metadata.RegistrationRuns

/-! # What a plan that fails has created

Nothing takes an operator back that `newOp` has handed out. A call that fails leaves
the plan graph alone only when it fails before the first operator is created.
-/
namespace AqsiosCoordinator.Physical
open Common Foundation Foundation.Outcome

structure PlanState.SameGraph (s t : PlanState) : Prop where
  sources : t.sourceOps = s.sourceOps
  queries : t.queryOutOps = s.queryOutOps
  used : t.used = s.used
  edges : ∀ o ∈ s.used, (t.ops o).inputs = (s.ops o).inputs ∧ (t.ops o).outputs = (s.ops o).outputs

variable {s t r : PlanState}

theorem PlanState.SameGraph.refl (s : PlanState) : s.SameGraph s := ⟨rfl,rfl,rfl,fun _ _ => ⟨rfl,rfl⟩⟩

theorem PlanState.SameGraph.trans (s t r : PlanState) (h : s.SameGraph t) (h' : t.SameGraph r) : s.SameGraph r := by
  refine ⟨h'.sources.trans h.sources,h'.queries.trans h.queries,h'.used.trans h.used,fun o ho => ?_⟩
  have hedges := h.edges o ho
  have hedges' := h'.edges o (h.used ▸ ho)
  exact ⟨hedges'.1.trans hedges.1,hedges'.2.trans hedges.2⟩

theorem PlanState.sameButCounters.sameGraph (h : s.sameButCounters t) : s.SameGraph t := by
  obtain ⟨n,m,rfl⟩ := h
  exact ⟨rfl,rfl,rfl,fun _ _ => ⟨rfl,rfl⟩⟩

section Expressions
variable (u : Uninit) (schemas : List (List Logical.Attr))

theorem newExprs_cases (n : ℕ) (s : PlanState) :
    ∃ t, s.sameButCounters t ∧ t.numBExprs = s.numBExprs ∧
      newExprs n s = if s.numExprs + n > MAX_EXPRS then .error (.code (-1)) t else .ok ⟨⟩ t := by
  refine ⟨{ s with numExprs := min (s.numExprs + n) MAX_EXPRS },⟨_,_,rfl⟩,rfl,?_⟩
  unfold newExprs
  rw [bind_of_ok (get_apply s), bind_of_ok (set_apply _ _)]
  split
  · rename_i hfull
    exact failIf_pos hfull
  · rename_i hfits
    exact failIf_neg hfits

/-- A predicate for which there is no room in the pools of expressions. -/
def NoRoom (s : PlanState) (b : Logical.BExpr) : Prop :=
  s.numExprs + (b.left.size + b.right.size) > MAX_EXPRS ∨ s.numBExprs ≥ MAX_EXPRS

theorem transformBExpr_noRoom {b : Logical.BExpr} (h : NoRoom s b) :
    ∃ t, s.sameButCounters t ∧ transformBExpr u schemas b s = .error (.code (-1)) t := by
  obtain ⟨t,hcount,hbexprs,hrun⟩ := newExprs_cases (b.left.size + b.right.size) s
  by_cases hfull : s.numExprs + (b.left.size + b.right.size) > MAX_EXPRS
  · rw [if_pos hfull] at hrun
    exact ⟨t,hcount,bind_of_error hrun⟩
  · rw [if_neg hfull] at hrun
    have hfullB : t.numBExprs ≥ MAX_EXPRS := by
      rw [hbexprs]
      exact h.resolve_left hfull
    have hnew : newBExpr t = .error (.code (-1)) t := by
      unfold newBExpr
      rw [bind_of_ok (get_apply t), bind_of_error (failIf_pos hfullB)]
    refine ⟨t,hcount,?_⟩
    unfold transformBExpr
    rw [bind_of_ok hrun, bind_of_error hnew]

theorem transformBExpr_room {b : Logical.BExpr} (h : ¬ NoRoom s b) :
    ∃ b' t, s.sameButCounters t ∧ transformBExpr u schemas b s = .ok b' t := by
  unfold NoRoom at h
  push Not at h
  obtain ⟨t,hcount,hbexprs,hrun⟩ := newExprs_cases (b.left.size + b.right.size) s
  rw [if_neg (by omega)] at hrun
  have hroom : ¬ t.numBExprs ≥ MAX_EXPRS := by
    rw [hbexprs]
    omega
  have hnew : newBExpr t = .ok ⟨⟩ { t with numBExprs := t.numBExprs + 1 } := by
    unfold newBExpr
    rw [bind_of_ok (get_apply t), bind_of_ok (failIf_neg hroom)]
    rfl
  refine ⟨transformedBExpr u schemas b,{ t with numBExprs := t.numBExprs + 1 },
    hcount.trans ⟨t.numExprs,t.numBExprs + 1,rfl⟩,?_⟩
  unfold transformBExpr
  rw [bind_of_ok hrun, bind_of_ok hnew]
  rfl

end Expressions

/-! Without a free operator nothing is created. -/

section Idle
variable {α β : Type} {u : Uninit} {schemas : List (List Logical.Attr)} {children : List OpId}

def Idle (m : M α) : Prop :=
  Framed (fun s => s.freeOps = none) PlanState.SameGraph (fun _ => True) m (fun _ _ => True)

theorem Idle.bind {m : M α} {f : α → M β} (hm : Idle m) (hf : ∀ a, Idle (f a)) : Idle (m >>= f) :=
  Framed.bind PlanState.SameGraph.trans hm hf

theorem idle_pure (a : α) : Idle (pure a : M α) := framed_pure PlanState.SameGraph.refl fun _ _ _ => trivial
theorem idle_throw (e : Failure) : Idle (throw e : M α) := framed_throw PlanState.SameGraph.refl

theorem idle_failIf {c : Prop} [Decidable c] (e : Failure) : Idle (failIf c e : M PUnit) :=
  (framed_failIf PlanState.SameGraph.refl).weaken (fun _ _ h => h) fun _ _ _ _ => trivial

theorem idle_get (f : PlanState → α) : Idle (do return f (← get) : M α) :=
  (framed_get PlanState.SameGraph.refl).weaken (fun _ _ h => h) fun _ _ _ _ => trivial

theorem idle_phyChild (i : ℕ) : Idle (phyChild children i) := by
  unfold phyChild
  split
  · exact idle_pure _
  · exact idle_throw _

theorem newOp_none {body : Body} (h : s.freeOps = none) : newOp body s = .error (.code (-1)) s := by
  unfold newOp
  rw [bind_of_ok (get_apply s), h]
  rfl

theorem Begins.stuck {B S : List OpId} {m : M OpId} (h : Begins B S m) (hfree : s.freeOps = none) :
    m s = .error (.code (-1)) s := by
  obtain ⟨body,tail,rfl,-⟩ := h
  exact bind_of_error (newOp_none hfree)

theorem Begins.idle {B S : List OpId} {m : M OpId} (h : Begins B S m) : Idle m := by
  intro s hs _
  rw [h.stuck hs]
  exact ⟨hs,.refl s,fun _ _ he => by simp at he⟩

theorem idle_transformBExpr (b : Logical.BExpr) : Idle (transformBExpr u schemas b) := by
  intro s hs _
  by_cases hroom : NoRoom s b
  · obtain ⟨t,hcount,hrun⟩ := transformBExpr_noRoom u schemas hroom
    rw [hrun]
    obtain ⟨n,m,rfl⟩ := id hcount
    exact ⟨hs,hcount.sameGraph,fun _ _ he => by simp at he⟩
  · obtain ⟨b',t,hcount,hrun⟩ := transformBExpr_room u schemas hroom
    rw [hrun]
    obtain ⟨n,m,rfl⟩ := id hcount
    exact ⟨hs,hcount.sameGraph,fun _ _ _ => trivial⟩

/-- A select that is completed in place keeps its inputs and outputs. -/
theorem idle_setBody (o : OpId) (body : Body) : Idle (modifyOp o (fun x => { x with body := body })) := by
  refine framed_modify fun s hs _ => ⟨hs,rfl,rfl,rfl,fun p _ => ?_⟩
  by_cases hp : p = o
  · subst hp
    rw [setOp_ops_self]
    exact ⟨rfl,rfl⟩
  · rw [setOp_ops_of_ne _ hp]
    exact ⟨rfl,rfl⟩

theorem idle_mkSelect (bexpr : Logical.BExpr) : Idle (mkSelect u schemas bexpr children) := by
  refine (idle_transformBExpr bexpr).bind fun pred => (idle_phyChild 0).bind fun child => ?_
  refine (idle_get fun s => s.ops child).bind fun c => ?_
  cases c.body with
  | select preds => exact (idle_setBody child _).bind fun _ => idle_pure _
  | _ => exact (begins_mkUnary (B := []) (S := []) _ _ _).idle

theorem idle_mkOperator (kind : Logical.Kind) (n : ℕ) : Idle (mkOperator u kind n schemas children) := by
  have hunary (body : Body) (f : Bool → Bool) : Idle (do mkUnary body f (← phyChild children 0)) :=
    (idle_phyChild 0).bind fun c => (begins_mkUnary (B := []) (S := []) body f c).idle
  cases kind with
  | streamSource varId strId => exact idle_get _
  | relnSource varId relId => exact idle_get _
  | partnWin partnAttrs numRows => exact (idle_failIf _).bind fun _ => hunary _ _
  | select bexpr => exact idle_mkSelect bexpr
  | project projExprs => exact (begins_mkProject (B := []) (S := []) u schemas projExprs n children).idle
  | cross =>
    simp only [mkOperator, mkJoin]
    split
    · exact idle_throw _
    · exact (begins_mkBinaryJoin (B := []) (S := []) _ _ children).idle
  | streamCross =>
    simp only [mkOperator, mkStrJoin]
    split
    · exact idle_throw _
    · exact (begins_mkBinaryJoin (B := []) (S := []) _ _ children).idle
  | groupAggr groupAttrs aggrs => exact (begins_mkGroupAggr (B := []) (S := []) u schemas groupAttrs aggrs children).idle
  | union =>
    simp only [mkOperator, mkUnion]
    exact (begins_mkSetOp (B := []) (S := []) _ _ u children).idle
  | except =>
    simp only [mkOperator, mkExcept]
    exact (begins_mkSetOp (B := []) (S := []) _ _ u children).idle
  | rowWin | rangeWin | nowWin | distinct | istream | dstream | rstream => exact hunary _ _

mutual

theorem idle_genPhysicalPlan : (p : Logical.Plan) → Idle (genPhysicalPlan u p)
  | .node kind outAttrs _ inputs => by
    unfold genPhysicalPlan
    exact (idle_genChildPlans inputs).bind fun children => idle_mkOperator kind _

theorem idle_genChildPlans : (ps : List Logical.Plan) → Idle (genChildPlans u ps)
  | [] => by
    unfold genChildPlans
    exact idle_pure _
  | p :: ps => by
    unfold genChildPlans
    exact (idle_genPhysicalPlan p).bind fun c => (idle_genChildPlans ps).bind fun cs => idle_pure _

end

end Idle

/-! With a free operator the first operator of the plan decides. -/

section Creates
variable {α β : Type} {B S : List OpId} {u : Uninit} {schemas : List (List Logical.Attr)} {children : List OpId}

def Creates (B : List OpId) (m : M α) (s : PlanState) : Prop :=
  (∃ o, Fresh B o (finalState (m s))) ∨ ∃ e t, m s = .error e t ∧ ∀ rc, e ≠ .code rc

theorem creates_newOp {body : Body} (hs : SourcesIn B S s) (hfree : s.freeOps ≠ none) : Creates B (newOp body) s := by
  cases h : newOp body s with
  | ok op t =>
    have hq := (registers_newOp body (P := fun _ => True) s hs trivial).2.2 op t h
    refine .inl ⟨op,?_⟩
    rw [h]
    exact hq
  | error e t =>
    obtain ⟨a,ha⟩ := Option.ne_none_iff_exists'.mp hfree
    refine .inr ⟨e,t,h,fun rc he => ?_⟩
    unfold newOp at h
    rw [bind_of_ok (get_apply s), ha] at h
    cases hnext : s.links.next a with
    | none =>
      simp only [hnext, throw_apply, EStateM.Result.error.injEq] at h
      rw [← h.1] at he
      cases he
    | some rest =>
      simp only [hnext] at h
      rw [bind_of_ok (set_apply _ _)] at h
      cases h

/-- What comes later takes no operator back. -/
theorem Creates.bind {m : M α} {f : α → M β} {I : PlanState → Prop} {R : PlanState → PlanState → Prop}
    {P : PlanState → Prop} {Q : α → PlanState → Prop} {Q' : β → PlanState → Prop}
    (hR : ∀ s t, R s t → ∀ o ∈ s.used, o ∈ t.used) (h : Creates B m s) (hm : Framed I R P m Q) (hs : I s) (hP : P s)
    (hf : ∀ a, Framed I R (Q a) (f a) Q') : Creates B (m >>= f) s := by
  obtain ⟨h1,-,h3⟩ := hm s hs hP
  cases hr : m s with
  | error e t =>
    rcases h with ⟨o,ho⟩ | ⟨e',t',he,hcrash⟩
    · rw [hr] at ho
      refine .inl ⟨o,?_⟩
      rw [bind_of_error hr]
      exact ho
    · rw [hr] at he
      cases he
      exact .inr ⟨e,t,bind_of_error hr,hcrash⟩
  | ok a t =>
    rw [hr] at h1
    rcases h with ⟨o,ho⟩ | ⟨e',t',he,-⟩
    · rw [hr] at ho
      obtain ⟨-,h5,-⟩ := hf a t h1 (h3 a t hr)
      refine .inl ⟨o,?_⟩
      rw [bind_of_ok hr]
      exact ⟨hR _ _ h5 o ho.1,ho.2⟩
    · rw [hr] at he
      cases he

theorem grown_used (s t : PlanState) (h : Grown B s t) : ∀ o ∈ s.used, o ∈ t.used := h.used
theorem later_used (s t : PlanState) (h : Later s t) : ∀ o ∈ s.used, o ∈ t.used := h.used

theorem Begins.creates {m : M OpId} (h : Begins B S m) (hs : SourcesIn B S s) (hfree : s.freeOps ≠ none) :
    Creates B m s := by
  obtain ⟨body,tail,rfl,htail⟩ := h
  exact (creates_newOp hs hfree).bind (P := fun _ => True) grown_used (registers_newOp body) hs trivial htail

theorem creates_ofChild {f : OpId → M α} (hf : ∀ c ∈ children, Creates B (f c) s) :
    Creates B (do f (← phyChild children 0)) s := by
  cases hc : children[0]? with
  | none =>
    refine .inr ⟨.nullDeref,s,?_,fun rc he => by cases he⟩
    have hnull : phyChild children 0 s = .error .nullDeref s := by
      unfold phyChild
      rw [hc]
      rfl
    exact bind_of_error hnull
  | some c =>
    have hchild : phyChild children 0 s = .ok c s := phyChild_ok.mpr ⟨hc,rfl⟩
    unfold Creates
    rw [bind_of_ok hchild]
    exact hf c (List.mem_of_getElem? hc)

end Creates

end AqsiosCoordinator.Physical

namespace AqsiosCoordinator.Logical

def Kind.isSource : Kind → Bool
  | .streamSource _ _ | .relnSource _ _ => true
  | _ => false

mutual

def Plan.firstOperator : Plan → Option Plan
  | .node kind outAttrs bStream inputs =>
    (firstOperators inputs).or (if kind.isSource then none else some (.node kind outAttrs bStream inputs))

def firstOperators : List Plan → Option Plan
  | [] => none
  | p :: ps => p.firstOperator.or (firstOperators ps)

end

end AqsiosCoordinator.Logical

namespace AqsiosCoordinator.Physical
open Common Foundation Foundation.Outcome

/-- The generation stops at the operator without having created it: a select without room
for its predicate, and a cross that is not binary. -/
def Blocked (s : PlanState) : Logical.Plan → Prop
  | .node (.select bexpr) _ _ _ => NoRoom s bexpr
  | .node .cross _ _ inputs => inputs.length ≠ 2
  | .node .streamCross _ _ inputs => inputs.length ≠ 2
  | _ => False

def NothingCreated (s : PlanState) (p : Logical.Plan) : Prop :=
  s.freeOps = none ∨ ∃ q, p.firstOperator = some q ∧ Blocked s q

section First
variable {s t : PlanState} {B S : List OpId} {u : Uninit} {children : List OpId}

/-- The generation of `m` stops at `q` when that is blocked, and otherwise creates something. -/
def StopsAt {α : Type} (B : List OpId) (s : PlanState) (m : M α) (q : Logical.Plan) : Prop :=
  (Blocked s q → ∃ rc t, m s = .error (.code rc) t ∧ s.SameGraph t) ∧ (¬ Blocked s q → Creates B m s)

theorem creates_mkSelect {schemas : List (List Logical.Attr)} {bexpr : Logical.BExpr} (hs : SourcesIn B S s)
    (hfree : s.freeOps ≠ none) (hc : ∀ c ∈ children, c ∈ S) (hroom : ¬ NoRoom s bexpr) :
    Creates B (mkSelect u schemas bexpr children) s := by
  obtain ⟨pred,t,hcount,hrun⟩ := transformBExpr_room u schemas hroom
  obtain ⟨h1,-,-⟩ := registers_transformBExpr u schemas bexpr (P := fun _ => True) s hs trivial
  rw [hrun, finalState_ok] at h1
  unfold mkSelect Creates
  rw [bind_of_ok hrun]
  refine creates_ofChild fun child hmem => ?_
  have hget : getOp child t = .ok (t.ops child) t := rfl
  unfold Creates
  rw [bind_of_ok hget]
  have hkind := (h1.source child (hc child hmem)).2
  cases hbody : (t.ops child).body with
  | select preds =>
    rw [hbody] at hkind
    cases hkind
  | _ =>
    obtain ⟨n,m,rfl⟩ := hcount
    exact (begins_mkUnary _ _ _).creates h1 hfree

theorem stopsAt_mkOperator {kind : Logical.Kind} (u : Uninit) (n : ℕ) (outAttrs : List Logical.Attr) (bStream : Bool)
    (inputs : List Logical.Plan) (hs : SourcesIn B S s) (hfree : s.freeOps ≠ none) (hc : ∀ c ∈ children, c ∈ S)
    (hkind : kind.isSource = false) :
    StopsAt B s (mkOperator u kind n (inputs.map Logical.Plan.outAttrs) children) (.node kind outAttrs bStream inputs) := by
  have hunary (body : Body) (f : Bool → Bool) : Creates B (do mkUnary body f (← phyChild children 0)) s :=
    creates_ofChild fun c _ => (begins_mkUnary body f c).creates hs hfree
  have hcross {m : M OpId} (hm : Begins B S m) (hlen : ¬ inputs.length ≠ 2) :
      Creates B (if (inputs.map Logical.Plan.outAttrs).length ≠ 2 then throw (.code (-1)) else m) s := by
    rw [List.length_map, if_neg hlen]
    exact hm.creates hs hfree
  have hstop {m : M OpId} (hlen : inputs.length ≠ 2) : ∃ rc t,
      (if (inputs.map Logical.Plan.outAttrs).length ≠ 2 then throw (.code (-1)) else m) s = .error (.code rc) t ∧
        s.SameGraph t := by
    rw [List.length_map, if_pos hlen]
    exact ⟨-1,s,rfl,.refl s⟩
  cases kind with
  | streamSource varId strId => simp [Logical.Kind.isSource] at hkind
  | relnSource varId relId => simp [Logical.Kind.isSource] at hkind
  | partnWin partnAttrs numRows =>
    refine ⟨False.elim,fun _ => ?_⟩
    simp only [mkOperator, mkPartnWin]
    by_cases hmany : partnAttrs.length > MAX_GROUP_ATTRS
    · exact .inr ⟨_,s,bind_of_error (failIf_pos hmany),fun rc he => by cases he⟩
    · unfold Creates
      rw [bind_of_ok (failIf_neg hmany)]
      exact hunary _ _
  | select bexpr =>
    refine ⟨fun hb => ?_,fun hb => creates_mkSelect hs hfree hc hb⟩
    obtain ⟨t,hcount,hrun⟩ := transformBExpr_noRoom u (inputs.map Logical.Plan.outAttrs) hb
    exact ⟨-1,t,bind_of_error hrun,hcount.sameGraph⟩
  | project projExprs => exact ⟨False.elim,fun _ => (begins_mkProject _ _ _ _ _).creates hs hfree⟩
  | cross => exact ⟨hstop,hcross (begins_mkBinaryJoin _ _ _)⟩
  | streamCross => exact ⟨hstop,hcross (begins_mkBinaryJoin _ _ _)⟩
  | groupAggr groupAttrs aggrs => exact ⟨False.elim,fun _ => (begins_mkGroupAggr _ _ _ _ _).creates hs hfree⟩
  | union =>
    refine ⟨False.elim,fun _ => ?_⟩
    simp only [mkOperator, mkUnion]
    exact (begins_mkSetOp _ _ _ _).creates hs hfree
  | except =>
    refine ⟨False.elim,fun _ => ?_⟩
    simp only [mkOperator, mkExcept]
    exact (begins_mkSetOp _ _ _ _).creates hs hfree
  | rowWin | rangeWin | nowWin | distinct | istream | dstream | rstream => exact ⟨False.elim,fun _ => hunary _ _⟩

theorem genPhysicalPlan_of_children {kind : Logical.Kind} {outAttrs : List Logical.Attr} {bStream : Bool}
    {inputs : List Logical.Plan} {q : Logical.Plan} (hs : SourcesIn B S s)
    (h : StopsAt B s (genChildPlans u inputs) q) : StopsAt B s (genPhysicalPlan u (.node kind outAttrs bStream inputs)) q := by
  unfold genPhysicalPlan
  refine ⟨fun hb => ?_,fun hb => ?_⟩
  · obtain ⟨rc,t,hrun,hsame⟩ := h.1 hb
    exact ⟨rc,t,bind_of_error hrun,hsame⟩
  · exact (h.2 hb).bind (P := fun _ => True) grown_used (registers_genChildPlans u inputs) hs trivial
      fun cs => registers_mkOperator u kind _ _ cs

mutual

/-- A plan without operators is a source, and any other plan stops or creates something at its first operator. -/
theorem genPhysicalPlan_first (hs : SourcesIn B S s) (hfree : s.freeOps ≠ none) : (p : Logical.Plan) →
    match p.firstOperator with
    | none => ∃ o ∈ S, genPhysicalPlan u p s = .ok o s
    | some q => StopsAt B s (genPhysicalPlan u p) q
  | .node kind outAttrs bStream inputs => by
    have hchildren := genChildPlans_first hs hfree inputs
    unfold Logical.Plan.firstOperator
    cases hf : Logical.firstOperators inputs with
    | some q =>
      simp only [hf] at hchildren
      exact genPhysicalPlan_of_children hs hchildren
    | none =>
      simp only [hf] at hchildren
      obtain ⟨cs,hcs,hrun⟩ := hchildren
      have hrest : genPhysicalPlan u (.node kind outAttrs bStream inputs) s =
          mkOperator u kind outAttrs.length (inputs.map Logical.Plan.outAttrs) cs s := by
        unfold genPhysicalPlan
        rw [bind_of_ok hrun]
      by_cases hkind : kind.isSource = true
      · simp only [hkind, if_true, Option.or_none]
        have hsource (id : ℕ) : lookupSource id s.sourceOps ∈ S := by
          unfold lookupSource
          cases hfind : s.sourceOps.find? (fun e => e.1 == id) with
          | none => exact hs.default
          | some e => exact hs.tables e (List.mem_of_find?_eq_some hfind)
        rw [hrest]
        cases kind with
        | streamSource varId strId => exact ⟨_,hsource strId,rfl⟩
        | relnSource varId relId => exact ⟨_,hsource relId,rfl⟩
        | _ => cases hkind
      · simp only [Bool.not_eq_true] at hkind
        simp only [hkind, Bool.false_eq_true, if_false, Option.none_or]
        have hop := stopsAt_mkOperator u outAttrs.length outAttrs bStream inputs hs hfree hcs hkind
        unfold StopsAt Creates
        rw [hrest]
        exact hop

theorem genChildPlans_first (hs : SourcesIn B S s) (hfree : s.freeOps ≠ none) : (ps : List Logical.Plan) →
    match Logical.firstOperators ps with
    | none => ∃ os, (∀ o ∈ os, o ∈ S) ∧ genChildPlans u ps s = .ok os s
    | some q => StopsAt B s (genChildPlans u ps) q
  | [] => by
    unfold Logical.firstOperators genChildPlans
    exact ⟨[],fun _ h => absurd h List.not_mem_nil,rfl⟩
  | p :: ps => by
    have hp := genPhysicalPlan_first hs hfree p
    have hps := genChildPlans_first hs hfree ps
    unfold Logical.firstOperators genChildPlans
    cases hf : p.firstOperator with
    | some q =>
      simp only [hf] at hp
      refine ⟨fun hb => ?_,fun hb => ?_⟩
      · obtain ⟨rc,t,hrun,hsame⟩ := hp.1 hb
        exact ⟨rc,t,bind_of_error hrun,hsame⟩
      · have hrest (c : OpId) : Registers B S (Resolved B S c) (genChildPlans u ps >>= fun cs => pure (c :: cs))
            (fun _ _ => True) := by
          refine Registers.bind ((registers_genChildPlans u ps).weaken (fun _ _ _ => trivial) fun _ _ _ h => h) fun cs => ?_
          exact registers_return fun _ _ _ => trivial
        exact (hp.2 hb).bind (P := fun _ => True) grown_used (registers_genPhysicalPlan u p) hs trivial hrest
    | none =>
      simp only [hf] at hp
      obtain ⟨c,hc,hrun⟩ := hp
      cases hfs : Logical.firstOperators ps with
      | none =>
        simp only [hfs] at hps
        obtain ⟨cs,hcs,hruns⟩ := hps
        refine ⟨c :: cs,fun o ho => ?_,?_⟩
        · rcases List.mem_cons.mp ho with rfl | ho
          · exact hc
          · exact hcs o ho
        · rw [bind_of_ok hrun, bind_of_ok hruns]
          rfl
      | some q =>
        simp only [hfs] at hps
        refine ⟨fun hb => ?_,fun hb => ?_⟩
        · obtain ⟨rc,t,hruns,hsame⟩ := hps.1 hb
          refine ⟨rc,t,?_,hsame⟩
          rw [bind_of_ok hrun, bind_of_error hruns]
        · have hcreates : Creates B (genChildPlans u ps >>= fun cs => pure (c :: cs)) s := by
            have hrest (cs : List OpId) : Registers B S (fun s => ∀ c ∈ cs, Resolved B S c s) (pure (c :: cs))
                (fun _ _ => True) := registers_return fun _ _ _ => trivial
            exact (hps.2 hb).bind (P := fun _ => True) grown_used (registers_genChildPlans u ps) hs trivial hrest
          unfold Creates
          rw [bind_of_ok hrun]
          exact hcreates

end

/-- A query whose registration fails leaves the graph alone exactly when nothing is created for its plan. -/
theorem addLogicalQueryPlan_sameGraph_iff {queryId : ℕ} {logPlan : Logical.Plan} {output : Bool} {rc : ℤ} (hs : RegInv s)
    (h : addLogicalQueryPlan u queryId logPlan output s = .error (.code rc) t) :
    s.SameGraph t ↔ NothingCreated s logPlan := by
  have hsrc := hs.sourcesIn
  have hrest (phyPlan : OpId) : Framed RegInv Later (fun s => phyPlan ∈ s.used)
      (mkQrySrc phyPlan >>= completeQuery queryId output phyPlan) (fun _ _ => True) :=
    (framed_mkQrySrc phyPlan).bind Later.trans fun querySource => framed_completeQuery _ _ _ _
  rw [addLogicalQueryPlan_eq] at h
  constructor
  · intro hsame
    by_contra hno
    unfold NothingCreated at hno
    push Not at hno
    obtain ⟨hfree,hnotBlocked⟩ := hno
    have hfirst := genPhysicalPlan_first (u := u) hsrc hfree logPlan
    have hcreates : Creates s.used (genPhysicalPlan u logPlan >>= fun phyPlan =>
        mkQrySrc phyPlan >>= completeQuery queryId output phyPlan) s := by
      cases hq : logPlan.firstOperator with
      | some q =>
        simp only [hq] at hfirst
        exact (hfirst.2 (hnotBlocked q hq)).bind later_used (framed_genPhysicalPlan u logPlan) hs trivial hrest
      | none =>
        -- the plan is a source, and the first operator is the query source
        simp only [hq] at hfirst
        obtain ⟨o,ho,hrun⟩ := hfirst
        have hqry : Creates s.used (mkQrySrc o) s := (begins_mkUnary _ _ _).creates hsrc hfree
        have hqrest : Creates s.used (mkQrySrc o >>= completeQuery queryId output o) s :=
          hqry.bind later_used (framed_mkQrySrc o) hs (hsrc.source o ho).1 fun _ => framed_completeQuery _ _ _ _
        unfold Creates
        rw [bind_of_ok hrun]
        exact hqrest
    rcases hcreates with ⟨o,ho⟩ | ⟨e,t',he,hcrash⟩
    · rw [h] at ho
      exact ho.2 (hsame.used ▸ ho.1)
    · rw [h] at he
      cases he
      exact hcrash rc rfl
  · intro hnothing
    by_cases hfree : s.freeOps = none
    · have hidle : Idle (genPhysicalPlan u logPlan >>= fun phyPlan =>
          mkQrySrc phyPlan >>= completeQuery queryId output phyPlan) := by
        refine (idle_genPhysicalPlan logPlan).bind fun phyPlan => ?_
        intro s hs _
        have hstuck : (mkQrySrc phyPlan >>= completeQuery queryId output phyPlan) s = .error (.code (-1)) s :=
          bind_of_error ((begins_mkUnary (B := []) (S := []) _ _ _).stuck hs)
        rw [hstuck]
        exact ⟨hs,.refl s,fun _ _ he => by simp at he⟩
      have hsame := (hidle s hfree trivial).2.1
      rw [h] at hsame
      exact hsame
    · obtain ⟨q,hq,hb⟩ := hnothing.resolve_left hfree
      have hfirst := genPhysicalPlan_first (u := u) hsrc hfree logPlan
      simp only [hq] at hfirst
      obtain ⟨rc',t',hrun,hsame⟩ := hfirst.1 hb
      rw [bind_of_error hrun] at h
      cases h
      exact hsame

end First
end AqsiosCoordinator.Physical
