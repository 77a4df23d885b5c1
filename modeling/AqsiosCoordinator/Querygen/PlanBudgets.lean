import AqsiosCoordinator.Foundation.Budget
import AqsiosCoordinator.Querygen.CollectedAggregates
import AqsiosCoordinator.Querygen.GeneratedSchemas
import AqsiosCoordinator.Querygen.QueryLimits
import Mathlib.Algebra.Order.Group.Nat

/-! # What the generation of a naive plan takes, and how it ends

The constructors take operators and expressions from pools. With room in these the
result depends on the capacities of the operators alone.
-/
namespace AqsiosCoordinator.Logical.Plan
open Common Foundation Metadata

def genPool : Stock Usage (ℕ × ℕ) := ⟨fun u => (u.operatorPtr,u.exprPtr),(MAXOPERATOR,MAXEXPR)⟩

/-- A part of the generation with the numbers of operators and expressions that it takes. -/
abbrev Runs {α : Type} (ops exprs : ℕ) (m : Gen α) (Q : α → Prop) (F : Failure → Prop) : Prop := Within genPool (ops,exprs) m Q F

section Runs
variable {α β : Type} {ops ops' exprs exprs' : ℕ} {Q : α → Prop} {Q' : β → Prop} {F : Failure → Prop}

theorem Runs.more {m : Gen α} (h : Runs ops exprs m Q F) (hops : ops ≤ ops') (hexprs : exprs ≤ exprs') : Runs ops' exprs' m Q F :=
  Within.mono h ⟨hops,hexprs⟩

/-- What is left is for the rest. -/
theorem Runs.then {m : Gen α} {f : α → Gen β} (hm : Runs ops exprs m Q F) (hops : ops ≤ ops') (hexprs : exprs ≤ exprs')
    (hf : ∀ a, Q a → Runs (ops' - ops) (exprs' - exprs) (f a) Q' F) : Runs ops' exprs' (m >>= f) Q' F := by
  apply Within.mono (hm.bind hf)
  exact ⟨(Nat.add_sub_of_le hops).le,(Nat.add_sub_of_le hexprs).le⟩

theorem runs_pure {a : α} (h : Q a) : Runs ops exprs (pure a) Q F := Within.mono (Within.pure h) ⟨Nat.zero_le _,Nat.zero_le _⟩

theorem runs_throw {e : Failure} (h : F e) : Runs ops exprs (throw e : Gen α) Q F :=
  Within.mono (Within.throw h) ⟨Nat.zero_le _,Nat.zero_le _⟩

theorem runs_takeExpr : Runs 0 1 takeExpr (fun _ => True) F := by
  intro u hu
  have hexpr : u.exprPtr + 1 ≤ MAXEXPR := hu.2
  have hne : u.exprPtr ≠ MAXEXPR := by omega
  have hrun : takeExpr u = .ok () { u with exprPtr := u.exprPtr + 1 } := by
    simp [takeExpr,bind,EStateM.bind,Outcome.get_apply,Outcome.set_apply,failIf,hne,pure,EStateM.pure]
  rw [hrun]
  exact ⟨trivial,Prod.mk_le_mk.mpr ⟨Nat.le_refl _,Nat.le_refl _⟩⟩

/-- With room in the pool there is an operator. -/
theorem runs_newop (p : Plan) : Runs 1 0 (newop (pure p)) (· = some p) F := by
  intro u hu
  have hop : u.operatorPtr + 1 ≤ MAXOPERATOR := hu.1
  have hne : u.operatorPtr ≠ MAXOPERATOR := by omega
  have hrun : newop (pure p) u = .ok (some p) { u with operatorPtr := u.operatorPtr + 1 } := by
    simp [newop,bind,EStateM.bind,Outcome.get_apply,Outcome.set_apply,hne,pure,EStateM.pure]
  rw [hrun]
  exact ⟨rfl,Prod.mk_le_mk.mpr ⟨Nat.le_refl _,Nat.le_refl _⟩⟩

theorem runs_mkUnary (kind : Kind) (f : Bool → Bool) (p : Plan) :
    Runs 1 0 (mkUnary kind f (some p)) (· = some (.node kind p.outAttrs (f p.bStream) [p])) F := runs_newop _

end Runs

section Naive
variable {tableMgr : TableManager} {query : Semantic.Query} {F : Failure → Prop}

theorem runs_transformExpr (e : Semantic.Expr) : Runs 0 e.size (transformExpr query e) (· = logicalExpr query e) F := by
  induction e with
  | constVal c => exact runs_takeExpr.then (Nat.zero_le _) (Nat.le_refl 1) fun _ _ => runs_pure rfl
  | attrRef type attr => exact runs_takeExpr.then (Nat.zero_le _) (Nat.le_refl 1) fun _ _ => runs_pure rfl
  | aggrExpr type fn attr => exact runs_takeExpr.then (Nat.zero_le _) (Nat.le_refl 1) fun _ _ => runs_pure rfl
  | compExpr type op l r ihl ihr =>
    have hsize : (Semantic.Expr.compExpr type op l r).size = 1 + l.size + r.size := rfl
    unfold transformExpr
    apply ihl.then (by omega) (by omega)
    rintro l' rfl
    apply ihr.then (by omega) (by omega)
    rintro r' rfl
    apply runs_takeExpr.then (by omega) (by omega)
    intro _ _
    exact runs_pure rfl

theorem runs_transformBExpr (b : Semantic.BExpr) : Runs 0 b.size (transformBExpr query b) (· = logicalBExpr query b) F := by
  have hsize : b.size = b.left.size + b.right.size := rfl
  unfold transformBExpr
  apply (runs_transformExpr b.left).then (by omega) (by omega)
  rintro l rfl
  apply (runs_transformExpr b.right).then (by omega) (by omega)
  rintro r rfl
  exact runs_pure rfl

theorem runs_getSource (varId tableId : ℕ) : Runs 1 0 (getSource tableMgr varId tableId) (· = sourcePlan tableMgr varId tableId) F := by
  have hsource : Runs 1 0 (if tableMgr.isStream tableId then mkStreamSource tableMgr varId tableId
      else mkRelnSource tableMgr varId tableId : Gen (Option Plan)) (· = some (sourcePlan tableMgr varId tableId)) F := by
    unfold sourcePlan
    split
    · exact runs_newop _
    · exact runs_newop _
  apply hsource.then (by omega) (by omega)
  rintro o rfl
  exact runs_pure rfl

/-- A partitioning attribute is added or left out, and the window stays. -/
theorem runs_partnAttrs (attrs : List Semantic.Attr) (o : Option Plan) (ho : ∃ p, o = some p) :
    Runs 0 0 (attrs.foldlM (fun winOp a => do
      match ← partnWindowAddAttr winOp (transformAttr query a) with
      | some p => return some p
      | none => return winOp) o) (fun r => ∃ p, r = some p) F := by
  induction attrs generalizing o with
  | nil => exact runs_pure ho
  | cons a attrs ih =>
    obtain ⟨p,rfl⟩ := ho
    rw [List.foldlM_cons]
    have hstep : Runs 0 0 (do
        match ← partnWindowAddAttr (some p) (transformAttr query a) with
        | some p => return some p
        | none => return some p : Gen (Option Plan)) (fun r => ∃ p, r = some p) F := by
      have hadd : Runs 0 0 (partnWindowAddAttr (some p) (transformAttr query a)) (fun _ => True) F := by
        unfold partnWindowAddAttr
        have hderef : Runs 0 0 (deref (some p)) (· = p) F := runs_pure rfl
        apply hderef.then (by omega) (by omega)
        rintro q rfl
        split
        · split
          · exact runs_pure trivial
          · exact runs_pure trivial
        · exact runs_pure trivial
      apply hadd.then (by omega) (by omega)
      intro r _
      cases r with
      | none => exact runs_pure ⟨p,rfl⟩
      | some q => exact runs_pure ⟨q,rfl⟩
    exact hstep.then (by omega) (by omega) ih

theorem runs_applyWindow (win : Semantic.WindowSpec) (p : Plan) :
    Runs 1 0 (applyWindow query win (some p)) (· = some (windowPlan query win p)) F := by
  have hunary (kind : Kind) (f : Bool → Bool) : Runs 1 0 (mkUnary kind f (some p)) (fun o => ∃ q, o = some q) F :=
    (runs_mkUnary kind f p).weaken (fun o ho => ⟨_,ho⟩) fun _ h => h
  have hsome : Runs 1 0 (applyWindow query win (some p)) (fun o => ∃ q, o = some q) F := by
    cases win with
    | range timeUnits => exact hunary (.rangeWin timeUnits) fun _ => false
    | row numRows => exact hunary (.rowWin numRows) fun _ => false
    | partition numRows attrs =>
      have hwin : Runs 1 0 (mkPartnWindow (some p) numRows) (fun o => ∃ q, o = some q) F := hunary _ _
      apply hwin.then (by omega) (by omega)
      exact runs_partnAttrs attrs
    | now => exact hunary .nowWin fun _ => false
    | unbounded => exact runs_pure ⟨p,rfl⟩
  apply (hsome.and_ensures (ensures_applyWindow_eq win (holds_some rfl))).weaken ?_ fun _ h => h
  rintro o ⟨⟨q,rfl⟩,hq⟩
  exact congrArg some (hq q rfl)

theorem runs_tablePlan (t varId : ℕ) : Runs 2 0 (tablePlan tableMgr query t varId) (· = some (branch tableMgr query t varId)) F := by
  apply (runs_getSource varId (query.refTables varId)).then (by omega) (by omega)
  rintro p rfl
  unfold branch
  dsimp only
  split
  · exact runs_applyWindow _ _
  · exact runs_pure rfl

def CrossFits (inputs : List Plan) : Prop :=
  (inputs.map Plan.outAttrs).flatten.length ≤ MAX_ATTRS ∧ inputs.length ≤ MAX_INPUT_OPS

theorem crossFits_of_append {inputs more : List Plan} (h : CrossFits (inputs ++ more)) : CrossFits inputs := by
  obtain ⟨hattrs,hlen⟩ := h
  rw [List.map_append, List.flatten_append, List.length_append] at hattrs
  rw [List.length_append] at hlen
  exact ⟨by omega,by omega⟩

/-- A cross takes an input for which it has room. -/
theorem runs_crossAddInput {inputs : List Plan} (h : CrossFits inputs) (p : Plan) :
    Runs 0 0 (crossAddInput (some (crossPlan inputs)) (some p))
      (fun o => CrossFits (inputs ++ [p]) ∧ o = some (crossPlan (inputs ++ [p])) ∨ ¬ CrossFits (inputs ++ [p]) ∧ o = none) F := by
  have hcross : Runs 0 0 (deref (some (crossPlan inputs))) (· = crossPlan inputs) F := runs_pure rfl
  have hinput : Runs 0 0 (deref (some p)) (· = p) F := runs_pure rfl
  apply hcross.then (by omega) (by omega)
  rintro c rfl
  apply hinput.then (by omega) (by omega)
  rintro i rfl
  have hattrs : (crossPlan inputs).outAttrs.length = (inputs.map Plan.outAttrs).flatten.length := rfl
  have hinputs : (crossPlan inputs).inputs.length = inputs.length := rfl
  have hfits : CrossFits (inputs ++ [i]) ↔
      (inputs.map Plan.outAttrs).flatten.length + i.outAttrs.length ≤ MAX_ATTRS ∧ inputs.length + 1 ≤ MAX_INPUT_OPS := by
    simp [CrossFits]
  obtain ⟨-,hlen⟩ := h
  split
  · exact runs_pure (.inr ⟨fun hc => by have hle := (hfits.mp hc).1; omega,rfl⟩)
  split
  · exact runs_pure (.inr ⟨fun hc => by have hle := (hfits.mp hc).2; omega,rfl⟩)
  · exact runs_pure (.inl ⟨hfits.mpr ⟨by omega,by omega⟩,congrArg some (crossPlan_append inputs i)⟩)

theorem runs_crossTables (t : ℕ) (vars : List ℕ) {inputs all : List Plan} (h : CrossFits inputs)
    (hall : all = inputs ++ (vars.zipIdx t).map fun v => branch tableMgr query v.2 v.1) :
    Runs (2 * vars.length) 0 (crossTables tableMgr query t vars (crossPlan inputs))
      (fun p => CrossFits all ∧ p = crossPlan all) (fun e => ¬ CrossFits all ∧ e = .code (-1)) := by
  induction vars generalizing t inputs with
  | nil =>
    obtain rfl : all = inputs := by simpa using hall
    exact runs_pure ⟨h,rfl⟩
  | cons v vars ih =>
    have hlen : (v :: vars).length = vars.length + 1 := rfl
    unfold crossTables
    apply (runs_tablePlan t v).then (by omega) (by omega)
    rintro o rfl
    apply (runs_crossAddInput h _).then (by omega) (by omega)
    have hall' : all = (inputs ++ [branch tableMgr query t v]) ++ (vars.zipIdx (t + 1)).map fun v => branch tableMgr query v.2 v.1 := by
      rw [hall, List.zipIdx_cons, List.map_cons, List.append_assoc]
      rfl
    rintro o (⟨hfits,rfl⟩ | ⟨hfits,rfl⟩)
    · exact (ih (t + 1) hfits hall').more (by omega) (by omega)
    · exact runs_throw ⟨fun hc => hfits (crossFits_of_append (hall' ▸ hc)),rfl⟩

def fromAttrs (tableMgr : TableManager) (query : Semantic.Query) : List Attr :=
  query.fromClauseTables.flatMap fun v => tableAttrs tableMgr v (query.refTables v)

def JoinFits (tableMgr : TableManager) (query : Semantic.Query) : Prop :=
  query.fromClauseTables.length ≤ 1 ∨
    (fromAttrs tableMgr query).length ≤ MAX_ATTRS ∧ query.fromClauseTables.length ≤ MAX_INPUT_OPS

theorem flatten_branches : ((branches tableMgr query).map Plan.outAttrs).flatten = fromAttrs tableMgr query := by
  have hattrs : (branches tableMgr query).map Plan.outAttrs =
      query.fromClauseTables.map fun v => tableAttrs tableMgr v (query.refTables v) := by
    conv_rhs => rw [← List.zipIdx_map_fst 0 query.fromClauseTables]
    rw [branches, List.map_map, List.map_map]
    apply List.map_congr_left
    rintro ⟨v,t⟩ -
    exact branch_outAttrs t v
  rw [hattrs]
  rfl

theorem crossFits_branches : CrossFits (branches tableMgr query) ↔
    (fromAttrs tableMgr query).length ≤ MAX_ATTRS ∧ query.fromClauseTables.length ≤ MAX_INPUT_OPS := by
  rw [CrossFits, flatten_branches, branches, List.length_map, List.length_zipIdx]

theorem runs_joinTables (hne : query.fromClauseTables ≠ []) : Runs (1 + 2 * query.fromClauseTables.length) 0 (joinTables tableMgr query)
    (fun o => JoinFits tableMgr query ∧ o = some (joinPlan tableMgr query)) (fun e => ¬ JoinFits tableMgr query ∧ e = .code (-1)) := by
  by_cases hone : query.fromClauseTables.length ≤ 1
  · have hpos : 0 < query.fromClauseTables.length := List.length_pos_iff.mpr hne
    obtain ⟨v,hv⟩ := List.length_eq_one_iff.mp (show query.fromClauseTables.length = 1 by omega)
    have hjoin : joinTables tableMgr query = tablePlan tableMgr query 0 v := by simp [joinTables,hv]
    have hplan : joinPlan tableMgr query = branch tableMgr query 0 v := by simp [joinPlan,branches,hv]
    rw [hjoin, hplan]
    apply Within.weaken ((runs_tablePlan 0 v).more (by omega) (by omega))
    · exact fun o ho => ⟨.inl hone,ho⟩
    · exact fun e he => he
  · obtain ⟨v,w,vars,hvars⟩ : ∃ v w vars, query.fromClauseTables = v :: w :: vars := by
      obtain ⟨v,tail,hv⟩ := List.exists_cons_of_ne_nil hne
      rw [hv, List.length_cons] at hone
      obtain ⟨w,vars,rfl⟩ := List.exists_cons_of_ne_nil (List.length_pos_iff.mp (show 0 < tail.length by omega))
      exact ⟨v,w,vars,hv⟩
    have hfits : JoinFits tableMgr query ↔ CrossFits (branches tableMgr query) := by
      rw [crossFits_branches, JoinFits]
      simp only [hone, false_or]
    have hplan : joinPlan tableMgr query = crossPlan (branches tableMgr query) := by simp [joinPlan,branches,hvars]
    have hjoin : joinTables tableMgr query = (do
        let cross ← orFail (← mkCross)
        return some (← crossTables tableMgr query 0 query.fromClauseTables cross)) := by
      simp only [joinTables, hvars]
    rw [hjoin, hfits, hplan]
    have hcross : Runs 1 0 mkCross (· = some (crossPlan [])) (fun e => ¬ CrossFits (branches tableMgr query) ∧ e = .code (-1)) :=
      runs_newop _
    apply hcross.then (by omega) (by omega)
    rintro o rfl
    have hempty : CrossFits [] := ⟨Nat.zero_le _,Nat.zero_le _⟩
    apply (runs_crossTables 0 query.fromClauseTables hempty (List.nil_append _).symm).then (by omega) (by omega)
    rintro p ⟨hp,rfl⟩
    exact runs_pure ⟨hp,rfl⟩

theorem runs_selects (preds : List Semantic.BExpr) (p : Plan) :
    Runs preds.length (preds.map Semantic.BExpr.size).sum
      (preds.foldlM (fun plan b => do
        let bExpr ← transformBExpr query b
        return some (← orFail (← mkSelect plan bExpr))) (some p))
      (· = some (selectPlan (preds.map (logicalBExpr query)) p)) F := by
  induction preds generalizing p with
  | nil => exact runs_pure rfl
  | cons b preds ih =>
    have hlen : (b :: preds).length = preds.length + 1 := rfl
    have hsize : ((b :: preds).map Semantic.BExpr.size).sum = b.size + (preds.map Semantic.BExpr.size).sum := rfl
    rw [List.foldlM_cons]
    have hselect : Runs 1 b.size (do
        let bExpr ← transformBExpr query b
        return some (← orFail (← mkSelect (some p) bExpr)) : Gen (Option Plan))
        (· = some (unaryNode (.select (logicalBExpr query b)) p.outAttrs p)) F := by
      apply (runs_transformBExpr b).then (by omega) (by omega)
      rintro b' rfl
      have hmk : Runs 1 0 (mkSelect (some p) (logicalBExpr query b))
          (· = some (unaryNode (.select (logicalBExpr query b)) p.outAttrs p)) F := runs_mkUnary _ (fun b => b) p
      apply hmk.then (by omega) (by omega)
      rintro o rfl
      exact runs_pure rfl
    apply hselect.then (by omega) (by omega)
    rintro o rfl
    exact (ih _).more (by omega) (by omega)

theorem runs_applyPreds (p : Plan) : Runs query.preds.length (query.preds.map Semantic.BExpr.size).sum (applyPreds query (some p))
    (· = some (selectPlan (query.preds.map (logicalBExpr query)) p)) F := runs_selects query.preds p

/-- The array of output attributes has room for all grouping attributes. -/
theorem runs_groupAttrs (more : List Semantic.Attr) {groupAttrs : List Attr} {bStream : Bool} {inputs : List Plan}
    (h : groupAttrs.length + more.length ≤ MAX_GROUP_ATTRS) :
    Runs 0 0 (more.foldlM (fun op a => addGroupAttr op (transformAttr query a))
      (some (.node (.groupAggr groupAttrs []) groupAttrs bStream inputs)))
      (· = some (.node (.groupAggr (groupAttrs ++ more.map (transformAttr query)) [])
        (groupAttrs ++ more.map (transformAttr query)) bStream inputs)) F := by
  induction more generalizing groupAttrs with
  | nil => exact runs_pure (by simp)
  | cons a more ih =>
    rw [List.length_cons] at h
    rw [List.foldlM_cons]
    have hadd : Runs 0 0 (addGroupAttr (some (.node (.groupAggr groupAttrs []) groupAttrs bStream inputs)) (transformAttr query a))
        (· = some (.node (.groupAggr (groupAttrs ++ [transformAttr query a]) []) (groupAttrs ++ [transformAttr query a]) bStream inputs)) F := by
      have hderef : Runs 0 0 (deref (some (.node (.groupAggr groupAttrs []) groupAttrs bStream inputs)))
          (· = .node (.groupAggr groupAttrs []) groupAttrs bStream inputs) F := runs_pure rfl
      apply hderef.then (by omega) (by omega)
      rintro c rfl
      dsimp only
      rw [if_neg (by omega), failIf, if_neg (by simp only [MAX_ATTRS, MAX_GROUP_ATTRS] at h ⊢; omega)]
      exact runs_pure rfl
    apply hadd.then (by omega) (by omega)
    rintro o rfl
    have hnext : (groupAttrs ++ [transformAttr query a]).length + more.length ≤ MAX_GROUP_ATTRS := by
      rw [List.length_append, List.length_singleton]
      omega
    apply Within.weaken (ih hnext)
    · rintro o rfl
      simp
    · exact fun e he => he

/-- The aggregations are written behind the grouping attributes, whether there is room or not. -/
theorem runs_aggrs (more : List (AggrFn × Attr)) {groupAttrs outAttrs : List Attr} {aggrs : List (AggrFn × Attr)} {bStream : Bool}
    {inputs : List Plan} (h : aggrs.length + more.length ≤ MAX_AGGR_ATTRS) (hout : outAttrs.length ≤ MAX_ATTRS) :
    Runs 0 0 (more.foldlM (fun op a => addAggr op a.1 a.2) (some (.node (.groupAggr groupAttrs aggrs) outAttrs bStream inputs)))
      (fun o => outAttrs.length + more.length ≤ MAX_ATTRS ∧ o = some (.node (.groupAggr groupAttrs (aggrs ++ more))
        (outAttrs ++ more.map fun a => aggrAttr a.1 a.2) bStream inputs))
      (fun e => MAX_ATTRS < outAttrs.length + more.length ∧ e = .outOfBounds) := by
  induction more generalizing aggrs outAttrs with
  | nil => exact runs_pure ⟨hout,by simp⟩
  | cons a more ih =>
    rw [List.length_cons] at h
    rw [List.foldlM_cons]
    have hadd : Runs 0 0 (addAggr (some (.node (.groupAggr groupAttrs aggrs) outAttrs bStream inputs)) a.1 a.2)
        (fun o => outAttrs.length < MAX_ATTRS ∧ o = some (.node (.groupAggr groupAttrs (aggrs ++ [(a.1,a.2)]))
          (outAttrs ++ [aggrAttr a.1 a.2]) bStream inputs))
        (fun e => MAX_ATTRS < outAttrs.length + (a :: more).length ∧ e = .outOfBounds) := by
      have hderef : Runs 0 0 (deref (some (.node (.groupAggr groupAttrs aggrs) outAttrs bStream inputs)))
          (· = .node (.groupAggr groupAttrs aggrs) outAttrs bStream inputs)
          (fun e => MAX_ATTRS < outAttrs.length + (a :: more).length ∧ e = .outOfBounds) := runs_pure rfl
      apply hderef.then (by omega) (by omega)
      rintro c rfl
      dsimp only
      rw [if_neg (by omega), failIf]
      split
      · exact runs_throw ⟨by rw [List.length_cons]; omega,rfl⟩
      · exact runs_pure ⟨by omega,rfl⟩
    apply hadd.then (by omega) (by omega)
    rintro o ⟨hlt,rfl⟩
    have hnext : (aggrs ++ [(a.1,a.2)]).length + more.length ≤ MAX_AGGR_ATTRS := by
      rw [List.length_append, List.length_singleton]
      omega
    have hout' : (outAttrs ++ [aggrAttr a.1 a.2]).length ≤ MAX_ATTRS := by
      rw [List.length_append, List.length_singleton]
      omega
    have hlen : (outAttrs ++ [aggrAttr a.1 a.2]).length + more.length = outAttrs.length + (a :: more).length := by
      rw [List.length_append, List.length_singleton, List.length_cons]
      omega
    apply Within.weaken (ih hnext hout')
    · rintro o ⟨hle,rfl⟩
      exact ⟨hlen ▸ hle,by simp⟩
    · rintro e ⟨hgt,rfl⟩
      exact ⟨hlen ▸ hgt,rfl⟩

def logicalAggrs (query : Semantic.Query) : List (AggrFn × Attr) := (firstsAfter [] query.aggrs).map (logicalAggr query)

theorem length_logicalAggrs : (logicalAggrs query).length = query.numAggrs := by
  rw [logicalAggrs, List.length_map, length_firstsAfter]
  rfl

/-- How the aggregation of a query fails: in the collection, or behind the end of the array. -/
inductive AggrFailure (query : Semantic.Query) : Failure → Prop where
  | collect (many : MAX_AGGR_ATTRS < query.numAggrs) : AggrFailure query (.code (-1))
  | schema (few : query.numAggrs ≤ MAX_AGGR_ATTRS) (wide : MAX_ATTRS < query.gbyAttrs.length + query.numAggrs) :
      AggrFailure query .outOfBounds

theorem runs_applyAggr (p : Plan) (hgroup : query.gbyAttrs.length ≤ MAX_GROUP_ATTRS) : Runs 1 0 (applyAggr query (some p))
    (fun o => query.gbyAttrs.length + query.numAggrs ≤ MAX_ATTRS ∧ collectAllAggrs query query.projExprs [] = some (logicalAggrs query) ∧
      o = some (aggrPlan query (logicalAggrs query) p)) (AggrFailure query) := by
  unfold applyAggr
  by_cases hmany : query.numAggrs ≤ MAX_AGGR_ATTRS
  · have hcollect : collectAllAggrs query query.projExprs [] = some (logicalAggrs query) := collectAllAggrs_query.trans (if_pos hmany)
    have hlen := @length_logicalAggrs query
    simp only [hcollect, true_and]
    by_cases hnone : logicalAggrs query = [] ∧ query.gbyAttrs = []
    · rw [if_pos hnone]
      have hzero : query.numAggrs = 0 := by rw [← hlen, hnone.1, List.length_nil]
      exact runs_pure ⟨by rw [hnone.2, List.length_nil, hzero]; exact Nat.zero_le _,by rw [aggrPlan, if_pos hnone]⟩
    · rw [if_neg hnone]
      have hmk : Runs 1 0 (mkGroupAggr (some p)) (· = some (.node (.groupAggr [] []) [] false [p])) (AggrFailure query) := runs_newop _
      apply hmk.then (by omega) (by omega)
      rintro o rfl
      have hgroups := @runs_groupAttrs query (AggrFailure query) query.gbyAttrs [] false [p]
        (by rw [List.length_nil, Nat.zero_add]; exact hgroup)
      apply hgroups.then (by omega) (by omega)
      rintro o rfl
      rw [List.nil_append]
      have hwide : (query.gbyAttrs.map (transformAttr query)).length ≤ MAX_ATTRS := by
        rw [List.length_map]
        exact hgroup
      have hroom : ([] : List (AggrFn × Attr)).length + (logicalAggrs query).length ≤ MAX_AGGR_ATTRS := by
        rw [List.length_nil, hlen, Nat.zero_add]
        exact hmany
      apply Within.weaken (runs_aggrs (logicalAggrs query) hroom hwide)
      · rintro o ⟨hle,rfl⟩
        rw [List.length_map, hlen] at hle
        rw [aggrPlan, if_neg hnone]
        exact ⟨hle,rfl⟩
      · rintro e ⟨hgt,rfl⟩
        rw [List.length_map, hlen] at hgt
        exact .schema hmany hgt
  · have hcollect : collectAllAggrs query query.projExprs [] = none := collectAllAggrs_query.trans (if_neg hmany)
    simp only [hcollect]
    exact runs_throw (.collect (by omega))

/-- The result of an addition that is refused is not checked, and the next addition reads from it. -/
theorem runs_projectNull (exprs : List Semantic.Expr) : Runs 0 (exprs.map Semantic.Expr.size).sum
    (exprs.foldlM (fun project e => do addProjectExpr project (← transformExpr query e)) none)
    (fun o => exprs = [] ∧ o = none) (fun e => exprs ≠ [] ∧ e = .nullDeref) := by
  cases exprs with
  | nil => exact runs_pure ⟨rfl,rfl⟩
  | cons e exprs =>
    have hsize : ((e :: exprs).map Semantic.Expr.size).sum = e.size + (exprs.map Semantic.Expr.size).sum := rfl
    rw [List.foldlM_cons, bind_assoc]
    apply (runs_transformExpr e).then (by omega) (by omega)
    intro e' _
    have hnull : addProjectExpr none e' = throw .nullDeref := rfl
    rw [hnull]
    exact runs_throw ⟨List.cons_ne_nil _ _,rfl⟩

theorem runs_projectExprs (exprs : List Semantic.Expr) {projExprs : List Expr} {outAttrs : List Attr} {bStream : Bool}
    {inputs : List Plan} (h : outAttrs.length ≤ MAX_ATTRS) : Runs 0 (exprs.map Semantic.Expr.size).sum
      (exprs.foldlM (fun project e => do addProjectExpr project (← transformExpr query e))
        (some (.node (.project projExprs) outAttrs bStream inputs)))
      (fun o => outAttrs.length + exprs.length ≤ MAX_ATTRS ∧ o = some (.node (.project (projExprs ++ exprs.map (logicalExpr query)))
          (outAttrs ++ (exprs.map (logicalExpr query)).map exprAttr) bStream inputs) ∨
        outAttrs.length + exprs.length = MAX_ATTRS + 1 ∧ o = none)
      (fun e => MAX_ATTRS + 1 < outAttrs.length + exprs.length ∧ e = .nullDeref) := by
  induction exprs generalizing projExprs outAttrs with
  | nil => exact runs_pure (.inl ⟨h,by simp⟩)
  | cons e exprs ih =>
    have hsize : ((e :: exprs).map Semantic.Expr.size).sum = e.size + (exprs.map Semantic.Expr.size).sum := rfl
    have hlen : outAttrs.length + (e :: exprs).length = outAttrs.length + exprs.length + 1 := rfl
    rw [List.foldlM_cons, bind_assoc]
    apply (runs_transformExpr e).then (by omega) (by omega)
    rintro e' rfl
    by_cases hfull : outAttrs.length = MAX_ATTRS
    · have hadd : addProjectExpr (some (.node (.project projExprs) outAttrs bStream inputs)) (logicalExpr query e) = pure none := by
        simp [addProjectExpr,deref,hfull]
      rw [hadd, pure_bind]
      apply Within.weaken ((runs_projectNull exprs).more (by omega) (by omega))
      · rintro o ⟨rfl,rfl⟩
        exact .inr ⟨by rw [hlen, List.length_nil, hfull],rfl⟩
      · rintro e ⟨hne,rfl⟩
        have hpos := List.length_pos_iff.mpr hne
        exact ⟨by omega,rfl⟩
    · have hadd : addProjectExpr (some (.node (.project projExprs) outAttrs bStream inputs)) (logicalExpr query e) =
          pure (some (.node (.project (projExprs ++ [logicalExpr query e])) (outAttrs ++ [exprAttr (logicalExpr query e)]) bStream inputs)) := by
        simp [addProjectExpr,deref,hfull]
      rw [hadd, pure_bind]
      have hroom : (outAttrs ++ [exprAttr (logicalExpr query e)]).length ≤ MAX_ATTRS := by
        rw [List.length_append, List.length_singleton]
        omega
      have hnext : (outAttrs ++ [exprAttr (logicalExpr query e)]).length = outAttrs.length + 1 := by
        rw [List.length_append, List.length_singleton]
      apply Within.weaken ((ih hroom).more (by omega) (by omega))
      · rintro o (⟨hle,rfl⟩ | ⟨heq,rfl⟩)
        · exact .inl ⟨by omega,by simp⟩
        · exact .inr ⟨by omega,rfl⟩
      · rintro e ⟨hgt,rfl⟩
        exact ⟨by omega,rfl⟩

theorem runs_doProjs (p : Plan) : Runs 1 (query.projExprs.map Semantic.Expr.size).sum (doProjs query (some p))
    (fun o => query.projExprs.length ≤ MAX_ATTRS ∧ o = some (projectPlan query p) ∨ query.projExprs.length = MAX_ATTRS + 1 ∧ o = none)
    (fun e => MAX_ATTRS + 1 < query.projExprs.length ∧ e = .nullDeref) := by
  have hmk : Runs 1 0 (mkProject (some p)) (· = some (.node (.project []) [] p.bStream [p]))
      (fun e => MAX_ATTRS + 1 < query.projExprs.length ∧ e = .nullDeref) := runs_newop _
  apply hmk.then (by omega) (by omega)
  rintro o rfl
  have hloop := @runs_projectExprs query query.projExprs [] [] p.bStream [p] (Nat.zero_le _)
  simp only [List.length_nil, Nat.zero_add, List.nil_append] at hloop
  exact hloop.more (by omega) (by omega)

theorem runs_applyDistinct (p : Plan) : Runs 1 0 (applyDistinct query (some p)) (· = distinctPlan query p) F := by
  unfold applyDistinct distinctPlan
  have hmk : Runs 1 0 (mkDistinct (some p)) (· = some (unaryNode .distinct p.outAttrs p)) F := runs_mkUnary .distinct (fun b => b) p
  cases query.bDistinct with
  | true =>
    apply hmk.then (by omega) (by omega)
    rintro o rfl
    exact runs_pure rfl
  | false => exact runs_pure rfl

/-- Without a project, DISTINCT reads from the null pointer, and otherwise it is found. -/
theorem runs_distinctNull : Runs 1 0 (applyDistinct query none) (fun _ => False)
    (fun e => e = if query.bDistinct then .nullDeref else .code (-1)) := by
  unfold applyDistinct
  cases query.bDistinct with
  | true =>
    intro u hu
    have hop : u.operatorPtr + 1 ≤ MAXOPERATOR := hu.1
    have hne : u.operatorPtr ≠ MAXOPERATOR := by omega
    have hmk : mkDistinct none u = .error .nullDeref { u with operatorPtr := u.operatorPtr + 1 } := by
      simp [mkDistinct,mkUnary,newop,deref,bind,EStateM.bind,Outcome.get_apply,Outcome.set_apply,Outcome.throw_apply,hne]
    have hrun := @Outcome.bind_of_error _ _ _ _ _ orFail _ _ _ hmk
    rw [if_pos rfl, hrun]
    exact rfl
  | false => exact runs_throw rfl

theorem runs_applyR2SOps (p : Plan) : Runs 1 0 (applyR2SOps query (some p)) (· = some (r2sPlan query p)) F := by
  unfold applyR2SOps r2sPlan
  cases query.r2sOp with
  | none => exact runs_pure rfl
  | some op =>
    have hunary (kind : Kind) : Runs 1 0 (do return some (← orFail (← mkUnary kind (fun _ => true) (some p))))
        (· = some (.node kind p.outAttrs true [p])) F := by
      apply (runs_mkUnary kind (fun _ => true) p).then (by omega) (by omega)
      rintro o rfl
      exact runs_pure rfl
    cases op with
    | istream => exact hunary .istream
    | dstream => exact hunary .dstream
    | rstream => exact hunary .rstream

/-- How the generation of a naive plan fails, and for which queries. -/
inductive Refused (tableMgr : TableManager) (query : Semantic.Query) : Failure → Prop where
  | join (wide : ¬ JoinFits tableMgr query) : Refused tableMgr query (.code (-1))
  | aggrs {e : Failure} (join : JoinFits tableMgr query) (aggrs : AggrFailure query e) : Refused tableMgr query e
  | project (join : JoinFits tableMgr query) (aggrs : query.gbyAttrs.length + query.numAggrs ≤ MAX_ATTRS)
      (many : MAX_ATTRS + 1 < query.projExprs.length) : Refused tableMgr query .nullDeref
  | distinct (join : JoinFits tableMgr query) (aggrs : query.gbyAttrs.length + query.numAggrs ≤ MAX_ATTRS)
      (many : query.projExprs.length = MAX_ATTRS + 1) : Refused tableMgr query (if query.bDistinct then .nullDeref else .code (-1))

structure Accepted (tableMgr : TableManager) (query : Semantic.Query) : Prop where
  join : JoinFits tableMgr query
  aggrs : query.gbyAttrs.length + query.numAggrs ≤ MAX_ATTRS
  collected : collectAllAggrs query query.projExprs [] = some (logicalAggrs query)
  project : query.projExprs.length ≤ MAX_ATTRS

theorem runs_genSFWPlan (htables : query.fromClauseTables ≠ []) (hgroup : query.gbyAttrs.length ≤ MAX_GROUP_ATTRS) :
    Runs (2 * query.fromClauseTables.length + query.preds.length + 5) query.size (genSFWPlan tableMgr query)
      (fun o => Accepted tableMgr query ∧ o = some (sfwPlan tableMgr query (logicalAggrs query))) (Refused tableMgr query) := by
  have hsize : query.size = (query.preds.map Semantic.BExpr.size).sum + (query.projExprs.map Semantic.Expr.size).sum := rfl
  have hjoins : Runs (1 + 2 * query.fromClauseTables.length) 0 (joinTables tableMgr query)
      (fun o => JoinFits tableMgr query ∧ o = some (joinPlan tableMgr query)) (Refused tableMgr query) :=
    Within.weaken (runs_joinTables htables) (fun _ h => h) fun e he => he.2 ▸ Refused.join he.1
  unfold genSFWPlan
  apply hjoins.then (by omega) (by omega)
  rintro join ⟨hjoin,rfl⟩
  apply (runs_applyPreds (joinPlan tableMgr query)).then (by omega) (by omega)
  rintro select rfl
  have haggr (p : Plan) : Runs 1 0 (applyAggr query (some p)) _ (Refused tableMgr query) :=
    Within.weaken (runs_applyAggr p hgroup) (fun _ h => h) fun e he => .aggrs hjoin he
  apply (haggr _).then (by omega) (by omega)
  rintro aggr ⟨haggrs,hcollected,rfl⟩
  have hprojs (p : Plan) : Runs 1 (query.projExprs.map Semantic.Expr.size).sum (doProjs query (some p)) _ (Refused tableMgr query) :=
    Within.weaken (runs_doProjs p) (fun _ h => h) fun e he => he.2 ▸ .project hjoin haggrs he.1
  apply (hprojs _).then (by omega) (by omega)
  rintro project (⟨hproj,rfl⟩ | ⟨hmany,rfl⟩)
  · apply (runs_applyDistinct _).then (by omega) (by omega)
    rintro distinct rfl
    apply Within.weaken ((runs_applyR2SOps _).more (by omega) (by omega))
    · rintro o rfl
      exact ⟨⟨hjoin,haggrs,hcollected,hproj⟩,rfl⟩
    · exact fun e he => he
  · have hnull : Runs 1 0 (applyDistinct query none) (fun _ => False) (Refused tableMgr query) :=
      Within.weaken runs_distinctNull (fun _ h => h) fun e he => he ▸ .distinct hjoin haggrs hmany
    apply hnull.then (by omega) (by omega)
    exact fun _ hfalse => hfalse.elim

theorem runs_genBinOpPlan : Runs 4 0 (genBinOpPlan tableMgr query) (· = some (setOpPlan tableMgr query)) F := by
  unfold genBinOpPlan
  apply (runs_getSource 0 (query.refTables 0)).then (by omega) (by omega)
  rintro l rfl
  apply (runs_getSource 0 (query.refTables 1)).then (by omega) (by omega)
  rintro r rfl
  have hset (kind : Kind) (f : Bool → Bool → Bool) (hf : ∀ b c, f b c = kind.streams [b, c]) (l r : Plan) :
      Runs 1 0 (mkSetOp tableMgr kind f (some l) (some r)) (· = some (setOpNode tableMgr kind l r)) F := by
    have hnode : setOpNode tableMgr kind l r =
        .node kind (l.outAttrs.map fun a => .unnamed (attrType tableMgr a)) (f l.bStream r.bStream) [l, r] := by
      rw [hf]
      rfl
    rw [hnode]
    exact runs_newop _
  have hunion : ∀ b c, (b && c) = Kind.union.streams [b, c] := by simp [Kind.streams]
  have hbinOp : Runs 1 0 (if query.binOp = .union then mkUnion tableMgr (some (sourcePlan tableMgr 0 (query.refTables 0)))
        (some (sourcePlan tableMgr 0 (query.refTables 1)))
      else mkExcept tableMgr (some (sourcePlan tableMgr 0 (query.refTables 0))) (some (sourcePlan tableMgr 0 (query.refTables 1))) :
        Gen (Option Plan)) (· = some (setOpNode tableMgr (if query.binOp = .union then .union else .except)
      (sourcePlan tableMgr 0 (query.refTables 0)) (sourcePlan tableMgr 0 (query.refTables 1)))) F := by
    split
    · exact hset .union _ hunion _ _
    · exact hset .except _ (fun _ _ => rfl) _ _
  apply hbinOp.then (by omega) (by omega)
  rintro o rfl
  exact (runs_applyR2SOps _).more (by omega) (by omega)

end Naive

end AqsiosCoordinator.Logical.Plan
