import AqsiosCoordinator.Querygen.PlanDenotation

/-! # The naive plan as a tree

When no capacity is exceeded, the plan that is generated for a query is a function of
the query and the tables.
-/
namespace AqsiosCoordinator.Logical.Plan
open Common Foundation Foundation.Outcome Metadata

/-- An operator on one input, with the flag that its constructor gives it. -/
def unaryNode (kind : Kind) (outAttrs : List Attr) (p : Plan) : Plan := .node kind outAttrs (kind.streams [p.bStream]) [p]

section Tree
variable (tableMgr : TableManager) (query : Semantic.Query)

def logicalExpr : Semantic.Expr → Expr
  | .constVal c => .constVal c
  | .attrRef type attr => .attrRef type (transformAttr query attr)
  | .aggrExpr type fn attr => .attrRef type (transformAggrAttr query fn attr)
  | .compExpr _ op left right => .compExpr (logicalExpr left).type op (logicalExpr left) (logicalExpr right)

def logicalBExpr (b : Semantic.BExpr) : BExpr := ⟨b.op,logicalExpr query b.left,logicalExpr query b.right⟩

def sourcePlan (varId tableId : ℕ) : Plan :=
  if tableMgr.isStream tableId then .node (.streamSource varId tableId) (tableAttrs tableMgr varId tableId) true []
  else .node (.relnSource varId tableId) (tableAttrs tableMgr varId tableId) false []

def windowKind : Semantic.WindowSpec → Option Kind
  | .range timeUnits => some (.rangeWin timeUnits)
  | .row numRows => some (.rowWin numRows)
  | .partition numRows attrs => some (.partnWin ((attrs.map (transformAttr query)).take MAX_GROUP_ATTRS) numRows)
  | .now => some .nowWin
  | .unbounded => none

def windowPlan (win : Semantic.WindowSpec) (p : Plan) : Plan :=
  match windowKind query win with
  | some kind => unaryNode kind p.outAttrs p
  | none => p

def branch (t varId : ℕ) : Plan :=
  let source := sourcePlan tableMgr varId (query.refTables varId)
  if tableMgr.isStream (query.refTables varId) then windowPlan query (query.winSpec t) source else source

def branches : List Plan := query.fromClauseTables.zipIdx.map fun v => branch tableMgr query v.2 v.1

def crossPlan (inputs : List Plan) : Plan :=
  .node .cross (inputs.map Plan.outAttrs).flatten (Kind.cross.streams (inputs.map Plan.bStream)) inputs

def joinPlan : Plan :=
  match branches tableMgr query with
  | [p] => p
  | inputs => crossPlan inputs

def selectPlan (preds : List BExpr) (p : Plan) : Plan := preds.foldl (fun p b => unaryNode (.select b) p.outAttrs p) p

def aggrPlan (aggrs : List (AggrFn × Attr)) (p : Plan) : Plan :=
  let groupAttrs := query.gbyAttrs.map (transformAttr query)
  if aggrs = [] ∧ query.gbyAttrs = [] then p
  else unaryNode (.groupAggr groupAttrs aggrs) (groupAttrs ++ aggrs.map fun a => aggrAttr a.1 a.2) p

def projectPlan (p : Plan) : Plan :=
  let projExprs := query.projExprs.map (logicalExpr query)
  unaryNode (.project projExprs) (projExprs.map exprAttr) p

def distinctPlan (p : Plan) : Plan := if query.bDistinct then unaryNode .distinct p.outAttrs p else p

def r2sKind : Semantic.R2SOp → Kind
  | .istream => .istream
  | .dstream => .dstream
  | .rstream => .rstream

def r2sPlan (p : Plan) : Plan :=
  match query.r2sOp with
  | none => p
  | some op => unaryNode (r2sKind op) p.outAttrs p

def sfwPlan (aggrs : List (AggrFn × Attr)) : Plan :=
  r2sPlan query (distinctPlan query (projectPlan query (aggrPlan query aggrs
    (selectPlan (query.preds.map (logicalBExpr query)) (joinPlan tableMgr query)))))

def setOpNode (kind : Kind) (left right : Plan) : Plan :=
  .node kind (left.outAttrs.map fun a => .unnamed (attrType tableMgr a)) (kind.streams [left.bStream, right.bStream]) [left, right]

def setOpPlan : Plan :=
  r2sPlan query (setOpNode tableMgr (if query.binOp = .union then .union else .except)
    (sourcePlan tableMgr 0 (query.refTables 0)) (sourcePlan tableMgr 0 (query.refTables 1)))

def Generated (p : Plan) : Prop :=
  query.kind = .sfwQuery ∧ (∃ aggrs, collectAllAggrs query query.projExprs [] = some aggrs ∧ p = sfwPlan tableMgr query aggrs) ∨
  query.kind = .binaryOp ∧ p = setOpPlan tableMgr query

end Tree

section Correctness
variable {tableMgr : TableManager} {query : Semantic.Query}

theorem ensures_transformExpr (e : Semantic.Expr) : Ensures (transformExpr query e) (· = logicalExpr query e) := by
  induction e with
  | constVal c => exact Ensures.bind ensures_any fun _ _ => ensures_pure rfl
  | attrRef type attr => exact Ensures.bind ensures_any fun _ _ => ensures_pure rfl
  | aggrExpr type fn attr => exact Ensures.bind ensures_any fun _ _ => ensures_pure rfl
  | compExpr type op left right hl hr =>
    refine Ensures.bind hl fun l hl => Ensures.bind hr fun r hr => Ensures.bind ensures_any fun _ _ => ensures_pure ?_
    rw [hl, hr]
    rfl

theorem ensures_transformBExpr (b : Semantic.BExpr) : Ensures (transformBExpr query b) (· = logicalBExpr query b) := by
  refine Ensures.bind (ensures_transformExpr b.left) fun l hl => Ensures.bind (ensures_transformExpr b.right) fun r hr => ?_
  apply ensures_pure
  rw [hl, hr]
  rfl

theorem ensures_mkUnary_eq {kind : Kind} {f : Bool → Bool} {input : Option Plan} {p : Plan} (hf : ∀ b, f b = kind.streams [b])
    (h : Holds (· = p) input) : Ensures (mkUnary kind f input) (Holds (· = unaryNode kind p.outAttrs p)) := by
  refine ensures_newop (Ensures.bind (ensures_deref h) fun i hi => ensures_pure ?_)
  rw [hi, hf]
  rfl

theorem ensures_getSource_eq (varId tableId : ℕ) :
    Ensures (getSource tableMgr varId tableId) (· = sourcePlan tableMgr varId tableId) := by
  refine Ensures.bind (Q := Holds (· = sourcePlan tableMgr varId tableId)) ?_ fun o ho => ensures_orFail ho
  unfold sourcePlan
  cases tableMgr.isStream tableId with
  | true => exact ensures_newop (ensures_pure rfl)
  | false => exact ensures_newop (ensures_pure rfl)

theorem ensures_partnWindowAddAttr_eq {pwin : Option Plan} {partnAttrs outAttrs : List Attr} {numRows : ℕ} {bStream : Bool}
    {inputs : List Plan} (attr : Attr) (h : Holds (· = .node (.partnWin partnAttrs numRows) outAttrs bStream inputs) pwin) :
    Ensures (partnWindowAddAttr pwin attr) (fun o => (o = none ∧ partnAttrs.length = MAX_GROUP_ATTRS) ∨
      (o = some (.node (.partnWin (partnAttrs ++ [attr]) numRows) outAttrs bStream inputs) ∧ partnAttrs.length ≠ MAX_GROUP_ATTRS)) := by
  refine Ensures.bind (ensures_deref h) fun p hp => ?_
  subst hp
  dsimp only
  split
  · rename_i hlen
    exact ensures_pure (.inl ⟨rfl,hlen⟩)
  · rename_i hlen
    exact ensures_pure (.inr ⟨rfl,hlen⟩)

theorem take_append_take (n : ℕ) (l r : List Attr) : ((l.take n) ++ r).take n = (l ++ r).take n := by
  rw [List.take_append, List.take_append, List.take_take, min_self, List.length_take]
  congr 2
  omega

/-- The loop over the attributes of a PARTITION BY list, with a body that adds one of them while there is room. -/
theorem ensures_partnAttrs {step : Option Plan → Semantic.Attr → Gen (Option Plan)} {numRows : ℕ} {p : Plan}
    (hstep : ∀ (partnAttrs : List Attr) (o : Option Plan) (a : Semantic.Attr), partnAttrs.length ≤ MAX_GROUP_ATTRS →
      Holds (· = .node (.partnWin partnAttrs numRows) p.outAttrs false [p]) o →
      Ensures (step o a) (Holds (· = .node (.partnWin ((partnAttrs ++ [transformAttr query a]).take MAX_GROUP_ATTRS) numRows)
        p.outAttrs false [p])))
    (attrs : List Semantic.Attr) {partnAttrs : List Attr} (hlen : partnAttrs.length ≤ MAX_GROUP_ATTRS) {o : Option Plan}
    (ho : Holds (· = .node (.partnWin partnAttrs numRows) p.outAttrs false [p]) o) :
    Ensures (attrs.foldlM step o) (Holds (· = .node (.partnWin ((partnAttrs ++ attrs.map (transformAttr query)).take
      MAX_GROUP_ATTRS) numRows) p.outAttrs false [p])) := by
  induction attrs generalizing partnAttrs o with
  | nil =>
    rw [List.map_nil, List.append_nil, List.take_of_length_le hlen]
    exact ensures_pure ho
  | cons a attrs ih =>
    rw [List.foldlM_cons]
    refine Ensures.bind (hstep partnAttrs o a hlen ho) fun o' ho' => ?_
    refine (ih (List.length_take_le _ _) ho').weaken fun o'' ho'' => ?_
    rw [take_append_take] at ho''
    rw [List.map_cons, List.append_cons]
    exact ho''

theorem ensures_applyWindow_eq (win : Semantic.WindowSpec) {inputStr : Option Plan} {p : Plan} (h : Holds (· = p) inputStr) :
    Ensures (applyWindow query win inputStr) (Holds (· = windowPlan query win p)) := by
  cases win with
  | range timeUnits => exact ensures_mkUnary_eq (fun _ => rfl) h
  | row numRows => exact ensures_mkUnary_eq (fun _ => rfl) h
  | now => exact ensures_mkUnary_eq (fun _ => rfl) h
  | unbounded => exact ensures_pure h
  | partition numRows attrs =>
    have hwin : Ensures (mkPartnWindow inputStr numRows) (Holds (· = unaryNode (.partnWin [] numRows) p.outAttrs p)) :=
      ensures_mkUnary_eq (fun _ => rfl) h
    refine Ensures.bind hwin fun o ho => ensures_partnAttrs (fun partnAttrs o a hlen ho => ?_) attrs (Nat.zero_le _) ho
    refine Ensures.bind (ensures_partnWindowAddAttr_eq (transformAttr query a) ho) fun r hr => ?_
    rcases hr with ⟨rfl,hfull⟩ | ⟨rfl,hne⟩
    · rw [List.take_left' hfull]
      exact ensures_pure ho
    · rw [List.take_of_length_le (by simp; omega)]
      exact ensures_pure (holds_some rfl)

theorem ensures_tablePlan_eq (t varId : ℕ) : Ensures (tablePlan tableMgr query t varId) (Holds (· = branch tableMgr query t varId)) := by
  refine Ensures.bind (ensures_getSource_eq varId (query.refTables varId)) fun p hp => ?_
  subst hp
  unfold branch
  dsimp only
  split
  · exact ensures_applyWindow_eq _ (holds_some rfl)
  · exact ensures_pure (holds_some rfl)

theorem ensures_mkCross_eq : Ensures mkCross (Holds (· = crossPlan [])) :=
  ensures_newop (ensures_pure (by simp [crossPlan,Kind.streams]))

theorem crossPlan_append (inputs : List Plan) (p : Plan) :
    Plan.node .cross ((crossPlan inputs).outAttrs ++ p.outAttrs) ((crossPlan inputs).bStream && p.bStream)
      (inputs ++ [p]) = crossPlan (inputs ++ [p]) := by
  simp [crossPlan,Kind.streams]

theorem ensures_crossAddInput_eq {input : Option Plan} {inputs : List Plan} {p : Plan} (h : Holds (· = p) input) :
    Ensures (crossAddInput (some (crossPlan inputs)) input) (Holds (· = crossPlan (inputs ++ [p]))) := by
  refine Ensures.bind (ensures_deref (holds_some rfl)) fun c hc => Ensures.bind (ensures_deref h) fun i hi => ?_
  subst hc
  subst hi
  split
  · exact ensures_pure holds_none
  split
  · exact ensures_pure holds_none
  · exact ensures_pure (holds_some (crossPlan_append inputs i))

theorem ensures_crossTables_eq (t : ℕ) (vars : List ℕ) (inputs : List Plan) :
    Ensures (crossTables tableMgr query t vars (crossPlan inputs))
      (· = crossPlan (inputs ++ (vars.zipIdx t).map fun v => branch tableMgr query v.2 v.1)) := by
  induction vars generalizing t inputs with
  | nil => exact ensures_pure (by simp)
  | cons v vars ih =>
    unfold crossTables
    refine Ensures.bind (ensures_tablePlan_eq t v) fun table htable => ?_
    refine Ensures.bind (ensures_crossAddInput_eq htable) fun o ho => Ensures.bind (ensures_orFail ho) fun c hc => ?_
    subst hc
    refine (ih (t + 1) _).weaken fun q hq => ?_
    rw [hq, List.zipIdx_cons, List.map_cons, List.append_assoc]
    rfl

theorem ensures_joinTables_eq : Ensures (joinTables tableMgr query) (Holds (· = joinPlan tableMgr query)) := by
  unfold joinTables joinPlan branches
  split
  · exact ensures_throw
  · rename_i v hfrom
    rw [hfrom]
    exact ensures_tablePlan_eq 0 v
  · rename_i vars hne hsingle
    refine Ensures.bind ensures_mkCross_eq fun o ho => Ensures.bind (ensures_orFail ho) fun c hc => ?_
    subst hc
    refine Ensures.bind (ensures_crossTables_eq 0 _ []) fun p hp => ensures_pure (holds_some ?_)
    rw [hp, List.nil_append]
    split
    · rename_i p' hp'
      obtain ⟨x,hx,-⟩ := List.map_eq_singleton_iff.mp hp'
      have hlen : query.fromClauseTables.length = 1 := by
        have hzip := congrArg List.length hx
        simpa using hzip
      obtain ⟨v,hv⟩ := List.length_eq_one_iff.mp hlen
      exact (hsingle v hv).elim
    · rfl

theorem ensures_applyPreds_eq {input : Option Plan} {p : Plan} (h : Holds (· = p) input) :
    Ensures (applyPreds query input) (Holds (· = selectPlan (query.preds.map (logicalBExpr query)) p)) := by
  unfold applyPreds
  generalize query.preds = preds
  induction preds generalizing input p with
  | nil => exact ensures_pure h
  | cons b preds ih =>
    rw [List.foldlM_cons]
    refine Ensures.bind (Q := Holds (· = unaryNode (.select (logicalBExpr query b)) p.outAttrs p)) ?_ fun o ho => ih ho
    refine Ensures.bind (ensures_transformBExpr b) fun e he => ?_
    subst he
    have hselect : Ensures (mkSelect input (logicalBExpr query b))
        (Holds (· = unaryNode (.select (logicalBExpr query b)) p.outAttrs p)) := ensures_mkUnary_eq (fun _ => rfl) h
    refine Ensures.bind hselect fun o ho => Ensures.bind (ensures_orFail ho) fun q hq => ensures_pure (holds_some hq)

theorem ensures_foldAggr {op : Option Plan} {groupAttrs : List Attr} {aggrs : List (AggrFn × Attr)} {outAttrs : List Attr}
    {bStream : Bool} {inputs : List Plan} (more : List (AggrFn × Attr))
    (h : Holds (· = .node (.groupAggr groupAttrs aggrs) outAttrs bStream inputs) op) :
    Ensures (more.foldlM (fun op a => addAggr op a.1 a.2) op) (Holds (· = .node (.groupAggr groupAttrs (aggrs ++ more))
      (outAttrs ++ more.map fun a => aggrAttr a.1 a.2) bStream inputs)) := by
  induction more generalizing op aggrs outAttrs with
  | nil => exact ensures_pure (by simpa using h)
  | cons a more ih =>
    rw [List.foldlM_cons]
    refine Ensures.bind (Q := Holds (· = .node (.groupAggr groupAttrs (aggrs ++ [a])) (outAttrs ++ [aggrAttr a.1 a.2])
      bStream inputs)) ?_ fun o ho => ?_
    · refine Ensures.bind (ensures_deref h) fun p hp => ?_
      subst hp
      dsimp only
      split
      · exact ensures_pure holds_none
      · exact Ensures.bind ensures_any fun _ _ => ensures_pure (holds_some rfl)
    · refine (ih ho).weaken fun o' ho' => ?_
      simpa using ho'

theorem ensures_foldGroup {op : Option Plan} {groupAttrs : List Attr} {outAttrs : List Attr} {bStream : Bool}
    {inputs : List Plan} (more : List Semantic.Attr) (h : Holds (· = .node (.groupAggr groupAttrs []) outAttrs bStream inputs) op) :
    Ensures (more.foldlM (fun op a => addGroupAttr op (transformAttr query a)) op)
      (Holds (· = .node (.groupAggr (groupAttrs ++ more.map (transformAttr query)) [])
        (outAttrs ++ more.map (transformAttr query)) bStream inputs)) := by
  induction more generalizing op groupAttrs outAttrs with
  | nil => exact ensures_pure (by simpa using h)
  | cons a more ih =>
    rw [List.foldlM_cons]
    refine Ensures.bind (Q := Holds (· = .node (.groupAggr (groupAttrs ++ [transformAttr query a]) [])
      (outAttrs ++ [transformAttr query a]) bStream inputs)) ?_ fun o ho => ?_
    · refine Ensures.bind (ensures_deref h) fun p hp => ?_
      subst hp
      dsimp only
      split
      · exact ensures_pure holds_none
      · exact Ensures.bind ensures_any fun _ _ => ensures_pure (holds_some rfl)
    · refine (ih ho).weaken fun o' ho' => ?_
      simpa using ho'

theorem ensures_applyAggr_eq {input : Option Plan} {p : Plan} (h : Holds (· = p) input) :
    Ensures (applyAggr query input) (fun o => ∃ aggrs, collectAllAggrs query query.projExprs [] = some aggrs ∧
      Holds (· = aggrPlan query aggrs p) o) := by
  unfold applyAggr
  split
  · exact ensures_throw
  · rename_i aggrs haggrs
    by_cases hnone : aggrs = [] ∧ query.gbyAttrs = []
    · rw [if_pos hnone]
      refine ensures_pure ⟨aggrs,haggrs,?_⟩
      rw [aggrPlan, if_pos hnone]
      exact h
    · rw [if_neg hnone]
      have hmk : Ensures (mkGroupAggr input) (Holds (· = .node (.groupAggr [] []) [] false [p])) :=
        ensures_newop (Ensures.bind (ensures_deref h) fun i hi => ensures_pure (by rw [hi]))
      refine Ensures.bind hmk fun o ho => Ensures.bind (ensures_orFail ho) fun c hc => ?_
      refine Ensures.bind (ensures_foldGroup query.gbyAttrs (holds_some hc)) fun o ho => ?_
      refine (ensures_foldAggr aggrs ho).weaken fun o ho => ⟨aggrs,haggrs,?_⟩
      rw [aggrPlan, if_neg hnone]
      exact ho

theorem ensures_doProjs_eq {input : Option Plan} {p : Plan} (h : Holds (· = p) input) :
    Ensures (doProjs query input) (Holds (· = projectPlan query p)) := by
  have hmk : Ensures (mkProject input) (Holds (· = .node (.project []) [] p.bStream [p])) :=
    ensures_newop (Ensures.bind (ensures_deref h) fun i hi => ensures_pure (by rw [hi]))
  have hloop (exprs : List Semantic.Expr) (projExprs : List Expr) (outAttrs : List Attr) (o : Option Plan)
      (ho : Holds (· = .node (.project projExprs) outAttrs p.bStream [p]) o) :
      Ensures (exprs.foldlM (fun project e => do addProjectExpr project (← transformExpr query e)) o)
        (Holds (· = .node (.project (projExprs ++ exprs.map (logicalExpr query)))
          (outAttrs ++ (exprs.map (logicalExpr query)).map exprAttr) p.bStream [p])) := by
    induction exprs generalizing projExprs outAttrs o with
    | nil => exact ensures_pure (by simpa using ho)
    | cons e exprs ih =>
      rw [List.foldlM_cons]
      refine Ensures.bind (Q := Holds (· = .node (.project (projExprs ++ [logicalExpr query e]))
        (outAttrs ++ [exprAttr (logicalExpr query e)]) p.bStream [p])) ?_ fun o' ho' => ?_
      · refine Ensures.bind (ensures_transformExpr e) fun e' he' => Ensures.bind (ensures_deref ho) fun q hq => ?_
        subst he' hq
        dsimp only
        split
        · exact ensures_pure holds_none
        · exact ensures_pure (holds_some rfl)
      · refine (ih _ _ o' ho').weaken fun o'' ho'' => ?_
        simpa using ho''
  refine Ensures.bind hmk fun o ho => Ensures.bind (ensures_orFail ho) fun c hc => ?_
  exact hloop query.projExprs [] [] _ (holds_some hc)

theorem ensures_applyDistinct_eq {input : Option Plan} {p : Plan} (h : Holds (· = p) input) :
    Ensures (applyDistinct query input) (· = distinctPlan query p) := by
  refine Ensures.bind (Q := Holds (· = distinctPlan query p)) ?_ fun o ho => ensures_orFail ho
  unfold distinctPlan
  cases query.bDistinct with
  | true => exact ensures_mkUnary_eq (fun _ => rfl) h
  | false => exact ensures_pure h

theorem ensures_applyR2SOps_eq {input : Option Plan} {p : Plan} (h : Holds (· = p) input) :
    Ensures (applyR2SOps query input) (Holds (· = r2sPlan query p)) := by
  unfold applyR2SOps r2sPlan
  cases query.r2sOp with
  | none => exact ensures_pure h
  | some op =>
    have hunary (kind : Kind) (hk : ∀ b, true = kind.streams [b]) (hop : r2sKind op = kind) :
        Ensures (do return some (← orFail (← mkUnary kind (fun _ => true) input)))
          (Holds (· = unaryNode (r2sKind op) p.outAttrs p)) := by
      rw [hop]
      refine Ensures.bind (ensures_mkUnary_eq hk h) fun o ho => Ensures.bind (ensures_orFail ho) fun q hq => ?_
      exact ensures_pure (holds_some hq)
    cases op with
    | istream => exact hunary .istream (fun _ => rfl) rfl
    | dstream => exact hunary .dstream (fun _ => rfl) rfl
    | rstream => exact hunary .rstream (fun _ => rfl) rfl

/-- What is generated is the plan of the query. -/
theorem ensures_genPlan_eq : Ensures (genPlan tableMgr query) (Holds (Generated tableMgr query)) := by
  refine Ensures.bind ensures_any fun _ _ => ?_
  split
  · rename_i hk
    unfold genSFWPlan
    refine Ensures.bind ensures_joinTables_eq fun join hjoin => Ensures.bind (ensures_applyPreds_eq hjoin) fun sel hsel => ?_
    refine Ensures.bind (ensures_applyAggr_eq hsel) fun aggr ⟨aggrs,haggrs,haggr⟩ => ?_
    refine Ensures.bind (ensures_doProjs_eq haggr) fun project hproject => ?_
    refine Ensures.bind (ensures_applyDistinct_eq hproject) fun distinct hdistinct => ?_
    refine (ensures_applyR2SOps_eq (holds_some hdistinct)).weaken fun o ho p hp => ?_
    exact .inl ⟨hk,aggrs,haggrs,ho p hp⟩
  · rename_i hk
    have hbinary : query.kind = .binaryOp := by
      cases hkind : query.kind with
      | sfwQuery => exact absurd hkind hk
      | binaryOp => rfl
    unfold genBinOpPlan
    refine Ensures.bind (ensures_getSource_eq _ _) fun l hl => Ensures.bind (ensures_getSource_eq _ _) fun r hr => ?_
    subst hl hr
    have hset (kind : Kind) (f : Bool → Bool → Bool) (hf : ∀ b c, f b c = kind.streams [b, c]) (l r : Plan) :
        Ensures (mkSetOp tableMgr kind f (some l) (some r)) (Holds (· = setOpNode tableMgr kind l r)) := by
      refine ensures_newop (Ensures.bind (ensures_deref (holds_some rfl)) fun l' hl' => ?_)
      refine Ensures.bind (ensures_deref (holds_some rfl)) fun r' hr' => ensures_pure ?_
      subst hl' hr'
      rw [hf]
      rfl
    have hunion : ∀ b c, (b && c) = Kind.union.streams [b, c] := by simp [Kind.streams]
    refine Ensures.bind (Q := Holds (· = setOpNode tableMgr (if query.binOp = .union then .union else .except)
      (sourcePlan tableMgr 0 (query.refTables 0)) (sourcePlan tableMgr 0 (query.refTables 1)))) ?_ fun o ho => ?_
    · split
      · exact hset .union _ hunion _ _
      · exact hset .except _ (fun _ _ => rfl) _ _
    · exact (ensures_applyR2SOps_eq ho).weaken fun o ho p hp => .inr ⟨hbinary,ho p hp⟩

end Correctness
end AqsiosCoordinator.Logical.Plan
