import AqsiosCoordinator.Querygen.NaivePlans

/-! # The schemas of generated plans

The naive plan and what the removal of RSTREAM makes of it have the schemas that
their operators give them.
-/
namespace AqsiosCoordinator.Logical.Plan
open Common Foundation Foundation.Outcome Metadata

def Formed (tableMgr : TableManager) : Plan → Prop :=
  Everywhere fun kind outAttrs inputs => kind.Schema tableMgr inputs outAttrs ∧ (kind.IsCross → 2 ≤ inputs.length)

variable {tableMgr : TableManager} {query : Semantic.Query} {p q : Plan}

theorem Everywhere.imp {P Q : Kind → List Attr → List (List Attr) → Prop} (h : Everywhere P p)
    (himp : ∀ kind outAttrs inputs, P kind outAttrs inputs → Q kind outAttrs inputs) : Everywhere Q p := by
  induction h with
  | node here _ ih => exact .node (himp _ _ _ here) ih

theorem Formed.schemed (h : Formed tableMgr p) : Schemed tableMgr p := Everywhere.imp h fun _ _ _ h => h.1

def copiesSchema : Kind → Bool
  | .rowWin _ | .rangeWin _ | .nowWin | .partnWin _ _ | .select _ | .distinct | .istream | .dstream | .rstream => true
  | _ => false

theorem source_outAttrs (varId tableId : ℕ) : (sourcePlan tableMgr varId tableId).outAttrs = tableAttrs tableMgr varId tableId := by
  unfold sourcePlan
  split
  · rfl
  · rfl

theorem window_outAttrs (query : Semantic.Query) (win : Semantic.WindowSpec) : (windowPlan query win p).outAttrs = p.outAttrs := by
  cases win <;> rfl

theorem branch_outAttrs (t varId : ℕ) :
    (branch tableMgr query t varId).outAttrs = tableAttrs tableMgr varId (query.refTables varId) := by
  unfold branch
  dsimp only
  split
  · rw [window_outAttrs, source_outAttrs]
  · exact source_outAttrs _ _

/-- A property of operators with their schemas that says of the copying ones that they copy. -/
structure Copying (P : Kind → List Attr → List (List Attr) → Prop) : Prop where
  copied : ∀ {kind outAttrs inputs}, copiesSchema kind = true → (P kind outAttrs inputs ↔ inputs = [outAttrs])

/-- A property that the operators of the naive plan of a query have. -/
structure Established (tableMgr : TableManager) (query : Semantic.Query)
    (P : Kind → List Attr → List (List Attr) → Prop) : Prop extends Copying P where
  source : ∀ varId tableId, P (sourcePlan tableMgr varId tableId).kind (tableAttrs tableMgr varId tableId) []
  cross : 2 ≤ (branches tableMgr query).length →
    P .cross ((branches tableMgr query).map Plan.outAttrs).flatten ((branches tableMgr query).map Plan.outAttrs)
  groupAggr : ∀ {aggrs} attrs, collectAllAggrs query query.projExprs [] = some aggrs →
    P (.groupAggr (query.gbyAttrs.map (transformAttr query)) aggrs)
      (query.gbyAttrs.map (transformAttr query) ++ aggrs.map fun a => aggrAttr a.1 a.2) [attrs]
  project : ∀ projExprs attrs, P (.project projExprs) (projExprs.map exprAttr) [attrs]
  setOp : ∀ {kind} l r, kind = .union ∨ kind = .except → P kind (l.map fun a => .unnamed (attrType tableMgr a)) [l, r]

section Naive
variable {P : Kind → List Attr → List (List Attr) → Prop}

theorem Copying.unary {kind : Kind} (hP : Copying P) (h : Everywhere P p) (hk : copiesSchema kind = true) :
    Everywhere P (unaryNode kind p.outAttrs p) := by
  refine .node ((hP.copied hk).mpr rfl) fun q hq => ?_
  rwa [List.mem_singleton.mp hq]

theorem Established.sourcePlan (hP : Established tableMgr query P) (varId tableId : ℕ) :
    Everywhere P (sourcePlan tableMgr varId tableId) := by
  have hsource := hP.source varId tableId
  unfold Plan.sourcePlan at hsource ⊢
  split
  · rename_i hs
    rw [if_pos hs] at hsource
    exact .node hsource (by simp)
  · rename_i hs
    rw [if_neg hs] at hsource
    exact .node hsource (by simp)

theorem Established.branch (hP : Established tableMgr query P) (t varId : ℕ) : Everywhere P (branch tableMgr query t varId) := by
  have hsource := hP.sourcePlan varId (query.refTables varId)
  unfold Plan.branch
  dsimp only
  split
  · cases hw : query.winSpec t with
    | range timeUnits => exact hP.unary hsource rfl
    | row numRows => exact hP.unary hsource rfl
    | partition numRows attrs => exact hP.unary hsource rfl
    | now => exact hP.unary hsource rfl
    | unbounded => exact hsource
  · exact hsource

theorem Established.joinPlan (hP : Established tableMgr query P) (hne : query.fromClauseTables ≠ []) :
    Everywhere P (joinPlan tableMgr query) := by
  have hb : ∀ b ∈ branches tableMgr query, Everywhere P b := by
    intro b hb
    obtain ⟨v,-,rfl⟩ := List.mem_map.mp hb
    exact hP.branch v.2 v.1
  unfold Plan.joinPlan
  split
  · rename_i p hp
    exact hb p (by simp [hp])
  · rename_i hsingle
    refine .node (hP.cross ?_) hb
    have hlen : (branches tableMgr query).length = query.fromClauseTables.length := by simp [branches]
    have hpos := List.length_pos_iff.mpr hne
    have hone : (branches tableMgr query).length ≠ 1 := fun h1 => by
      obtain ⟨p,hp⟩ := List.length_eq_one_iff.mp h1
      exact hsingle p hp
    omega

theorem Copying.selectPlan (hP : Copying P) (preds : List BExpr) (h : Everywhere P p) :
    Everywhere P (selectPlan preds p) := by
  induction preds generalizing p with
  | nil => exact h
  | cons b preds ih => exact ih (hP.unary h rfl)

theorem Established.aggrPlan (hP : Established tableMgr query P) {aggrs : List (AggrFn × Attr)}
    (haggrs : collectAllAggrs query query.projExprs [] = some aggrs) (h : Everywhere P p) :
    Everywhere P (aggrPlan query aggrs p) := by
  unfold Plan.aggrPlan
  dsimp only
  split
  · exact h
  · refine .node (hP.groupAggr p.outAttrs haggrs) fun q hq => ?_
    rwa [List.mem_singleton.mp hq]

theorem Established.projectPlan (hP : Established tableMgr query P) (h : Everywhere P p) : Everywhere P (projectPlan query p) := by
  refine .node (hP.project _ _) fun q hq => ?_
  rwa [List.mem_singleton.mp hq]

theorem Copying.r2sPlan (hP : Copying P) (h : Everywhere P p) : Everywhere P (r2sPlan query p) := by
  unfold Plan.r2sPlan
  split
  · exact h
  · rename_i op _
    refine hP.unary h ?_
    cases op <;> rfl

theorem Copying.distinctPlan (hP : Copying P) (h : Everywhere P p) :
    Everywhere P (distinctPlan query p) := by
  unfold Plan.distinctPlan
  split
  · exact hP.unary h rfl
  · exact h

/-- Every operator of a naive plan has a property that the constructors establish. -/
theorem Generated.everywhere (hP : Established tableMgr query P) (h : Generated tableMgr query p)
    (hne : query.kind = .sfwQuery → query.fromClauseTables ≠ []) : Everywhere P p := by
  rcases h with ⟨hk,aggrs,haggrs,rfl⟩ | ⟨-,rfl⟩
  · have hselect := hP.selectPlan (query.preds.map (logicalBExpr query)) (hP.joinPlan (hne hk))
    exact hP.r2sPlan (hP.distinctPlan (hP.projectPlan (hP.aggrPlan haggrs hselect)))
  · have hkind : (if query.binOp = .union then Kind.union else .except) = .union ∨
        (if query.binOp = .union then Kind.union else .except) = .except := by
      split
      · exact .inl rfl
      · exact .inr rfl
    refine hP.r2sPlan (.node (hP.setOp _ _ hkind) fun q hq => ?_)
    rcases List.mem_pair.mp hq with rfl | rfl
    · exact hP.sourcePlan _ _
    · exact hP.sourcePlan _ _

end Naive

/-- The aggregations that are collected are of attributes of tables. -/
theorem collectAggrs_named (e : Semantic.Expr) {aggrs aggrs' : List (AggrFn × Attr)} (h : collectAggrs query e aggrs = some aggrs')
    (hnamed : ∀ a ∈ aggrs, a.2.isNamed = true) : ∀ a ∈ aggrs', a.2.isNamed = true := by
  induction e generalizing aggrs aggrs' with
  | constVal c =>
    obtain rfl := Option.some.inj h
    exact hnamed
  | attrRef type attr =>
    obtain rfl := Option.some.inj h
    exact hnamed
  | aggrExpr type fn attr =>
    simp only [collectAggrs] at h
    split at h
    · obtain rfl := Option.some.inj h
      exact hnamed
    split at h
    · cases h
    · obtain rfl := Option.some.inj h
      intro a ha
      rcases List.mem_append.mp ha with ha | ha
      · exact hnamed a ha
      · rw [List.mem_singleton.mp ha]
        rfl
  | compExpr type op left right hl hr =>
    obtain ⟨mid,h1,h2⟩ := Option.bind_eq_some_iff.mp h
    exact hr h2 (hl h1 hnamed)

theorem collectAllAggrs_named (es : List Semantic.Expr) {aggrs aggrs' : List (AggrFn × Attr)}
    (h : collectAllAggrs query es aggrs = some aggrs') (hnamed : ∀ a ∈ aggrs, a.2.isNamed = true) :
    ∀ a ∈ aggrs', a.2.isNamed = true := by
  induction es generalizing aggrs with
  | nil =>
    obtain rfl := Option.some.inj h
    exact hnamed
  | cons e es ih =>
    obtain ⟨mid,h1,h2⟩ := Option.bind_eq_some_iff.mp h
    exact ih h2 (collectAggrs_named e h1 hnamed)

/-- Attributes of different variables. -/
theorem apart_tableAttrs {varId varId' tableId tableId' : ℕ} (h : varId ≠ varId') :
    Apart (tableAttrs tableMgr varId tableId) (tableAttrs tableMgr varId' tableId') := by
  simp [Apart,tableAttrs,Attr.same,h]

theorem formed_copying : Copying
    fun kind outAttrs inputs => kind.Schema tableMgr inputs outAttrs ∧ (kind.IsCross → 2 ≤ inputs.length) := by
  constructor
  intro kind outAttrs inputs hk
  cases kind <;> simp_all [copiesSchema,Kind.Schema]

theorem formed_established (hfrom : query.fromClauseTables.Nodup) : Established tableMgr query
    fun kind outAttrs inputs => kind.Schema tableMgr inputs outAttrs ∧ (kind.IsCross → 2 ≤ inputs.length) := by
  refine ⟨formed_copying,?_,?_,?_,?_,?_⟩
  · intro varId tableId
    unfold sourcePlan
    split
    · exact ⟨⟨rfl,rfl⟩,by simp⟩
    · exact ⟨⟨rfl,rfl⟩,by simp⟩
  · refine fun htwo => ⟨⟨rfl,?_⟩,fun _ => by simpa using htwo⟩
    unfold branches
    rw [List.map_map, List.pairwise_map]
    have hne : query.fromClauseTables.zipIdx.Pairwise fun v w => v.1 ≠ w.1 := by
      rw [← List.pairwise_map (f := Prod.fst) (R := (· ≠ ·)), List.zipIdx_map_fst]
      exact hfrom
    refine hne.imp fun {v w} hvw => ?_
    simp only [Function.comp_apply, branch_outAttrs]
    exact apart_tableAttrs hvw
  · intro aggrs attrs haggrs
    refine ⟨⟨rfl,rfl,fun a ha => ?_,collectAllAggrs_named _ haggrs (by simp)⟩,by simp⟩
    obtain ⟨a',-,rfl⟩ := List.mem_map.mp ha
    rfl
  · exact fun _ _ => ⟨⟨rfl,rfl⟩,by simp⟩
  · intro kind l r hk
    have hsame : ∀ a ∈ l.map (fun a => Attr.unnamed (attrType tableMgr a)), ∀ b, a.same b = false := by
      simp [Attr.same]
    rcases hk with rfl | rfl
    · exact ⟨⟨_,_,rfl,List.length_map _,hsame⟩,by simp⟩
    · exact ⟨⟨_,_,rfl,List.length_map _,hsame⟩,by simp⟩

theorem formed_join (h : query.fromClauseTables.Nodup) (hne : query.fromClauseTables ≠ []) : Formed tableMgr (joinPlan tableMgr query) :=
  (formed_established h).joinPlan hne

/-- The naive plan of a query whose FROM entries have different variables. -/
theorem Generated.formed (h : Generated tableMgr query p) (hfrom : query.fromClauseTables.Nodup)
    (hne : query.kind = .sfwQuery → query.fromClauseTables ≠ []) : Formed tableMgr p :=
  h.everywhere (formed_established hfrom) hne

/-- A property that is kept when schemas are handed on from the inputs. -/
structure HandedOn (P : Kind → List Attr → List (List Attr) → Prop) : Prop extends Copying P where
  own : ∀ {kind outAttrs attrs}, schemaStops kind = true → P kind outAttrs [attrs] → ∀ new, P kind outAttrs [new]
  single : ∀ {kind outAttrs attrs}, P kind outAttrs [attrs] → copiesSchema kind = true ∨ schemaStops kind = true
  streamCross : ∀ {outAttrs inputs i attrs}, P .cross outAttrs inputs → inputs[i]? = some attrs →
    P .streamCross (attrs :: inputs.eraseIdx i).flatten (attrs :: inputs.eraseIdx i) ∧ inputs.eraseIdx i ≠ []

theorem apart_symm {l r : List Attr} (h : Apart l r) : Apart r l := by
  intro a ha
  rw [Bool.eq_false_iff]
  intro hany
  obtain ⟨b,hb,hab⟩ := List.any_eq_true.mp hany
  have hnone := List.any_eq_false.mp (h b hb) a ha
  obtain rfl := Attr.eq_of_same hab
  exact hnone hab

theorem formed_handedOn : HandedOn
    fun kind outAttrs inputs => kind.Schema tableMgr inputs outAttrs ∧ (kind.IsCross → 2 ≤ inputs.length) := by
  refine ⟨formed_copying,?_,?_,?_⟩
  · intro kind outAttrs attrs hk h new
    cases kind with
    | project projExprs => exact ⟨⟨rfl,h.1.2⟩,by simp⟩
    | groupAggr groupAttrs aggrs => exact ⟨⟨rfl,h.1.2⟩,by simp⟩
    | streamSource varId strId => exact absurd h.1.1 (by simp)
    | relnSource varId relId => exact absurd h.1.1 (by simp)
    | _ => cases hk
  · intro kind outAttrs attrs h
    cases kind <;> simp_all [copiesSchema,schemaStops,Kind.Schema]
  · rintro outAttrs inputs i attrs ⟨⟨-,hapart⟩,hmany⟩ hi
    obtain ⟨hlt,hget⟩ := List.getElem?_eq_some_iff.mp hi
    have htwo := hmany (.inl rfl)
    have hlen : (inputs.eraseIdx i).length = inputs.length - 1 := List.length_eraseIdx_of_lt hlt
    have hperm : (attrs :: inputs.eraseIdx i).Perm inputs := by
      have hp := List.getElem_cons_eraseIdx_perm hlt
      rwa [hget] at hp
    refine ⟨⟨⟨rfl,(hperm.pairwise_iff fun h => apart_symm h).mpr hapart⟩,fun _ => ?_⟩,fun hnil => ?_⟩
    · rw [List.length_cons]
      omega
    · rw [hnil, List.length_nil] at hlen
      omega

theorem Copying.tRstreamNow {P : Kind → List Attr → List (List Attr) → Prop} (hP : Copying P) (h : Everywhere P p) : Everywhere P (tRstreamNow p) := by
  unfold Plan.tRstreamNow
  split
  · rename_i outAttrs bStream input
    split
    · rename_i passed nowAttrs nowStream source hw
      have hinput : Everywhere P input := (everywhere_node.mp h).2 input (List.mem_singleton_self input)
      have hall := Everywhere.walk [] hinput hw
      obtain ⟨hnow,hsource⟩ := everywhere_node.mp hall.of_rebuild
      have hsame : List.Forall₂ (fun o o' : Passed => o'.kind = o.kind ∧ o'.outAttrs = o.outAttrs) passed
          (passed.map fun o => { o with bStream := true }) := by
        rw [List.forall₂_map_right_iff, List.forall₂_same]
        exact fun o _ => ⟨rfl,rfl⟩
      have hout : source.outAttrs = nowAttrs := by simpa using (hP.copied rfl).mp hnow
      exact Everywhere.replace hsame hall (hsource source (List.mem_singleton_self source)) hout
    · exact h
  · exact h

theorem Formed.tRstreamNow (h : Formed tableMgr p) : Formed tableMgr (tRstreamNow p) := formed_handedOn.toCopying.tRstreamNow h

def streamCrossPlan (inputs : List Plan) : Plan := .node .streamCross (inputs.map Plan.outAttrs).flatten true inputs

theorem ensures_mkStreamCross_eq (p : Plan) : Ensures (mkStreamCross (some p)) (Holds (· = streamCrossPlan [p])) := by
  refine ensures_newop (Ensures.bind (ensures_deref (holds_some rfl)) fun i hi => ensures_pure ?_)
  rw [← hi]
  simp [streamCrossPlan]

theorem ensures_streamCrossAddInputs_eq (first : Plan) (inputs more : List Plan) :
    Ensures (streamCrossAddInputs (streamCrossPlan (first :: inputs)) more) (fun q => q = streamCrossPlan (first :: inputs ++ more) ∧
      (more ≠ [] → q.outAttrs.length ≤ MAX_ATTRS)) := by
  induction more generalizing inputs with
  | nil => exact ensures_pure ⟨by simp,fun h => absurd rfl h⟩
  | cons i more ih =>
    unfold streamCrossAddInputs at ih ⊢
    rw [List.foldlM_cons]
    have hadd : Ensures (streamCrossAddInput (some (streamCrossPlan (first :: inputs))) (some i))
        (Holds fun q => q = streamCrossPlan (first :: inputs ++ [i]) ∧ q.outAttrs.length ≤ MAX_ATTRS) := by
      refine Ensures.bind (ensures_deref (holds_some rfl)) fun c hc => ?_
      subst hc
      split
      · exact ensures_pure holds_none
      refine Ensures.bind (ensures_deref (holds_some rfl)) fun i' hi => ?_
      subst hi
      split
      · exact ensures_pure holds_none
      · rename_i hlen
        refine ensures_pure (holds_some ⟨by simp [streamCrossPlan],?_⟩)
        rw [outAttrs_node, List.length_append]
        exact Nat.not_lt.mp hlen
    refine Ensures.bind (Ensures.bind hadd fun o ho => ensures_orFail ho) fun c hc => ?_
    obtain ⟨rfl,hlen⟩ := hc
    have hrest := ih (inputs ++ [i])
    rw [← List.cons_append] at hrest
    refine hrest.weaken fun q hq => ⟨?_,fun _ => ?_⟩
    · rw [hq.1, List.append_assoc]
      rfl
    · cases more with
      | nil =>
        rw [hq.1]
        simpa using hlen
      | cons j more => exact hq.2 (by simp)

theorem forall₂_unchanged (passed : List Passed) :
    List.Forall₂ (fun o o' : Passed => o'.kind = o.kind ∧ o'.outAttrs = o.outAttrs) passed passed := by
  rw [List.forall₂_same]
  exact fun o _ => ⟨rfl,rfl⟩

theorem ensures_updateStreamPropertyRecursive_same (q : Plan) (passed : List Passed) :
    Ensures (updateStreamPropertyRecursive q passed)
      (List.Forall₂ (fun o o' : Passed => o'.kind = o.kind ∧ o'.outAttrs = o.outAttrs) passed) := by
  induction passed generalizing q with
  | nil => exact ensures_pure .nil
  | cons o passed ih =>
    unfold updateStreamPropertyRecursive
    split
    · exact Ensures.bind (ih _) fun passed' hp => ensures_pure (.cons ⟨rfl,rfl⟩ hp)
    · exact Ensures.bind (ih _) fun passed' hp => ensures_pure (.cons ⟨rfl,rfl⟩ hp)
    · exact Ensures.bind (ih _) fun passed' hp => ensures_pure (.cons ⟨rfl,rfl⟩ hp)
    · exact Ensures.bind (ih _) fun passed' hp => ensures_pure (.cons ⟨rfl,rfl⟩ hp)
    · exact ensures_throw
    · exact ensures_pure (forall₂_unchanged _)

section HandedOn
variable {P : Kind → List Attr → List (List Attr) → Prop}

theorem HandedOn.ensures_updateSchemaRecursive (hP : HandedOn P) {passed : List Passed} (h : Everywhere P (rebuild p passed))
    (hq : Everywhere P q) (hlen : q.outAttrs.length ≤ MAX_ATTRS) :
    Ensures (updateSchemaRecursive q passed) (fun passed' => Everywhere P (rebuild q passed') ∧
      List.Forall₂ (fun o o' : Passed => o'.kind = o.kind) passed passed') := by
  induction passed generalizing p q with
  | nil => exact ensures_pure ⟨hq,.nil⟩
  | cons o passed ih =>
    have habove : Everywhere P (above o p) := Everywhere.of_rebuild (p := above o p) h
    obtain ⟨hhere,-⟩ := everywhere_above.mp habove
    unfold updateSchemaRecursive
    split
    · rename_i hstops
      have hq' : Everywhere P (above o q) := everywhere_above.mpr ⟨hP.own hstops hhere q.outAttrs,hq⟩
      refine ensures_pure ⟨Everywhere.replace (p := above o p) (q := above o q) (forall₂_unchanged passed) h hq' rfl,?_⟩
      rw [List.forall₂_same]
      exact fun _ _ => rfl
    split
    · exact ensures_throw
    · rename_i hstops _
      have hout : appendSchema [] q.outAttrs = q.outAttrs := by
        simp [appendSchema,Nat.not_lt.mpr hlen]
      dsimp only
      rw [hout]
      have hcopies := (hP.single hhere).resolve_right (by simpa using hstops)
      have hq' : Everywhere P (above { o with outAttrs := q.outAttrs } q) :=
        everywhere_above.mpr ⟨(hP.copied hcopies).mpr rfl,hq⟩
      exact Ensures.bind (ih (p := above o p) h hq' hlen) fun passed' hp => ensures_pure ⟨hp.1,.cons rfl hp.2⟩

/-- The stream takes the place of its window and comes first. -/
theorem HandedOn.streamCrossPlan (hP : HandedOn P) {inputs : List Plan} {outAttrs nowAttrs : List Attr} {bStream nowStream : Bool}
    {nowIndex : ℕ} {source : Plan} (h : Everywhere P (.node .cross outAttrs bStream inputs))
    (hnow : inputs[nowIndex]? = some (.node .nowWin nowAttrs nowStream [source])) :
    Everywhere P (streamCrossPlan (source :: inputs.eraseIdx nowIndex)) ∧ inputs.eraseIdx nowIndex ≠ [] := by
  obtain ⟨hcross,hinputs⟩ := everywhere_node.mp h
  obtain ⟨hwin,hsource⟩ := everywhere_node.mp (hinputs _ (List.mem_of_getElem? hnow))
  have hout : source.outAttrs = nowAttrs := by simpa using (hP.copied rfl).mp hwin
  have hattrs : (inputs.map Plan.outAttrs)[nowIndex]? = some source.outAttrs := by
    rw [List.getElem?_map, hnow, hout]
    rfl
  obtain ⟨hhere,hne⟩ := hP.streamCross hcross hattrs
  rw [List.eraseIdx_map] at hhere hne
  refine ⟨.node hhere fun i hi => ?_,fun hnil => hne (by rw [hnil]; rfl)⟩
  rcases List.mem_cons.mp hi with rfl | hi
  · exact hsource i (List.mem_singleton_self i)
  · exact hinputs i (List.mem_of_mem_eraseIdx hi)

end HandedOn

/-- The cross below an RSTREAM has become a stream cross, and the RSTREAM is gone. -/
inductive StreamCrossed : Plan → Plan → Prop where
  | intro {outAttrs crossAttrs nowAttrs : List Attr} {bStream crossStream nowStream : Bool} {input source : Plan}
      {inputs : List Plan} {passed passed' : List Passed} {nowIndex : ℕ}
      (walk : walk isAboveCross input [⟨.rstream,outAttrs,bStream⟩] = (passed,.node .cross crossAttrs crossStream inputs))
      (now : inputs[nowIndex]? = some (.node .nowWin nowAttrs nowStream [source]))
      (kinds : List.Forall₂ (fun o o' : Passed => o'.kind = o.kind) passed passed') :
      StreamCrossed (.node .rstream outAttrs bStream [input])
        (rebuild (streamCrossPlan (source :: inputs.eraseIdx nowIndex)) passed'.dropLast)

section HandedOn
variable {P : Kind → List Attr → List (List Attr) → Prop}

/-- The steps of the transformation on a plan with its pattern. -/
theorem HandedOn.ensures_tStreamCross_at (hP : HandedOn P) {outAttrs crossAttrs : List Attr} {bStream crossStream : Bool}
    {input : Plan} {inputs : List Plan} {passed : List Passed} {nowIndex : ℕ} (h : Everywhere P (.node .rstream outAttrs bStream [input]))
    (hw : walk isAboveCross input [⟨.rstream,outAttrs,bStream⟩] = (passed,.node .cross crossAttrs crossStream inputs))
    (hidx : inputs.findIdx? isNowWin = some nowIndex) :
    Ensures (tStreamCross (.node .rstream outAttrs bStream [input])) (fun q => ∃ nowAttrs nowStream source passed',
      inputs[nowIndex]? = some (.node .nowWin nowAttrs nowStream [source]) ∧
      List.Forall₂ (fun o o' : Passed => o'.kind = o.kind) passed passed' ∧
      q = rebuild (Plan.streamCrossPlan (source :: inputs.eraseIdx nowIndex)) passed'.dropLast ∧ Everywhere P q) := by
  unfold tStreamCross
  simp only [hw, hidx]
  have hall := Everywhere.walk [⟨.rstream,outAttrs,bStream⟩] (p := input) h hw
  obtain ⟨-,hinputs⟩ := everywhere_node.mp hall.of_rebuild
  refine Ensures.bind (Q := fun now => inputs[nowIndex]? = some now) (ensures_deref fun now hnow => hnow) fun now hnow => ?_
  have hkind : now.kind = .nowWin := by
    obtain ⟨hlt,hwin,-⟩ := List.findIdx?_eq_some_iff_getElem.mp hidx
    rw [List.getElem?_eq_getElem hlt] at hnow
    obtain rfl := Option.some.inj hnow
    simpa [isNowWin] using hwin
  have hthere := hinputs now (List.mem_of_getElem? hnow)
  obtain ⟨kind,nowAttrs,nowStream,sources⟩ := now
  obtain rfl : kind = .nowWin := hkind
  obtain ⟨hwin,-⟩ := everywhere_node.mp hthere
  obtain ⟨source,rfl,-⟩ : ∃ source, sources = [source] ∧ source.outAttrs = nowAttrs :=
    List.map_eq_singleton_iff.mp ((hP.copied rfl).mp hwin)
  refine Ensures.bind (Q := fun i => i = source) (ensures_deref fun i hi => (Option.some.inj hi).symm) fun i hi => ?_
  subst hi
  refine Ensures.bind (ensures_mkStreamCross_eq i) fun o ho => Ensures.bind (ensures_orFail ho) fun cross hcross => ?_
  subst hcross
  refine Ensures.bind (ensures_streamCrossAddInputs_eq i [] _) fun cross hcross => ?_
  obtain ⟨rfl,hlen⟩ := hcross
  obtain ⟨hcross,hmore⟩ := hP.streamCrossPlan hall.of_rebuild hnow
  refine Ensures.bind (hP.ensures_updateSchemaRecursive hall hcross (hlen hmore)) fun passed₁ hpassed₁ => ?_
  refine Ensures.bind (ensures_updateStreamPropertyRecursive_same _ passed₁) fun passed₂ hpassed₂ => ensures_pure ?_
  have hnew := Everywhere.replace hpassed₂ hpassed₁.1 hcross rfl
  have hkinds : List.Forall₂ (fun o o' : Passed => o'.kind = o.kind) passed passed₂ := by
    refine List.forall₂_iff_get.mpr ⟨hpassed₁.2.length_eq.trans hpassed₂.length_eq,fun k h1 h2 => ?_⟩
    have hlt : k < passed₁.length := hpassed₁.2.length_eq ▸ h1
    exact (((List.forall₂_iff_get.mp hpassed₂).2 k hlt h2).1).trans ((List.forall₂_iff_get.mp hpassed₁.2).2 k h1 hlt)
  refine ⟨nowAttrs,nowStream,i,passed₂,hnow,hkinds,rfl,?_⟩
  obtain ⟨new,hpassed,-⟩ := walk_passed isAboveCross input [⟨.rstream,outAttrs,bStream⟩]
  rw [hw] at hpassed
  have hne : passed₂ ≠ [] := by
    rw [← List.length_pos_iff, ← hkinds.length_eq, show passed = _ from hpassed]
    simp
  rw [← List.dropLast_concat_getLast hne, rebuild_append] at hnew
  exact (everywhere_above.mp hnew).2

theorem HandedOn.ensures_tStreamCross (hP : HandedOn P) (h : Everywhere P p) :
    Ensures (tStreamCross p) (fun q => (q = p ∨ StreamCrossed p q) ∧ Everywhere P q) := by
  have hsame (hp : tStreamCross p = pure p) :
      Ensures (tStreamCross p) (fun q => (q = p ∨ StreamCrossed p q) ∧ Everywhere P q) := by
    rw [hp]
    exact ensures_pure ⟨.inl rfl,h⟩
  obtain ⟨kind,outAttrs,bStream,ins⟩ := p
  by_cases hroot : kind = .rstream ∧ ∃ input, ins = [input]
  · obtain ⟨rfl,input,rfl⟩ := hroot
    obtain ⟨⟨passed,kind,crossAttrs,crossStream,inputs⟩,hw⟩ :
        ∃ r, walk isAboveCross input [⟨.rstream,outAttrs,bStream⟩] = r := ⟨_,rfl⟩
    by_cases hkind : kind = .cross
    · subst hkind
      cases hidx : inputs.findIdx? isNowWin with
      | none => exact hsame (by simp only [tStreamCross, hw, hidx])
      | some nowIndex =>
        refine (hP.ensures_tStreamCross_at h hw hidx).weaken ?_
        rintro q ⟨nowAttrs,nowStream,source,passed',hnow,hkinds,rfl,hq⟩
        exact ⟨.inr (.intro hw hnow hkinds),hq⟩
    · apply hsame
      unfold tStreamCross
      simp only [hw]
      split
      · rename_i heq
        exact absurd (congrArg Plan.kind (Prod.mk.inj heq).2) hkind
      · rfl
  · apply hsame
    unfold tStreamCross
    split
    · rename_i heq
      obtain ⟨rfl,-,-,rfl⟩ := Plan.node.inj heq
      exact absurd ⟨rfl,_,rfl⟩ hroot
    · rfl

end HandedOn

theorem ensures_tStreamCross_formed (h : Formed tableMgr p) :
    Ensures (tStreamCross p) (fun q => (q = p ∨ StreamCrossed p q) ∧ Formed tableMgr q) :=
  formed_handedOn.ensures_tStreamCross h

end AqsiosCoordinator.Logical.Plan
