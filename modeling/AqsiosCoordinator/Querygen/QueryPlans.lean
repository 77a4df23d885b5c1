import AqsiosCoordinator.Foundation.GrowingStreams
import AqsiosCoordinator.Querygen.SamePlans

/-! # The plan of a query computes what the query means

The transformations that remove RSTREAM leave the operators above the FROM clause as they
are, and replace what is below: it brings the rows of all instants so far together.
-/
namespace AqsiosCoordinator.Logical.Plan
open Common Foundation Foundation.Outcome Foundation.TimeVarying Foundation.BagOp Metadata
variable {tableMgr : TableManager} {query : Semantic.Query} {p p' q core : Plan} {kinds : List Kind} {passed : List Passed}
variable {aggrs : List (AggrFn × Attr)}

def schemaAbove (inAttrs : List Attr) : Kind → List Attr
  | .project projExprs => projExprs.map exprAttr
  | .groupAggr groupAttrs aggrs => groupAttrs ++ aggrs.map fun a => aggrAttr a.1 a.2
  | _ => inAttrs

def stack (kinds : List Kind) (p : Plan) : Plan := kinds.foldl (fun p kind => unaryNode kind (schemaAbove p.outAttrs kind) p) p

def bodyKinds (query : Semantic.Query) (aggrs : List (AggrFn × Attr)) : List Kind :=
  (query.preds.map fun b => .select (logicalBExpr query b)) ++
    ((if aggrs = [] ∧ query.gbyAttrs = [] then [] else [.groupAggr (query.gbyAttrs.map (transformAttr query)) aggrs]) ++
      (.project (query.projExprs.map (logicalExpr query)) :: if query.bDistinct then [.distinct] else []))

theorem stack_append (kinds kinds' : List Kind) (p : Plan) : stack (kinds ++ kinds') p = stack kinds' (stack kinds p) :=
  List.foldl_append

theorem selectPlan_eq (preds : List BExpr) (p : Plan) : selectPlan preds p = stack (preds.map .select) p := by
  rw [selectPlan, stack, List.foldl_map]
  rfl

theorem bodyPlan_eq (aggrs : List (AggrFn × Attr)) (p : Plan) : bodyPlan query aggrs p = stack (bodyKinds query aggrs) p := by
  rw [bodyPlan, selectPlan_eq, bodyKinds, stack_append, stack_append, List.map_map]
  unfold aggrPlan distinctPlan
  split
  · split
    · rfl
    · rfl
  · split
    · rfl
    · rfl

theorem stack_rebuild (kinds : List Kind) (p : Plan) : ∃ passed, stack kinds p = rebuild p passed ∧ passed.map Passed.kind = kinds := by
  induction kinds generalizing p with
  | nil => exact ⟨[],rfl,rfl⟩
  | cons kind kinds ih =>
    obtain ⟨passed,hstack,hkinds⟩ := ih (unaryNode kind (schemaAbove p.outAttrs kind) p)
    refine ⟨⟨kind,schemaAbove p.outAttrs kind,kind.streams [p.bStream]⟩ :: passed,hstack,?_⟩
    rw [List.map_cons, hkinds]

theorem bodyKinds_above : ∀ kind ∈ bodyKinds query aggrs, isAboveCross kind = true := by
  intro kind hkind
  simp only [bodyKinds, List.mem_append, List.mem_map, List.mem_cons] at hkind
  rcases hkind with ⟨b,-,rfl⟩ | hgroup | rfl | hdistinct
  · rfl
  · split at hgroup
    · cases hgroup
    · rw [List.mem_singleton.mp hgroup]
      rfl
  · rfl
  · split at hdistinct
    · rw [List.mem_singleton.mp hdistinct]
      rfl
    · cases hdistinct

theorem bodyKinds_ungrouped (h : aggrs = [] ∧ query.gbyAttrs = []) : ∀ kind ∈ bodyKinds query aggrs, isSelectProjectDistinct kind = true := by
  intro kind hkind
  rw [bodyKinds, if_pos h] at hkind
  simp only [List.nil_append, List.mem_append, List.mem_map, List.mem_cons] at hkind
  rcases hkind with ⟨b,-,rfl⟩ | rfl | hdistinct
  · rfl
  · rfl
  · split at hdistinct
    · rw [List.mem_singleton.mp hdistinct]
      rfl
    · cases hdistinct

/-- Operators above a group-aggregate. -/
theorem bodyKinds_grouped (h : ¬ (aggrs = [] ∧ query.gbyAttrs = [])) : ∃ low high, bodyKinds query aggrs =
    low ++ .groupAggr (query.gbyAttrs.map (transformAttr query)) aggrs :: high ∧ ∀ kind ∈ high, isSelectProjectDistinct kind = true := by
  refine ⟨_,.project (query.projExprs.map (logicalExpr query)) :: if query.bDistinct then [.distinct] else [],
    by rw [bodyKinds, if_neg h]; rfl,List.forall_mem_cons.mpr ⟨rfl,fun kind hkind => ?_⟩⟩
  split at hkind
  · rw [List.mem_singleton.mp hkind]
    rfl
  · cases hkind

section Rows
variable {α : Type} [DecidableEq α] {I : Interp α} {S : Sources α}

/-- Above plans that compute the same the same operators compute the same. -/
theorem stack_congr (kinds : List Kind) (hout : p.outAttrs = p'.outAttrs) (hrows : p.denote I S = p'.denote I S) :
    (stack kinds p).denote I S = (stack kinds p').denote I S := by
  induction kinds generalizing p p' with
  | nil => exact hrows
  | cons kind kinds ih =>
    apply ih
    · exact congrArg (schemaAbove · kind) hout
    · rw [denote_unaryNode, denote_unaryNode, hout, hrows]

/-- The schemas of operators above the FROM clause are determined by their kinds. -/
theorem denote_rebuild_stack (hpassed : ∀ o ∈ passed, isAboveCross o.kind = true) (h : Formed tableMgr (rebuild p passed)) :
    (rebuild p passed).denote I S = (stack (passed.map Passed.kind) p).denote I S := by
  induction passed generalizing p with
  | nil => rfl
  | cons o passed ih =>
    obtain ⟨ho,hpassed⟩ := List.forall_mem_cons.mp hpassed
    obtain ⟨⟨hschema,-⟩,-⟩ := everywhere_above.mp (Everywhere.of_rebuild (p := above o p) h)
    have hout : o.outAttrs = schemaAbove p.outAttrs o.kind := by
      obtain ⟨kind,outAttrs,bStream⟩ := o
      cases kind with
      | select bexpr => exact (List.cons.inj hschema).1.symm
      | distinct => exact (List.cons.inj hschema).1.symm
      | project projExprs => exact hschema.2
      | groupAggr groupAttrs aggrs => exact hschema.2.1
      | _ => cases ho
    rw [rebuild, ih hpassed h]
    apply stack_congr
    · exact hout
    · rw [above, denote_node, denote_unaryNode, List.map_singleton, hout]

end Rows

theorem unchanged_of_root (h : p.kind ≠ .rstream) : tRstreamNow p = p ∧ tStreamCross p = pure p := by
  obtain ⟨kind,outAttrs,bStream,inputs⟩ := p
  cases kind with
  | rstream => exact absurd rfl h
  | _ => exact ⟨rfl,rfl⟩

theorem tRstreamNow_of_walk {outAttrs : List Attr} {body : Plan} (hw : walk isSelectProjectDistinct body [] = (passed,core))
    (hcore : core.kind ≠ .nowWin) : tRstreamNow (unaryNode .rstream outAttrs body) = unaryNode .rstream outAttrs body := by
  rw [unaryNode, tRstreamNow]
  rw [hw]
  split
  · rename_i heq
    obtain ⟨-,rfl⟩ := Prod.mk.inj heq
    exact absurd rfl hcore
  · rfl

theorem tStreamCross_of_walk {outAttrs : List Attr} {body : Plan} (hw : walk isAboveCross body [⟨.rstream,outAttrs,true⟩] = (passed,core))
    (hcore : core.kind = .cross → core.inputs.findIdx? isNowWin = none) :
    tStreamCross (unaryNode .rstream outAttrs body) = pure (unaryNode .rstream outAttrs body) := by
  rw [unaryNode, tStreamCross]
  rw [show Kind.rstream.streams [body.bStream] = true from rfl, hw]
  split
  · rename_i heq
    obtain ⟨rfl,rfl⟩ := Prod.mk.inj heq
    have hnone := hcore rfl
    simp only [inputs_node] at hnone
    rw [hnone]
  · rfl

theorem branch_kind (tableMgr : TableManager) (query : Semantic.Query) (t v : ℕ) : isSelectProjectDistinct (branch tableMgr query t v).kind = false ∧
    isAboveCross (branch tableMgr query t v).kind = false ∧ (branch tableMgr query t v).kind ≠ .cross := by
  have hsource : ∀ tableId, isSelectProjectDistinct (sourcePlan tableMgr v tableId).kind = false ∧
      isAboveCross (sourcePlan tableMgr v tableId).kind = false ∧ (sourcePlan tableMgr v tableId).kind ≠ .cross := by
    intro tableId
    unfold sourcePlan
    split
    · exact ⟨rfl,rfl,by simp⟩
    · exact ⟨rfl,rfl,by simp⟩
  unfold branch
  dsimp only
  split
  · cases query.winSpec t with
    | unbounded => exact hsource _
    | _ => exact ⟨rfl,rfl,by simp [windowPlan,windowKind,unaryNode]⟩
  · exact hsource _

theorem isNowWin_branch (t v : ℕ) : isNowWin (branch tableMgr query t v) = true ↔
    tableMgr.isStream (query.refTables v) = true ∧ query.winSpec t = .now := by
  have hsource : ∀ tableId, isNowWin (sourcePlan tableMgr v tableId) = false := by
    intro tableId
    unfold sourcePlan
    split
    · rfl
    · rfl
  unfold branch
  dsimp only
  split
  · rename_i hs
    cases hw : query.winSpec t with
    | unbounded => simp [windowPlan,windowKind,hsource]
    | now => simp [windowPlan,windowKind,unaryNode,isNowWin,hs]
    | _ => simp [windowPlan,windowKind,unaryNode,isNowWin]
  · rename_i hs
    simp [hsource,hs]

theorem joinPlan_cases (tableMgr : TableManager) (hne : query.fromClauseTables ≠ []) :
    (∃ v, query.fromClauseTables = [v] ∧ joinPlan tableMgr query = branch tableMgr query 0 v) ∨
      query.fromClauseTables.length ≠ 1 ∧ joinPlan tableMgr query = crossOf tableMgr query := by
  unfold joinPlan crossOf branches
  cases hfrom : query.fromClauseTables with
  | nil => exact absurd hfrom hne
  | cons v rest =>
    cases rest with
    | nil => exact .inl ⟨v,rfl,rfl⟩
    | cons w rest => exact .inr ⟨by simp,rfl⟩

theorem findIdx_crossOf : ((crossOf tableMgr query).inputs.findIdx? isNowWin).isSome = true ↔
    ∃ v ∈ query.fromClauseTables.zipIdx, tableMgr.isStream (query.refTables v.1) = true ∧ query.winSpec v.2 = .now := by
  rw [List.findIdx?_isSome, List.any_eq_true]
  constructor
  · rintro ⟨b,hb,hnow⟩
    obtain ⟨v,hv,rfl⟩ := List.mem_map.mp hb
    exact ⟨v,hv,(isNowWin_branch _ _).mp hnow⟩
  · rintro ⟨v,hv,hnow⟩
    exact ⟨_,List.mem_map_of_mem hv,(isNowWin_branch _ _).mpr hnow⟩

theorem tRstreamNow_stack {outAttrs : List Attr} (hstop : isSelectProjectDistinct core.kind = false)
    (hnow : aggrs = [] ∧ query.gbyAttrs = [] → core.kind ≠ .nowWin) :
    tRstreamNow (unaryNode .rstream outAttrs (stack (bodyKinds query aggrs) core)) =
      unaryNode .rstream outAttrs (stack (bodyKinds query aggrs) core) := by
  by_cases hu : aggrs = [] ∧ query.gbyAttrs = []
  · obtain ⟨passed,hstack,hkinds⟩ := stack_rebuild (bodyKinds query aggrs) core
    rw [hstack]
    apply tRstreamNow_of_walk (walk_rebuild (fun o ho => ?_) hstop) (hnow hu)
    exact bodyKinds_ungrouped hu _ (hkinds ▸ List.mem_map_of_mem ho)
  · -- the group-aggregate stops the walk
    obtain ⟨low,high,hkinds,hhigh⟩ := bodyKinds_grouped hu
    obtain ⟨passed,hstack,rfl⟩ := stack_rebuild high
      (stack [.groupAggr (query.gbyAttrs.map (transformAttr query)) aggrs] (stack low core))
    rw [hkinds, stack_append, ← List.singleton_append, stack_append, hstack]
    apply tRstreamNow_of_walk (walk_rebuild (fun o ho => ?_) rfl)
    · exact Kind.noConfusion
    · exact hhigh _ (List.mem_map_of_mem ho)

theorem tStreamCross_stack {outAttrs : List Attr} (hstop : isAboveCross core.kind = false)
    (hcross : core.kind = .cross → core.inputs.findIdx? isNowWin = none) :
    tStreamCross (unaryNode .rstream outAttrs (stack (bodyKinds query aggrs) core)) =
      pure (unaryNode .rstream outAttrs (stack (bodyKinds query aggrs) core)) := by
  obtain ⟨passed,hstack,hkinds⟩ := stack_rebuild (bodyKinds query aggrs) core
  rw [hstack]
  apply tStreamCross_of_walk (walk_rebuild_append (fun o ho => ?_) hstop _) hcross
  exact bodyKinds_above _ (hkinds ▸ List.mem_map_of_mem ho)

theorem sfwPlan_eq : sfwPlan tableMgr query aggrs = r2sPlan query (stack (bodyKinds query aggrs) (joinPlan tableMgr query)) := by
  rw [← bodyPlan_eq]
  rfl

/-- The plan of a query that does not take the rows of all instants together stays as it is. -/
theorem Generated.unchanged (h : Generated tableMgr query p) (hne : query.kind = .sfwQuery → query.fromClauseTables ≠ [])
    (hnot : ¬ query.TakenTogether tableMgr) : tRstreamNow p = p ∧ tStreamCross p = pure p := by
  rcases h with ⟨hkind,aggrs,haggrs,rfl⟩ | ⟨hkind,rfl⟩
  · rw [sfwPlan_eq]
    by_cases hr : query.r2sOp = some .rstream
    · have hcore : isSelectProjectDistinct (joinPlan tableMgr query).kind = false ∧ isAboveCross (joinPlan tableMgr query).kind = false ∧
          (aggrs = [] ∧ query.gbyAttrs = [] → (joinPlan tableMgr query).kind ≠ .nowWin) ∧
          ((joinPlan tableMgr query).kind = .cross → (joinPlan tableMgr query).inputs.findIdx? isNowWin = none) := by
        rcases joinPlan_cases tableMgr (hne hkind) with ⟨v,hfrom,hjoin⟩ | ⟨hlen,hjoin⟩
        · rw [hjoin]
          obtain ⟨h1,h2,h3⟩ := branch_kind tableMgr query 0 v
          refine ⟨h1,h2,fun hu hnow => ?_,fun hc => absurd hc h3⟩
          have hpresent : query.OfPresent tableMgr :=
            ⟨hkind,hr,(v,0),by rw [hfrom]; simp,(isNowWin_branch 0 v).mp (decide_eq_true hnow)⟩
          exact hnot ⟨hpresent,.inl ⟨(collected_eq haggrs).2.mp hu.1,hu.2⟩⟩
        · rw [hjoin]
          refine ⟨rfl,rfl,fun _ => Kind.noConfusion,fun _ => ?_⟩
          rw [← Option.not_isSome_iff_eq_none]
          exact fun hsome => hnot ⟨⟨hkind,hr,findIdx_crossOf.mp hsome⟩,.inr hlen⟩
      obtain ⟨h1,h2,h3,h4⟩ := hcore
      rw [r2sPlan, hr]
      exact ⟨tRstreamNow_stack h1 h3,tStreamCross_stack h2 h4⟩
    · apply unchanged_of_root
      have hbody : (bodyPlan query aggrs (joinPlan tableMgr query)).kind ≠ .rstream := by
        unfold bodyPlan distinctPlan
        split
        · exact Kind.noConfusion
        · exact Kind.noConfusion
      rw [r2sPlan]
      cases hop : query.r2sOp with
      | none => rwa [← bodyPlan_eq]
      | some op =>
        cases op with
        | rstream => exact absurd hop hr
        | istream => exact Kind.noConfusion
        | dstream => exact Kind.noConfusion
  · have hset (kind : Kind) (hk : kind = .union ∨ kind = .except) (left right : Plan) :
        tRstreamNow (r2sPlan query (setOpNode tableMgr kind left right)) = r2sPlan query (setOpNode tableMgr kind left right) ∧
          tStreamCross (r2sPlan query (setOpNode tableMgr kind left right)) = pure (r2sPlan query (setOpNode tableMgr kind left right)) := by
      have hroot : (setOpNode tableMgr kind left right).kind ≠ .rstream ∧ (setOpNode tableMgr kind left right).kind ≠ .nowWin ∧
          (setOpNode tableMgr kind left right).kind ≠ .cross := by
        rcases hk with rfl | rfl
        · exact ⟨Kind.noConfusion,Kind.noConfusion,Kind.noConfusion⟩
        · exact ⟨Kind.noConfusion,Kind.noConfusion,Kind.noConfusion⟩
      unfold r2sPlan
      cases query.r2sOp with
      | none => exact unchanged_of_root hroot.1
      | some op =>
        cases op with
        | istream => exact unchanged_of_root Kind.noConfusion
        | dstream => exact unchanged_of_root Kind.noConfusion
        | rstream => exact ⟨tRstreamNow_of_walk rfl hroot.2.1,tStreamCross_of_walk rfl fun hc => absurd hc hroot.2.2⟩
    apply hset
    split
    · exact .inl rfl
    · exact .inr rfl

section Together
variable {α : Type} [DecidableEq α] {I : Interp α} {S : Sources α} {row : (ℕ → Row α) → Row α} {ρs : ℕ → Multiset (ℕ → Row α)}

/-- The rows of all instants are those of the assignments of all instants. -/
theorem ranges_accumulate {f : Row α → Row α} (h : ∀ t, Ranges I S query p row t (ρs t))
    (hrows : p'.denote I S = (accumulate (p.denote I S)).map f)
    (hlookup : ∀ t, ∀ ρ ∈ ρs t, ∀ a, lookup I p'.outAttrs (f (row ρ)) a = lookup I p.outAttrs (row ρ) a) (now : ℕ) :
    Ranges I S query p' (f ∘ row) now (∑ t ∈ Finset.range (now + 1), ρs t) := by
  refine ⟨?_,fun ρ hρ => ?_⟩
  · rw [hrows, map_accumulate, accumulate, sum_map]
    apply Finset.sum_congr rfl
    intro t _
    rw [(h t).1, Multiset.map_map]
  · obtain ⟨t,-,hρ⟩ := Multiset.mem_sum.mp hρ
    obtain ⟨hattr,haggr⟩ := (h t).2 ρ hρ
    constructor
    · intro a
      exact (hlookup t ρ hρ _).trans (hattr a)
    · intro fn a
      exact (hlookup t ρ hρ _).trans (haggr fn a)

omit [DecidableEq α] in
theorem joinPlan_now {v : ℕ} (hfrom : query.fromClauseTables = [v]) (hs : tableMgr.isStream (query.refTables v) = true)
    (hnow : query.winSpec 0 = .now) : joinPlan tableMgr query = unaryNode .nowWin (sourcePlan tableMgr v (query.refTables v)).outAttrs
      (sourcePlan tableMgr v (query.refTables v)) := by
  rw [joinPlan, branches, hfrom]
  simp only [List.zipIdx_cons, List.zipIdx_nil, List.map_cons, List.map_nil, branch, hs, if_true, hnow]
  rfl

/-- What a single stream brings when NOW is removed. -/
theorem ranges_source (hq : query.WellFormed tableMgr) {v : ℕ} (hfrom : query.fromClauseTables = [v]) (hs : tableMgr.isStream (query.refTables v) = true)
    (hnow : query.winSpec 0 = .now) (hS : Monotone (S.table (query.refTables v))) (now : ℕ) :
    Ranges I S query (sourcePlan tableMgr v (query.refTables v)) (id ∘ fun ρ => query.fromClauseTables.flatMap ρ) now
      (∑ t ∈ Finset.range (now + 1), query.assigned I S tableMgr t) := by
  have hjoin := joinPlan_now hfrom hs hnow
  apply ranges_accumulate (fun t => ranges_joinPlan hq t)
  · rw [hjoin, denote_unaryNode]
    have harrive : Kind.denote I S .nowWin (sourcePlan tableMgr v (query.refTables v)).outAttrs.length
        [((sourcePlan tableMgr v (query.refTables v)).outAttrs,(sourcePlan tableMgr v (query.refTables v)).denote I S)] =
        ((sourcePlan tableMgr v (query.refTables v)).denote I S).arrivals := rangeWindow_one _
    rw [harrive, accumulate_arrivals]
    · funext t
      exact (Multiset.map_id _).symm
    · rw [denote_sourcePlan]
      exact monotone_map hS _
  · intro t ρ _ a
    rw [hjoin]
    rfl

/-- What the stream cross brings. -/
theorem ranges_streamCross (hq : query.WellFormed tableMgr) {nowIndex : ℕ} {source : Plan} {nowAttrs : List Attr} {nowStream : Bool}
    (hjoin : joinPlan tableMgr query = crossOf tableMgr query) (hformed : Formed tableMgr (crossOf tableMgr query))
    (hnow : (branches tableMgr query)[nowIndex]? = some (.node .nowWin nowAttrs nowStream [source])) (now : ℕ) :
    Ranges I S query (streamCrossPlan (source :: (branches tableMgr query).eraseIdx nowIndex))
      (nowFirst (branches tableMgr query) nowIndex ∘ fun ρ => query.fromClauseTables.flatMap ρ) now
      (∑ t ∈ Finset.range (now + 1), query.assigned I S tableMgr t) := by
  have hattrs : source.outAttrs = nowAttrs := by
    have hwindow := (everywhere_node.mp hformed).2 _ (List.mem_of_getElem? hnow)
    exact (List.cons.inj (everywhere_node.mp hwindow).1.1).1
  obtain ⟨hlength,hlookup,-⟩ := nowFirst_rows (I := I) (S := S) rfl hformed hnow hattrs
  have hjoined (t : ℕ) : Ranges I S query (crossOf tableMgr query) (fun ρ => query.fromClauseTables.flatMap ρ) t
      (query.assigned I S tableMgr t) := by
    rw [← hjoin]
    exact ranges_joinPlan hq t
  apply ranges_accumulate hjoined
  · exact denote_streamCross hnow hattrs
  · intro t ρ hρ a
    apply hlookup
    apply hlength t
    show _ ∈ (crossOf tableMgr query).denote I S t
    rw [(hjoined t).1]
    exact Multiset.mem_map_of_mem _ hρ

end Together

theorem rebuild_kind_ne {kind : Kind} (hp : p.kind ≠ kind) (h : ∀ o ∈ passed, o.kind ≠ kind) : (rebuild p passed).kind ≠ kind := by
  induction passed generalizing p with
  | nil => exact hp
  | cons o passed ih =>
    obtain ⟨ho,hpassed⟩ := List.forall_mem_cons.mp h
    exact ih ho hpassed

section Prepared
variable {α : Type} [DecidableEq α] {I : Interp α} {S : Sources α} {outAttrs : List Attr}

/-- Without RSTREAM and NOW the operators are those above the stream. -/
theorem denote_tRstreamNow_stack {source : Plan} {u v : Usage} (hu : aggrs = [] ∧ query.gbyAttrs = [])
    (hformed : Formed tableMgr (unaryNode .rstream outAttrs (stack (bodyKinds query aggrs) (unaryNode .nowWin source.outAttrs source))))
    (hsource : source.kind ≠ .rstream)
    (h : tStreamCross (tRstreamNow (unaryNode .rstream outAttrs (stack (bodyKinds query aggrs) (unaryNode .nowWin source.outAttrs source)))) u =
      .ok q v) : q.denote I S = (stack (bodyKinds query aggrs) source).denote I S := by
  obtain ⟨passed,hstack,hkinds⟩ := stack_rebuild (bodyKinds query aggrs) (unaryNode .nowWin source.outAttrs source)
  have hpassed : ∀ o ∈ passed, isSelectProjectDistinct o.kind = true :=
    fun o ho => bodyKinds_ungrouped hu _ (hkinds ▸ List.mem_map_of_mem ho)
  obtain rfl : outAttrs = (rebuild (unaryNode .nowWin source.outAttrs source) passed).outAttrs := by
    rw [← hstack]
    exact (List.cons.inj (everywhere_node.mp hformed).1.1).1.symm
  rw [hstack] at h hformed
  have hremoved : tRstreamNow (rstreamNow source passed) = rebuild source (passed.map fun o => { o with bStream := true }) :=
    tRstreamNow_rstreamNow hpassed
  rw [rstreamNow] at hremoved
  have hformed' := hformed.tRstreamNow
  rw [hremoved] at h hformed'
  have hpassed' : ∀ o ∈ passed.map fun o => { o with bStream := true }, isSelectProjectDistinct o.kind = true := by simpa using hpassed
  have hroot : (rebuild source (passed.map fun o => { o with bStream := true })).kind ≠ .rstream := by
    apply rebuild_kind_ne hsource
    intro o ho hkind
    have h := hpassed' o ho
    rw [hkind] at h
    cases h
  rw [(unchanged_of_root hroot).2] at h
  obtain ⟨rfl,-⟩ := pure_eq_ok.mp h
  have hmap : (passed.map fun o => { o with bStream := true }).map Passed.kind = bodyKinds query aggrs := by
    rw [← hkinds, List.map_map]
    rfl
  rw [← hmap]
  exact denote_rebuild_stack (fun o ho => bodyKinds_above _ (hmap ▸ List.mem_map_of_mem ho)) hformed'

/-- Above a stream cross the operators are those above the cross. -/
theorem denote_tStreamCross_stack {nowIndex : ℕ} {u v : Usage} (hidx : (crossOf tableMgr query).inputs.findIdx? isNowWin = some nowIndex)
    (hformed : Formed tableMgr (unaryNode .rstream outAttrs (stack (bodyKinds query aggrs) (crossOf tableMgr query))))
    (h : tStreamCross (tRstreamNow (unaryNode .rstream outAttrs (stack (bodyKinds query aggrs) (crossOf tableMgr query)))) u = .ok q v) :
    ∃ nowAttrs nowStream source, (branches tableMgr query)[nowIndex]? = some (.node .nowWin nowAttrs nowStream [source]) ∧
      q.denote I S = (stack (bodyKinds query aggrs) (streamCrossPlan (source :: (branches tableMgr query).eraseIdx nowIndex))).denote I S := by
  rw [tRstreamNow_stack rfl fun _ => Kind.noConfusion] at h
  obtain ⟨passed,hstack,hkinds⟩ := stack_rebuild (bodyKinds query aggrs) (crossOf tableMgr query)
  have hpassed : ∀ o ∈ passed, isAboveCross o.kind = true := fun o ho => bodyKinds_above _ (hkinds ▸ List.mem_map_of_mem ho)
  obtain rfl : outAttrs = (rebuild (crossOf tableMgr query) passed).outAttrs := by
    rw [← hstack]
    exact (List.cons.inj (everywhere_node.mp hformed).1.1).1.symm
  rw [hstack] at h hformed
  obtain ⟨nowAttrs,nowStream,source,passed',hnow,hkinds',rfl,hq⟩ := tStreamCross_rstreamCross rfl hpassed hidx hformed h
  have hmap : passed'.map Passed.kind = bodyKinds query aggrs := (kinds_of_forall₂ hkinds').trans hkinds
  refine ⟨nowAttrs,nowStream,source,hnow,?_⟩
  rw [← hmap]
  exact denote_rebuild_stack (fun o ho => bodyKinds_above _ (hmap ▸ List.mem_map_of_mem ho)) hq

/-- What the plan computes when RSTREAM has been removed from above a stream as it comes. -/
theorem Generated.prepared_overall {u v : Usage} (h : Generated tableMgr query p) (hq : query.WellFormed tableMgr)
    (hne : query.kind = .sfwQuery → query.fromClauseTables ≠ []) (hS : query.StreamsGrow S tableMgr)
    (htogether : query.TakenTogether tableMgr) (hstream : tStreamCross (tRstreamNow p) u = .ok q v) :
    q.denote I S = query.overall I S tableMgr := by
  obtain ⟨⟨hkind,hr,x,hx,hs,hwin⟩,hor⟩ := htogether
  have hformed := h.formed hq.vars hne
  rcases h with ⟨-,aggrs,haggrs,rfl⟩ | ⟨hk,-⟩
  · -- the rows of all assignments together are those of the query
    have hresult {core : Plan} {row : (ℕ → Row α) → Row α} (hranges : ∀ now, Ranges I S query core row now
        (∑ t ∈ Finset.range (now + 1), query.assigned I S tableMgr t)) :
        (stack (bodyKinds query aggrs) core).denote I S = query.overall I S tableMgr := by
      funext now
      rw [← bodyPlan_eq, denote_bodyPlan hq haggrs (hranges now), sum_filter]
      rfl
    rw [sfwPlan_eq, r2sPlan, hr] at hstream hformed
    rcases joinPlan_cases tableMgr (hne hkind) with ⟨v,hfrom,hjoin⟩ | ⟨hlen,hjoin⟩
    · have hu : query.Ungrouped := hor.resolve_right fun hlen => hlen (by rw [hfrom]; rfl)
      obtain rfl : x = (v,0) := by simpa [hfrom] using hx
      have hnow : joinPlan tableMgr query = unaryNode .nowWin (sourcePlan tableMgr v (query.refTables v)).outAttrs
          (sourcePlan tableMgr v (query.refTables v)) := joinPlan_now hfrom hs hwin
      rw [hnow] at hstream hformed
      have hsource : (sourcePlan tableMgr v (query.refTables v)).kind ≠ .rstream := by
        rw [sourcePlan, if_pos hs]
        exact Kind.noConfusion
      rw [denote_tRstreamNow_stack ⟨(collected_eq haggrs).2.mpr hu.1,hu.2⟩ hformed hsource hstream]
      have hv : v ∈ query.sources := by
        rw [Semantic.Query.sources, hkind, hfrom]
        exact List.mem_singleton_self v
      exact hresult (ranges_source hq hfrom hs hwin (hS v hv hs))
    · rw [hjoin] at hstream hformed
      obtain ⟨nowIndex,hidx⟩ := Option.isSome_iff_exists.mp (findIdx_crossOf.mpr ⟨x,hx,hs,hwin⟩)
      obtain ⟨nowAttrs,nowStream,source,hnow,hdenote⟩ := denote_tStreamCross_stack (I := I) (S := S) hidx hformed hstream
      rw [hdenote]
      obtain ⟨passed,hstack,-⟩ := stack_rebuild (bodyKinds query aggrs) (crossOf tableMgr query)
      have hcross : Formed tableMgr (crossOf tableMgr query) := by
        have hbody := (everywhere_node.mp hformed).2 _ (List.mem_singleton_self _)
        rw [hstack] at hbody
        exact hbody.of_rebuild
      exact hresult (ranges_streamCross hq hjoin hcross hnow)
  · rw [hkind] at hk
    cases hk

/-- What the plan of a query computes is what the query means, or what it means for all rows so far. -/
theorem denote_genLogPlan {u v : Usage} (hq : query.WellFormed tableMgr) (hS : query.StreamsGrow S tableMgr)
    (h : genLogPlan tableMgr query u = .ok q v) : q.denote I S = query.answer I S tableMgr := by
  obtain ⟨p,p₂,u₁,u₂,hgenerated,hgen,hstream,hsame⟩ := genLogPlan_same_prepared hq h
  have hne := ensures_genPlan_from _ _ _ hgen
  rw [hsame.denote, Semantic.Query.answer]
  split
  · rename_i htogether
    exact hgenerated.prepared_overall hq hne hS htogether hstream
  · rename_i hnot
    obtain ⟨h1,h2⟩ := hgenerated.unchanged hne hnot
    rw [h1, h2] at hstream
    obtain ⟨rfl,-⟩ := pure_eq_ok.mp hstream
    exact hgenerated.denotes hq

end Prepared

end AqsiosCoordinator.Logical.Plan
