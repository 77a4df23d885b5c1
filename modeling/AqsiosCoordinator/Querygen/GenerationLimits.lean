import AqsiosCoordinator.Metadata.TableRegistration
import AqsiosCoordinator.Querygen.FittingPlans

/-! # Which queries the generation handles within its limits

An aggregation writes its columns without a look at the end of the array, and a project
that has refused an expression is read from again. All other limits are kept.
-/
namespace AqsiosCoordinator.Logical
open Common Foundation Foundation.Outcome Metadata Metadata.TableManager

namespace Plan
variable {tableMgr : TableManager} {query : Semantic.Query} {p : Plan}

section Naive

theorem length_tableAttrs (htables : ∀ t ∈ tableMgr.tableList, AttrsFit t.attrList) (varId tableId : ℕ) :
    (tableAttrs tableMgr varId tableId).length ≤ MAX_ATTRS := by
  rw [tableAttrs, List.length_map, List.length_range, TableManager.getNumAttrs, TableManager.attrs]
  cases ht : tableMgr.tableList[tableId]? with
  | none => exact Nat.zero_le _
  | some t => exact (htables t (List.mem_of_getElem? ht)).2

theorem fits_unary {kind : Kind} {outAttrs : List Attr} (hkind : IsPlain kind) (hlen : outAttrs.length ≤ MAX_ATTRS) (h : Fits p) :
    Fits (unaryNode kind outAttrs p) := fits_node hkind hlen (by simpa using h)

theorem fits_source (htables : ∀ t ∈ tableMgr.tableList, AttrsFit t.attrList) (varId tableId : ℕ) :
    Fits (sourcePlan tableMgr varId tableId) ∧ height (sourcePlan tableMgr varId tableId) = 0 := by
  have hlen := length_tableAttrs htables varId tableId
  unfold sourcePlan
  split
  · exact ⟨fits_node (by simp [IsPlain]) hlen (by simp),rfl⟩
  · exact ⟨fits_node (by simp [IsPlain]) hlen (by simp),rfl⟩

theorem fits_window (win : Semantic.WindowSpec) (h : Fits p) :
    Fits (windowPlan query win p) ∧ height (windowPlan query win p) ≤ height p + 1 := by
  cases win with
  | now =>
    refine ⟨.node ⟨h.length_le,fun hc => absurd hc (by simp),fun _ => by simp⟩ ?_,le_rfl⟩
    intro q hq
    rwa [List.mem_singleton.mp hq]
  | unbounded => exact ⟨h,Nat.le_succ _⟩
  | range timeUnits => exact ⟨fits_unary (by simp [IsPlain]) h.length_le h,le_rfl⟩
  | row numRows => exact ⟨fits_unary (by simp [IsPlain]) h.length_le h,le_rfl⟩
  | partition numRows attrs => exact ⟨fits_unary (by simp [IsPlain]) h.length_le h,le_rfl⟩

theorem fits_branch (htables : ∀ t ∈ tableMgr.tableList, AttrsFit t.attrList) (t varId : ℕ) :
    Fits (branch tableMgr query t varId) ∧ height (branch tableMgr query t varId) ≤ 1 := by
  obtain ⟨hsource,hheight⟩ := fits_source htables varId (query.refTables varId)
  unfold branch
  dsimp only
  split
  · have hwin := @fits_window query _ (query.winSpec t) hsource
    rw [hheight] at hwin
    exact hwin
  · exact ⟨hsource,by omega⟩

theorem fits_join (htables : ∀ t ∈ tableMgr.tableList, AttrsFit t.attrList) (hne : query.fromClauseTables ≠ [])
    (hjoin : JoinFits tableMgr query) : Fits (joinPlan tableMgr query) ∧ height (joinPlan tableMgr query) ≤ 1 := by
  have hall : ∀ b ∈ branches tableMgr query, Fits b ∧ height b ≤ 1 := by
    intro b hb
    obtain ⟨⟨v,t⟩,-,rfl⟩ := List.mem_map.mp hb
    exact fits_branch htables t v
  have hlen : (branches tableMgr query).length = query.fromClauseTables.length := length_branches
  have hpos := List.length_pos_iff.mpr hne
  unfold joinPlan
  split
  · rename_i b hb
    exact hall b (by simp [hb])
  · rename_i hmany
    have htwo : 2 ≤ (branches tableMgr query).length := by
      match hb : branches tableMgr query with
      | [] => simp [hb] at hlen; omega
      | [b] => exact absurd hb (hmany b)
      | b :: c :: rest => simp
    obtain ⟨hwidth,hinputs⟩ := crossFits_branches.mpr (hjoin.resolve_left (by omega))
    constructor
    · apply Everywhere.node
      · refine ⟨hwidth,fun _ => ⟨?_,?_,rfl⟩,fun hk => by cases hk⟩
        · rwa [List.length_map]
        · rwa [List.length_map]
      · exact fun b hb => (hall b hb).1
    · rw [crossPlan, height_of_two htwo]
      exact Nat.zero_le 1

theorem fits_selects (preds : List BExpr) (h : Fits p) :
    Fits (selectPlan preds p) ∧ height (selectPlan preds p) = height p + preds.length := by
  induction preds generalizing p with
  | nil => exact ⟨h,rfl⟩
  | cons b preds ih =>
    obtain ⟨hfits,hheight⟩ := @ih (unaryNode (.select b) p.outAttrs p) (fits_unary (by simp [IsPlain]) h.length_le h)
    have hselect : height (unaryNode (.select b) p.outAttrs p) = height p + 1 := rfl
    refine ⟨hfits,?_⟩
    rw [List.length_cons, selectPlan, List.foldl_cons, ← selectPlan, hheight, hselect]
    omega

/-- The plan of an accepted query keeps to the capacities. -/
theorem fits_sfwPlan (htables : ∀ t ∈ tableMgr.tableList, AttrsFit t.attrList) (hne : query.fromClauseTables ≠ [])
    (h : Accepted tableMgr query) : Fits (sfwPlan tableMgr query (logicalAggrs query)) ∧
      height (sfwPlan tableMgr query (logicalAggrs query)) ≤ query.preds.length + 5 := by
  obtain ⟨hjoin,hjoinHeight⟩ := fits_join htables hne h.join
  obtain ⟨hselect,hselectHeight⟩ := fits_selects (query.preds.map (logicalBExpr query)) hjoin
  rw [List.length_map] at hselectHeight
  have haggr {p : Plan} (hp : Fits p) : Fits (aggrPlan query (logicalAggrs query) p) ∧
      height (aggrPlan query (logicalAggrs query) p) ≤ height p + 1 := by
    unfold aggrPlan
    dsimp only
    split
    · exact ⟨hp,Nat.le_succ _⟩
    · refine ⟨fits_unary (by simp [IsPlain]) ?_ hp,le_rfl⟩
      rw [List.length_append, List.length_map, List.length_map, length_logicalAggrs]
      exact h.aggrs
  have hproject {p : Plan} (hp : Fits p) : Fits (projectPlan query p) ∧ height (projectPlan query p) = height p + 1 := by
    refine ⟨fits_unary (by simp [IsPlain]) ?_ hp,rfl⟩
    rw [List.length_map, List.length_map]
    exact h.project
  have hdistinct {p : Plan} (hp : Fits p) : Fits (distinctPlan query p) ∧ height (distinctPlan query p) ≤ height p + 1 := by
    unfold distinctPlan
    split
    · exact ⟨fits_unary (by simp [IsPlain]) hp.length_le hp,le_rfl⟩
    · exact ⟨hp,Nat.le_succ _⟩
  have hr2s {p : Plan} (hp : Fits p) : Fits (r2sPlan query p) ∧ height (r2sPlan query p) ≤ height p + 1 := by
    unfold r2sPlan
    split
    · exact ⟨hp,Nat.le_succ _⟩
    · rename_i op _
      exact ⟨fits_unary (by cases op <;> simp [IsPlain,r2sKind]) hp.length_le hp,le_rfl⟩
  obtain ⟨h1,h1'⟩ := haggr hselect
  obtain ⟨h2,h2'⟩ := hproject h1
  obtain ⟨h3,h3'⟩ := hdistinct h2
  obtain ⟨h4,h4'⟩ := hr2s h3
  refine ⟨h4,?_⟩
  unfold sfwPlan
  omega

theorem fits_setOpPlan (htables : ∀ t ∈ tableMgr.tableList, AttrsFit t.attrList) :
    Fits (setOpPlan tableMgr query) ∧ height (setOpPlan tableMgr query) ≤ 1 := by
  obtain ⟨hl,-⟩ := fits_source htables 0 (query.refTables 0)
  obtain ⟨hr,-⟩ := fits_source htables 0 (query.refTables 1)
  have hset (kind : Kind) (hkind : IsPlain kind) {l r : Plan} (hl : Fits l) (hr : Fits r) :
      Fits (setOpNode tableMgr kind l r) ∧ height (setOpNode tableMgr kind l r) = 0 := by
    refine ⟨fits_node hkind ?_ (by simp [hl,hr]),rfl⟩
    rw [List.length_map]
    exact hl.length_le
  have hkind : IsPlain (if query.binOp = .union then .union else .except) := by
    split <;> simp [IsPlain]
  obtain ⟨hfits,hheight⟩ := hset _ hkind hl hr
  unfold setOpPlan r2sPlan
  split
  · exact ⟨hfits,by omega⟩
  · rename_i op _
    refine ⟨fits_unary (by cases op <;> simp [IsPlain,r2sKind]) hfits.length_le hfits,?_⟩
    have hroot (kind : Kind) (outAttrs : List Attr) (q : Plan) : height (unaryNode kind outAttrs q) = height q + 1 := rfl
    rw [hroot]
    omega

end Naive

def transform (plan : Plan) : Gen Plan := do
  let plan ← tStreamCross (tRstreamNow plan)
  let plan ← tMakeCrossBinary (tRemoveProject plan)
  let plan ← tMakeStreamCrossBinary plan
  tPushSelect plan

theorem genLogPlan_eq (u : Usage) : genLogPlan tableMgr query u =
    ((if query.kind = .sfwQuery then genSFWPlan tableMgr query else genBinOpPlan tableMgr query) >>= fun o => deref o >>= transform)
      ⟨0,0⟩ := rfl

theorem runs_transform {F : Failure → Prop} (h : Fits p) : Runs (1 + MAX_INPUT_OPS + MAX_INPUT_OPS + height p) 0 (transform p) Fits F := by
  obtain ⟨hfits,hheight⟩ := h.tRstreamNow
  unfold transform
  apply (runs_tStreamCross hfits).then (by omega) (by omega)
  rintro p₁ ⟨h₁,hh₁⟩
  obtain ⟨hfits₁,hheight₁⟩ := h₁.tRemoveProject
  have hcross := @runs_makeBinary _ F binaryCross (fun kind => decide (kind = .cross)) .cross (.inl rfl)
    (fun _ hk => of_decide_eq_true hk) runs_binaryCross hfits₁
  apply hcross.then (by omega) (by omega)
  rintro p₂ ⟨h₂,hh₂⟩
  have hstream := @runs_makeBinary _ F binaryStreamCross (fun kind => decide (kind = .streamCross)) .streamCross (.inr rfl)
    (fun _ hk => of_decide_eq_true hk) runs_binaryStreamCross h₂
  apply hstream.then (by omega) (by omega)
  rintro p₃ ⟨h₃,hh₃⟩
  exact (runs_tPushSelect h₃).more (by omega) (by omega)

/-- The pools have room for the plan of a query and all that it is transformed to. -/
theorem runs_genLogPlan (htables : ∀ t ∈ tableMgr.tableList, AttrsFit t.attrList) (h : Semantic.Produced query) :
    Runs MAXOPERATOR MAXEXPR ((if query.kind = .sfwQuery then genSFWPlan tableMgr query else genBinOpPlan tableMgr query) >>=
        fun o => deref o >>= transform)
      (fun plan => Fits plan ∧ (query.kind = .sfwQuery → Accepted tableMgr query))
      (fun e => query.kind = .sfwQuery ∧ Refused tableMgr query e) := by
  obtain ⟨hop,hexpr,hnode,hproj,hinput⟩ : MAXOPERATOR = 500 ∧ MAXEXPR = 500 ∧ Parser.MAXNODE = 100 ∧ Semantic.MAX_PROJ = 50 ∧
    MAX_INPUT_OPS = 10 := ⟨rfl,rfl,rfl,rfl,rfl⟩
  have hsize := h.size
  have htable := h.tables
  have hpreds := h.preds
  by_cases hk : query.kind = .sfwQuery
  · rw [if_pos hk]
    have hgen : Runs _ _ (genSFWPlan tableMgr query) _ (fun e => query.kind = .sfwQuery ∧ Refused tableMgr query e) :=
      Within.weaken (runs_genSFWPlan (h.table hk) h.groupBy) (fun _ ho => ho) fun e he => ⟨hk,he⟩
    apply hgen.then (by omega) (by omega)
    rintro o ⟨haccepted,rfl⟩
    obtain ⟨hfits,hheight⟩ := fits_sfwPlan htables (h.table hk) haccepted
    apply Within.weaken ((runs_transform hfits).more (by omega) (by omega))
    · exact fun plan hplan => ⟨hplan,fun _ => haccepted⟩
    · exact fun _ he => he
  · rw [if_neg hk]
    apply runs_genBinOpPlan.then (by omega) (by omega)
    rintro o rfl
    obtain ⟨hfits,hheight⟩ := @fits_setOpPlan tableMgr query htables
    apply Within.weaken ((runs_transform hfits).more (by omega) (by omega))
    · exact fun plan hplan => ⟨hplan,fun hk' => absurd hk' hk⟩
    · exact fun _ he => he

end Plan

variable {tableMgr : TableManager} {query : Semantic.Query}

/-- Whether the plan of a query needs more columns or more inputs than an operator can have. -/
def NeedsMore (tableMgr : TableManager) (query : Semantic.Query) : Prop :=
  query.kind = .sfwQuery ∧ (¬ Plan.JoinFits tableMgr query ∨ MAX_ATTRS < query.gbyAttrs.length + query.numAggrs ∨
    MAX_ATTRS < query.projExprs.length)

/-- Whether the generation ends in a return code for the queries that need too much, and
for no other, and otherwise in a plan whose operators keep to the size of their arrays. -/
structure RespectsLimits (tableMgr : TableManager) (query : Semantic.Query) (u : Usage) : Prop where
  noNull : ∀ v, genLogPlan tableMgr query u ≠ .error .nullDeref v
  inBounds : ∀ v, genLogPlan tableMgr query u ≠ .error .outOfBounds v
  columns : ∀ plan v, genLogPlan tableMgr query u = .ok plan v → Plan.Everywhere (fun _ outAttrs _ => outAttrs.length ≤ MAX_ATTRS) plan
  refused : (∃ rc v, rc ≠ 0 ∧ genLogPlan tableMgr query u = .error (.code rc) v) ↔ NeedsMore tableMgr query

/-- The queries for which the unchecked array is not left and no refused project is read. -/
def Handled (tableMgr : TableManager) (query : Semantic.Query) : Prop :=
  query.kind = .binaryOp ∨ ¬ Plan.JoinFits tableMgr query ∨ MAX_AGGR_ATTRS < query.numAggrs ∨
    query.gbyAttrs.length + query.numAggrs ≤ MAX_ATTRS ∧
      (query.projExprs.length ≤ MAX_ATTRS ∨ query.projExprs.length = MAX_ATTRS + 1 ∧ query.bDistinct = false)

theorem respectsLimits_of_ok {u v : Usage} {plan : Plan} (h : genLogPlan tableMgr query u = .ok plan v) (hfits : Plan.Fits plan)
    (hmore : ¬ NeedsMore tableMgr query) : RespectsLimits tableMgr query u := by
  constructor
  · intro w hw
    rw [h] at hw
    cases hw
  · intro w hw
    rw [h] at hw
    cases hw
  · intro plan' w hw
    rw [h] at hw
    cases hw
    exact Plan.Everywhere.imp hfits fun _ _ _ hhere => hhere.1
  · refine ⟨?_,fun hm => absurd hm hmore⟩
    rintro ⟨rc,w,-,hw⟩
    rw [h] at hw
    cases hw

theorem respectsLimits_of_code {u v : Usage} {rc : ℤ} (h : genLogPlan tableMgr query u = .error (.code rc) v) (hrc : rc ≠ 0)
    (hmore : NeedsMore tableMgr query) : RespectsLimits tableMgr query u := by
  constructor
  · intro w hw
    rw [h] at hw
    cases hw
  · intro w hw
    rw [h] at hw
    cases hw
  · intro plan w hw
    rw [h] at hw
    cases hw
  · exact ⟨fun _ => hmore,fun _ => ⟨rc,v,hrc,h⟩⟩

/-- A failure is the right one exactly for the queries that are handled. -/
theorem respectsLimits_of_refused {u v : Usage} {e : Failure} (h : genLogPlan tableMgr query u = .error e v)
    (hk : query.kind = .sfwQuery) (he : Plan.Refused tableMgr query e) :
    RespectsLimits tableMgr query u ↔ Handled tableMgr query := by
  obtain ⟨hsame,hattrs⟩ : MAX_AGGR_ATTRS = 10 ∧ MAX_ATTRS = 10 := ⟨rfl,rfl⟩
  have hbinary : query.kind ≠ .binaryOp := by
    rw [hk]
    decide
  cases he with
  | join wide =>
    exact ⟨fun _ => .inr (.inl wide),fun _ => respectsLimits_of_code h (by decide) ⟨hk,.inl wide⟩⟩
  | aggrs join aggrs =>
    cases aggrs with
    | collect many =>
      exact ⟨fun _ => .inr (.inr (.inl many)),fun _ => respectsLimits_of_code h (by decide) ⟨hk,.inr (.inl (by omega))⟩⟩
    | schema few wide =>
      constructor
      · exact fun hr => absurd h (hr.inBounds v)
      · rintro (hb | hj | hm | ⟨hg,-⟩)
        · exact absurd hb hbinary
        · exact absurd join hj
        · omega
        · omega
  | project join aggrs many =>
    constructor
    · exact fun hr => absurd h (hr.noNull v)
    · rintro (hb | hj | hm | ⟨hg,hp | ⟨hp,-⟩⟩)
      · exact absurd hb hbinary
      · exact absurd join hj
      · omega
      · omega
      · omega
  | distinct join aggrs many =>
    cases hd : query.bDistinct with
    | false =>
      rw [if_neg (by simp [hd])] at h
      exact ⟨fun _ => .inr (.inr (.inr ⟨aggrs,.inr ⟨many,hd⟩⟩)),
        fun _ => respectsLimits_of_code h (by decide) ⟨hk,.inr (.inr (by omega))⟩⟩
    | true =>
      rw [if_pos hd] at h
      constructor
      · exact fun hr => absurd h (hr.noNull v)
      · rintro (hb | hj | hm | ⟨hg,hp | ⟨-,hp⟩⟩)
        · exact absurd hb hbinary
        · exact absurd join hj
        · omega
        · omega
        · rw [hd] at hp
          cases hp

/-- Of the queries that the interpreter can make, the generation respects its limits for
those in which they are not met where nothing checks them. -/
theorem genLogPlan_limits_iff (htables : ∀ t ∈ tableMgr.tableList, AttrsFit t.attrList) (parseTree : Parser.ParseTree) {n n' : ℕ}
    (hquery : Semantic.interpretQuery tableMgr parseTree.query n = .ok query n') (u : Usage) :
    RespectsLimits tableMgr query u ↔ Handled tableMgr query := by
  have hruns := Plan.runs_genLogPlan htables (Semantic.interpretQuery_produced parseTree hquery)
  have hroom : Plan.genPool.used ⟨0,0⟩ + (MAXOPERATOR,MAXEXPR) ≤ Plan.genPool.size := ⟨Nat.le_refl _,Nat.le_refl _⟩
  cases h : genLogPlan tableMgr query u with
  | error e v =>
    rw [Plan.genLogPlan_eq] at h
    obtain ⟨hk,he⟩ := hruns.of_error hroom h
    exact respectsLimits_of_refused h hk he
  | ok plan v =>
    rw [Plan.genLogPlan_eq] at h
    obtain ⟨⟨hfits,haccepted⟩,-⟩ := hruns.of_ok hroom h
    cases hk : query.kind with
    | binaryOp =>
      constructor
      · exact fun _ => .inl hk
      · intro _
        apply respectsLimits_of_ok h hfits
        rintro ⟨hk',-⟩
        rw [hk] at hk'
        cases hk'
    | sfwQuery =>
      obtain ⟨hjoin,haggrs,-,hproject⟩ := haccepted hk
      constructor
      · exact fun _ => .inr (.inr (.inr ⟨haggrs,.inl hproject⟩))
      · intro _
        apply respectsLimits_of_ok h hfits
        rintro ⟨-,hj | hg | hp⟩
        · exact hj hjoin
        · omega
        · omega

def readings : TableManager :=
  ⟨[⟨['S'],true,[⟨['a'],.int,4⟩,⟨['b'],.int,4⟩,⟨['c'],.int,4⟩,⟨['d'],.int,4⟩,⟨['e'],.int,4⟩]⟩]⟩

def column (name : Char) : Parser.AttrRef := ⟨none,[name]⟩

def groupedTree (projTermList : List Parser.Expr) : Parser.ContQuery :=
  .sfwBlock ⟨⟨false,projTermList⟩,[⟨['S'],none,none⟩],[],[column 'a', column 'b', column 'c', column 'd', column 'e']⟩ none

/-- Six aggregations, which make eleven columns with the five grouping attributes. -/
def sixAggrs : List Parser.Expr :=
  [.aggrExpr .max (column 'a'), .aggrExpr .min (column 'a'), .aggrExpr .sum (column 'a'), .aggrExpr .avg (column 'a'),
    .countStar, .aggrExpr .max (column 'b')]

/-- One aggregation less fills the array. -/
theorem fiveAggrs_respects : ∃ query n', Semantic.interpretQuery readings (groupedTree (sixAggrs.take 5)) 0 = .ok query n' ∧
    RespectsLimits readings query ⟨0,0⟩ := by
  obtain ⟨query,n',h⟩ := exists_of_returns (r := Semantic.interpretQuery readings (groupedTree (sixAggrs.take 5)) 0) (by decide)
  refine ⟨query,n',h,?_⟩
  have htables : ∀ t ∈ readings.tableList, AttrsFit t.attrList := by
    intro t ht
    obtain rfl := List.mem_singleton.mp ht
    exact ⟨by decide,by decide⟩
  apply (genLogPlan_limits_iff htables ⟨_,by decide,by decide⟩ h _).mpr
  cases h
  exact .inr (.inr (.inr ⟨by decide,.inl (by decide)⟩))

/-- The eleventh column is written behind the end of the array. -/
theorem sixAggrs_outOfBounds : ∃ query n', Semantic.interpretQuery readings (groupedTree sixAggrs) 0 = .ok query n' ∧
    ¬ RespectsLimits readings query ⟨0,0⟩ := by
  obtain ⟨query,n',h⟩ := exists_of_returns (r := Semantic.interpretQuery readings (groupedTree sixAggrs) 0) (by decide)
  refine ⟨query,n',h,fun hr => ?_⟩
  cases h
  exact absurd (failsWith_of_ne hr.inBounds) (by decide)

end AqsiosCoordinator.Logical
