import AqsiosCoordinator.Querygen.PlanReferences
import AqsiosCoordinator.Querygen.NaivePlanMeaning
import AqsiosCoordinator.Querygen.ScopedQueries

/-! # Which queries have plans whose operators find their attributes

The operators of the plan of a query find in their inputs what they refer to exactly when
the windows of the query are over attributes of their own streams, no aggregation is in the
WHERE clause, and when rows are grouped only the attributes by which is grouped are in the
SELECT list outside aggregations.
-/
namespace AqsiosCoordinator
open Common Foundation Foundation.Outcome Metadata

structure Semantic.Query.Grounded (tableMgr : TableManager) (query : Semantic.Query) : Prop where
  partitions : ∀ x ∈ query.fromClauseTables.zipIdx, tableMgr.isStream (query.refTables x.1) = true →
    ∀ numRows attrs, query.winSpec x.2 = .partition numRows attrs → ∀ a ∈ attrs, a.varId = x.1
  preds : ∀ b ∈ query.preds, b.left.aggrs = [] ∧ b.right.aggrs = []
  grouped : ¬ query.Ungrouped → ∀ e ∈ query.projExprs, ∀ a ∈ e.attrs, a ∈ query.gbyAttrs

namespace Logical.Plan
variable {tableMgr : TableManager} {query : Semantic.Query} {p q : Plan} {schema : List Attr}

theorem mem_attrs_logicalExpr {e : Semantic.Expr} {b : Attr} : b ∈ (logicalExpr query e).attrs ↔
    (∃ a ∈ e.attrs, b = transformAttr query a) ∨ ∃ x ∈ e.aggrs, b = transformAggrAttr query x.1 x.2 := by
  induction e with
  | constVal c => simp [logicalExpr,Expr.attrs,Semantic.Expr.attrs,Semantic.Expr.aggrs]
  | attrRef type a => simp [logicalExpr,Expr.attrs,Semantic.Expr.attrs,Semantic.Expr.aggrs]
  | aggrExpr type fn a => simp [logicalExpr,Expr.attrs,Semantic.Expr.attrs,Semantic.Expr.aggrs]
  | compExpr type op left right hl hr =>
    simp only [logicalExpr, Expr.attrs, List.mem_append, hl, hr, Semantic.Expr.attrs, Semantic.Expr.aggrs, or_and_right, exists_or]
    exact or_or_or_comm

def HasAttr (schema : List Attr) (a : Attr) : Prop := schema.any (fun b => a.same b) = true

/-- The references of an expression are in a schema when its attributes and its aggregations are. -/
theorem hasAttr_logicalExpr {e : Semantic.Expr} : (∀ b ∈ (logicalExpr query e).attrs, HasAttr schema b) ↔
    (∀ a ∈ e.attrs, HasAttr schema (transformAttr query a)) ∧ ∀ x ∈ e.aggrs, HasAttr schema (transformAggrAttr query x.1 x.2) := by
  simp only [mem_attrs_logicalExpr]
  constructor
  · intro h
    exact ⟨fun a ha => h _ (.inl ⟨a,ha,rfl⟩),fun x hx => h _ (.inr ⟨x,hx,rfl⟩)⟩
  · rintro ⟨hattr,haggr⟩ b (⟨a,ha,rfl⟩ | ⟨x,hx,rfl⟩)
    · exact hattr a ha
    · exact haggr x hx

theorem hasAttr_fromSchema {vars : List ℕ} {a : Semantic.Attr} : HasAttr (fromSchema tableMgr query vars) (transformAttr query a) ↔
    a.varId ∈ vars ∧ a.attrId < tableMgr.getNumAttrs (query.refTables a.varId) := by
  simp only [HasAttr, fromSchema, List.any_flatMap, List.any_eq_true]
  constructor
  · rintro ⟨v,hv,hany⟩
    obtain ⟨rfl,hlt⟩ := any_tableAttrs.mp (List.any_eq_true.mpr hany)
    exact ⟨hv,hlt⟩
  · rintro ⟨hv,hlt⟩
    exact ⟨a.varId,hv,List.any_eq_true.mp (any_tableAttrs.mpr ⟨rfl,hlt⟩)⟩

theorem not_hasAttr_aggr {vars : List ℕ} (fn : AggrFn) (a : Semantic.Attr) :
    ¬ HasAttr (fromSchema tableMgr query vars) (transformAggrAttr query fn a) := by
  rw [HasAttr, Bool.not_eq_true, List.any_eq_false]
  intro b hb
  obtain ⟨v,-,hb⟩ := List.mem_flatMap.mp hb
  obtain ⟨k,-,rfl⟩ := List.mem_map.mp hb
  simp [transformAggrAttr,Attr.same]

def groupSchema (query : Semantic.Query) (aggrs : List (AggrFn × Attr)) : List Attr :=
  query.gbyAttrs.map (transformAttr query) ++ aggrs.map fun a => aggrAttr a.1 a.2

theorem hasAttr_groupSchema {aggrs : List (AggrFn × Semantic.Attr)} {a : Semantic.Attr} :
    HasAttr (groupSchema query (aggrs.map (logicalAggr query))) (transformAttr query a) ↔ a ∈ query.gbyAttrs := by
  have hnone : ((aggrs.map (logicalAggr query)).map fun x => aggrAttr x.1 x.2).any (fun b => (transformAttr query a).same b) = false := by
    rw [List.any_eq_false]
    intro b hb
    obtain ⟨x,hx,rfl⟩ := List.mem_map.mp hb
    obtain ⟨y,-,rfl⟩ := List.mem_map.mp hx
    simp [logicalAggr,aggrAttr,transformAttr,Attr.same]
  rw [HasAttr, groupSchema, List.any_append, hnone, Bool.or_false, List.any_map, List.any_eq_true]
  constructor
  · rintro ⟨b,hb,hsame⟩
    obtain rfl := transformAttr_same.mp hsame
    exact hb
  · exact fun ha => ⟨a,ha,transformAttr_same.mpr rfl⟩

theorem hasAttr_aggr {aggrs : List (AggrFn × Semantic.Attr)} {x : AggrFn × Semantic.Attr} (hx : x ∈ aggrs) :
    HasAttr (groupSchema query (aggrs.map (logicalAggr query))) (transformAggrAttr query x.1 x.2) := by
  rw [HasAttr, groupSchema, List.any_append, Bool.or_eq_true]
  refine .inr (List.any_eq_true.mpr ⟨_,List.mem_map_of_mem (List.mem_map_of_mem hx),?_⟩)
  exact transformAggrAttr_same.mpr rfl

theorem references_unaryNode {kind : Kind} {outAttrs : List Attr} :
    References (unaryNode kind outAttrs p) ↔ kind.Finds [p.outAttrs] ∧ References p := by
  rw [unaryNode, References, everywhere_node]
  simp

theorem references_of_nil {kind : Kind} {outAttrs : List Attr} (h : kind.refs = []) :
    References (unaryNode kind outAttrs p) ↔ References p := by
  rw [references_unaryNode]
  exact and_iff_right (finds_of_nil h)

theorem references_sourcePlan (v tableId : ℕ) : References (sourcePlan tableMgr v tableId) := by
  unfold sourcePlan
  split
  · exact .node (finds_of_nil rfl) (by simp)
  · exact .node (finds_of_nil rfl) (by simp)

/-- A window finds its attributes when they are of its own variable. -/
theorem references_branch (hq : query.WellFormed tableMgr) (hscoped : query.Scoped tableMgr) {x : ℕ × ℕ} (hx : x ∈ query.fromClauseTables.zipIdx) :
    References (branch tableMgr query x.2 x.1) ↔ (tableMgr.isStream (query.refTables x.1) = true →
      ∀ numRows attrs, query.winSpec x.2 = .partition numRows attrs → ∀ a ∈ attrs, a.varId = x.1) := by
  have hsource : References (sourcePlan tableMgr x.1 (query.refTables x.1)) := references_sourcePlan x.1 (query.refTables x.1)
  unfold branch
  dsimp only
  split
  · rename_i hs
    simp only [hs, forall_const]
    cases hw : query.winSpec x.2 with
    | partition numRows attrs =>
      have hall : (attrs.map (transformAttr query)).take MAX_GROUP_ATTRS = attrs.map (transformAttr query) := by
        apply List.take_of_length_le
        rw [List.length_map]
        exact hq.partitions _ _ _ hw
      simp only [windowPlan, windowKind, hall]
      rw [references_unaryNode, and_iff_left hsource, finds_single, source_outAttrs]
      simp only [Kind.refs, List.forall_mem_map]
      constructor
      · rintro h numRows' attrs' hwin a ha
        cases hwin
        exact (any_tableAttrs.mp (h a ha)).1
      · intro h a ha
        have hv := h numRows attrs rfl a ha
        exact any_tableAttrs.mpr ⟨hv,hv ▸ (hscoped.partitions x hx hs numRows attrs hw a ha).2⟩
    | range timeUnits => exact iff_of_true ((references_of_nil rfl).mpr hsource) (by simp)
    | row numRows => exact iff_of_true ((references_of_nil rfl).mpr hsource) (by simp)
    | now => exact iff_of_true ((references_of_nil rfl).mpr hsource) (by simp)
    | unbounded => exact iff_of_true hsource (by simp)
  · rename_i hs
    exact iff_of_true hsource fun h => absurd h hs

theorem references_joinPlan (hq : query.WellFormed tableMgr) (hscoped : query.Scoped tableMgr) :
    References (joinPlan tableMgr query) ↔ ∀ x ∈ query.fromClauseTables.zipIdx, tableMgr.isStream (query.refTables x.1) = true →
      ∀ numRows attrs, query.winSpec x.2 = .partition numRows attrs → ∀ a ∈ attrs, a.varId = x.1 := by
  have hbranches : (∀ b ∈ branches tableMgr query, References b) ↔ ∀ x ∈ query.fromClauseTables.zipIdx,
      tableMgr.isStream (query.refTables x.1) = true → ∀ numRows attrs, query.winSpec x.2 = .partition numRows attrs →
        ∀ a ∈ attrs, a.varId = x.1 := by
    rw [branches, List.forall_mem_map]
    exact forall₂_congr fun x hx => references_branch hq hscoped hx
  rw [← hbranches]
  unfold joinPlan
  split
  · rename_i b hb
    rw [hb, List.forall_mem_singleton]
  · rw [crossPlan, References, everywhere_node]
    exact and_iff_right (finds_of_nil rfl)

/-- Selects find their attributes when there is no aggregation among them. -/
theorem references_selectPlan {preds : List Semantic.BExpr} (hout : p.outAttrs = fromSchema tableMgr query query.fromClauseTables)
    (hscoped : ∀ b ∈ preds, b.left.Scoped (query.InScope tableMgr) ∧ b.right.Scoped (query.InScope tableMgr)) :
    References (selectPlan (preds.map (logicalBExpr query)) p) ↔ (∀ b ∈ preds, b.left.aggrs = [] ∧ b.right.aggrs = []) ∧ References p := by
  have hexpr {e : Semantic.Expr} (he : e.Scoped (query.InScope tableMgr)) :
      (∀ b ∈ (logicalExpr query e).attrs, HasAttr p.outAttrs b) ↔ e.aggrs = [] := by
    rw [hasAttr_logicalExpr, hout]
    constructor
    · rintro ⟨-,haggr⟩
      rw [List.eq_nil_iff_forall_not_mem]
      exact fun x hx => not_hasAttr_aggr _ _ (haggr x hx)
    · intro hnil
      rw [hnil]
      exact ⟨fun a ha => hasAttr_fromSchema.mpr (he.1 a ha),by simp⟩
  induction preds generalizing p with
  | nil => simp [selectPlan]
  | cons b preds ih =>
    obtain ⟨hb,hpreds⟩ := List.forall_mem_cons.mp hscoped
    have hstep : selectPlan ((b :: preds).map (logicalBExpr query)) p =
        selectPlan (preds.map (logicalBExpr query)) (unaryNode (.select (logicalBExpr query b)) p.outAttrs p) := rfl
    have hfinds : (Kind.select (logicalBExpr query b)).Finds [p.outAttrs] ↔ b.left.aggrs = [] ∧ b.right.aggrs = [] := by
      rw [finds_single, ← hexpr hb.1, ← hexpr hb.2]
      simp only [Kind.refs, BExpr.attrs, List.forall_mem_append]
      exact Iff.rfl
    rw [hstep, List.forall_mem_cons]
    refine (ih (p := unaryNode (.select (logicalBExpr query b)) p.outAttrs p) hout hpreds hexpr).trans ?_
    rw [references_unaryNode, hfinds]
    constructor
    · rintro ⟨h,h1,h2⟩
      exact ⟨⟨h1,h⟩,h2⟩
    · rintro ⟨⟨h1,h⟩,h2⟩
      exact ⟨h,h1,h2⟩

theorem selectPlan_outAttrs (preds : List BExpr) (p : Plan) : (selectPlan preds p).outAttrs = p.outAttrs := by
  induction preds generalizing p with
  | nil => rfl
  | cons b preds ih => exact ih (unaryNode (.select b) p.outAttrs p)

/-- The operators above the WHERE clause find their attributes when only grouped attributes are outside aggregations. -/
theorem references_projectPlan {aggrs : List (AggrFn × Attr)} (haggrs : collectAllAggrs query query.projExprs [] = some aggrs)
    (hscoped : query.Scoped tableMgr) (hout : p.outAttrs = fromSchema tableMgr query query.fromClauseTables) :
    References (projectPlan query (aggrPlan query aggrs p)) ↔
      (¬ query.Ungrouped → ∀ e ∈ query.projExprs, ∀ a ∈ e.attrs, a ∈ query.gbyAttrs) ∧ References p := by
  obtain ⟨heq,hnone⟩ := collected_eq haggrs
  have hproject (schema : List Attr) : (Kind.project (query.projExprs.map (logicalExpr query))).Finds [schema] ↔
      ∀ e ∈ query.projExprs, (∀ a ∈ e.attrs, HasAttr schema (transformAttr query a)) ∧
        ∀ x ∈ e.aggrs, HasAttr schema (transformAggrAttr query x.1 x.2) := by
    rw [finds_single]
    simp only [Kind.refs, List.mem_flatMap, List.mem_map, forall_exists_index, and_imp, forall_apply_eq_imp_iff₂]
    simp only [← hasAttr_logicalExpr]
    exact ⟨fun h e he b hb => h b e he hb,fun h b e he hb => h e he b hb⟩
  by_cases hu : query.Ungrouped
  · have hplain : aggrPlan query aggrs p = p := if_pos ⟨hnone.mpr hu.1,hu.2⟩
    rw [hplain, projectPlan, references_unaryNode, hproject, hout]
    refine and_congr_left' (iff_of_true (fun e he => ⟨fun a ha => ?_,fun x hx => ?_⟩) fun h => absurd hu h)
    · exact hasAttr_fromSchema.mpr ((hscoped.projExprs e he).1 a ha)
    · have hmem : x ∈ query.aggrs := List.mem_flatMap.mpr ⟨e,he,hx⟩
      rw [hu.1] at hmem
      cases hmem
  · have hgroup : aggrPlan query aggrs p = unaryNode (.groupAggr (query.gbyAttrs.map (transformAttr query)) aggrs) (groupSchema query aggrs) p :=
      if_neg fun h => hu ⟨hnone.mp h.1,h.2⟩
    have hfinds : (Kind.groupAggr (query.gbyAttrs.map (transformAttr query)) aggrs).Finds [p.outAttrs] := by
      rw [finds_single, hout]
      simp only [Kind.refs, List.forall_mem_append, List.forall_mem_map]
      constructor
      · exact fun a ha => hasAttr_fromSchema.mpr (hscoped.gbyAttrs a ha)
      · intro b hb
        obtain ⟨hb,hne⟩ := List.mem_filter.mp hb
        rw [heq] at hb
        obtain ⟨x,hx,rfl⟩ := List.mem_map.mp hb
        have hx : x ∈ query.aggrs := by simpa using mem_firstsAfter.mp hx
        obtain ⟨e,he,hx⟩ := List.mem_flatMap.mp hx
        exact hasAttr_fromSchema.mpr ((hscoped.projExprs e he).2 x hx (of_decide_eq_true hne))
    rw [hgroup, projectPlan, references_unaryNode, hproject, references_unaryNode, and_iff_right hfinds]
    apply and_congr_left'
    simp only [hu, not_false_eq_true, forall_const]
    have hschema : (unaryNode (.groupAggr (query.gbyAttrs.map (transformAttr query)) aggrs) (groupSchema query aggrs) p).outAttrs =
        groupSchema query ((firstsAfter [] query.aggrs).map (logicalAggr query)) := heq ▸ rfl
    rw [hschema]
    simp only [hasAttr_groupSchema]
    refine forall₂_congr fun e he => and_iff_left fun x hx => ?_
    apply hasAttr_aggr
    exact mem_firstsAfter.mpr (.inr (List.mem_flatMap.mpr ⟨e,he,hx⟩))

/-- The operators of a naive plan find their attributes exactly when the query is grounded. -/
theorem Generated.references_iff (h : Generated tableMgr query p) (hq : query.WellFormed tableMgr)
    (hscoped : query.kind = .sfwQuery → query.Scoped tableMgr) :
    References p ↔ (query.kind = .sfwQuery → query.Grounded tableMgr) := by
  have hr2s (p : Plan) : References (r2sPlan query p) ↔ References p := by
    unfold r2sPlan
    split
    · exact Iff.rfl
    · rename_i op _
      apply references_of_nil
      cases op <;> rfl
  rcases h with ⟨hkind,aggrs,haggrs,rfl⟩ | ⟨hkind,rfl⟩
  · have hdistinct (p : Plan) : References (distinctPlan query p) ↔ References p := by
      unfold distinctPlan
      split
      · exact references_of_nil rfl
      · exact Iff.rfl
    have hin := hscoped hkind
    rw [sfwPlan, hr2s, hdistinct, references_projectPlan haggrs hin ((selectPlan_outAttrs _ _).trans joinPlan_outAttrs),
      references_selectPlan joinPlan_outAttrs hin.preds, references_joinPlan hq hin]
    simp only [hkind, forall_const]
    exact ⟨fun ⟨h1,h2,h3⟩ => ⟨h3,h2,h1⟩,fun h => ⟨h.grouped,h.preds,h.partitions⟩⟩
  · rw [setOpPlan, hr2s]
    refine iff_of_true (.node ?_ fun i hi => ?_) fun hk => ?_
    · apply finds_of_nil
      split <;> rfl
    · rcases List.mem_pair.mp hi with rfl | rfl
      · exact references_sourcePlan _ _
      · exact references_sourcePlan _ _
    · rw [hkind] at hk
      cases hk

theorem genLogPlan_references_iff {u v : Usage} (hq : query.WellFormed tableMgr) (hscoped : query.kind = .sfwQuery → query.Scoped tableMgr)
    (h : genLogPlan tableMgr query u = .ok q v) : References q ↔ (query.kind = .sfwQuery → query.Grounded tableMgr) := by
  obtain ⟨p,hgenerated,-,hrefs⟩ := genLogPlan_references h
  rw [hrefs]
  exact hgenerated.references_iff hq hscoped

end Logical.Plan

open Logical in
/-- The operators of the plan of a query that the interpreter accepts find in their inputs what they refer to
exactly when the query is grounded. -/
theorem Semantic.interpretQuery_references_iff {tableMgr : TableManager} {query : Semantic.Query} {parseTree : Parser.ContQuery}
    {q : Logical.Plan} {n n' : ℕ} {u v : Usage} (h : interpretQuery tableMgr parseTree n = .ok query n')
    (hplan : genLogPlan tableMgr query u = .ok q v) : q.References ↔ (query.kind = .sfwQuery → query.Grounded tableMgr) :=
  Logical.Plan.genLogPlan_references_iff (interpretQuery_wellFormed h) (interpretQuery_scoped h) hplan

def ungroupedColumn : Parser.SfwBlock :=
  ⟨⟨false,[.attrRef ⟨none,['b']⟩]⟩,[⟨['S'],none,none⟩, ⟨['R'],none,none⟩],[],[⟨none,['a']⟩]⟩

/-- The query is accepted and has a plan, whose project does not find the column among those of the groups. -/
theorem Semantic.ungroupedColumn_references : ∃ query n q v,
    interpretQuery Logical.Plan.streamAndRelation (.sfwBlock ungroupedColumn none) 0 = .ok query n ∧
    Logical.genLogPlan Logical.Plan.streamAndRelation query ⟨0,0⟩ = .ok q v ∧ ¬ q.References := by
  obtain ⟨query,n,h⟩ := exists_of_returns (r := interpretQuery Logical.Plan.streamAndRelation (.sfwBlock ungroupedColumn none) 0) (by decide)
  obtain ⟨q,v,hplan⟩ := exists_of_returns (r := Logical.genLogPlan Logical.Plan.streamAndRelation query ⟨0,0⟩) (by cases h; decide)
  refine ⟨query,n,q,v,h,hplan,?_⟩
  rw [interpretQuery_references_iff h hplan]
  intro hgrounded
  cases h
  have hmem := (hgrounded rfl).grouped (by decide) _ (List.mem_singleton_self _) ⟨1,0⟩ (by decide)
  revert hmem
  decide

end AqsiosCoordinator
