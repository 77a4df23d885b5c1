import AqsiosCoordinator.Foundation.FirstOccurrences
import AqsiosCoordinator.Querygen.NaivePlans

/-! # Which aggregations are collected

The aggregations of a SELECT list are collected in the order of their first occurrences.
-/
namespace AqsiosCoordinator

def Semantic.Expr.aggrs : Semantic.Expr → List (Common.AggrFn × Semantic.Attr)
  | .constVal _ => []
  | .attrRef _ _ => []
  | .aggrExpr _ fn attr => [(fn,attr)]
  | .compExpr _ _ left right => left.aggrs ++ right.aggrs

def Semantic.Query.aggrs (query : Semantic.Query) : List (Common.AggrFn × Semantic.Attr) :=
  query.projExprs.flatMap Semantic.Expr.aggrs

def Semantic.Query.numAggrs (query : Semantic.Query) : ℕ := query.aggrs.dedup.length

def Logical.Attr.isAggr : Logical.Attr → Bool
  | .aggr _ _ _ _ => true
  | _ => false

namespace Logical.Plan
open Common Foundation Metadata

variable (query : Semantic.Query)

def logicalAggr (a : AggrFn × Semantic.Attr) : AggrFn × Attr := (a.1,transformAttr query a.2)

variable {query}

theorem transformAttr_same {a b : Semantic.Attr} : (transformAttr query a).same (transformAttr query b) = true ↔ a = b := by
  obtain ⟨v,i⟩ := a
  obtain ⟨w,j⟩ := b
  simp only [transformAttr, Attr.same, Bool.and_eq_true, decide_eq_true_eq, Semantic.Attr.mk.injEq]
  constructor
  · rintro ⟨⟨rfl,-⟩,rfl⟩
    exact ⟨rfl,rfl⟩
  · rintro ⟨rfl,rfl⟩
    exact ⟨⟨rfl,rfl⟩,rfl⟩

/-- An aggregation is found among those that it is one of. -/
theorem any_logicalAggr {aggrs : List (AggrFn × Semantic.Attr)} {fn : AggrFn} {attr : Semantic.Attr} :
    (aggrs.map (logicalAggr query)).any (fun a => a.2.same (transformAttr query attr) && a.1 == fn) = true ↔ (fn,attr) ∈ aggrs := by
  simp only [List.any_map, List.any_eq_true, Function.comp_apply, logicalAggr, Bool.and_eq_true, transformAttr_same, beq_iff_eq]
  constructor
  · rintro ⟨⟨fn',attr'⟩,hmem,rfl,rfl⟩
    exact hmem
  · exact fun h => ⟨_,h,rfl,rfl⟩

theorem collectAggrs_eq (e : Semantic.Expr) (aggrs : List (AggrFn × Semantic.Attr)) :
    collectAggrs query e (aggrs.map (logicalAggr query)) =
      (collectUpTo MAX_AGGR_ATTRS aggrs e.aggrs).map (List.map (logicalAggr query)) := by
  induction e generalizing aggrs with
  | constVal c => rfl
  | attrRef type attr => rfl
  | aggrExpr type fn attr =>
    simp only [collectAggrs, Semantic.Expr.aggrs, collectUpTo, any_logicalAggr, List.length_map]
    split
    · rfl
    split
    · rfl
    · simp [logicalAggr]
  | compExpr type op l r ihl ihr =>
    simp only [collectAggrs, Semantic.Expr.aggrs, collectUpTo_append, ihl]
    cases collectUpTo MAX_AGGR_ATTRS aggrs l.aggrs with
    | none => rfl
    | some aggrs' => exact ihr aggrs'

theorem collectAllAggrs_eq (es : List Semantic.Expr) (aggrs : List (AggrFn × Semantic.Attr)) :
    collectAllAggrs query es (aggrs.map (logicalAggr query)) =
      (collectUpTo MAX_AGGR_ATTRS aggrs (es.flatMap Semantic.Expr.aggrs)).map (List.map (logicalAggr query)) := by
  induction es generalizing aggrs with
  | nil => rfl
  | cons e es ih =>
    simp only [collectAllAggrs, List.flatMap_cons, collectUpTo_append, collectAggrs_eq]
    cases collectUpTo MAX_AGGR_ATTRS aggrs e.aggrs with
    | none => rfl
    | some aggrs' => exact ih aggrs'

/-- What is collected for a query. -/
theorem collectAllAggrs_query : collectAllAggrs query query.projExprs [] =
    if query.numAggrs ≤ MAX_AGGR_ATTRS then some ((firstsAfter [] query.aggrs).map (logicalAggr query)) else none := by
  have h := @collectAllAggrs_eq query query.projExprs []
  have hempty : ([] : List (AggrFn × Semantic.Attr)).length ≤ MAX_AGGR_ATTRS := Nat.zero_le _
  have hcollect := collectUpTo_eq hempty (query.projExprs.flatMap Semantic.Expr.aggrs)
  rw [List.map_nil] at h
  rw [h, hcollect, length_firstsAfter]
  split
  · rename_i hle
    exact (if_pos hle).symm
  · rename_i hle
    exact (if_neg hle).symm

theorem logicalAggr_injective : Function.Injective (logicalAggr query) := by
  rintro ⟨fn,a⟩ ⟨fn',b⟩ h
  simp only [logicalAggr, Prod.mk.injEq] at h
  obtain ⟨rfl,hattr⟩ := h
  have hsame : (transformAttr query a).same (transformAttr query b) = true := by
    rw [← hattr]
    simp [transformAttr,Attr.same]
  rw [transformAttr_same.mp hsame]

theorem transformAggrAttr_same {fn fn' : AggrFn} {a b : Semantic.Attr} :
    (transformAggrAttr query fn a).same (transformAggrAttr query fn' b) = true ↔ (fn,a) = (fn',b) := by
  obtain ⟨v,i⟩ := a
  obtain ⟨w,j⟩ := b
  simp only [transformAggrAttr, Attr.same, Bool.and_eq_true, decide_eq_true_eq, Prod.mk.injEq, Semantic.Attr.mk.injEq]
  constructor
  · rintro ⟨⟨⟨rfl,-⟩,rfl⟩,rfl⟩
    exact ⟨rfl,rfl,rfl⟩
  · rintro ⟨rfl,rfl,rfl⟩
    exact ⟨⟨⟨rfl,rfl⟩,rfl⟩,rfl⟩

/-- The references to aggregations in a translated expression are those of the expression. -/
theorem aggr_of_logicalExpr (e : Semantic.Expr) {a : Attr} (ha : a ∈ (logicalExpr query e).attrs) (haggr : a.isAggr = true) :
    ∃ fn attr, (fn,attr) ∈ e.aggrs ∧ a = transformAggrAttr query fn attr := by
  induction e with
  | constVal c => cases ha
  | attrRef type attr =>
    obtain rfl := List.mem_singleton.mp ha
    cases haggr
  | aggrExpr type fn attr =>
    obtain rfl := List.mem_singleton.mp ha
    exact ⟨fn,attr,List.mem_singleton.mpr rfl,rfl⟩
  | compExpr type op l r ihl ihr =>
    rcases List.mem_append.mp ha with ha | ha
    · obtain ⟨fn,attr,hmem,he⟩ := ihl ha
      exact ⟨fn,attr,List.mem_append_left _ hmem,he⟩
    · obtain ⟨fn,attr,hmem,he⟩ := ihr ha
      exact ⟨fn,attr,List.mem_append_right _ hmem,he⟩

/-- Among the columns of distinct aggregations each one is found once. -/
theorem count_aggrColumns {firsts : List (AggrFn × Semantic.Attr)} (hnd : firsts.Nodup) {fn : AggrFn} {attr : Semantic.Attr}
    (hmem : (fn,attr) ∈ firsts) :
    ((firsts.map (logicalAggr query)).map fun a => aggrAttr a.1 a.2).countP (fun b => (transformAggrAttr query fn attr).same b) = 1 := by
  have hcount : firsts.countP (fun a => (transformAggrAttr query fn attr).same (transformAggrAttr query a.1 a.2)) =
      firsts.count (fn,attr) := by
    apply List.countP_congr
    intro a ha
    rw [transformAggrAttr_same, beq_iff_eq]
    exact eq_comm
  rw [List.map_map, List.countP_map]
  exact hcount.trans (List.count_eq_one_of_mem hnd hmem)

/-- No grouping attribute is taken for an aggregation. -/
theorem count_groupColumns (gbyAttrs : List Semantic.Attr) (fn : AggrFn) (attr : Semantic.Attr) :
    (gbyAttrs.map (transformAttr query)).countP (fun b => (transformAggrAttr query fn attr).same b) = 0 := by
  rw [List.countP_eq_zero]
  intro b hb
  obtain ⟨a,-,rfl⟩ := List.mem_map.mp hb
  simp [transformAggrAttr,transformAttr,Attr.same]

/-- The aggregations of a SELECT list are collected exactly if there are at most `MAX_AGGR_ATTRS` of them, each
once and in the order in which they first occur, and every reference that the translated list makes
to an aggregation is found once among the columns of the operator. -/
theorem collectAllAggrs_correct (query : Semantic.Query) :
    (collectAllAggrs query query.projExprs [] = none ↔ MAX_AGGR_ATTRS < query.numAggrs) ∧
      (∀ aggrs, collectAllAggrs query query.projExprs [] = some aggrs → aggrs.Nodup ∧
        ∃ firsts : List (AggrFn × Semantic.Attr), aggrs = firsts.map (logicalAggr query) ∧ firsts.Nodup ∧ (∀ a, a ∈ firsts ↔ a ∈ query.aggrs) ∧
          firsts.Pairwise fun a b => query.aggrs.idxOf a < query.aggrs.idxOf b) ∧
      ∀ inputPlan u op v, applyAggr query (some inputPlan) u = .ok (some op) v →
        ∀ e ∈ query.projExprs, ∀ w logExpr w', transformExpr query e w = .ok logExpr w' →
          ∀ a ∈ logExpr.attrs, a.isAggr = true → op.outAttrs.countP (fun b => a.same b) = 1 := by
  have hcollect := @collectAllAggrs_query query
  have hnd : (firstsAfter [] query.aggrs).Nodup := nodup_firstsAfter List.nodup_nil _
  refine ⟨?_,?_,?_⟩
  · rw [hcollect]
    split
    · rename_i hle
      exact iff_of_false (by simp) (Nat.not_lt.mpr hle)
    · rename_i hle
      exact iff_of_true rfl (Nat.not_le.mp hle)
  · intro aggrs h
    rw [hcollect] at h
    split at h
    · obtain rfl := Option.some.inj h
      refine ⟨hnd.map logicalAggr_injective,_,rfl,hnd,?_,pairwise_firstsAfter _⟩
      intro a
      rw [mem_firstsAfter]
      simp
    · cases h
  · intro inputPlan u op v h e he w logExpr w' hexpr a ha haggr
    obtain ⟨aggrs,hsome,hop⟩ := @ensures_applyAggr_eq query (some inputPlan) inputPlan (holds_some rfl) _ _ _ h
    obtain rfl := ensures_transformExpr e _ _ _ hexpr
    obtain ⟨fn,attr,hmem,rfl⟩ := aggr_of_logicalExpr e ha haggr
    rw [hcollect] at hsome
    split at hsome
    · obtain rfl := Option.some.inj hsome
      have hfirst : (fn,attr) ∈ firstsAfter [] query.aggrs :=
        mem_firstsAfter.mpr (.inr (List.mem_flatMap.mpr ⟨e,he,hmem⟩))
      have hne : ¬ ((firstsAfter [] query.aggrs).map (logicalAggr query) = [] ∧ query.gbyAttrs = []) := by
        rintro ⟨hnil,-⟩
        rw [List.map_eq_nil_iff] at hnil
        rw [hnil] at hfirst
        cases hfirst
      have hplan := hop op rfl
      rw [aggrPlan, if_neg hne] at hplan
      rw [hplan]
      show List.countP _ (_ ++ _) = 1
      rw [List.countP_append, count_groupColumns, count_aggrColumns hnd hfirst]
    · cases hsome

end Logical.Plan
end AqsiosCoordinator
