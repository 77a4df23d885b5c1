import AqsiosCoordinator.Querygen.InterpretedQueries
import AqsiosCoordinator.Querygen.QueryPlans

/-! # When the plan of a query computes what the query means

A plan that takes the rows of all instants together makes one group of the rows with a key
and one row of equal rows, where the query means a group and a row for every instant.
-/
namespace AqsiosCoordinator
open Common Foundation Foundation.Outcome Foundation.TimeVarying Metadata

section Bags
variable {β : Type} [DecidableEq β] {F : ℕ → Multiset β}

/-- Nothing is lost among all elements so far exactly when none comes at two instants. -/
theorem dedup_sum_iff : (∀ now, (∑ i ∈ Finset.range (now + 1), F i).dedup = ∑ i ∈ Finset.range (now + 1), (F i).dedup) ↔
    ∀ s t, s < t → ∀ x ∈ F s, x ∉ F t := by
  have hrun : (∀ now, BagOp.run [.distinct] (∑ i ∈ Finset.range (now + 1), F i) = ∑ i ∈ Finset.range (now + 1), BagOp.run [.distinct] (F i)) ↔
      ∀ s t, s < t → ∀ x ∈ F s, ∀ y ∈ F t, ¬ BagOp.Meet [.distinct] x y := BagOp.run_sum
  refine hrun.trans ?_
  simp only [BagOp.Meet, BagOp.through, Option.isSome_some, and_true, or_false]
  constructor
  · intro h s t hst x hx hx'
    exact h s t hst x hx x hx' rfl
  · rintro h s t hst x hx y hy rfl
    exact h s t hst x hx hy

theorem dedup_sum_of_card (h : ∀ now, (∑ i ∈ Finset.range (now + 1), F i).dedup.card = (∑ i ∈ Finset.range (now + 1), (F i).dedup).card)
    (now : ℕ) : (∑ i ∈ Finset.range (now + 1), F i).dedup = ∑ i ∈ Finset.range (now + 1), (F i).dedup := by
  have hle : BagOp.run [.distinct] (∑ i ∈ Finset.range (now + 1), F i) ≤ ∑ i ∈ Finset.range (now + 1), BagOp.run [.distinct] (F i) :=
    BagOp.run_sum_le now
  exact Multiset.eq_of_le_of_card_le hle (h now).ge

end Bags

namespace Semantic
variable {α : Type} [DecidableEq α] {I : Interp α} {S : Sources α} {tableMgr : TableManager} {query : Query}

/-- To take the assignments of all instants together makes no difference. -/
def Query.InstantsApart (I : Interp α) (S : Sources α) (tableMgr : TableManager) (query : Query) : Prop :=
  if query.Ungrouped then query.bDistinct = true → ∀ s t, s < t → ∀ ρ ∈ query.selected I S tableMgr s,
    ∀ σ ∈ query.selected I S tableMgr t, query.selectRow I ρ ≠ query.selectRow I σ
  else if query.gbyAttrs = [] then False
  else if query.bDistinct then ∀ now, (query.rowsOf I (∑ t ∈ Finset.range (now + 1), query.selected I S tableMgr t)).dedup =
    ∑ t ∈ Finset.range (now + 1), (query.rowsOf I (query.selected I S tableMgr t)).dedup
  else ∀ s t, s < t → ∀ ρ ∈ query.selected I S tableMgr s, ∀ σ ∈ query.selected I S tableMgr t, query.groupKey I ρ ≠ query.groupKey I σ

theorem Query.rowsOf_ungrouped (hu : query.Ungrouped) (ρs : Multiset (ℕ → Row α)) : query.rowsOf I ρs = ρs.map (query.selectRow I) := by
  unfold rowsOf
  exact if_pos hu

/-- Rows of different assignments are different where none is removed. -/
theorem resultOf_ungrouped_iff (hu : query.Ungrouped) (F : ℕ → Multiset (ℕ → Row α)) :
    (∀ now, query.resultOf I (∑ t ∈ Finset.range (now + 1), F t) = ∑ t ∈ Finset.range (now + 1), query.resultOf I (F t)) ↔
      (query.bDistinct = true → ∀ s t, s < t → ∀ ρ ∈ F s, ∀ σ ∈ F t, query.selectRow I ρ ≠ query.selectRow I σ) := by
  unfold Query.resultOf
  simp only [Query.rowsOf_ungrouped hu, sum_map]
  by_cases hd : query.bDistinct = true
  · simp only [hd, if_true, forall_const]
    refine dedup_sum_iff.trans ?_
    simp only [Multiset.mem_map, forall_exists_index, and_imp, forall_apply_eq_imp_iff₂, not_exists, not_and]
    constructor
    · intro h s t hst ρ hρ σ hσ heq
      exact h s t hst ρ hρ σ hσ heq.symm
    · intro h s t hst ρ hρ σ hσ heq
      exact h s t hst ρ hρ σ hσ heq.symm
  · simp [hd]

/-- The rows of groups with different keys. -/
theorem rowsOf_grouped_iff (hg : query.gbyAttrs ≠ []) (F : ℕ → Multiset (ℕ → Row α)) :
    (∀ now, query.rowsOf I (∑ t ∈ Finset.range (now + 1), F t) = ∑ t ∈ Finset.range (now + 1), query.rowsOf I (F t)) ↔
      ∀ s t, s < t → ∀ ρ ∈ F s, ∀ σ ∈ F t, query.groupKey I ρ ≠ query.groupKey I σ := by
  have hrows (ρs : Multiset (ℕ → Row α)) : query.rowsOf I ρs = (ρs.map (query.groupKey I)).dedup.map fun key =>
      query.groupRow I (ρs.filter fun ρ => query.groupKey I ρ = key) key := by
    unfold Query.rowsOf
    rw [if_neg fun h => hg h.2, if_neg hg]
  have hkeys : (∀ s t, s < t → ∀ ρ ∈ F s, ∀ σ ∈ F t, query.groupKey I ρ ≠ query.groupKey I σ) ↔
      ∀ s t, s < t → ∀ key ∈ (F s).map (query.groupKey I), key ∉ (F t).map (query.groupKey I) := by
    simp only [Multiset.mem_map, forall_exists_index, and_imp, forall_apply_eq_imp_iff₂, not_exists, not_and]
    constructor
    · intro h s t hst ρ hρ σ hσ heq
      exact h s t hst ρ hρ σ hσ heq.symm
    · intro h s t hst ρ hρ σ hσ heq
      exact h s t hst ρ hρ σ hσ heq.symm
  rw [hkeys, ← dedup_sum_iff]
  constructor
  · -- there is a row for each key
    intro h
    apply dedup_sum_of_card
    intro now
    have hcard := congrArg Multiset.card (h now)
    simp only [hrows, Multiset.card_sum, Multiset.card_map, sum_map] at hcard
    rw [hcard, Multiset.card_sum]
  · intro h now
    have hnew := dedup_sum_iff.mp h
    rw [hrows, sum_map, h now]
    rw [sum_map]
    apply Finset.sum_congr rfl
    intro t ht
    rw [hrows]
    apply Multiset.map_congr rfl
    intro key hkey
    have hhere := Multiset.mem_dedup.mp hkey
    congr 1
    -- no assignment of another instant has the key
    rw [sum_filter, Finset.sum_eq_single t]
    · intro s _ hst
      rw [Multiset.filter_eq_nil]
      intro ρ hρ hρkey
      have hother : key ∈ (F s).map (query.groupKey I) := Multiset.mem_map.mpr ⟨ρ,hρ,hρkey⟩
      rcases Nat.lt_or_gt_of_ne hst with hlt | hlt
      · exact hnew s t hlt key hother hhere
      · exact hnew t s hlt key hhere hother
    · intro hnot
      exact absurd ht hnot

/-- Without GROUP BY there is one group. -/
theorem card_resultOf (hu : ¬ query.Ungrouped) (hg : query.gbyAttrs = []) (ρs : Multiset (ℕ → Row α)) :
    (query.resultOf I ρs).card = 1 := by
  have hrows : query.rowsOf I ρs = {query.groupRow I ρs []} := by
    unfold Query.rowsOf
    rw [if_neg (show ¬ (query.aggrs = [] ∧ query.gbyAttrs = []) from hu), if_pos hg]
  unfold Query.resultOf
  rw [hrows, Multiset.dedup_singleton, ite_self, Multiset.card_singleton]

theorem overall_eq_iff (htogether : query.TakenTogether tableMgr) :
    query.overall I S tableMgr = query.denote I S tableMgr ↔ query.InstantsApart I S tableMgr := by
  have hdenote : query.denote I S tableMgr = fun now => ∑ t ∈ Finset.range (now + 1), query.resultOf I (query.selected I S tableMgr t) := by
    unfold Query.denote Query.relation
    rw [htogether.1.rstream, htogether.1.kind]
    rfl
  rw [hdenote, funext_iff]
  unfold Query.overall Query.InstantsApart
  split
  · rename_i hu
    exact resultOf_ungrouped_iff hu _
  · rename_i hu
    split
    · rename_i hg
      refine iff_of_false (fun h => ?_) id
      have hcard := congrArg Multiset.card (h 1)
      rw [card_resultOf hu hg, Multiset.card_sum] at hcard
      simp [card_resultOf hu hg] at hcard
    · rename_i hg
      unfold Query.resultOf
      split
      · exact Iff.rfl
      · exact rowsOf_grouped_iff hg _

end Semantic

open Logical Logical.Plan in
/-- The plan of a query that the interpreter accepts computes the answer of the query, which is what the query means exactly
when it makes no difference that the rows of all instants are taken together. -/
theorem Semantic.interpretQuery_denotes_iff {α : Type} [DecidableEq α] {I : Interp α} {S : Sources α} {tableMgr : TableManager}
    {query : Semantic.Query} {parseTree : Parser.ContQuery} {q : Plan} {n n' : ℕ} {u v : Usage}
    (h : interpretQuery tableMgr parseTree n = .ok query n') (hS : query.StreamsGrow S tableMgr)
    (hplan : genLogPlan tableMgr query u = .ok q v) :
    q.denote I S = query.answer I S tableMgr ∧
      (q.denote I S = query.denote I S tableMgr ↔ (query.TakenTogether tableMgr → query.InstantsApart I S tableMgr)) := by
  have hanswer : q.denote I S = query.answer I S tableMgr := denote_genLogPlan (interpretQuery_wellFormed h) hS hplan
  refine ⟨hanswer,?_⟩
  rw [hanswer, Query.answer]
  split
  · rename_i htogether
    rw [overall_eq_iff htogether]
    exact ⟨fun h _ => h,fun h => h htogether⟩
  · rename_i hnot
    exact iff_of_true rfl fun h => absurd h hnot

def differentRowsBlock : Parser.SfwBlock := ⟨⟨true,[.attrRef ⟨none,['a']⟩]⟩,[⟨['S'],none,some .now⟩],[],[]⟩

open Logical.Plan in
/-- The rows that a variable over the present of the stream takes at an instant are those that come then. -/
theorem Semantic.selected_present {query : Semantic.Query} (hfrom : query.fromClauseTables = [0]) (hpreds : query.preds = [])
    (hwin : query.winSpec 0 = .now) (htable : query.refTables 0 = 0) (F : TimeVarying ℤ) (now : ℕ) :
    query.selected intInterp (streamOf F) streamAndRelation now =
      (F now).map fun r => Function.update (fun _ => []) 0 (fit intInterp.null 1 r) := by
  have hrows : tableRows intInterp (streamOf F) streamAndRelation 0 = accumulate (F.map (fit intInterp.null 1)) :=
    map_accumulate (fit intInterp.null 1) F
  have hentry : query.entryRows intInterp (streamOf F) streamAndRelation 0 0 = F.map (fit intInterp.null 1) := by
    unfold Query.entryRows
    rw [htable, hwin, hrows]
    exact (rangeWindow_one _).trans (arrivals_accumulate _)
  unfold Query.selected Query.assigned
  simp [hfrom,hpreds,hentry,assignments,TimeVarying.map]

open Logical.Plan in
/-- What is computed is what is meant when another row comes at every instant, and not when the same row comes again. -/
theorem Semantic.differentRows_denotes : ∃ query n q v,
    interpretQuery streamAndRelation (.sfwBlock differentRowsBlock (some .rstream)) 0 = .ok query n ∧
    Logical.genLogPlan streamAndRelation query ⟨0,0⟩ = .ok q v ∧
    q.denote intInterp (streamOf fun i => {[(i : ℤ)]}) = query.denote intInterp (streamOf fun i => {[(i : ℤ)]}) streamAndRelation ∧
    q.denote intInterp (streamOf fun _ => {[5]}) ≠ query.denote intInterp (streamOf fun _ => {[5]}) streamAndRelation := by
  obtain ⟨query,n,h⟩ := exists_of_returns (r := interpretQuery streamAndRelation (.sfwBlock differentRowsBlock (some .rstream)) 0) (by decide)
  obtain ⟨q,v,hplan⟩ := exists_of_returns (r := Logical.genLogPlan streamAndRelation query ⟨0,0⟩) (by cases h; decide)
  have hgrow (F : TimeVarying ℤ) : query.StreamsGrow (streamOf F) streamAndRelation := fun v hv hs => monotone_accumulate F
  have hselected (F : TimeVarying ℤ) (now : ℕ) : query.selected intInterp (streamOf F) streamAndRelation now =
      (F now).map fun r => Function.update (fun _ => []) 0 (fit intInterp.null 1 r) := by
    cases h
    exact selected_present rfl rfl rfl rfl F now
  have happart (F : TimeVarying ℤ) : query.InstantsApart intInterp (streamOf F) streamAndRelation ↔ ∀ s t, s < t →
      ∀ x ∈ F s, ∀ y ∈ F t, fit intInterp.null 1 x ≠ fit intInterp.null 1 y := by
    have hrow (x : Row ℤ) : query.selectRow intInterp (Function.update (fun _ => []) 0 (fit intInterp.null 1 x)) = fit intInterp.null 1 x := by
      cases h
      cases x <;> rfl
    have hu : query.Ungrouped := by
      cases h
      exact ⟨rfl,rfl⟩
    have hdistinct : query.bDistinct = true := by
      cases h
      rfl
    unfold Query.InstantsApart
    simp only [hu, hdistinct, if_true, forall_const, hselected, Multiset.mem_map, forall_exists_index, and_imp, forall_apply_eq_imp_iff₂, hrow]
  refine ⟨query,n,q,v,h,hplan,?_,?_⟩
  · rw [(interpretQuery_denotes_iff h (hgrow _) hplan).2, happart]
    intro _ s t hst x hx y hy heq
    obtain rfl := Multiset.mem_singleton.mp hx
    obtain rfl := Multiset.mem_singleton.mp hy
    have : (s : ℤ) = t := (List.cons.inj heq).1
    omega
  · rw [Ne, (interpretQuery_denotes_iff h (hgrow _) hplan).2, happart]
    intro hall
    have htogether : query.TakenTogether streamAndRelation := by
      cases h
      decide
    exact hall htogether 0 1 Nat.zero_lt_one [5] (Multiset.mem_singleton_self _) [5] (Multiset.mem_singleton_self _) rfl

end AqsiosCoordinator
