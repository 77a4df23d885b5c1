import AqsiosCoordinator.Querygen.CoherentRows
import AqsiosCoordinator.Querygen.PlanBudgets
import AqsiosCoordinator.Querygen.QueryMeaning
import AqsiosCoordinator.Querygen.StreamCrosses

/-! # Naive plans compute what queries mean

Below the aggregations the rows of a plan are those of assignments of rows to the
variables, one after the other. What is looked up by name in such a row is the value of
the attribute under the assignment.
-/
namespace AqsiosCoordinator.Logical
open Common Foundation Foundation.TimeVarying Metadata
variable {α : Type} {I : Interp α}

section Lookup
variable {schema : List Attr} {r : Row α} {a b : Attr}

theorem lookup_cons {v : α} : lookup I (b :: schema) (v :: r) a = if a.same b then v else lookup I schema r a := by
  unfold lookup
  rw [List.findIdx?_cons]
  cases a.same b with
  | true => simp
  | false => cases schema.findIdx? (fun c => a.same c) <;> simp

theorem lookup_of_none (h : schema.any (fun b => a.same b) = false) : lookup I schema r a = I.null := by
  have hnone : schema.findIdx? (fun b => a.same b) = none := by
    rw [List.findIdx?_eq_none_iff]
    simpa using h
  simp only [lookup, hnone]

end Lookup

namespace Plan
variable {tableMgr : TableManager} {query : Semantic.Query} {ρ : ℕ → Row α} {r : Row α}

theorem any_tableAttrs {v : ℕ} {a : Semantic.Attr} : ((tableAttrs tableMgr v (query.refTables v)).any
    fun b => (transformAttr query a).same b) = true ↔ a.varId = v ∧ a.attrId < tableMgr.getNumAttrs (query.refTables v) := by
  simp only [tableAttrs, List.any_map, List.any_eq_true, List.mem_range, Function.comp_apply, transformAttr, Attr.same,
    Bool.and_eq_true, decide_eq_true_eq]
  constructor
  · rintro ⟨k,hk,⟨rfl,-⟩,rfl⟩
    exact ⟨rfl,hk⟩
  · rintro ⟨rfl,hk⟩
    exact ⟨_,hk,⟨rfl,rfl⟩,rfl⟩

/-- In the rows of a table the attributes of its variable have their values. -/
theorem lookup_tableAttrs {v : ℕ} (hr : r.length = tableMgr.getNumAttrs (query.refTables v)) (a : Semantic.Attr) :
    lookup I (tableAttrs tableMgr v (query.refTables v)) r (transformAttr query a) =
      if a.varId = v then r.getD a.attrId I.null else I.null := by
  by_cases hv : a.varId = v
  · rw [if_pos hv]
    by_cases hk : a.attrId < tableMgr.getNumAttrs (query.refTables v)
    · have hlen : (tableAttrs tableMgr v (query.refTables v)).length = r.length := by simp [tableAttrs,hr]
      have hcoherent : Coherent I.null (tableAttrs tableMgr v (query.refTables v)) r := by
        have h := coherent_fit tableMgr v (query.refTables v) I.null (r := r)
        rwa [fit_of_length hlen.symm] at h
      apply hcoherent.lookup_eq
      · simp [tableAttrs,transformAttr,hv,hk]
      · simp [transformAttr,Attr.same]
    · rw [lookup_of_none, List.getD_eq_default]
      · omega
      · rw [Bool.eq_false_iff]
        exact fun h => hk (any_tableAttrs.mp h).2
  · rw [if_neg hv]
    apply lookup_of_none
    rw [Bool.eq_false_iff]
    exact fun h => hv (any_tableAttrs.mp h).1

def fromSchema (tableMgr : TableManager) (query : Semantic.Query) (vars : List ℕ) : List Attr :=
  vars.flatMap fun v => tableAttrs tableMgr v (query.refTables v)

theorem lookup_assigned {vars : List ℕ} (hlen : ∀ v ∈ vars, (ρ v).length = tableMgr.getNumAttrs (query.refTables v)) (a : Semantic.Attr) :
    lookup I (fromSchema tableMgr query vars) (vars.flatMap ρ) (transformAttr query a) =
      if a.varId ∈ vars then Semantic.attrValue I ρ a else I.null := by
  induction vars with
  | nil => rfl
  | cons v vars ih =>
    obtain ⟨hv,hvars⟩ := List.forall_mem_cons.mp hlen
    have hwidth : (ρ v).length = (tableAttrs tableMgr v (query.refTables v)).length := by simp [tableAttrs,hv]
    rw [fromSchema, List.flatMap_cons, List.flatMap_cons, lookup_append hwidth, lookup_tableAttrs hv]
    rw [show (vars.flatMap fun v => tableAttrs tableMgr v (query.refTables v)) = fromSchema tableMgr query vars from rfl, ih hvars]
    by_cases hav : a.varId = v
    · subst hav
      rw [if_pos rfl, if_pos List.mem_cons_self]
      split
      · rfl
      · rename_i hnone
        have hout : ¬ a.attrId < tableMgr.getNumAttrs (query.refTables a.varId) := fun hk => hnone (any_tableAttrs.mpr ⟨rfl,hk⟩)
        have hnull : Semantic.attrValue I ρ a = I.null := List.getD_eq_default _ _ (by omega)
        rw [hnull, ite_self]
    · have hnone : ((tableAttrs tableMgr v (query.refTables v)).any fun b => (transformAttr query a).same b) = false := by
        rw [Bool.eq_false_iff]
        exact fun h => hav (any_tableAttrs.mp h).1
      simp only [hnone, Bool.false_eq_true, if_false, List.mem_cons, hav, false_or]

/-- No table has an aggregation for an attribute. -/
theorem lookup_aggr_fromSchema {vars : List ℕ} (fn : AggrFn) (a : Semantic.Attr) :
    lookup I (fromSchema tableMgr query vars) r (transformAggrAttr query fn a) = I.null := by
  apply lookup_of_none
  rw [List.any_eq_false]
  intro b hb
  obtain ⟨v,-,hb⟩ := List.mem_flatMap.mp hb
  obtain ⟨k,-,rfl⟩ := List.mem_map.mp hb
  simp [transformAggrAttr,Attr.same]

theorem type_logicalExpr {e : Semantic.Expr} (h : e.Typed) : (logicalExpr query e).type = e.type := by
  induction e with
  | constVal c => rfl
  | attrRef type a => rfl
  | aggrExpr type fn a => rfl
  | compExpr type op left right hl _ => exact (hl h.1).trans h.2.2.symm

/-- An expression has the same value when its attributes and aggregations are looked up as when they are given. -/
theorem value_logicalExpr {schema : List Attr} {attr : Semantic.Attr → α} {aggr : AggrFn → Semantic.Attr → α} {e : Semantic.Expr}
    (ht : e.Typed) (hattr : ∀ a, lookup I schema r (transformAttr query a) = attr a)
    (haggr : ∀ fn a, (fn,a) ∈ e.aggrs → lookup I schema r (transformAggrAttr query fn a) = aggr fn a) :
    I.value (lookup I schema r) (logicalExpr query e) = e.value I attr aggr := by
  induction e with
  | constVal c => rfl
  | attrRef type a => exact hattr a
  | aggrExpr type fn a => exact haggr fn a (List.mem_singleton_self _)
  | compExpr type op left right hl hr =>
    simp only [logicalExpr, Interp.value, Semantic.Expr.value]
    rw [hl ht.1 fun fn a h => haggr fn a (List.mem_append_left _ h), hr ht.2.1 fun fn a h => haggr fn a (List.mem_append_right _ h),
      type_logicalExpr ht.1]

theorem compare_logicalBExpr {schema : List Attr} {attr : Semantic.Attr → α} {b : Semantic.BExpr} (hl : b.left.Typed)
    (hr : b.right.Typed) (hattr : ∀ a, lookup I schema r (transformAttr query a) = attr a)
    (haggr : ∀ fn a, lookup I schema r (transformAggrAttr query fn a) = I.null) :
    I.compare (lookup I schema r) (logicalBExpr query b) = b.holds I attr := by
  unfold Interp.compare Semantic.BExpr.holds logicalBExpr
  dsimp only
  rw [value_logicalExpr hl hattr fun fn a _ => haggr fn a, value_logicalExpr hr hattr fun fn a _ => haggr fn a,
    type_logicalExpr hl, type_logicalExpr hr]

section From
variable [DecidableEq α] {S : Sources α}

omit [DecidableEq α] in
theorem allRows_tableRows (tableId : ℕ) :
    AllRows (fun r => r.length = tableMgr.getNumAttrs tableId) (Semantic.tableRows I S tableMgr tableId) :=
  allRows_map fun r => length_fit _ _ r

theorem entryRows_length (t v : ℕ) : AllRows (fun r => r.length = tableMgr.getNumAttrs (query.refTables v))
    (query.entryRows I S tableMgr t v) := by
  have htable : AllRows (fun r => r.length = tableMgr.getNumAttrs (query.refTables v)) (Semantic.tableRows I S tableMgr (query.refTables v)) :=
    allRows_tableRows (query.refTables v)
  unfold Semantic.Query.entryRows
  dsimp only
  split
  · cases query.winSpec t with
    | range timeUnits => exact htable.rangeWindow timeUnits
    | row numRows => exact htable.partitionWindow S.listed numRows _
    | partition numRows attrs => exact htable.partitionWindow S.listed numRows _
    | now => exact htable.rangeWindow 1
    | unbounded => exact htable
  · exact htable

theorem denote_sourcePlan (v tableId : ℕ) : (sourcePlan tableMgr v tableId).denote I S = Semantic.tableRows I S tableMgr tableId := by
  unfold sourcePlan
  split
  · simp [Kind.denote,Semantic.tableRows,tableAttrs]
  · simp [Kind.denote,Semantic.tableRows,tableAttrs]

theorem denote_unaryNode {kind : Kind} {outAttrs : List Attr} {p : Plan} :
    (unaryNode kind outAttrs p).denote I S = kind.denote I S outAttrs.length [(p.outAttrs,p.denote I S)] := by
  rw [unaryNode, denote_node, List.map_singleton]

/-- A window over the rows of a stream shows what the query says. -/
theorem denote_windowPlan {v : ℕ} {p : Plan} {win : Semantic.WindowSpec} (hp : p.denote I S = Semantic.tableRows I S tableMgr (query.refTables v))
    (hout : p.outAttrs = tableAttrs tableMgr v (query.refTables v))
    (hwin : ∀ numRows attrs, win = .partition numRows attrs → attrs.length ≤ Semantic.MAX_PARTN_ATTRS) :
    (windowPlan query win p).denote I S = win.apply I S v (Semantic.tableRows I S tableMgr (query.refTables v)) := by
  rw [← hp]
  cases win with
  | range timeUnits => exact denote_unaryNode
  | row numRows => exact denote_unaryNode
  | now => exact denote_unaryNode
  | unbounded => rfl
  | partition numRows attrs =>
    have hall : (attrs.map (transformAttr query)).take MAX_GROUP_ATTRS = attrs.map (transformAttr query) := by
      apply List.take_of_length_le
      rw [List.length_map]
      exact hwin numRows attrs rfl
    simp only [windowPlan, windowKind, hall, denote_unaryNode]
    apply partitionWindow_congr S.listed (P := fun r => r.length = tableMgr.getNumAttrs (query.refTables v))
    · rw [List.headD_cons, hp]
      exact allRows_tableRows _
    · intro r hr
      rw [List.map_map]
      apply List.map_congr_left
      intro a _
      rw [List.headD_cons, hout]
      exact lookup_tableAttrs hr a

theorem denote_branch (hq : query.WellFormed tableMgr) (t v : ℕ) :
    (branch tableMgr query t v).denote I S = query.entryRows I S tableMgr t v := by
  unfold branch Semantic.Query.entryRows
  dsimp only
  split
  · exact denote_windowPlan (denote_sourcePlan v _) (source_outAttrs v _) (hq.partitions t)
  · exact denote_sourcePlan v _

/-- The rows of a plan at an instant are those of assignments, in which attributes are found by name. -/
def Ranges (I : Interp α) (S : Sources α) (query : Semantic.Query) (p : Plan) (row : (ℕ → Row α) → Row α) (now : ℕ)
    (ρs : Multiset (ℕ → Row α)) : Prop :=
  p.denote I S now = ρs.map row ∧ ∀ ρ ∈ ρs, (∀ a, lookup I p.outAttrs (row ρ) (transformAttr query a) = Semantic.attrValue I ρ a) ∧
    ∀ fn a, lookup I p.outAttrs (row ρ) (transformAggrAttr query fn a) = I.null

theorem assigned_rows {now : ℕ} (hvars : query.fromClauseTables.Nodup) {ρ : ℕ → Row α} (hρ : ρ ∈ query.assigned I S tableMgr now) :
    (∀ v ∈ query.fromClauseTables, (ρ v).length = tableMgr.getNumAttrs (query.refTables v)) ∧
      ∀ v ∉ query.fromClauseTables, ρ v = [] := by
  have hnames : (query.fromClauseTables.zipIdx.map fun v => (v.1,query.entryRows I S tableMgr v.2 v.1 now)).map Prod.fst =
      query.fromClauseTables := by
    rw [List.map_map]
    exact List.zipIdx_map_fst 0 _
  constructor
  · intro v hv
    obtain ⟨t,ht⟩ : ∃ t, (v,t) ∈ query.fromClauseTables.zipIdx := by
      obtain ⟨t,ht⟩ := List.mem_iff_getElem?.mp hv
      exact ⟨t,List.mk_mem_zipIdx_iff_getElem?.mpr ht⟩
    have hmem := assignments_mem hρ (hnames.symm ▸ hvars) _ (List.mem_map_of_mem ht)
    exact entryRows_length t v now _ hmem
  · intro v hv
    exact assignments_outside hρ (hnames.symm ▸ hv)

omit [DecidableEq α] in
theorem map_fit_of_length {n : ℕ} {R : Multiset (Row α)} {null : α} (h : ∀ r ∈ R, r.length = n) : R.map (fit null n) = R := by
  conv_rhs => rw [← Multiset.map_id R]
  apply Multiset.map_congr rfl
  intro r hr
  exact fit_of_length (h r hr)

theorem entry_fits (t v now : ℕ) : (query.entryRows I S tableMgr t v now).map (fit I.null (tableAttrs tableMgr v (query.refTables v)).length) =
    query.entryRows I S tableMgr t v now := by
  apply map_fit_of_length
  intro r hr
  rw [entryRows_length t v now r hr, tableAttrs, List.length_map, List.length_range]

theorem product_branches (hq : query.WellFormed tableMgr) (now : ℕ) :
    product I.null ((branches tableMgr query).map fun p => (p.outAttrs.length,p.denote I S now)) =
      (query.assigned I S tableMgr now).map fun ρ => query.fromClauseTables.flatMap ρ := by
  obtain ⟨bags,hbags⟩ : ∃ bags : List (Ranged ℕ α), bags = query.fromClauseTables.zipIdx.map fun v =>
      (v.1,(tableAttrs tableMgr v.1 (query.refTables v.1)).length,query.entryRows I S tableMgr v.2 v.1 now) := ⟨_,rfl⟩
  have hfactors : ((branches tableMgr query).map fun p => (p.outAttrs.length,p.denote I S now)) = bags.map Prod.snd := by
    rw [hbags, branches, List.map_map, List.map_map]
    apply List.map_congr_left
    intro v _
    simp only [Function.comp_apply, branch_outAttrs, denote_branch hq]
  have hnames : bags.map Prod.fst = query.fromClauseTables := by
    rw [hbags, List.map_map]
    exact List.zipIdx_map_fst 0 _
  have hassigned : query.assigned I S tableMgr now = assignments (bags.map fun b => (b.1,b.2.2.map (fit I.null b.2.1))) := by
    rw [hbags, List.map_map, Semantic.Query.assigned]
    simp only [Function.comp_def, entry_fits]
  rw [hfactors, hassigned, product_eq_assignments (by rw [hnames]; exact hq.vars), hnames]

omit [DecidableEq α] in
theorem joinPlan_outAttrs : (joinPlan tableMgr query).outAttrs = fromSchema tableMgr query query.fromClauseTables := by
  have hflat : ((branches tableMgr query).map Plan.outAttrs).flatten = fromSchema tableMgr query query.fromClauseTables := flatten_branches
  rw [← hflat]
  unfold joinPlan
  split
  · rename_i p hp
    rw [hp]
    simp
  · rfl

theorem denote_joinPlan (hq : query.WellFormed tableMgr) (now : ℕ) : (joinPlan tableMgr query).denote I S now =
    product I.null ((branches tableMgr query).map fun p => (p.outAttrs.length,p.denote I S now)) := by
  unfold joinPlan
  split
  · rename_i p hp
    obtain ⟨⟨v,t⟩,-,hbranch⟩ := List.mem_map.mp (show p ∈ branches tableMgr query by rw [hp]; exact List.mem_singleton_self p)
    rw [hp, ← hbranch]
    simp only [List.map_singleton, product, Multiset.map_singleton, List.append_nil, Multiset.bind_singleton]
    rw [denote_branch hq, branch_outAttrs, entry_fits]
  · rw [crossPlan, denote_node]
    simp only [Kind.denote, cross, List.map_map, Function.comp_def]

/-- The FROM clause brings the assignments of the rows of its entries. -/
theorem ranges_joinPlan (hq : query.WellFormed tableMgr) (now : ℕ) :
    Ranges I S query (joinPlan tableMgr query) (fun ρ => query.fromClauseTables.flatMap ρ) now (query.assigned I S tableMgr now) := by
  refine ⟨(denote_joinPlan hq now).trans (product_branches hq now),fun ρ hρ => ?_⟩
  obtain ⟨hin,hnot⟩ := assigned_rows hq.vars hρ
  rw [joinPlan_outAttrs]
  constructor
  · intro a
    rw [lookup_assigned hin]
    split
    · rfl
    · rename_i ha
      rw [Semantic.attrValue, hnot _ ha]
      rfl
  · intro fn a
    exact lookup_aggr_fromSchema fn a

variable {p : Plan} {row : (ℕ → Row α) → Row α} {now : ℕ} {ρs : Multiset (ℕ → Row α)}

theorem Ranges.select {b : Semantic.BExpr} (h : Ranges I S query p row now ρs)
    (hb : b.left.Typed ∧ b.right.Typed) : Ranges I S query (unaryNode (.select (logicalBExpr query b)) p.outAttrs p) row now
      (ρs.filter fun ρ => b.holds I (Semantic.attrValue I ρ) = true) := by
  obtain ⟨hrows,hlookup⟩ := h
  refine ⟨?_,fun ρ hρ => hlookup ρ (Multiset.mem_of_mem_filter hρ)⟩
  rw [denote_unaryNode]
  show ((p.denote I S now).filter fun r => I.compare (lookup I p.outAttrs r) (logicalBExpr query b) = true) = _
  rw [hrows, Multiset.filter_map]
  congr 1
  apply Multiset.filter_congr
  intro ρ hρ
  obtain ⟨hattr,haggr⟩ := hlookup ρ hρ
  rw [Function.comp_apply, compare_logicalBExpr hb.1 hb.2 hattr haggr]

theorem Ranges.selects {preds : List Semantic.BExpr} (h : Ranges I S query p row now ρs)
    (hpreds : ∀ b ∈ preds, b.left.Typed ∧ b.right.Typed) : Ranges I S query (selectPlan (preds.map (logicalBExpr query)) p) row now
      (ρs.filter fun ρ => preds.all (Semantic.BExpr.holds I (Semantic.attrValue I ρ)) = true) := by
  induction preds generalizing p ρs with
  | nil =>
    have hall : (ρs.filter fun ρ => ([] : List Semantic.BExpr).all (Semantic.BExpr.holds I (Semantic.attrValue I ρ)) = true) = ρs := by simp
    rw [hall]
    exact h
  | cons b preds ih =>
    obtain ⟨hb,hpreds⟩ := List.forall_mem_cons.mp hpreds
    have hboth : (ρs.filter fun ρ => (b :: preds).all (Semantic.BExpr.holds I (Semantic.attrValue I ρ)) = true) =
        (ρs.filter fun ρ => b.holds I (Semantic.attrValue I ρ) = true).filter fun ρ =>
          preds.all (Semantic.BExpr.holds I (Semantic.attrValue I ρ)) = true := by
      rw [Multiset.filter_filter]
      apply Multiset.filter_congr
      intro ρ _
      rw [List.all_cons, Bool.and_eq_true, and_comm]
    rw [hboth]
    exact ih (h.select hb) hpreds

theorem denote_projectPlan (p : Plan) (now : ℕ) : (projectPlan query p).denote I S now =
    (p.denote I S now).map (exprRow I p.outAttrs (query.projExprs.map (logicalExpr query))) := by
  rw [projectPlan, denote_unaryNode]
  rfl

omit [DecidableEq α] in
/-- The expressions of the SELECT list have the same values by name as in the query. -/
theorem exprRow_projExprs (hq : query.WellFormed tableMgr) {schema : List Attr} {r : Row α} {attr : Semantic.Attr → α}
    {aggr : AggrFn → Semantic.Attr → α} (hattr : ∀ a, lookup I schema r (transformAttr query a) = attr a)
    (haggr : ∀ fn a, (fn,a) ∈ query.aggrs → lookup I schema r (transformAggrAttr query fn a) = aggr fn a) :
    exprRow I schema (query.projExprs.map (logicalExpr query)) r = query.projExprs.map (Semantic.Expr.value I attr aggr) := by
  rw [exprRow, List.map_map]
  apply List.map_congr_left
  intro e he
  apply value_logicalExpr (hq.projExprs e he) hattr
  intro fn a ha
  exact haggr fn a (List.mem_flatMap.mpr ⟨e,he,ha⟩)

theorem denote_selectRows (hq : query.WellFormed tableMgr) (h : Ranges I S query p row now ρs) (hnone : query.aggrs = []) :
    (projectPlan query p).denote I S now = ρs.map (query.selectRow I) := by
  obtain ⟨hrows,hlookup⟩ := h
  rw [denote_projectPlan, hrows, Multiset.map_map]
  apply Multiset.map_congr rfl
  intro ρ hρ
  refine exprRow_projExprs hq (hlookup ρ hρ).1 fun fn a ha => ?_
  rw [hnone] at ha
  cases ha

omit [DecidableEq α] in
theorem lookup_keys {attrs : List Semantic.Attr} {key y : Row α} {rest : List Attr} (hkey : key.length = attrs.length) (a : Semantic.Attr) :
    lookup I (attrs.map (transformAttr query) ++ rest) (key ++ y) (transformAttr query a) =
      ((attrs.zip key).lookup a).getD (lookup I rest y (transformAttr query a)) := by
  induction attrs generalizing key with
  | nil =>
    obtain rfl := List.length_eq_zero_iff.mp hkey
    rfl
  | cons b attrs ih =>
    cases key with
    | nil => cases hkey
    | cons v key =>
      rw [List.map_cons, List.cons_append, List.cons_append, lookup_cons, ih (Nat.succ.inj hkey), List.zip_cons_cons, List.lookup_cons]
      by_cases hab : a = b
      · subst hab
        rw [if_pos (transformAttr_same.mpr rfl)]
        simp
      · rw [if_neg (fun h => hab (transformAttr_same.mp h)), beq_false_of_ne hab]

omit [DecidableEq α] in
theorem lookup_aggrs {aggrs : List (AggrFn × Semantic.Attr)} {f : AggrFn × Semantic.Attr → α} {x : AggrFn × Semantic.Attr} (hx : x ∈ aggrs) :
    lookup I (aggrs.map fun a => transformAggrAttr query a.1 a.2) (aggrs.map f) (transformAggrAttr query x.1 x.2) = f x := by
  induction aggrs with
  | nil => cases hx
  | cons b aggrs ih =>
    rw [List.map_cons, List.map_cons, lookup_cons]
    split
    · rename_i hsame
      have hxb : x = b := transformAggrAttr_same.mp hsame
      rw [hxb]
    · rename_i hne
      apply ih
      rcases List.mem_cons.mp hx with rfl | hx
      · exact absurd (transformAggrAttr_same.mpr rfl) hne
      · exact hx

omit [DecidableEq α] in
/-- The aggregations of the rows that are made of assignments. -/
theorem aggrRow_map {β : Type} (aggrs : List (AggrFn × Attr)) (g : β → AggrFn × Attr → α) (ρs : Multiset β) :
    aggrRow I aggrs (ρs.map fun ρ => aggrs.map (g ρ)) = aggrs.map fun a => I.aggr a.1 (ρs.map fun ρ => g ρ a) := by
  conv_rhs => rw [← List.zipIdx_map_fst 0 aggrs, List.map_map]
  rw [aggrRow]
  apply List.map_congr_left
  intro x hx
  have hget := List.mk_mem_zipIdx_iff_getElem?.mp hx
  rw [Multiset.map_map, Function.comp_apply]
  congr 1
  apply Multiset.map_congr rfl
  intro ρ _
  simp [List.getD_eq_getElem?_getD,hget]

omit [DecidableEq α] in
/-- What is looked up in the row of a group. -/
theorem groupRow_eq (hq : query.WellFormed tableMgr) {aggrs : List (AggrFn × Semantic.Attr)} (haggrs : ∀ x ∈ query.aggrs, x ∈ aggrs)
    {key : Row α} (hkey : key.length = query.gbyAttrs.length) (ρs : Multiset (ℕ → Row α)) :
    exprRow I (query.gbyAttrs.map (transformAttr query) ++ aggrs.map fun a => transformAggrAttr query a.1 a.2)
      (query.projExprs.map (logicalExpr query))
      (key ++ aggrs.map fun a => I.aggr a.1 (ρs.map fun ρ => Semantic.attrValue I ρ a.2)) = query.groupRow I ρs key := by
  apply exprRow_projExprs hq
  · intro a
    rw [lookup_keys hkey, lookup_of_none]
    rw [List.any_eq_false]
    intro b hb
    obtain ⟨x,-,rfl⟩ := List.mem_map.mp hb
    simp [transformAttr,transformAggrAttr,Attr.same]
  · intro fn a ha
    have hnone : ((query.gbyAttrs.map (transformAttr query)).any fun b => (transformAggrAttr query fn a).same b) = false := by
      rw [List.any_eq_false]
      intro b hb
      obtain ⟨x,-,rfl⟩ := List.mem_map.mp hb
      simp [transformAttr,transformAggrAttr,Attr.same]
    rw [lookup_append (by simp [hkey]), hnone]
    exact lookup_aggrs (haggrs _ ha)

omit [DecidableEq α] in
/-- The aggregations of a group of assignments. -/
theorem groupValues {schema : List Attr}
    (h : ∀ ρ ∈ ρs, ∀ a, lookup I schema (row ρ) (transformAttr query a) = Semantic.attrValue I ρ a)
    (aggrs : List (AggrFn × Semantic.Attr)) : aggrRow I (aggrs.map (logicalAggr query))
      ((ρs.map row).map fun r => (aggrs.map (logicalAggr query)).map fun a => lookup I schema r a.2) =
    aggrs.map fun a => I.aggr a.1 (ρs.map fun ρ => Semantic.attrValue I ρ a.2) := by
  rw [Multiset.map_map]
  refine (aggrRow_map _ (fun ρ a => lookup I schema (row ρ) a.2) ρs).trans ?_
  rw [List.map_map]
  apply List.map_congr_left
  intro a _
  simp only [Function.comp_apply, logicalAggr]
  congr 1
  exact Multiset.map_congr rfl fun ρ hρ => h ρ hρ a.2

theorem denote_groupRows (hq : query.WellFormed tableMgr) (h : Ranges I S query p row now ρs)
    {aggrs : List (AggrFn × Semantic.Attr)} (haggrs : ∀ x ∈ query.aggrs, x ∈ aggrs) :
    (projectPlan query (unaryNode (.groupAggr (query.gbyAttrs.map (transformAttr query)) (aggrs.map (logicalAggr query)))
      (query.gbyAttrs.map (transformAttr query) ++ (aggrs.map (logicalAggr query)).map fun a => aggrAttr a.1 a.2) p)).denote I S now =
    if query.gbyAttrs = [] then {query.groupRow I ρs []}
    else (ρs.map (query.groupKey I)).dedup.map fun key => query.groupRow I (ρs.filter fun ρ => query.groupKey I ρ = key) key := by
  obtain ⟨hrows,hlookup⟩ := h
  have hattr : ∀ ρ ∈ ρs, ∀ a, lookup I p.outAttrs (row ρ) (transformAttr query a) = Semantic.attrValue I ρ a := fun ρ hρ => (hlookup ρ hρ).1
  have hkey (ρ : ℕ → Row α) (hρ : ρ ∈ ρs) :
      (query.gbyAttrs.map (transformAttr query)).map (lookup I p.outAttrs (row ρ)) = query.groupKey I ρ := by
    rw [List.map_map]
    exact List.map_congr_left fun a _ => hattr ρ hρ a
  have hschema : ((aggrs.map (logicalAggr query)).map fun a => aggrAttr a.1 a.2) = aggrs.map fun a => transformAggrAttr query a.1 a.2 := by
    rw [List.map_map]
    rfl
  rw [denote_projectPlan, denote_unaryNode, hschema]
  simp only [Kind.denote, List.headD_cons, TimeVarying.group, hrows, List.isEmpty_map, unaryNode, outAttrs_node]
  by_cases hnone : query.gbyAttrs = []
  · rw [if_pos hnone]
    simp only [hnone, List.isEmpty_nil, Bool.not_true, Bool.false_eq_true, if_false, Multiset.map_singleton, groupValues hattr]
    have hrow := groupRow_eq (I := I) hq haggrs (show ([] : Row α).length = query.gbyAttrs.length by rw [hnone]; rfl) ρs
    rw [hnone] at hrow
    exact congrArg _ hrow
  · rw [if_neg hnone, if_pos (by simpa using hnone), Multiset.map_map]
    have hkeys : ((ρs.map row).map fun r => (query.gbyAttrs.map (transformAttr query)).map (lookup I p.outAttrs r)) =
        ρs.map (query.groupKey I) := by
      rw [Multiset.map_map]
      exact Multiset.map_congr rfl hkey
    rw [hkeys]
    apply Multiset.map_congr rfl
    intro key hmem
    obtain ⟨ρ,-,rfl⟩ := Multiset.mem_map.mp (Multiset.mem_dedup.mp hmem)
    have hgroup : ((ρs.map row).filter fun r => (query.gbyAttrs.map (transformAttr query)).map (lookup I p.outAttrs r) = query.groupKey I ρ) =
        (ρs.filter fun σ => query.groupKey I σ = query.groupKey I ρ).map row := by
      rw [Multiset.filter_map]
      congr 1
      apply Multiset.filter_congr
      intro σ hσ
      rw [Function.comp_apply, hkey σ hσ]
    rw [Function.comp_apply, hgroup, groupValues fun σ hσ => hattr σ (Multiset.mem_of_mem_filter hσ)]
    exact groupRow_eq hq haggrs (by simp [Semantic.Query.groupKey]) _

theorem denote_distinctPlan (p : Plan) (now : ℕ) : (distinctPlan query p).denote I S now =
    if query.bDistinct then (p.denote I S now).dedup else p.denote I S now := by
  unfold distinctPlan
  split
  · rw [denote_unaryNode]
    rfl
  · rfl

theorem denote_r2sPlan (p : Plan) (R : TimeVarying α) (h : p.denote I S = R) : (r2sPlan query p).denote I S =
    match query.r2sOp with
    | none => R
    | some .istream => R.istream
    | some .dstream => R.dstream
    | some .rstream => R.rstream := by
  subst h
  unfold r2sPlan
  cases query.r2sOp with
  | none => rfl
  | some op => cases op <;> exact denote_unaryNode

theorem collected_eq {aggrs : List (AggrFn × Attr)} (h : collectAllAggrs query query.projExprs [] = some aggrs) :
    aggrs = (firstsAfter [] query.aggrs).map (logicalAggr query) ∧ (aggrs = [] ↔ query.aggrs = []) := by
  rw [collectAllAggrs_query] at h
  split at h
  · obtain rfl := Option.some.inj h
    refine ⟨rfl,?_⟩
    rw [List.map_eq_nil_iff]
    constructor
    · intro hnil
      apply List.eq_nil_iff_forall_not_mem.mpr
      intro x hx
      have hmem : x ∈ firstsAfter [] query.aggrs := mem_firstsAfter.mpr (.inr hx)
      rw [hnil] at hmem
      cases hmem
    · intro hnil
      rw [hnil]
      rfl
  · cases h

theorem denote_aggregated (hq : query.WellFormed tableMgr) {aggrs : List (AggrFn × Attr)}
    (haggrs : collectAllAggrs query query.projExprs [] = some aggrs) (h : Ranges I S query p row now ρs) :
    (projectPlan query (aggrPlan query aggrs p)).denote I S now = query.rowsOf I ρs := by
  obtain ⟨heq,hnone⟩ := collected_eq haggrs
  unfold aggrPlan Semantic.Query.rowsOf
  simp only [hnone]
  split
  · rename_i hu
    exact denote_selectRows hq h hu.1
  · rw [heq]
    exact denote_groupRows hq h fun x hx => mem_firstsAfter.mpr (.inr hx)

/-- The plan of a select-from-where query without what makes it a stream, on what brings the rows of its FROM clause. -/
def bodyPlan (query : Semantic.Query) (aggrs : List (AggrFn × Attr)) (p : Plan) : Plan :=
  distinctPlan query (projectPlan query (aggrPlan query aggrs (selectPlan (query.preds.map (logicalBExpr query)) p)))

theorem denote_bodyPlan (hq : query.WellFormed tableMgr) {aggrs : List (AggrFn × Attr)}
    (haggrs : collectAllAggrs query query.projExprs [] = some aggrs) (h : Ranges I S query p row now ρs) :
    (bodyPlan query aggrs p).denote I S now =
      query.resultOf I (ρs.filter fun ρ => query.preds.all (Semantic.BExpr.holds I (Semantic.attrValue I ρ)) = true) := by
  rw [bodyPlan, denote_distinctPlan, denote_aggregated hq haggrs (h.selects hq.preds), Semantic.Query.resultOf]

/-- The naive plan of a query computes what the query means. -/
theorem Generated.denotes {p : Plan} (h : Generated tableMgr query p) (hq : query.WellFormed tableMgr) :
    p.denote I S = query.denote I S tableMgr := by
  rcases h with ⟨hkind,aggrs,haggrs,rfl⟩ | ⟨hkind,rfl⟩
  · apply denote_r2sPlan
    funext now
    rw [Semantic.Query.relation, hkind]
    exact denote_bodyPlan hq haggrs (ranges_joinPlan hq now)
  · apply denote_r2sPlan
    have hwidth := hq.tables hkind
    have hright : (Semantic.tableRows I S tableMgr (query.refTables 1)).map (fit I.null (tableMgr.getNumAttrs (query.refTables 0))) =
        Semantic.tableRows I S tableMgr (query.refTables 1) := by
      funext now
      apply map_fit_of_length
      intro r hr
      rw [hwidth]
      exact allRows_tableRows _ now r hr
    rw [Semantic.Query.relation, hkind]
    dsimp only
    rw [setOpNode, denote_node]
    split
    · simp [Kind.denote,denote_sourcePlan,source_outAttrs,tableAttrs,hright]
    · simp [Kind.denote,denote_sourcePlan,source_outAttrs,tableAttrs,hright]

end From

end Plan
end AqsiosCoordinator.Logical
