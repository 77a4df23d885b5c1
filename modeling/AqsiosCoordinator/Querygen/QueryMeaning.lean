import AqsiosCoordinator.Foundation.Assignments
import AqsiosCoordinator.Querygen.CollectedAggregates
import AqsiosCoordinator.Querygen.SemInterp

/-! # What queries mean

A variable of the FROM clause ranges over the rows that its window shows of its table.
The rows of the result are made of the assignments of rows to the variables that satisfy
the WHERE clause: one for each, or one for each group.
-/
namespace AqsiosCoordinator.Semantic
open Common Foundation Metadata
variable {α : Type}

deriving instance DecidableEq for WindowSpec, R2SOp

namespace Expr

/-- The value of an expression by those of the attributes and of the aggregations. -/
def value (I : Interp α) (attr : Attr → α) (aggr : AggrFn → Attr → α) : Expr → α
  | .constVal c => I.const c
  | .attrRef _ a => attr a
  | .aggrExpr _ fn a => aggr fn a
  | .compExpr _ op left right => I.arith op left.type (value I attr aggr left) (value I attr aggr right)

/-- The type of what is computed is that of the left operand. -/
def Typed : Expr → Prop
  | .compExpr type _ left right => Typed left ∧ Typed right ∧ type = left.type
  | _ => True

end Expr

/-- A single row has no aggregations: they are null. -/
def BExpr.holds (I : Interp α) (attr : Attr → α) (b : BExpr) : Bool :=
  I.comp b.op b.left.type b.right.type (b.left.value I attr fun _ _ => I.null) (b.right.value I attr fun _ _ => I.null)

/-- The value of an attribute; what a variable does not have is null. -/
def attrValue (I : Interp α) (ρ : ℕ → Row α) (a : Attr) : α := (ρ a.varId).getD a.attrId I.null

section Meaning
variable [DecidableEq α] (I : Interp α) (S : Sources α) (tableMgr : TableManager)

def tableRows (tableId : ℕ) : TimeVarying α := (S.table tableId).map (fit I.null (tableMgr.getNumAttrs tableId))

def WindowSpec.apply (varId : ℕ) (R : TimeVarying α) : WindowSpec → TimeVarying α
  | .range timeUnits => R.rangeWindow timeUnits
  | .row numRows => R.partitionWindow S.order numRows fun _ => []
  | .partition numRows attrs => R.partitionWindow S.order numRows fun r =>
      attrs.map fun a => if a.varId = varId then r.getD a.attrId I.null else I.null
  | .now => R.rangeWindow 1
  | .unbounded => R

namespace Query
variable (query : Query)

def entryRows (t varId : ℕ) : TimeVarying α :=
  let R := tableRows I S tableMgr (query.refTables varId)
  if tableMgr.isStream (query.refTables varId) then (query.winSpec t).apply I S varId R else R

/-- The assignments of present rows to the variables of the FROM clause. -/
def assigned (now : ℕ) : Multiset (ℕ → Row α) :=
  assignments (query.fromClauseTables.zipIdx.map fun v => (v.1,query.entryRows I S tableMgr v.2 v.1 now))

def selected (now : ℕ) : Multiset (ℕ → Row α) :=
  (query.assigned I S tableMgr now).filter fun ρ => query.preds.all (BExpr.holds I (attrValue I ρ)) = true

def groupKey (ρ : ℕ → Row α) : Row α := query.gbyAttrs.map (attrValue I ρ)

/-- The row of a group. An attribute by which is not grouped is null. -/
def groupRow (ρs : Multiset (ℕ → Row α)) (key : Row α) : Row α :=
  query.projExprs.map (Expr.value I (fun a => ((query.gbyAttrs.zip key).lookup a).getD I.null)
    fun fn a => I.aggr fn (ρs.map fun ρ => attrValue I ρ a))

def selectRow (ρ : ℕ → Row α) : Row α := query.projExprs.map (Expr.value I (attrValue I ρ) fun _ _ => I.null)

/-- The rows that a select-from-where query makes of assignments. Without GROUP BY all assignments are one group. -/
def rowsOf (ρs : Multiset (ℕ → Row α)) : Multiset (Row α) :=
  if query.aggrs = [] ∧ query.gbyAttrs = [] then ρs.map (query.selectRow I)
  else if query.gbyAttrs = [] then {query.groupRow I ρs []}
  else (ρs.map (query.groupKey I)).dedup.map fun key => query.groupRow I (ρs.filter fun ρ => query.groupKey I ρ = key) key

def resultOf (ρs : Multiset (ℕ → Row α)) : Multiset (Row α) :=
  if query.bDistinct then (query.rowsOf I ρs).dedup else query.rowsOf I ρs

def relation : TimeVarying α :=
  match query.kind with
  | .sfwQuery => fun now => query.resultOf I (query.selected I S tableMgr now)
  | .binaryOp =>
    let left := tableRows I S tableMgr (query.refTables 0)
    let right := tableRows I S tableMgr (query.refTables 1)
    if query.binOp = .union then left.union right else left.except right

def denote : TimeVarying α :=
  match query.r2sOp with
  | none => query.relation I S tableMgr
  | some .istream => (query.relation I S tableMgr).istream
  | some .dstream => (query.relation I S tableMgr).dstream
  | some .rstream => (query.relation I S tableMgr).rstream

/-- What a query computes when all assignments so far are taken together. -/
def overall : TimeVarying α := fun now => query.resultOf I (∑ t ∈ Finset.range (now + 1), query.selected I S tableMgr t)

end Query
end Meaning

def Query.Ungrouped (query : Query) : Prop := query.aggrs = [] ∧ query.gbyAttrs = []

/-- RSTREAM is over a FROM clause in which a stream is seen as it comes. -/
structure Query.OfPresent (tableMgr : TableManager) (query : Query) : Prop where
  kind : query.kind = .sfwQuery
  rstream : query.r2sOp = some .rstream
  now : ∃ v ∈ query.fromClauseTables.zipIdx, tableMgr.isStream (query.refTables v.1) = true ∧ query.winSpec v.2 = .now

/-- The plan of such a query takes the assignments of all instants together, unless they are groups of the rows of one stream. -/
def Query.TakenTogether (tableMgr : TableManager) (query : Query) : Prop :=
  query.OfPresent tableMgr ∧ (query.Ungrouped ∨ query.fromClauseTables.length ≠ 1)

def Query.StreamsGrow {α : Type} (S : Sources α) (tableMgr : TableManager) (query : Query) : Prop :=
  ∀ v ∈ query.sources, tableMgr.isStream (query.refTables v) = true → Monotone (S.table (query.refTables v))

instance (query : Query) : Decidable query.Ungrouped := inferInstanceAs (Decidable (_ ∧ _))

instance (tableMgr : TableManager) (query : Query) : Decidable (query.OfPresent tableMgr) :=
  decidable_of_iff (query.kind = .sfwQuery ∧ query.r2sOp = some .rstream ∧
    ∃ v ∈ query.fromClauseTables.zipIdx, tableMgr.isStream (query.refTables v.1) = true ∧ query.winSpec v.2 = .now)
    ⟨fun h => ⟨h.1,h.2.1,h.2.2⟩,fun h => ⟨h.kind,h.rstream,h.now⟩⟩

instance (tableMgr : TableManager) (query : Query) : Decidable (query.TakenTogether tableMgr) := inferInstanceAs (Decidable (_ ∧ _))

def Query.answer {α : Type} [DecidableEq α] (I : Interp α) (S : Sources α) (tableMgr : TableManager) (query : Query) : TimeVarying α :=
  if query.TakenTogether tableMgr then query.overall I S tableMgr else query.denote I S tableMgr

/-- A query as the interpreter builds it: the variables are different, the types of expressions are
those of their operands, and the tables of a binary operator have the same number of attributes. -/
structure Query.WellFormed (tableMgr : TableManager) (query : Query) : Prop where
  vars : query.fromClauseTables.Nodup
  partitions : ∀ t numRows attrs, query.winSpec t = .partition numRows attrs → attrs.length ≤ MAX_PARTN_ATTRS
  preds : ∀ b ∈ query.preds, b.left.Typed ∧ b.right.Typed
  projExprs : ∀ e ∈ query.projExprs, e.Typed
  tables : query.kind = .binaryOp → tableMgr.getNumAttrs (query.refTables 0) = tableMgr.getNumAttrs (query.refTables 1)

/-! What a query means depends on the tables that it reads. -/

section Congr
variable [DecidableEq α] {I : Interp α} {S : Sources α} {tableMgr tableMgr' : TableManager} {query : Query}

def Query.SameTables (tableMgr tableMgr' : TableManager) (query : Query) : Prop := ∀ v ∈ query.sources,
  tableMgr'.isStream (query.refTables v) = tableMgr.isStream (query.refTables v) ∧
  tableMgr'.getNumAttrs (query.refTables v) = tableMgr.getNumAttrs (query.refTables v)

theorem mem_sources_of_zipIdx (hkind : query.kind = .sfwQuery) {x : ℕ × ℕ} (hx : x ∈ query.fromClauseTables.zipIdx) : x.1 ∈ query.sources := by
  rw [Query.sources, hkind]
  exact List.mem_of_getElem? (List.mem_zipIdx_iff_getElem?.mp hx)

theorem Query.SameTables.selected (h : query.SameTables tableMgr tableMgr') (hkind : query.kind = .sfwQuery) :
    query.selected I S tableMgr' = query.selected I S tableMgr := by
  funext now
  have hentries : (query.fromClauseTables.zipIdx.map fun v => (v.1,query.entryRows I S tableMgr' v.2 v.1 now)) =
      query.fromClauseTables.zipIdx.map fun v => (v.1,query.entryRows I S tableMgr v.2 v.1 now) := by
    apply List.map_congr_left
    intro x hx
    obtain ⟨hstream,hwidth⟩ := h x.1 (mem_sources_of_zipIdx hkind hx)
    simp only [entryRows, tableRows, hstream, hwidth]
  rw [Query.selected, Query.selected, assigned, assigned, hentries]

theorem Query.SameTables.relation (h : query.SameTables tableMgr tableMgr') : query.relation I S tableMgr' = query.relation I S tableMgr := by
  unfold Query.relation
  cases hkind : query.kind with
  | sfwQuery => rw [h.selected hkind]
  | binaryOp =>
    have hwidth (v : ℕ) (hv : v ∈ [0, 1]) := (h v (by rw [Query.sources, hkind]; exact hv)).2
    simp only [tableRows, hwidth 0 (by simp), hwidth 1 (by simp)]

theorem Query.SameTables.takenTogether (h : query.SameTables tableMgr tableMgr') : query.TakenTogether tableMgr' ↔ query.TakenTogether tableMgr := by
  have hpresent : query.OfPresent tableMgr' ↔ query.OfPresent tableMgr := by
    constructor
    · rintro ⟨hkind,hr,x,hx,hs,hw⟩
      exact ⟨hkind,hr,x,hx,(h x.1 (mem_sources_of_zipIdx hkind hx)).1.symm.trans hs,hw⟩
    · rintro ⟨hkind,hr,x,hx,hs,hw⟩
      exact ⟨hkind,hr,x,hx,(h x.1 (mem_sources_of_zipIdx hkind hx)).1.trans hs,hw⟩
  exact and_congr_left' hpresent

theorem Query.SameTables.answer (h : query.SameTables tableMgr tableMgr') : query.answer I S tableMgr' = query.answer I S tableMgr := by
  unfold Query.answer
  simp only [h.takenTogether]
  split
  · rename_i htogether
    unfold overall
    rw [h.selected htogether.1.kind]
  · unfold Query.denote
    rw [h.relation]

end Congr

end AqsiosCoordinator.Semantic
