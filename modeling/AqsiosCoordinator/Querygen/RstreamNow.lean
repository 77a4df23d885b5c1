import AqsiosCoordinator.Querygen.PlanShapes
import AqsiosCoordinator.Foundation.RowWise

/-! # Removing RSTREAM and NOW

The operators between them treat the rows of every instant one by one, except distincts.
Without RSTREAM and NOW a distinct remembers the rows of earlier instants.
-/
namespace AqsiosCoordinator.Logical.Plan
open Common Foundation Foundation.TimeVarying Foundation.BagOp Metadata
variable {α : Type} {p q source : Plan} {passed : List Passed}

section RowWise
variable (I : Interp α)

def bagOp (schema : List Attr) : Kind → BagOp (Row α)
  | .select bexpr => .rows (Option.guard fun r => I.compare (lookup I schema r) bexpr)
  | .project projExprs => .rows fun r => some (exprRow I schema projExprs r)
  | _ => .distinct

def bagOps (schema : List Attr) : List Passed → List (BagOp (Row α))
  | [] => []
  | o :: passed => bagOp I schema o.kind :: bagOps o.outAttrs passed

variable {I} [DecidableEq α] {S : Sources α}

theorem denote_above {o : Passed} (ho : isSelectProjectDistinct o.kind = true) :
    (above o p).denote I S = fun now => (bagOp I p.outAttrs o.kind).apply (p.denote I S now) := by
  funext now
  obtain ⟨kind,outAttrs,bStream⟩ := o
  rw [above, denote_node]
  cases kind with
  | select bexpr =>
    have h := congrFun (Multiset.filterMap_eq_filter fun r => I.compare (lookup I p.outAttrs r) bexpr = true) (p.denote I S now)
    simp only [Bool.decide_eq_true] at h
    exact h.symm
  | project projExprs => exact (congrFun (Multiset.filterMap_eq_map (exprRow I p.outAttrs projExprs)) _).symm
  | distinct => rfl
  | _ => cases ho

theorem denote_rebuild (hpassed : ∀ o ∈ passed, isSelectProjectDistinct o.kind = true) :
    (rebuild p passed).denote I S = fun now => run (bagOps I p.outAttrs passed) (p.denote I S now) := by
  induction passed generalizing p with
  | nil => rfl
  | cons o passed ih =>
    obtain ⟨ho,hpassed⟩ := List.forall_mem_cons.mp hpassed
    rw [rebuild, ih hpassed, denote_above ho]
    rfl

end RowWise

section Sources
variable [DecidableEq α]

omit [DecidableEq α] in
theorem sum_range_filter (F : TimeVarying α) (now : ℕ) :
    ∑ i ∈ (Finset.range (now + 1)).filter (fun i => now < i + 1), F i = F now := by
  have hone : (Finset.range (now + 1)).filter (fun i => now < i + 1) = {now} := by
    ext i
    simp only [Finset.mem_filter, Finset.mem_range, Finset.mem_singleton]
    omega
  rw [hone, Finset.sum_singleton]

/-- The window NOW on a stream is what comes at the instant. -/
theorem rangeWindow_one (S : TimeVarying α) : S.rangeWindow 1 = S.arrivals := by
  funext now
  exact sum_range_filter S.arrivals now

end Sources

/-- The plan that is rewritten: RSTREAM above selects, projects and distincts above NOW. -/
def rstreamNow (source : Plan) (passed : List Passed) : Plan :=
  let now := unaryNode .nowWin source.outAttrs source
  unaryNode .rstream (rebuild now passed).outAttrs (rebuild now passed)

theorem tRstreamNow_rstreamNow (hpassed : ∀ o ∈ passed, isSelectProjectDistinct o.kind = true) :
    tRstreamNow (rstreamNow source passed) = rebuild source (passed.map fun o => { o with bStream := true }) := by
  have hwalk : walk isSelectProjectDistinct (rebuild (unaryNode .nowWin source.outAttrs source) passed) [] =
      (passed,unaryNode .nowWin source.outAttrs source) := walk_rebuild hpassed rfl
  rw [rstreamNow, unaryNode, tRstreamNow]
  simp only [hwalk]
  rfl

/-- The flags do not matter for the rows. -/
theorem bagOps_map_bStream (I : Interp α) (schema : List Attr) (bStream : Bool) :
    bagOps I schema (passed.map fun o => { o with bStream := bStream }) = bagOps I schema passed := by
  induction passed generalizing schema with
  | nil => rfl
  | cons o passed ih => simp only [List.map_cons, bagOps, ih]

/-- RSTREAM and NOW may be removed exactly when no rows of different instants meet at a distinct. -/
theorem tRstreamNow_same_iff [DecidableEq α] {I : Interp α} {S : Sources α} {F : TimeVarying α}
    (hpassed : ∀ o ∈ passed, isSelectProjectDistinct o.kind = true) (hsource : source.denote I S = accumulate F) :
    (tRstreamNow (rstreamNow source passed)).denote I S = (rstreamNow source passed).denote I S ↔
      ∀ s t, s < t → ∀ x ∈ F s, ∀ y ∈ F t, ¬ Meet (bagOps I source.outAttrs passed) x y := by
  have hpassed' : ∀ o ∈ passed.map fun o => { o with bStream := true }, isSelectProjectDistinct o.kind = true := by
    simpa using hpassed
  have hnow : (unaryNode .nowWin source.outAttrs source).denote I S = F := by
    rw [unaryNode, denote_node]
    exact (rangeWindow_one (source.denote I S)).trans (by rw [hsource, arrivals_accumulate])
  have hold : (rstreamNow source passed).denote I S = accumulate fun i => run (bagOps I source.outAttrs passed) (F i) := by
    rw [rstreamNow, unaryNode, denote_node]
    exact congrArg rstream ((denote_rebuild hpassed).trans (by rw [hnow]; rfl))
  rw [tRstreamNow_rstreamNow hpassed, denote_rebuild hpassed', bagOps_map_bStream, hold, hsource, ← run_sum, funext_iff]
  rfl

def differentRows : Semantic.Query :=
  ⟨.sfwQuery,fun _ => 0,[0],fun _ => .now,[],[.attrRef .int ⟨0,0⟩],true,[],some .rstream,.union⟩

def differentRowsPassed : List Passed :=
  [⟨.project [.attrRef .int (.named 0 0 0)],[.named 0 0 0],false⟩, ⟨.distinct,[.named 0 0 0],false⟩]

def differentRowsSource : Plan := .node (.streamSource 0 0) [.named 0 0 0] true []

def streamOf (F : TimeVarying ℤ) : Sources ℤ := { oneRow [] with table := fun _ => accumulate F }

/-- A row that comes again is not in the stream without RSTREAM and NOW again. -/
theorem differentRows_differ : genPlan streamAndRelation differentRows ⟨0,0⟩ =
      .ok (some (rstreamNow differentRowsSource differentRowsPassed)) ⟨5,1⟩ ∧
    (tRstreamNow (rstreamNow differentRowsSource differentRowsPassed)).denote intInterp (streamOf fun _ => {[5]}) ≠
      (rstreamNow differentRowsSource differentRowsPassed).denote intInterp (streamOf fun _ => {[5]}) := by
  refine ⟨rfl,fun h => ?_⟩
  have h1 := congrArg Multiset.card (congrFun h 1)
  revert h1
  decide +kernel

/-- With another row at every instant nothing is lost. -/
theorem differentRows_same :
    (tRstreamNow (rstreamNow differentRowsSource differentRowsPassed)).denote intInterp (streamOf fun i => {[(i : ℤ)]}) =
      (rstreamNow differentRowsSource differentRowsPassed).denote intInterp (streamOf fun i => {[(i : ℤ)]}) := by
  have hsource : differentRowsSource.denote intInterp (streamOf fun i => {[(i : ℤ)]}) = accumulate fun i => {[(i : ℤ)]} := by
    rw [differentRowsSource, denote_node]
    exact map_accumulate (fit intInterp.null 1) fun i => {[(i : ℤ)]}
  apply (tRstreamNow_same_iff (by decide) hsource).mpr
  intro s t hst x hx y hy hmeet
  obtain rfl := Multiset.mem_singleton.mp hx
  obtain rfl := Multiset.mem_singleton.mp hy
  obtain ⟨x,y,hx,hy,hmeet⟩ := hmeet
  obtain rfl := Option.some.inj hx
  obtain rfl := Option.some.inj hy
  rcases hmeet with ⟨hmeet,-⟩ | hmeet
  · have heq : (s : ℤ) = t := (List.cons.inj hmeet).1
    omega
  · exact hmeet

end AqsiosCoordinator.Logical.Plan
