import AqsiosCoordinator.Querygen.CoherentRows

/-! # Removing a project that changes nothing -/
namespace AqsiosCoordinator.Logical.Plan
open Common Foundation Foundation.Outcome Foundation.TimeVarying Metadata

variable {tableMgr : TableManager} {query : Semantic.Query} {p q input : Plan} {projExprs : List Expr}

/-- A useless project has the schema of its input, with names for all attributes. -/
theorem isUselessProject_attrs {outAttrs : List Attr} {bStream : Bool}
    (h : isUselessProject (.node (.project projExprs) outAttrs bStream [input]) input = true) :
    outAttrs = input.outAttrs ∧ ∀ a ∈ outAttrs, a.same a = true := by
  obtain ⟨hlen,hall⟩ := Bool.and_eq_true_iff.mp h
  simp only [outAttrs_node, beq_iff_eq] at hlen hall
  generalize input.outAttrs = attrs at hlen hall
  clear h
  induction outAttrs generalizing attrs with
  | nil => exact ⟨(List.length_eq_zero_iff.mp hlen.symm).symm,by simp⟩
  | cons a outAttrs ih =>
    cases attrs with
    | nil => cases hlen
    | cons b attrs =>
      simp only [List.zip_cons_cons, List.all_cons, Bool.and_eq_true] at hall
      obtain rfl := Attr.eq_of_same hall.1
      obtain ⟨rfl,hsame⟩ := ih attrs (Nat.succ.inj hlen) hall.2
      exact ⟨rfl,List.forall_mem_cons.mpr ⟨hall.1,hsame⟩⟩

/-- A project that is found useless yields every row as it is. -/
theorem exprRow_of_useless {α : Type} {I : Interp α} {r : Row α} {bStream : Bool}
    (h : isUselessProject (.node (.project projExprs) (projExprs.map exprAttr) bStream [input]) input = true)
    (hr : Coherent I.null input.outAttrs r) : exprRow I input.outAttrs projExprs r = r := by
  obtain ⟨hattrs,hsame⟩ := isUselessProject_attrs h
  refine List.ext_getElem (by simp [exprRow,← hattrs,hr.length]) fun k h1 h2 => ?_
  have hlt : k < projExprs.length := by simpa [exprRow] using h1
  have hin : input.outAttrs[k]? = some (exprAttr projExprs[k]) := by simp [← hattrs,hlt]
  have hk := hsame (exprAttr projExprs[k]) (hattrs ▸ List.mem_of_getElem? hin)
  have hvalue : I.value (lookup I input.outAttrs r) projExprs[k] = lookup I input.outAttrs r (exprAttr projExprs[k]) := by
    cases he : projExprs[k] with
    | attrRef type a => rfl
    | constVal c => simp [he,exprAttr,Attr.same] at hk
    | compExpr type op left right => simp [he,exprAttr,Attr.same] at hk
  simp only [exprRow, List.getElem_map]
  rw [hvalue, hr.lookup_eq hin hk, List.getD_eq_getElem?_getD, List.getElem?_eq_getElem h2]
  rfl

theorem ensures_genPlan_from : Ensures (genPlan tableMgr query)
    (fun _ => query.kind = .sfwQuery → query.fromClauseTables ≠ []) := by
  refine Ensures.bind ensures_any fun _ _ => ?_
  split
  · cases hfrom : query.fromClauseTables with
    | cons v vars => exact ensures_any.weaken fun _ _ _ => by simp
    | nil =>
      have hjoin : Ensures (joinTables tableMgr query) (fun _ => False) := by
        unfold joinTables
        rw [hfrom]
        exact ensures_throw
      exact Ensures.bind hjoin fun _ h => h.elim
  · rename_i hk
    exact ensures_any.weaken fun _ _ h => absurd h hk

/-- What `t_removeProject` is given has the schemas and the flags of its operators. -/
theorem prepared_formed {u v w : Usage} (hfrom : query.fromClauseTables.Nodup) (hgen : genPlan tableMgr query u = .ok (some p) v)
    (hstream : tStreamCross (tRstreamNow p) v = .ok q w) : Formed tableMgr q ∧ Flagged (fun _ => True) tableMgr q := by
  have hgenerated := ensures_genPlan_eq _ _ _ hgen p rfl
  have hformed := hgenerated.formed hfrom (ensures_genPlan_from _ _ _ hgen)
  have hflagged : Flagged (fun _ => True) tableMgr p := ensures_genPlan (fun _ _ => trivial) _ _ _ hgen p rfl
  exact ⟨(ensures_tStreamCross_formed hformed.tRstreamNow _ _ _ hstream).2,ensures_tStreamCross hflagged.tRstreamNow _ _ _ hstream⟩

/-- A project is removed only when it yields every row as it is. -/
theorem tRemoveProject_same {u v w : Usage} (hfrom : query.fromClauseTables.Nodup)
    (hgen : genPlan tableMgr query u = .ok (some p) v) (hstream : tStreamCross (tRstreamNow p) v = .ok q w) :
    tRemoveProject q = q ∨ ∃ passed projExprs outAttrs bStream input,
      q = rebuild (.node (.project projExprs) outAttrs bStream [input]) passed ∧ tRemoveProject q = rebuild input passed ∧
      (∀ (α : Type) [DecidableEq α] (I : Interp α) (S : Sources α) (now : ℕ), ∀ r ∈ input.denote I S now,
        exprRow I input.outAttrs projExprs r = r) ∧
      input.bStream = bStream ∧ Same q (tRemoveProject q) := by
  obtain ⟨hformed,hflagged⟩ := prepared_formed hfrom hgen hstream
  have hre := rebuild_walk isSelectDistinctXStream q []
  unfold tRemoveProject
  split
  · rename_i passed projExprs outAttrs bStream input hw
    split
    · rename_i huseless
      right
      rw [hw] at hre
      obtain ⟨⟨⟨-,rfl⟩,-⟩,hinput⟩ := everywhere_node.mp (Everywhere.walk [] hformed hw).of_rebuild
      have hstreams : input.bStream = bStream := (flagged_node.mp (Flagged.walk [] hflagged hw).of_rebuild).2.2.1.symm
      have hrow (α : Type) [DecidableEq α] (I : Interp α) (S : Sources α) (now : ℕ) (r : Row α) (hr : r ∈ input.denote I S now) :
          exprRow I input.outAttrs projExprs r = r :=
        exprRow_of_useless huseless ((Formed.schemed (hinput input (List.mem_singleton_self input))).coherent now r hr)
      refine ⟨passed,projExprs,_,bStream,input,hre.symm,rfl,hrow,hstreams,?_⟩
      have hsame : Same (.node (.project projExprs) (projExprs.map exprAttr) bStream [input]) input := by
        refine ⟨(isUselessProject_attrs huseless).1.symm,hstreams,fun α _ I S => ?_⟩
        rw [denote_node]
        funext now
        exact ((Multiset.map_congr rfl fun r hr => hrow α I S now r hr).trans (Multiset.map_id _)).symm
      have hsame' : Same (rebuild _ passed) (rebuild input passed) := hsame.rebuild
      rwa [hre] at hsame'
    · exact .inl rfl
  · exact .inl rfl

def latestRows : Semantic.Query :=
  ⟨.sfwQuery,fun _ => 0,[0],fun _ => .range 10,[],[.attrRef .int ⟨0,0⟩],false,[],none,.union⟩

def latestRowsWindow : Plan := .node (.rangeWin 10) [.named 0 0 0] false [.node (.streamSource 0 0) [.named 0 0 0] true []]

/-- The project of all attributes is removed. -/
theorem latestRows_same : ∃ q w, tStreamCross (tRstreamNow (projectPlan latestRows latestRowsWindow)) ⟨3,1⟩ = .ok q w ∧
    tRemoveProject q = latestRowsWindow ∧ Same q (tRemoveProject q) := by
  have hgen : genPlan streamAndRelation latestRows ⟨0,0⟩ = .ok (some (projectPlan latestRows latestRowsWindow)) ⟨3,1⟩ := rfl
  obtain ⟨q,w,hq⟩ : ∃ q w, tStreamCross (tRstreamNow (projectPlan latestRows latestRowsWindow)) ⟨3,1⟩ = .ok q w := ⟨_,_,rfl⟩
  obtain rfl : projectPlan latestRows latestRowsWindow = q := (pure_eq_ok.mp hq).1
  rcases tRemoveProject_same (by decide) hgen hq with h | ⟨passed,projExprs,outAttrs,bStream,input,h1,h2,h3,h4,hsame⟩
  · cases h
  · exact ⟨_,w,hq,rfl,hsame⟩

end AqsiosCoordinator.Logical.Plan
