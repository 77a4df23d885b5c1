import AqsiosCoordinator.Querygen.BinaryCrosses
import AqsiosCoordinator.Querygen.NaivePlanMeaning
import AqsiosCoordinator.Querygen.PlanReferences
import AqsiosCoordinator.Querygen.RemovedProjects

/-! # Transformations that keep what a plan computes

All transformations do but the two that remove RSTREAM.
-/
namespace AqsiosCoordinator.Logical.Plan
open Common Foundation Foundation.Outcome Foundation.TimeVarying Foundation.BagOp Metadata
variable {tableMgr : TableManager} {query : Semantic.Query} {known : ℕ → Prop} {p q : Plan} {kind : Kind}

/-- A useless project may be left out. -/
theorem Formed.project_same {projExprs : List Expr} {outAttrs : List Attr} {bStream : Bool} {input : Plan}
    (h : Formed tableMgr (.node (.project projExprs) outAttrs bStream [input]))
    (hflag : Flagged known tableMgr (.node (.project projExprs) outAttrs bStream [input]))
    (huseless : isUselessProject (.node (.project projExprs) outAttrs bStream [input]) input = true) :
    Same (.node (.project projExprs) outAttrs bStream [input]) input := by
  obtain ⟨⟨⟨-,rfl⟩,-⟩,hinput⟩ := everywhere_node.mp h
  refine ⟨(isUselessProject_attrs huseless).1.symm,(flagged_node.mp hflag).2.2.1.symm,fun α _ I S => ?_⟩
  rw [denote_node]
  funext now
  have hcoherent := (Formed.schemed (hinput input (List.mem_singleton_self input))).coherent (I := I) (S := S) now
  have hrows : (input.denote I S now).map (exprRow I input.outAttrs projExprs) = (input.denote I S now).map id :=
    Multiset.map_congr rfl fun r hr => exprRow_of_useless huseless (hcoherent r hr)
  exact ((hrows.trans (Multiset.map_id _))).symm

theorem same_tRemoveProject (hformed : Formed tableMgr p) (hflag : Flagged known tableMgr p) : Same p (tRemoveProject p) := by
  have hre := rebuild_walk isSelectDistinctXStream p []
  unfold tRemoveProject
  split
  · rename_i passed projExprs outAttrs bStream input hw
    split
    · rename_i huseless
      rw [hw] at hre
      have hsame := Formed.project_same (Everywhere.walk [] hformed hw).of_rebuild (Flagged.walk [] hflag hw).of_rebuild huseless
      have hrebuilt : Same (rebuild _ passed) (rebuild input passed) := hsame.rebuild
      rwa [show rebuild _ passed = p from hre] at hrebuilt
    · exact .refl p
  · exact .refl p

/-- Binary crosses of inputs without common attributes have schemas as crosses have them. -/
theorem schemed_leftDeep (hk : kind.IsCross) {first : Plan} {rest : List Plan} (hall : ∀ i ∈ first :: rest, Schemed tableMgr i)
    (hapart : ((first :: rest).map Plan.outAttrs).Pairwise Apart) : Schemed tableMgr (leftDeep kind first rest) := by
  induction rest generalizing first with
  | nil => exact hall first (List.mem_singleton_self first)
  | cons second rest ih =>
    rw [leftDeep_cons]
    simp only [List.map_cons, List.pairwise_cons, List.mem_cons, forall_eq_or_imp] at hapart hall ih
    obtain ⟨⟨hboth,hfirst⟩,hsecond,hrest⟩ := hapart
    refine ih ⟨?_,hall.2.2⟩ ⟨fun attrs hattrs a ha => ?_,hrest⟩
    · refine .node ?_ fun i hi => ?_
      · have hnode : first.outAttrs ++ second.outAttrs = ([first, second].map Plan.outAttrs).flatten ∧
            ([first, second].map Plan.outAttrs).Pairwise Apart := by simpa using hboth
        rcases hk with rfl | rfl
        · exact hnode
        · exact hnode
      · simp only [List.mem_cons, List.not_mem_nil, or_false] at hi
        rcases hi with rfl | rfl
        · exact hall.1
        · exact hall.2.1
    · rcases List.mem_append.mp ha with ha | ha
      · exact hfirst attrs hattrs a ha
      · exact hsecond attrs hattrs a ha

theorem ensures_makeBinary_same {binary : Plan → Plan → Gen Plan} (hk : kind.IsCross)
    (hbinary : ∀ l r, Ensures (binary l r) (· = binaryNode kind l r)) (hs : Schemed tableMgr p) (hflag : Flagged known tableMgr p) :
    Ensures (makeBinary binary (fun k => decide (k = kind)) p) (fun q => Schemed tableMgr q ∧ Same p q) := by
  obtain ⟨⟨passed,x⟩,hw⟩ : ∃ w, walk isUnaryAboveCross p [] = w := ⟨_,rfl⟩
  have hre := rebuild_walk isUnaryAboveCross p []
  rw [hw] at hre
  have hall := Everywhere.walk [] hs hw
  have hflagged := (Flagged.walk [] hflag hw).of_rebuild
  obtain ⟨k,outAttrs,bStream,inputs⟩ := x
  unfold makeBinary
  rw [hw]
  dsimp only
  split
  · rename_i hkind
    obtain rfl : k = kind := by simpa using hkind
    obtain ⟨hhere,hbelow⟩ := everywhere_node.mp hall.of_rebuild
    obtain ⟨hout,hapart⟩ := hhere.cross hk
    split
    · exact ensures_pure ⟨hs,.refl p⟩
    · rename_i first second rest _
      refine Ensures.bind (hbinary first second) fun cross hcross => Ensures.bind (ensures_leftDeep hbinary cross rest) fun nest hnest => ?_
      subst hcross
      have hsame := leftDeep_same hk hout (flagged_node.mp hflagged).2.2.1
      have hschemed := schemed_leftDeep hk hbelow hapart
      rw [leftDeep_cons, ← hnest] at hsame hschemed
      have hrebuilt : Same (rebuild _ passed) (rebuild nest passed) := hsame.rebuild
      rw [show rebuild _ passed = p from hre] at hrebuilt
      exact ensures_pure ⟨Everywhere.replace (forall₂_unchanged passed) hall hschemed hsame.outAttrs,hrebuilt⟩
    · exact ensures_throw
  · exact ensures_pure ⟨hs,.refl p⟩

/-- Selects may be pushed down. -/
theorem same_tPushSelect {u v : Usage} (hs : Schemed tableMgr p) (hflag : Flagged known tableMgr p) (hb : Binary p)
    (h : tPushSelect p u = .ok q v) : Same p q := by
  obtain ⟨⟨passed,i⟩,hw⟩ : ∃ w, walk isUnaryAboveSelect p [] = w := ⟨_,rfl⟩
  have hre := rebuild_walk isUnaryAboveSelect p []
  rw [hw] at hre
  simp only [tPushSelect, hw] at h
  split at h
  · obtain ⟨rfl,-⟩ := pure_eq_ok.mp h
    exact .refl p
  · obtain ⟨c,w,hpush,h⟩ := bind_eq_ok.mp h
    obtain ⟨rfl,-⟩ := pure_eq_ok.mp h
    have hregion : Region i := Binary.region (fun _ _ _ h => h) (Everywhere.walk [] hs hw).of_rebuild (Everywhere.walk [] hb hw).of_rebuild
    have hsame := pushSelects_same (Everywhere.walk [] hs hw).of_rebuild (Flagged.walk [] hflag hw).of_rebuild hregion hpush
    have hrebuilt : Same (rebuild i passed) (rebuild c passed) := hsame.rebuild
    rwa [show rebuild i passed = p from hre] at hrebuilt

/-- What the plan of a query is made of computes the same. -/
theorem genLogPlan_same_prepared {u v : Usage} (hq : query.WellFormed tableMgr) (h : genLogPlan tableMgr query u = .ok q v) :
    ∃ p p₂ u₁ u₂, Generated tableMgr query p ∧ genPlan tableMgr query u = .ok (some p) u₁ ∧
      tStreamCross (tRstreamNow p) u₁ = .ok p₂ u₂ ∧ Same p₂ q := by
  obtain ⟨p,p₂,p₃,p₄,u₁,u₂,u₃,u₄,hgen,hstream,hcross,hstreamCross,hpush⟩ := genLogPlan_steps h
  refine ⟨p,p₂,u₁,u₂,ensures_genPlan_eq _ _ _ hgen p rfl,hgen,hstream,?_⟩
  obtain ⟨hformed,hflag₂⟩ := prepared_formed hq.vars hgen hstream
  obtain ⟨hd₂,hspine,-⟩ := prepared_derived hgen hstream
  have hremoved := same_tRemoveProject hformed hflag₂
  have hs := (Everywhere.tRemoveProject hformed.schemed).1
  have hflag := hflag₂.tRemoveProject
  obtain ⟨hs₃,h₃⟩ := ensures_makeBinary_same (.inl rfl) ensures_binaryCross_eq hs hflag _ _ _ hcross
  have hflag₃ : Flagged (fun _ => True) tableMgr p₃ := ensures_makeBinary (by simp) ensures_binaryCross (streams_nest (.inl rfl)) hflag _ _ _ hcross
  obtain ⟨hs₄,h₄⟩ := ensures_makeBinary_same (.inr rfl) ensures_binaryStreamCross_eq hs₃ hflag₃ _ _ _ hstreamCross
  have hflag₄ : Flagged (fun _ => True) tableMgr p₄ := ensures_makeBinary (by simp) ensures_binaryStreamCross (streams_nest (.inr rfl)) hflag₃ _ _ _ hstreamCross
  obtain ⟨hd,-⟩ := Everywhere.tRemoveProject hd₂
  obtain ⟨-,hbinary,-⟩ := made_binary hd hspine.tRemoveProject hcross hstreamCross
  exact ((hremoved.trans h₃).trans h₄).trans (same_tPushSelect hs₄ hflag₄ hbinary hpush)

end AqsiosCoordinator.Logical.Plan
