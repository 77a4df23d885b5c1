import AqsiosCoordinator.Querygen.CollectedAggregates
import AqsiosCoordinator.Querygen.DerivedSchemas

/-! # The references of the operators of a plan

Whether the inputs of every operator have the attributes that it refers to is decided by
the query. The transformations neither provide a missing attribute nor lose one.
-/
namespace AqsiosCoordinator.Logical
open Common Foundation Foundation.Outcome Metadata

/-- The attributes that an operator of the kind looks up in the schemas of its inputs. -/
def Kind.refs : Kind → List Attr
  | .partnWin partnAttrs _ => partnAttrs
  | .select bexpr => bexpr.attrs
  | .project projExprs => projExprs.flatMap Expr.attrs
  | .groupAggr groupAttrs aggrs => groupAttrs ++ (aggrs.filter fun a => a.1 ≠ .count).map Prod.snd
  | _ => []

def Kind.Finds (kind : Kind) (inputs : List (List Attr)) : Prop :=
  ∀ a ∈ kind.refs, ∃ schema ∈ inputs, schema.any (fun b => a.same b) = true

namespace Plan
variable {tableMgr : TableManager} {query : Semantic.Query} {p q x : Plan} {passed passed' : List Passed}

def References : Plan → Prop := Everywhere fun kind _ inputs => kind.Finds inputs

theorem finds_single {kind : Kind} {attrs : List Attr} :
    kind.Finds [attrs] ↔ ∀ a ∈ kind.refs, attrs.any (fun b => a.same b) = true := by
  simp [Kind.Finds]

theorem finds_of_nil {kind : Kind} {inputs : List (List Attr)} (h : kind.refs = []) : kind.Finds inputs := by
  simp [Kind.Finds,h]

theorem finds_congr {kind : Kind} {attrs attrs' : List Attr} (h : ∀ a, a ∈ attrs ↔ a ∈ attrs') : kind.Finds [attrs] ↔ kind.Finds [attrs'] := by
  simp only [finds_single, List.any_eq_true, h]

theorem references_above {o : Passed} : References (above o p) ↔ o.kind.Finds [p.outAttrs] ∧ References p := everywhere_above

/-- The attributes of an operator with one input when those of its input are others in another order. -/
theorem derives_congr {kind : Kind} {attrs attrs' outAttrs outAttrs' : List Attr} (h : kind.Derives tableMgr [attrs] outAttrs)
    (h' : kind.Derives tableMgr [attrs'] outAttrs') (hsame : ∀ a, a ∈ attrs ↔ a ∈ attrs') : ∀ a, a ∈ outAttrs ↔ a ∈ outAttrs' := by
  cases kind <;> simp_all [Kind.Derives]

/-- Operators of the same kinds above parts with the same attributes find theirs in both or in neither. -/
theorem references_rebuild (hkinds : List.Forall₂ (fun o o' : Passed => o'.kind = o.kind) passed passed')
    (hp : Derived tableMgr (rebuild p passed)) (hq : Derived tableMgr (rebuild q passed'))
    (hattrs : ∀ a, a ∈ p.outAttrs ↔ a ∈ q.outAttrs) (h : References p ↔ References q) :
    References (rebuild p passed) ↔ References (rebuild q passed') := by
  induction hkinds generalizing p q with
  | nil => exact h
  | @cons o o' passed passed' ho _ ih =>
    have hap : Derived tableMgr (above o p) := Everywhere.of_rebuild (p := above o p) hp
    have haq : Derived tableMgr (above o' q) := Everywhere.of_rebuild (p := above o' q) hq
    obtain ⟨⟨hop,-⟩,-⟩ := everywhere_above.mp hap
    obtain ⟨⟨hoq,-⟩,-⟩ := everywhere_above.mp haq
    rw [ho] at hoq
    refine ih (p := above o p) (q := above o' q) hp hq (derives_congr hop hoq hattrs) ?_
    rw [references_above, references_above, ho, finds_congr hattrs, h]

theorem references_rstream {outAttrs : List Attr} {bStream : Bool} {input : Plan} :
    References (.node .rstream outAttrs bStream [input]) ↔ References input := by
  rw [References, everywhere_node]
  simp [Kind.Finds,Kind.refs]

theorem references_nowWin {outAttrs : List Attr} {bStream : Bool} {input : Plan} :
    References (.node .nowWin outAttrs bStream [input]) ↔ References input := by
  rw [References, everywhere_node]
  simp [Kind.Finds,Kind.refs]

theorem references_tRstreamNow (h : Derived tableMgr p) : References (tRstreamNow p) ↔ References p := by
  have hnew := derived_copying.tRstreamNow h
  unfold Plan.tRstreamNow at hnew ⊢
  split at hnew
  · rename_i outAttrs bStream input
    split at hnew
    · rename_i passed nowAttrs nowStream source hw
      have hre := rebuild_walk isSelectProjectDistinct input []
      rw [hw] at hre
      have hinput : Derived tableMgr (rebuild (.node .nowWin nowAttrs nowStream [source]) passed) := by
        rw [show rebuild _ passed = input from hre]
        exact (everywhere_node.mp h).2 input (List.mem_singleton_self input)
      have hout : source.outAttrs = nowAttrs := by
        simpa [Kind.Derives] using (everywhere_node.mp hinput.of_rebuild).1
      rw [references_rstream, ← show rebuild _ passed = input from hre]
      refine (references_rebuild ?_ hinput hnew ?_ references_nowWin).symm
      · rw [List.forall₂_map_right_iff, List.forall₂_same]
        exact fun _ _ => rfl
      · rw [hout]
        exact fun _ => Iff.rfl
    · exact Iff.rfl
  · exact Iff.rfl

theorem references_streamCross {inputs : List Plan} {outAttrs nowAttrs : List Attr} {bStream nowStream : Bool} {nowIndex : ℕ}
    {source : Plan} (hnow : inputs[nowIndex]? = some (.node .nowWin nowAttrs nowStream [source])) :
    References (streamCrossPlan (source :: inputs.eraseIdx nowIndex)) ↔ References (.node .cross outAttrs bStream inputs) := by
  obtain ⟨hlt,hget⟩ := List.getElem?_eq_some_iff.mp hnow
  have hperm : (.node .nowWin nowAttrs nowStream [source] :: inputs.eraseIdx nowIndex).Perm inputs := by
    have hp := List.getElem_cons_eraseIdx_perm hlt
    rwa [hget] at hp
  have hcross : References (.node .cross outAttrs bStream inputs) ↔ ∀ i ∈ inputs, References i := by
    rw [References, everywhere_node]
    simp [Kind.Finds,Kind.refs]
  have hstream : References (streamCrossPlan (source :: inputs.eraseIdx nowIndex)) ↔
      ∀ i ∈ source :: inputs.eraseIdx nowIndex, References i := by
    rw [References, streamCrossPlan, everywhere_node]
    simp [Kind.Finds,Kind.refs]
  rw [hcross, hstream, List.forall_mem_cons, ← @references_nowWin nowAttrs nowStream source, ← List.forall_mem_cons]
  simp only [hperm.mem_iff]

theorem StreamCrossed.references (hq : StreamCrossed p q) (hp : Derived tableMgr p) (hd : Derived tableMgr q) :
    References q ↔ References p := by
  cases hq with
  | @intro outAttrs crossAttrs nowAttrs bStream crossStream nowStream input source inputs passed passed' nowIndex hw hnow hkinds =>
    have hre := rebuild_walk isAboveCross input [⟨.rstream,outAttrs,bStream⟩]
    obtain ⟨new,hnew,-⟩ := walk_passed isAboveCross input [⟨.rstream,outAttrs,bStream⟩]
    rw [hw] at hre hnew
    obtain rfl : passed = new ++ [⟨.rstream,outAttrs,bStream⟩] := hnew
    have hplan : above ⟨.rstream,outAttrs,bStream⟩ (rebuild (.node .cross crossAttrs crossStream inputs) new) =
        .node .rstream outAttrs bStream [input] := by
      rw [← rebuild_append]
      exact hre
    obtain rfl : rebuild (.node .cross crossAttrs crossStream inputs) new = input := by
      obtain ⟨-,-,-,hin⟩ := Plan.node.inj hplan
      exact (List.cons.inj hin).1
    have hdropped : List.Forall₂ (fun o o' : Passed => o'.kind = o.kind) new passed'.dropLast := by
      have hrev := List.forall₂_reverse_iff.mpr hkinds
      rw [List.reverse_append, List.reverse_singleton, List.singleton_append] at hrev
      rw [← List.forall₂_reverse_iff, ← List.tail_reverse]
      generalize passed'.reverse = r at hrev
      cases hrev with
      | cons _ hrest => exact hrest
    have hinput : Derived tableMgr (rebuild (.node .cross crossAttrs crossStream inputs) new) :=
      (everywhere_node.mp hp).2 _ (List.mem_singleton_self _)
    rw [references_rstream]
    refine (references_rebuild hdropped hinput hd (fun a => ?_) (references_streamCross hnow).symm).symm
    -- the stream is an input in the place of its window
    obtain ⟨⟨hcross,-⟩,hinputs⟩ := everywhere_node.mp hinput.of_rebuild
    have hout : source.outAttrs = nowAttrs := by
      simpa [Kind.Derives] using (everywhere_node.mp (hinputs _ (List.mem_of_getElem? hnow))).1
    obtain ⟨hlt,hget⟩ := List.getElem?_eq_some_iff.mp hnow
    have hperm := (List.getElem_cons_eraseIdx_perm hlt).map Plan.outAttrs
    rw [hget, List.map_cons, outAttrs_node, ← hout, ← List.map_cons] at hperm
    rw [outAttrs_node, hcross, streamCrossPlan, outAttrs_node, List.mem_flatten, List.mem_flatten]
    simp only [hperm.mem_iff]

theorem references_tRemoveProject (h : Derived tableMgr p) : References (tRemoveProject p) ↔ References p := by
  have hnew := (Everywhere.tRemoveProject h).1
  unfold Plan.tRemoveProject at hnew ⊢
  split
  · rename_i passed projExprs outAttrs bStream input hw
    split
    · rename_i huseless
      simp only [hw, huseless, if_true] at hnew
      have hre := rebuild_walk isSelectDistinctXStream p []
      rw [hw] at hre
      have hall := Everywhere.walk [] h hw
      obtain ⟨hattrs,hsame⟩ := isUselessProject_attrs huseless
      have hproject : outAttrs = projExprs.map exprAttr := (everywhere_node.mp hall.of_rebuild).1.1.2
      -- every expression is an attribute of the input
      have hfinds : (Kind.project projExprs).Finds [input.outAttrs] := by
        rw [finds_single]
        intro a ha
        obtain ⟨e,he,ha⟩ := List.mem_flatMap.mp ha
        have hmem : exprAttr e ∈ outAttrs := by
          rw [hproject]
          exact List.mem_map_of_mem he
        have hself := hsame _ hmem
        cases e with
        | attrRef type b =>
          obtain rfl := List.mem_singleton.mp ha
          exact List.any_eq_true.mpr ⟨_,hattrs ▸ hmem,hself⟩
        | constVal c => simp [exprAttr,Attr.same] at hself
        | compExpr type op l r => simp [exprAttr,Attr.same] at hself
      have hrefs : References (.node (.project projExprs) outAttrs bStream [input]) ↔ References input := by
        rw [References, everywhere_node]
        simp [hfinds]
      rw [← show rebuild _ passed = p from hre]
      refine (references_rebuild (List.forall₂_same.mpr fun _ _ => rfl) hall hnew ?_ hrefs).symm
      rw [outAttrs_node, hattrs]
      exact fun _ => Iff.rfl
    · exact Iff.rfl
  · exact Iff.rfl

theorem Rearranged.references (h : Rearranged p q) : References q ↔ References p := by
  refine h.everywhere _ fun kind outAttrs inputs hk => finds_of_nil ?_
  rcases hk with rfl | rfl
  · rfl
  · rfl

/-- What a select is pushed to has no other attributes than what it was above. -/
theorem Inserted.attrs {bexpr : BExpr} (h : Inserted bexpr x p q) (hd : DerivedBinary tableMgr p) : ∀ a ∈ x.outAttrs, a ∈ p.outAttrs := by
  induction h with
  | here h => exact fun a ha => ha
  | select h ih =>
    obtain ⟨i,hi,hout,hp⟩ := Everywhere.select_input (fun _ _ _ => (derivedBinary_select _ _ _).mp) hd
    obtain rfl := (List.cons.inj hi).1
    rw [outAttrs_node, ← hout]
    exact ih hp
  | @left kind outAttrs bStream l l' r hk hl h ih =>
    obtain ⟨⟨hhere,-⟩,hbelow⟩ := everywhere_node.mp hd
    intro a ha
    have hmem := ih (hbelow l (by simp)) a ha
    rcases hk with rfl | rfl
    · rw [outAttrs_node, show outAttrs = _ from hhere]
      simp [hmem]
    · rw [outAttrs_node, show outAttrs = _ from hhere]
      simp [hmem]
  | @right kind outAttrs bStream l r r' hk hl hr h ih =>
    obtain ⟨⟨hhere,-⟩,hbelow⟩ := everywhere_node.mp hd
    intro a ha
    have hmem := ih (hbelow r (by simp)) a ha
    rcases hk with rfl | rfl
    · rw [outAttrs_node, show outAttrs = _ from hhere]
      simp [hmem]
    · rw [outAttrs_node, show outAttrs = _ from hhere]
      simp [hmem]

theorem checkReferences_iff {bexpr : BExpr} : checkReferences p bexpr = true ↔ (Kind.select bexpr).Finds [p.outAttrs] := by
  have hexpr (e : Expr) : checkReference p e = true ↔ ∀ a ∈ e.attrs, p.outAttrs.any (fun b => a.same b) = true := by
    induction e with
    | constVal c => simp [checkReference,Expr.attrs]
    | attrRef type a => simp [checkReference,Expr.attrs]
    | compExpr type op l r hl hr => simp only [checkReference, Expr.attrs, Bool.and_eq_true, hl, hr, List.forall_mem_append]
  simp only [checkReferences, finds_single, Kind.refs, BExpr.attrs, Bool.and_eq_true, hexpr, List.forall_mem_append]

theorem references_select {bexpr : BExpr} {outAttrs : List Attr} {bStream : Bool} :
    References (.node (.select bexpr) outAttrs bStream [p]) ↔ checkReferences p bexpr = true ∧ References p := by
  rw [References, everywhere_node, checkReferences_iff]
  simp

theorem Pushed.references (h : Pushed p q) (hd : DerivedBinary tableMgr p) : References q ↔ References p := by
  induction h with
  | refl p => exact Iff.rfl
  | @push bexpr outAttrs bStream input x pushed q hinserted hfits _ ih =>
    obtain ⟨i,hi,-,hp⟩ := Everywhere.select_input (fun _ _ _ => (derivedBinary_select _ _ _).mp) hd
    obtain rfl := (List.cons.inj hi).1
    have hpushed : DerivedBinary tableMgr pushed := hinserted.everywhere_iff.mpr ⟨hp,(derivedBinary_select _ _ _).mpr rfl⟩
    have hx := checkReferences_iff.mp hfits
    have hinput : checkReferences input bexpr = true := by
      rw [checkReferences_iff, finds_single]
      intro a ha
      obtain ⟨b,hb,hab⟩ := List.any_eq_true.mp (finds_single.mp hx a ha)
      exact List.any_eq_true.mpr ⟨b,hinserted.attrs hp b hb,hab⟩
    rw [ih hpushed, references_select]
    exact hinserted.everywhere_iff.trans ⟨fun h => ⟨hinput,h.1⟩,fun h => ⟨h.2,hx⟩⟩
  | @keep bexpr outAttrs bStream input q hmore ih =>
    obtain ⟨i,hi,-,hp⟩ := Everywhere.select_input (fun _ _ _ => (derivedBinary_select _ _ _).mp) hd
    obtain rfl := (List.cons.inj hi).1
    rw [references_select, references_select, ih hp, checkReferences_congr (hmore.everywhere derivedBinary_select hp).2]

/-- The operators of the plan of a query find their attributes exactly if those of the naive plan do. -/
theorem genLogPlan_references {u v : Usage} (h : genLogPlan tableMgr query u = .ok q v) :
    ∃ p, Generated tableMgr query p ∧ (query.kind = .sfwQuery → query.fromClauseTables ≠ []) ∧ (References q ↔ References p) := by
  obtain ⟨p,p₂,p₃,p₄,u₁,u₂,u₃,u₄,hgen,hstream,hcross,hstreamCross,hpush⟩ := genLogPlan_steps h
  have hgenerated := ensures_genPlan_eq _ _ _ hgen p rfl
  have hne := ensures_genPlan_from _ _ _ hgen
  have hd₀ := hgenerated.everywhere derived_established hne
  have hd₁ := derived_copying.tRstreamNow hd₀
  obtain ⟨hd₂,hs₂,-⟩ := prepared_derived hgen hstream
  have h₂ : References p₂ ↔ References p := by
    rw [← references_tRstreamNow hd₀]
    obtain ⟨rfl | hq,-⟩ := derived_handedOn.ensures_tStreamCross hd₁ _ _ _ hstream
    · exact Iff.rfl
    · exact hq.references hd₁ hd₂
  obtain ⟨hd₄,hb₄,h₄⟩ := made_binary (Everywhere.tRemoveProject hd₂).1 hs₂.tRemoveProject hcross hstreamCross
  have hall₄ := derivedBinary_of hd₄ hb₄
  obtain ⟨passed,i,c,rfl,rfl,hpushed⟩ := tPushSelect_pushed derivedBinary_select hall₄ hb₄ hpush
  obtain ⟨hall,hsame⟩ := hpushed.everywhere derivedBinary_select hall₄.of_rebuild
  refine ⟨p,hgenerated,hne,?_⟩
  rw [← h₂, ← references_tRemoveProject hd₂, ← h₄.references]
  have hrefs := hpushed.references hall₄.of_rebuild
  constructor
  · exact fun h => Everywhere.replace (forall₂_unchanged passed) h (hrefs.mp h.of_rebuild) hsame.symm
  · exact fun h => Everywhere.replace (forall₂_unchanged passed) h (hrefs.mpr h.of_rebuild) hsame

end Plan
end AqsiosCoordinator.Logical
