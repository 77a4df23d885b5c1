import AqsiosCoordinator.Querygen.SelectPlacement

/-! # The places of the predicates

In the plan of a query over several tables every predicate is in one select, and the
select is as low as the attributes of the predicate allow.
-/
namespace AqsiosCoordinator.Logical
open Common Foundation Foundation.Outcome Metadata

namespace Plan
variable {tableMgr : TableManager} {query : Semantic.Query} {p q core : Plan} {preds : List BExpr} {vs : List ℕ}

structure BranchCross (tableMgr : TableManager) (query : Semantic.Query) (core : Plan) : Prop where
  cross : core.kind.IsCross
  two : 2 ≤ core.inputs.length
  schema : core.outAttrs = (core.inputs.map Plan.outAttrs).flatten
  branches : ∃ vars : List ℕ, List.Forall₂ (Bare tableMgr query) core.inputs (vars.map fun v => [v]) ∧
    vars.Perm query.fromClauseTables

theorem crossOf_branches (htwo : 2 ≤ query.fromClauseTables.length) : BranchCross tableMgr query (crossOf tableMgr query) := by
  refine ⟨.inl rfl,?_,rfl,query.fromClauseTables,?_,.refl _⟩
  · have hlen : (branches tableMgr query).length = query.fromClauseTables.length := length_branches
    rw [← hlen] at htwo
    exact htwo
  · have h : List.Forall₂ (Bare tableMgr query) (query.fromClauseTables.zipIdx.map fun v => branch tableMgr query v.2 v.1)
        (query.fromClauseTables.zipIdx.map fun v => [v.1]) := bare_branches query.fromClauseTables.zipIdx
    rwa [← Function.comp_def (fun v => [v]) Prod.fst, ← List.map_map, List.zipIdx_map_fst] at h

theorem source_of_nowWin {t v : ℕ} {outAttrs : List Attr} {bStream : Bool} {source : Plan}
    (h : branch tableMgr query t v = .node .nowWin outAttrs bStream [source]) :
    source = sourcePlan tableMgr v (query.refTables v) := by
  have hsource : sourcePlan tableMgr v (query.refTables v) ≠ .node .nowWin outAttrs bStream [source] := by
    unfold sourcePlan
    split
    · simp
    · simp
  unfold branch at h
  dsimp only at h
  split at h
  · unfold windowPlan at h
    split at h
    · obtain ⟨-,-,-,hin⟩ := Plan.node.inj h
      exact (List.cons.inj hin).1.symm
    · exact absurd h hsource
  · exact absurd h hsource

/-- The source of the NOW first, then the other branches. -/
theorem streamCross_branches {nowIndex : ℕ} {nowAttrs : List Attr} {nowStream : Bool} {source : Plan}
    (htwo : 2 ≤ query.fromClauseTables.length)
    (hnow : (crossOf tableMgr query).inputs[nowIndex]? = some (.node .nowWin nowAttrs nowStream [source])) :
    BranchCross tableMgr query (streamCrossPlan (source :: (crossOf tableMgr query).inputs.eraseIdx nowIndex)) := by
  have hinputs : (crossOf tableMgr query).inputs = query.fromClauseTables.zipIdx.map fun v => branch tableMgr query v.2 v.1 := rfl
  rw [hinputs, List.getElem?_map, Option.map_eq_some_iff] at hnow
  obtain ⟨v,hv,hbranch⟩ := hnow
  obtain ⟨hlt,hget⟩ := List.getElem?_eq_some_iff.mp hv
  obtain rfl := source_of_nowWin hbranch
  rw [hinputs, List.eraseIdx_map]
  refine ⟨.inr rfl,?_,rfl,v.1 :: (query.fromClauseTables.zipIdx.eraseIdx nowIndex).map Prod.fst,?_,?_⟩
  · rw [streamCrossPlan, inputs_node, List.length_cons, List.length_map, List.length_eraseIdx_of_lt hlt, List.length_zipIdx]
    omega
  · apply List.Forall₂.cons (bare_source v.1)
    rw [List.map_map]
    exact bare_branches _
  · have hperm := (List.getElem_cons_eraseIdx_perm hlt).map Prod.fst
    rw [hget, List.zipIdx_map_fst] at hperm
    exact hperm

/-- What the transformations are given is the predicates above a cross of the branches. -/
theorem prepared_shaped {u v w : Usage} (hkind : query.kind = .sfwQuery) (hfrom : query.fromClauseTables.Nodup)
    (htwo : 2 ≤ query.fromClauseTables.length) (hgen : genPlan tableMgr query u = .ok (some p) v)
    (hstream : tStreamCross (tRstreamNow p) v = .ok q w) :
    ∃ core, BranchCross tableMgr query core ∧ Shaped tableMgr (query.preds.map (logicalBExpr query)) core q := by
  have hgenerated := ensures_genPlan_eq _ _ _ hgen p rfl
  have hshaped := hgenerated.shaped hkind hfrom htwo
  have hbranches : BranchCross tableMgr query (crossOf tableMgr query) := crossOf_branches htwo
  have hlen : (crossOf tableMgr query).inputs.length ≠ 1 := by
    have h := hbranches.two
    omega
  have hformed := hgenerated.formed hfrom (ensures_genPlan_from _ _ _ hgen)
  rw [hshaped.tRstreamNow_eq hlen] at hstream
  obtain ⟨hq,hq_formed⟩ := ensures_tStreamCross_formed hformed _ _ _ hstream
  rcases hq with rfl | hq
  · exact ⟨_,hbranches,hshaped⟩
  · obtain ⟨nowIndex,nowAttrs,nowStream,source,hnow,hshaped⟩ := hshaped.streamCrossed rfl hlen hq hq_formed
    exact ⟨_,streamCross_branches htwo hnow,hshaped⟩

section Selects
variable {sel ups : List Passed}

/-- Selects have the schema of what they are above. -/
theorem Formed.selects_outAttrs (hsel : ∀ o ∈ sel, ∃ b, o.kind = .select b) (h : Formed tableMgr (rebuild core sel)) :
    (rebuild core sel).outAttrs = core.outAttrs ∧ ∀ o ∈ sel, o.outAttrs = core.outAttrs := by
  induction sel using List.reverseRecOn with
  | nil => exact ⟨rfl,by simp⟩
  | append_singleton sel o ih =>
    rw [rebuild_append] at h ⊢
    obtain ⟨⟨hschema,-⟩,hbelow⟩ := everywhere_above.mp h
    obtain ⟨hout,hall⟩ := ih (fun o ho => hsel o (by simp [ho])) hbelow
    obtain ⟨b,hb⟩ := hsel o (by simp)
    rw [hb] at hschema
    have ho : o.outAttrs = core.outAttrs := (List.cons.inj hschema).1.symm.trans hout
    refine ⟨ho,fun o' ho' => ?_⟩
    rcases List.mem_append.mp ho' with ho' | ho'
    · exact hall o' ho'
    · rw [List.mem_singleton.mp ho', ho]

/-- Before the loop all selects are on top of the crosses and wait to be pushed. -/
theorem Bare.pending (h : Bare tableMgr query core vs) (hsel : sel.map Passed.kind = preds.map Kind.select)
    (hattrs : ∀ o ∈ sel, o.outAttrs = core.outAttrs) : Nest tableMgr query (rebuild core sel) vs ∧
      Pending tableMgr query vs sel.length (rebuild core sel) ∧
      ((selects (rebuild core sel)).map Prod.fst).Perm preds := by
  induction sel using List.reverseRecOn generalizing preds with
  | nil =>
    obtain rfl : preds = [] := List.map_eq_nil_iff.mp hsel.symm
    refine ⟨h.nest,.zero ?_,?_⟩
    · intro s hs
      rw [rebuild, h.none] at hs
      cases hs
    · rw [rebuild, h.none]
      exact .refl _
  | append_singleton sel o ih =>
    rw [List.map_append] at hsel
    obtain ⟨preds,last,rfl,hpreds,hlast⟩ := List.append_eq_map_iff.mp hsel
    obtain ⟨b,rfl,hb⟩ := List.map_eq_singleton_iff.mp hlast
    obtain ⟨kind,outAttrs,bStream⟩ := o
    obtain rfl : Kind.select b = kind := hb
    obtain ⟨hnest,hpending,hperm⟩ := ih hpreds.symm fun o ho => hattrs o (by simp [ho])
    obtain rfl : outAttrs = (rebuild core sel).outAttrs := by
      rw [hnest.outAttrs_eq, ← h.nest.outAttrs_eq]
      exact hattrs ⟨.select b,outAttrs,bStream⟩ (by simp)
    rw [rebuild_append, above, List.length_append, selects_select, List.map_cons]
    refine ⟨.select hnest,.succ hpending,?_⟩
    exact (hperm.cons b).trans (List.perm_append_singleton b preds).symm

/-- Operators of one input that are not selects hide neither selects nor tables. -/
theorem rebuild_reads (hups : ∀ o ∈ ups, isUnaryAboveSelect o.kind = true) (p : Plan) :
    selects (rebuild p ups) = selects p ∧ leftmostTable (rebuild p ups) = leftmostTable p := by
  induction ups generalizing p with
  | nil => exact ⟨rfl,rfl⟩
  | cons o ups ih =>
    obtain ⟨h1,h2⟩ := ih (fun o ho => hups o (by simp [ho])) (above o p)
    have ho := hups o (by simp)
    have hselect : ∀ b, o.kind ≠ .select b := by
      rintro b hb
      rw [hb] at ho
      cases ho
    refine ⟨h1.trans (selects_unary hselect),h2.trans ?_⟩
    unfold above
    cases hk : o.kind <;> simp_all [leftmostTable,isUnaryAboveSelect]

theorem not_above_select (hcross : core.kind.IsCross) (hsel : ∀ o ∈ sel, ∃ b, o.kind = .select b) :
    isUnaryAboveSelect (rebuild core sel).kind = false := by
  rcases kind_rebuild core sel with hk | ⟨o,ho,hk⟩
  · rw [hk]
    rcases hcross with hc | hc
    · rw [hc]
      rfl
    · rw [hc]
      rfl
  · obtain ⟨b,hb⟩ := hsel o ho
    rw [hk, hb]
    rfl

/-- Pushing puts all selects in their places. -/
theorem tPushSelect_placed {u v : Usage} (hcross : core.kind.IsCross) (hbare : Bare tableMgr query core vs)
    (hsel : sel.map Passed.kind = preds.map Kind.select) (hups : ∀ o ∈ ups, isUnaryAboveSelect o.kind = true)
    (hattrs : ∀ o ∈ sel, o.outAttrs = core.outAttrs) (h : tPushSelect (rebuild core (sel ++ ups)) u = .ok q v) :
    AllPlaced tableMgr query vs q ∧ leftmostTable q = vs.head? ∧ ((selects q).map Prod.fst).Perm preds := by
  have hselect : ∀ o ∈ sel, ∃ b, o.kind = .select b := fun o ho => select_of_mem hsel ho
  have hstop : isSelect core.kind = false := by
    rcases hcross with hc | hc
    · rw [hc]
      rfl
    · rw [hc]
      rfl
  have hthrough : ∀ o ∈ sel, isSelect o.kind = true := fun o ho => by
    obtain ⟨b,hb⟩ := hselect o ho
    rw [hb]
    rfl
  obtain ⟨hnest,hpending,hperm⟩ := hbare.pending hsel hattrs
  have hpush : ∃ q' v', pushSelects sel.length (rebuild core sel) u = .ok q' v' ∧ q = rebuild q' ups := by
    unfold tPushSelect at h
    rw [rebuild_append_list, walk_rebuild hups (not_above_select hcross hselect)] at h
    dsimp only at h
    rw [walk_rebuild hthrough hstop] at h
    split at h
    · rename_i hempty
      obtain rfl : sel = [] := List.isEmpty_iff.mp hempty
      obtain ⟨rfl,-⟩ := pure_eq_ok.mp h
      exact ⟨core,u,by simp [pushSelects,rebuild,pure_eq_ok],rfl⟩
    · obtain ⟨q',v',hq',h⟩ := bind_eq_ok.mp h
      obtain ⟨rfl,-⟩ := pure_eq_ok.mp h
      exact ⟨q',v',hq',rfl⟩
  obtain ⟨q',v',hq',rfl⟩ := hpush
  obtain ⟨hnest',hplaced,hperm',-⟩ := pushSelects_placed hnest hpending hq'
  obtain ⟨hs,hl⟩ := rebuild_reads hups q'
  refine ⟨?_,hl.trans hnest'.leftmost,?_⟩
  · unfold AllPlaced
    rw [hs]
    exact hplaced
  · rw [hs]
    exact hperm'.trans hperm

end Selects

end Plan

open Plan

/-- The attributes of a select are nowhere below the inputs of the cross that it stays above. -/
theorem Plan.Placed.not_fits {tableMgr : TableManager} {query : Semantic.Query} {vs : List ℕ} {bexpr : BExpr} {i : Plan}
    (h : Placed tableMgr query vs bexpr i) (hcross : (belowSelects i).kind.IsCross) :
    ∀ y ∈ (belowSelects i).inputs, ∃ a ∈ bexpr.attrs, ∀ b ∈ y.outAttrs, a.same b = false := by
  intro y hy
  by_contra hall
  push Not at hall
  have hfits : checkReferences y bexpr = true := checkReferences_of_attrs fun a ha => by
    obtain ⟨b,hb,hab⟩ := hall a ha
    exact List.any_eq_true.mpr ⟨b,hb,by simpa using hab⟩
  rw [h.no_fit hcross y hy] at hfits
  cases hfits

/-- In the plan of a query over several tables every predicate is in one select. With
attributes of one table it is above no cross, on the branch of the table, without attributes
on the leftmost branch, and no input of the cross that it stays above has all its attributes. -/
theorem genLogPlan_places {tableMgr : TableManager} {query : Semantic.Query} {q : Plan} {u w : Usage}
    (hkind : query.kind = .sfwQuery) (hfrom : query.fromClauseTables.Nodup) (htwo : 2 ≤ query.fromClauseTables.length)
    (h : genLogPlan tableMgr query u = .ok q w) :
    ((selects q).map Prod.fst).Perm (query.preds.map (logicalBExpr query)) ∧
      ∀ bexpr i, (bexpr,i) ∈ selects q →
        (∀ v ∈ query.fromClauseTables, bexpr.attrs ≠ [] → OfTable tableMgr query bexpr v → branchTable i = some v) ∧
        (bexpr.attrs = [] → branchTable i = leftmostTable q ∧ ∃ v ∈ query.fromClauseTables, leftmostTable q = some v) ∧
        ((belowSelects i).kind.IsCross →
          ∀ y ∈ (belowSelects i).inputs, ∃ a ∈ bexpr.attrs, ∀ b ∈ y.outAttrs, a.same b = false) := by
  obtain ⟨o,w1,hgen,h⟩ := bind_eq_ok.mp h
  obtain ⟨p,w2,hp,h⟩ := bind_eq_ok.mp h
  obtain ⟨p1,w3,hstream,h⟩ := bind_eq_ok.mp h
  obtain ⟨p2,w4,hbinary,h⟩ := bind_eq_ok.mp h
  obtain ⟨p3,w5,hstream_binary,hpush⟩ := bind_eq_ok.mp h
  obtain rfl : o = some p := ensures_deref (Q := fun p => o = some p) (fun p hp => hp) _ _ _ hp
  obtain rfl : w1 = w2 := (pure_eq_ok.mp hp).2
  obtain ⟨core,hcore,hshaped⟩ := prepared_shaped hkind hfrom htwo hgen hstream
  obtain ⟨vars,hbare,hperm⟩ := hcore.branches
  have hlen := hcore.two
  obtain ⟨sel,ups,hremoved,hsel,hups,hformed⟩ := (hshaped.tRemoveProject (by omega)).exists
  have hattrs := (hformed.selects_outAttrs fun o ho => select_of_mem hsel ho).2
  obtain ⟨kind,outAttrs,bStream,inputs⟩ := core
  obtain ⟨first,second,rest,rfl⟩ : ∃ first second rest, inputs = first :: second :: rest := by
    match inputs, hlen with
    | first :: second :: rest, _ => exact ⟨first,second,rest,rfl⟩
  rw [hremoved] at hbinary
  obtain ⟨core,rfl,hcross,hout,hbare⟩ :=
    ensures_binary_core hcore.cross (chain_kinds hsel hups) hcore.schema hbare hbinary hstream_binary
  rw [← List.flatMap_def, List.flatMap_singleton'] at hbare
  obtain ⟨hplaced,hleft,hpreds⟩ :=
    tPushSelect_placed hcross hbare hsel hups (fun o ho => (hattrs o ho).trans hout.symm) hpush
  refine ⟨hpreds,fun bexpr i hs => ⟨fun v hv hne hb => ?_,fun hnil => ⟨?_,?_⟩,?_⟩⟩
  · exact (hplaced _ hs).own_branch v (hperm.mem_iff.mpr hv) hne hb
  · exact ((hplaced _ hs).leftmost hnil).trans hleft.symm
  · refine ⟨vars.head hbare.nest.ne_nil,hperm.mem_iff.mp (List.head_mem _),?_⟩
    rw [hleft, List.head?_eq_some_head]
  · exact (hplaced _ hs).not_fits

/-- The present rows of the stream and the rows of the relation with the same attribute, which is not 5. -/
def samePresentRows : Semantic.Query :=
  ⟨.sfwQuery,id,[0, 1],fun _ => .now,[⟨.eq,.attrRef .int ⟨0,0⟩,.attrRef .int ⟨1,0⟩⟩, ⟨.ne,.attrRef .int ⟨1,0⟩,.constVal (.int 5)⟩],
    [.attrRef .int ⟨0,0⟩],false,[],none,.union⟩

/-- The comparison with 5 is on the branch of the relation. -/
theorem samePresentRows_places : ∃ q w, genLogPlan streamAndRelation samePresentRows ⟨0,0⟩ = .ok q w ∧
    ((selects q).map Prod.fst).Perm (samePresentRows.preds.map (logicalBExpr samePresentRows)) ∧
    ∀ i, (⟨.ne,.attrRef .int (.named 1 1 0),.constVal (.int 5)⟩,i) ∈ selects q → branchTable i = some 1 := by
  obtain ⟨q,w,hq⟩ : ∃ q w, genLogPlan streamAndRelation samePresentRows ⟨0,0⟩ = .ok q w := ⟨_,_,rfl⟩
  obtain ⟨hperm,hplaces⟩ := genLogPlan_places rfl (by decide) (by decide) hq
  refine ⟨q,w,hq,hperm,fun i hi => (hplaces _ i hi).1 1 (by decide) (by decide) ?_⟩
  intro a ha
  obtain rfl : a = .named 1 1 0 := by simpa [BExpr.attrs,Expr.attrs] using ha
  decide

end AqsiosCoordinator.Logical
