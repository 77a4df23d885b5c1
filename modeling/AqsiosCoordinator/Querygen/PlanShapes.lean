import AqsiosCoordinator.Querygen.RemovedProjects
import AqsiosCoordinator.Querygen.BinaryCrosses

/-! # The shape of generated plans

A plan over several tables is a cross with operators of one input on top: first the
selects of the WHERE clause, then the others.
-/
namespace AqsiosCoordinator.Logical.Plan
open Common Foundation Foundation.Outcome Metadata

variable {tableMgr : TableManager} {query : Semantic.Query} {p q core : Plan}

section Chains
variable {os os' : List Passed}

theorem rebuild_append_list (p : Plan) (os os' : List Passed) : rebuild p (os ++ os') = rebuild (rebuild p os) os' := by
  induction os generalizing p with
  | nil => rfl
  | cons o os ih => exact ih (above o p)

theorem rebuild_length {o : Passed} : (rebuild p (os ++ [o])).inputs.length = 1 := by
  rw [rebuild_append]
  rfl

/-- The operators above one that has not one input are determined by the plan. -/
theorem rebuild_inj (hp : p.inputs.length ≠ 1) (hq : q.inputs.length ≠ 1) (h : rebuild p os = rebuild q os') : p = q ∧ os = os' := by
  induction os using List.reverseRecOn generalizing os' with
  | nil =>
    rcases List.eq_nil_or_concat' os' with rfl | ⟨os',o,rfl⟩
    · exact ⟨h,rfl⟩
    · rw [show p = _ from h] at hp
      exact absurd rebuild_length hp
  | append_singleton os o ih =>
    rcases List.eq_nil_or_concat' os' with rfl | ⟨os',o',rfl⟩
    · rw [← show _ = q from h] at hq
      exact absurd rebuild_length hq
    · rw [rebuild_append, rebuild_append, above, above, Plan.node.injEq] at h
      obtain ⟨hkind,hout,hstream,hin⟩ := h
      obtain ⟨rfl,rfl⟩ := ih (List.cons.inj hin).1
      obtain ⟨kind,outAttrs,bStream⟩ := o
      obtain ⟨kind',outAttrs',bStream'⟩ := o'
      obtain rfl : kind = kind' := hkind
      obtain rfl : outAttrs = outAttrs' := hout
      obtain rfl : bStream = bStream' := hstream
      exact ⟨rfl,rfl⟩

theorem walk_stop {through : Kind → Bool} (hp : through p.kind = false) (passed : List Passed) :
    walk through p passed = (passed,p) := by
  obtain ⟨kind,outAttrs,bStream,inputs⟩ := p
  unfold walk
  split
  · rename_i h
    obtain ⟨rfl,rfl,rfl,rfl⟩ := Plan.node.inj h
    rw [if_neg (by simpa using hp)]
  · rfl

/-- A walk through all operators above a plan that it cannot pass. -/
theorem walk_rebuild_append {through : Kind → Bool} (hos : ∀ o ∈ os, through o.kind = true) (hp : through p.kind = false)
    (passed : List Passed) : walk through (rebuild p os) passed = (os ++ passed,p) := by
  induction os using List.reverseRecOn generalizing passed with
  | nil => exact walk_stop hp passed
  | append_singleton os o ih =>
    rw [rebuild_append, above, walk, if_pos (hos o (by simp)), ih (fun o ho => hos o (by simp [ho]))]
    simp

theorem walk_rebuild {through : Kind → Bool} (hos : ∀ o ∈ os, through o.kind = true) (hp : through p.kind = false) :
    walk through (rebuild p os) [] = (os,p) := by
  rw [walk_rebuild_append hos hp, List.append_nil]

theorem walked_kinds {through : Kind → Bool} (h : walk through p [] = (os,q)) : ∀ o ∈ os, through o.kind = true := by
  obtain ⟨new,hnew,hkinds⟩ := walk_passed through p []
  rw [h, List.append_nil] at hnew
  rwa [← show os = new from hnew] at hkinds

theorem walk_all (p : Plan) (passed : List Passed) : (walk (fun _ => true) p passed).2.inputs.length ≠ 1 := by
  fun_induction walk (fun _ => true) p passed with
  | case1 kind outAttrs bStream input passed h ih => exact ih
  | case2 kind outAttrs bStream input passed h => exact absurd rfl h
  | case3 p passed hne =>
    obtain ⟨kind,outAttrs,bStream,inputs⟩ := p
    intro hlen
    obtain ⟨i,rfl⟩ := List.length_eq_one_iff.mp hlen
    exact hne kind outAttrs bStream i rfl

theorem exists_rebuild (p : Plan) : ∃ os base, p = rebuild base os ∧ base.inputs.length ≠ 1 :=
  ⟨_,_,(rebuild_walk (fun _ => true) p []).symm,walk_all p []⟩

/-- What is above a part of a chain is the upper end of the chain. -/
theorem chain_of_rebuild (hq : q.inputs.length ≠ 1) (h : rebuild p os = rebuild q os') : ∃ low, p = rebuild q low ∧ os' = low ++ os := by
  obtain ⟨low,base,rfl,hbase⟩ := exists_rebuild p
  rw [← rebuild_append_list] at h
  obtain ⟨rfl,hos⟩ := rebuild_inj hbase hq h
  exact ⟨low,rfl,hos.symm⟩

theorem kind_rebuild (p : Plan) (os : List Passed) : (rebuild p os).kind = p.kind ∨ ∃ o ∈ os, (rebuild p os).kind = o.kind := by
  rcases List.eq_nil_or_concat' os with rfl | ⟨os,o,rfl⟩
  · exact .inl rfl
  · rw [rebuild_append]
    exact .inr ⟨o,by simp,rfl⟩

theorem kinds_of_forall₂ (h : List.Forall₂ (fun o o' : Passed => o'.kind = o.kind) os os') :
    os'.map Passed.kind = os.map Passed.kind := by
  induction h with
  | nil => rfl
  | cons h _ ih => rw [List.map_cons, List.map_cons, h, ih]

end Chains

/-- The selects of `preds` above the plan `core`, and above them operators of other kinds. -/
inductive Shaped (tableMgr : TableManager) (preds : List BExpr) (core : Plan) : Plan → Prop where
  | intro {sel ups : List Passed} (selects : sel.map Passed.kind = preds.map Kind.select)
      (others : ∀ o ∈ ups, isUnaryAboveSelect o.kind = true) (formed : Formed tableMgr (rebuild core sel)) :
      Shaped tableMgr preds core (rebuild core (sel ++ ups))

variable {preds : List BExpr}

theorem select_of_mem {sel : List Passed} (h : sel.map Passed.kind = preds.map Kind.select) {o : Passed} (ho : o ∈ sel) :
    ∃ b, o.kind = .select b := by
  have hmem : o.kind ∈ preds.map Kind.select := h ▸ List.mem_map_of_mem ho
  obtain ⟨b,-,hb⟩ := List.mem_map.mp hmem
  exact ⟨b,hb.symm⟩

theorem Shaped.above {kind : Kind} {outAttrs : List Attr} (h : Shaped tableMgr preds core p)
    (hkind : isUnaryAboveSelect kind = true) : Shaped tableMgr preds core (unaryNode kind outAttrs p) := by
  obtain ⟨selects,others,formed⟩ := h
  rename_i sel ups
  have hnew := @Shaped.intro _ _ _ sel (ups ++ [⟨kind,outAttrs,kind.streams [(rebuild core (sel ++ ups)).bStream]⟩]) selects
    (fun o ho => (List.mem_append.mp ho).elim (others o) fun ho => by rw [List.mem_singleton.mp ho]; exact hkind) formed
  rw [← List.append_assoc, rebuild_append] at hnew
  exact hnew

theorem shaped_selects (preds : List BExpr) (h : Formed tableMgr core) : Shaped tableMgr preds core (selectPlan preds core) := by
  have hsel : ∃ sel : List Passed, selectPlan preds core = rebuild core sel ∧ sel.map Passed.kind = preds.map Kind.select := by
    clear h
    induction preds generalizing core with
    | nil => exact ⟨[],rfl,rfl⟩
    | cons b preds ih =>
      obtain ⟨sel,h1,h2⟩ := @ih (unaryNode (.select b) core.outAttrs core)
      exact ⟨⟨.select b,core.outAttrs,core.bStream⟩ :: sel,h1,by simp [h2]⟩
  obtain ⟨sel,h1,h2⟩ := hsel
  have hformed : Formed tableMgr (selectPlan preds core) := formed_copying.selectPlan preds h
  rw [h1] at hformed ⊢
  have hnew := @Shaped.intro _ _ _ sel [] h2 (by simp) hformed
  rwa [List.append_nil] at hnew

theorem Shaped.distinct (h : Shaped tableMgr preds core p) : Shaped tableMgr preds core (distinctPlan query p) := by
  unfold distinctPlan
  split
  · exact h.above rfl
  · exact h

theorem Shaped.r2s (h : Shaped tableMgr preds core p) : Shaped tableMgr preds core (r2sPlan query p) := by
  unfold r2sPlan
  split
  · exact h
  · rename_i op _
    refine h.above ?_
    cases op <;> rfl

def crossOf (tableMgr : TableManager) (query : Semantic.Query) : Plan := crossPlan (branches tableMgr query)

theorem length_branches : (branches tableMgr query).length = query.fromClauseTables.length := by
  simp [branches]

theorem Generated.shaped (h : Generated tableMgr query p) (hk : query.kind = .sfwQuery) (hfrom : query.fromClauseTables.Nodup)
    (htwo : 2 ≤ query.fromClauseTables.length) :
    Shaped tableMgr (query.preds.map (logicalBExpr query)) (crossOf tableMgr query) p := by
  rcases h with ⟨-,aggrs,-,rfl⟩ | ⟨hk',-⟩
  · have hne : query.fromClauseTables ≠ [] := by
      rintro hnil
      simp [hnil] at htwo
    have hjoin : joinPlan tableMgr query = crossOf tableMgr query := by
      unfold joinPlan
      split
      · rename_i p hp
        have hlen := congrArg List.length hp
        rw [length_branches] at hlen
        simp at hlen
        omega
      · rfl
    have hformed : Formed tableMgr (joinPlan tableMgr query) := formed_join hfrom hne
    rw [hjoin] at hformed
    unfold sfwPlan
    rw [hjoin]
    have haggr : Shaped tableMgr (query.preds.map (logicalBExpr query)) (crossOf tableMgr query)
        (aggrPlan query aggrs (selectPlan (query.preds.map (logicalBExpr query)) (crossOf tableMgr query))) := by
      unfold aggrPlan
      dsimp only
      split
      · exact shaped_selects _ hformed
      · exact (shaped_selects _ hformed).above rfl
    exact (haggr.above rfl).distinct.r2s
  · rw [hk] at hk'
    cases hk'

section Transformations

theorem Shaped.exists (h : Shaped tableMgr preds core p) : ∃ sel ups : List Passed, p = rebuild core (sel ++ ups) ∧
    sel.map Passed.kind = preds.map Kind.select ∧ (∀ o ∈ ups, isUnaryAboveSelect o.kind = true) ∧
    Formed tableMgr (rebuild core sel) := by
  obtain ⟨selects,others,formed⟩ := h
  exact ⟨_,_,rfl,selects,others,formed⟩

/-- An operator of a chain is a select or one of the others. -/
theorem chain_kinds {sel ups : List Passed} (hsel : sel.map Passed.kind = preds.map Kind.select)
    (hups : ∀ o ∈ ups, isUnaryAboveSelect o.kind = true) : ∀ o ∈ sel ++ ups, isUnaryAboveCross o.kind = true := by
  intro o ho
  rcases List.mem_append.mp ho with ho | ho
  · obtain ⟨b,hb⟩ := select_of_mem hsel ho
    rw [hb]
    rfl
  · have h := hups o ho
    cases hk : o.kind <;> simp_all [isUnaryAboveSelect,isUnaryAboveCross]

theorem Shaped.tRstreamNow_eq (h : Shaped tableMgr preds core p) (hlen : core.inputs.length ≠ 1) : tRstreamNow p = p := by
  obtain ⟨sel,ups,hp,hsel,hups,-⟩ := h.exists
  unfold tRstreamNow
  split
  · rename_i outAttrs bStream input
    split
    · rename_i passed nowAttrs nowStream source hw
      have hre := rebuild_walk isSelectProjectDistinct input []
      rw [hw] at hre
      have hchain : rebuild source (⟨.nowWin,nowAttrs,nowStream⟩ :: passed ++ [⟨.rstream,outAttrs,bStream⟩]) =
          rebuild core (sel ++ ups) := by
        rw [← hp, rebuild_append, ← show _ = input from hre]
        rfl
      obtain ⟨low,-,hos⟩ := chain_of_rebuild hlen hchain
      have hnow := chain_kinds hsel hups ⟨.nowWin,nowAttrs,nowStream⟩ (by simp [hos])
      cases hnow
    · rfl
  · rfl

theorem Shaped.streamCrossed (h : Shaped tableMgr preds core p) (hcore : core.kind = .cross) (hlen : core.inputs.length ≠ 1)
    (hq : StreamCrossed p q) (hformed : Formed tableMgr q) : ∃ nowIndex nowAttrs nowStream source,
      core.inputs[nowIndex]? = some (.node .nowWin nowAttrs nowStream [source]) ∧
      Shaped tableMgr preds (streamCrossPlan (source :: core.inputs.eraseIdx nowIndex)) q := by
  obtain ⟨sel,ups,hp,hsel,hups,-⟩ := h.exists
  cases hq with
  | @intro outAttrs crossAttrs nowAttrs bStream crossStream nowStream input source inputs passed passed' nowIndex hw hnow hkinds =>
    have hre := rebuild_walk isAboveCross input [⟨.rstream,outAttrs,bStream⟩]
    rw [hw] at hre
    have hchain : rebuild (.node .cross crossAttrs crossStream inputs) passed = rebuild core (sel ++ ups) := hre.trans hp
    obtain ⟨low,hlow,hos⟩ := chain_of_rebuild hlen hchain
    have hnil : low = [] := by
      rcases List.eq_nil_or_concat' low with rfl | ⟨low,o,rfl⟩
      · rfl
      · rw [rebuild_append] at hlow
        have hkind := chain_kinds hsel hups o (by simp [hos])
        rw [← show Kind.cross = o.kind from congrArg Plan.kind hlow] at hkind
        cases hkind
    subst hnil
    obtain rfl : Plan.node .cross crossAttrs crossStream inputs = core := hlow
    obtain rfl : sel ++ ups = passed := hos
    have hups_ne : ups ≠ [] := by
      rintro rfl
      rw [List.append_nil] at hp
      rcases kind_rebuild (.node .cross crossAttrs crossStream inputs) sel with hk | ⟨o,ho,hk⟩
      · rw [← hp] at hk
        cases hk
      · obtain ⟨b,hb⟩ := select_of_mem hsel ho
        rw [← hp, hb] at hk
        cases hk
    have hmap := kinds_of_forall₂ hkinds
    rw [List.map_append] at hmap
    obtain ⟨sel',ups',rfl,hsel',hups'⟩ := List.map_eq_append_iff.mp hmap
    have hne' : ups' ≠ [] := by
      rintro rfl
      exact hups_ne (List.map_eq_nil_iff.mp hups'.symm)
    rw [List.dropLast_append_of_ne_nil hne'] at hformed ⊢
    refine ⟨nowIndex,nowAttrs,nowStream,source,hnow,.intro (hsel'.trans hsel) (fun o ho => ?_) ?_⟩
    · have hmem : o.kind ∈ ups.map Passed.kind := hups' ▸ List.mem_map_of_mem (List.mem_of_mem_dropLast ho)
      obtain ⟨o',ho',hk⟩ := List.mem_map.mp hmem
      rw [← hk]
      exact hups o' ho'
    · rw [rebuild_append_list] at hformed
      exact hformed.of_rebuild

theorem ensures_binaryCross_eq (l r : Plan) : Ensures (binaryCross l r) (· = binaryNode .cross l r) := by
  refine Ensures.bind ensures_mkCross_eq fun o ho => Ensures.bind (ensures_orFail ho) fun c hc => ?_
  subst hc
  refine Ensures.bind (ensures_crossAddInput_eq (holds_some rfl)) fun o ho => Ensures.bind (ensures_orFail ho) fun c hc => ?_
  subst hc
  refine Ensures.bind (ensures_crossAddInput_eq (holds_some rfl)) fun o ho => (ensures_orFail ho).weaken fun q hq => ?_
  rw [hq]
  simp [crossPlan,binaryNode]

theorem ensures_binaryStreamCross_eq (l r : Plan) : Ensures (binaryStreamCross l r) (· = binaryNode .streamCross l r) := by
  refine Ensures.bind (ensures_mkStreamCross_eq l) fun o ho => Ensures.bind (ensures_orFail ho) fun c hc => ?_
  subst hc
  have hadd := ensures_streamCrossAddInputs_eq l [] [r]
  simp only [streamCrossAddInputs, List.foldlM_cons, List.foldlM_nil, bind_pure] at hadd
  refine hadd.weaken fun q hq => ?_
  rw [hq.1]
  simp [streamCrossPlan,binaryNode,Kind.streams]

theorem ensures_leftDeep {binary : Plan → Plan → Gen Plan} {kind : Kind}
    (hbinary : ∀ l r, Ensures (binary l r) (· = binaryNode kind l r)) (first : Plan) (rest : List Plan) :
    Ensures (rest.foldlM binary first) (· = leftDeep kind first rest) := by
  induction rest generalizing first with
  | nil => exact ensures_pure rfl
  | cons r rest ih =>
    rw [List.foldlM_cons]
    refine Ensures.bind (hbinary first r) fun q hq => ?_
    subst hq
    exact ih _

/-- The cross of a plan is made binary, unless it is already or is of another kind. -/
theorem ensures_makeBinary_eq {binary : Plan → Plan → Gen Plan} {isCross : Kind → Bool} {kind : Kind} {outAttrs : List Attr}
    {bStream : Bool} {first second : Plan} {rest : List Plan} {passed : List Passed}
    (hbinary : isCross kind = true → ∀ l r, Ensures (binary l r) (· = binaryNode kind l r))
    (hw : walk isUnaryAboveCross p [] = (passed,.node kind outAttrs bStream (first :: second :: rest))) :
    Ensures (makeBinary binary isCross p) (fun q =>
      q = p ∧ (isCross kind = false ∨ rest = []) ∨ isCross kind = true ∧ q = rebuild (leftDeep kind first (second :: rest)) passed) := by
  unfold makeBinary
  rw [hw]
  dsimp only
  split
  · rename_i hk
    split
    · rename_i hin
      exact ensures_pure (.inl ⟨rfl,.inr (List.cons.inj (List.cons.inj hin).2).2⟩)
    · rename_i first' second' rest' _ hin
      cases hin
      refine Ensures.bind (hbinary hk first second) fun c hc => ?_
      subst hc
      refine Ensures.bind (ensures_leftDeep (hbinary hk) _ rest) fun c hc => ensures_pure (.inr ⟨hk,?_⟩)
      rw [hc]
      rfl
    · exact ensures_throw
  · rename_i hk
    exact ensures_pure (.inl ⟨rfl,.inl (by simpa using hk)⟩)

/-- Removing the project takes one of the other operators out. -/
theorem Shaped.tRemoveProject (h : Shaped tableMgr preds core p) (hlen : core.inputs.length ≠ 1) :
    Shaped tableMgr preds core (tRemoveProject p) := by
  obtain ⟨sel,ups,hp,hsel,hups,hformed⟩ := h.exists
  unfold Plan.tRemoveProject
  split
  · rename_i passed projExprs outAttrs bStream input hw
    split
    · have hre := rebuild_walk isSelectDistinctXStream p []
      rw [hw] at hre
      have hchain : rebuild input (⟨.project projExprs,outAttrs,bStream⟩ :: passed) = rebuild core (sel ++ ups) := hre.trans hp
      obtain ⟨low,rfl,hos⟩ := chain_of_rebuild hlen hchain
      obtain ⟨more,rfl,rfl⟩ : ∃ more, low = sel ++ more ∧ ups = more ++ ⟨.project projExprs,outAttrs,bStream⟩ :: passed := by
        rcases List.append_eq_append_iff.mp hos with ⟨more,h1,h2⟩ | ⟨more,h1,h2⟩
        · exact ⟨more,h1,h2⟩
        · cases more with
          | nil => exact ⟨[],by simpa using h1.symm,by simpa using h2.symm⟩
          | cons o more =>
            obtain ⟨rfl,-⟩ := List.cons.inj h2
            obtain ⟨b,hb⟩ := select_of_mem hsel (o := ⟨.project projExprs,outAttrs,bStream⟩) (by simp [h1])
            cases hb
      rw [← rebuild_append_list, List.append_assoc]
      refine .intro hsel (fun o ho => hups o ?_) hformed
      rcases List.mem_append.mp ho with ho | ho
      · exact List.mem_append_left _ ho
      · exact List.mem_append_right _ (List.mem_cons_of_mem _ ho)
    · exact h
  · exact h

end Transformations

end AqsiosCoordinator.Logical.Plan
