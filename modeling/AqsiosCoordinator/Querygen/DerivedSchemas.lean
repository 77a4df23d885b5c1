import AqsiosCoordinator.Querygen.PlanShapes
import AqsiosCoordinator.Querygen.PushedSelects

/-! # The schemas after all transformations

Every operator of the plan of a query has the schema that its kind derives from those of its
inputs, every cross has two inputs, and the root has the columns of the SELECT list.
-/
namespace AqsiosCoordinator.Logical
open Common Foundation Foundation.Outcome Metadata

def Kind.Derives (tableMgr : TableManager) (kind : Kind) (inputs : List (List Attr)) (outAttrs : List Attr) : Prop :=
  match kind with
  | .streamSource varId tableId => inputs = [] ∧ outAttrs = tableAttrs tableMgr varId tableId
  | .relnSource varId tableId => inputs = [] ∧ outAttrs = tableAttrs tableMgr varId tableId
  | .project projExprs => inputs.length = 1 ∧ outAttrs = projExprs.map Plan.exprAttr
  | .groupAggr groupAttrs aggrs => inputs.length = 1 ∧ outAttrs = groupAttrs ++ aggrs.map (fun a => Plan.aggrAttr a.1 a.2)
  | .cross => outAttrs = inputs.flatten
  | .streamCross => outAttrs = inputs.flatten
  | .union => ∃ l r, inputs = [l, r] ∧ outAttrs = l.map fun a => .unnamed (Plan.attrType tableMgr a)
  | .except => ∃ l r, inputs = [l, r] ∧ outAttrs = l.map fun a => .unnamed (Plan.attrType tableMgr a)
  | _ => inputs = [outAttrs]

namespace Plan
variable {tableMgr : TableManager} {query : Semantic.Query} {p q x : Plan}

/-- Every operator has the schema that its kind derives, and crosses have several inputs. -/
def Derived (tableMgr : TableManager) : Plan → Prop :=
  Everywhere fun kind outAttrs inputs => kind.Derives tableMgr inputs outAttrs ∧ (kind.IsCross → 2 ≤ inputs.length)

theorem derived_copying : Copying
    fun kind outAttrs inputs => kind.Derives tableMgr inputs outAttrs ∧ (kind.IsCross → 2 ≤ inputs.length) := by
  constructor
  intro kind outAttrs inputs hk
  cases kind <;> simp_all [copiesSchema,Kind.Derives]

theorem derived_established : Established tableMgr query
    fun kind outAttrs inputs => kind.Derives tableMgr inputs outAttrs ∧ (kind.IsCross → 2 ≤ inputs.length) := by
  refine ⟨derived_copying,?_,?_,?_,?_,?_⟩
  · intro varId tableId
    unfold sourcePlan
    split
    · exact ⟨⟨rfl,rfl⟩,by simp⟩
    · exact ⟨⟨rfl,rfl⟩,by simp⟩
  · exact fun htwo => ⟨rfl,fun _ => by simpa using htwo⟩
  · exact fun _ _ => ⟨⟨rfl,rfl⟩,by simp⟩
  · exact fun _ _ => ⟨⟨rfl,rfl⟩,by simp⟩
  · intro kind l r hk
    rcases hk with rfl | rfl
    · exact ⟨⟨l,r,rfl,rfl⟩,by simp⟩
    · exact ⟨⟨l,r,rfl,rfl⟩,by simp⟩

theorem derived_handedOn : HandedOn
    fun kind outAttrs inputs => kind.Derives tableMgr inputs outAttrs ∧ (kind.IsCross → 2 ≤ inputs.length) := by
  refine ⟨derived_copying,?_,?_,?_⟩
  · intro kind outAttrs attrs hk h new
    cases kind with
    | project projExprs => exact ⟨⟨rfl,h.1.2⟩,by simp⟩
    | groupAggr groupAttrs aggrs => exact ⟨⟨rfl,h.1.2⟩,by simp⟩
    | streamSource varId strId => exact absurd h.1.1 (by simp)
    | relnSource varId relId => exact absurd h.1.1 (by simp)
    | _ => cases hk
  · intro kind outAttrs attrs h
    cases kind <;> simp_all [copiesSchema,schemaStops,Kind.Derives]
  · rintro outAttrs inputs i attrs ⟨-,hmany⟩ hi
    obtain ⟨hlt,-⟩ := List.getElem?_eq_some_iff.mp hi
    have htwo := hmany (.inl rfl)
    have hlen : (inputs.eraseIdx i).length = inputs.length - 1 := List.length_eraseIdx_of_lt hlt
    refine ⟨⟨rfl,fun _ => ?_⟩,fun hnil => ?_⟩
    · rw [List.length_cons]
      omega
    · rw [hnil, List.length_nil] at hlen
      omega

/-- The schema at the top of a chain of operators when the part below it is replaced by one with the same schema. -/
theorem rebuild_outAttrs {passed passed' : List Passed}
    (hsame : List.Forall₂ (fun o o' : Passed => o'.kind = o.kind ∧ o'.outAttrs = o.outAttrs) passed passed')
    (h : q.outAttrs = p.outAttrs) : (rebuild q passed').outAttrs = (rebuild p passed).outAttrs := by
  induction hsame generalizing p q with
  | nil => exact h
  | @cons o o' passed passed' ho _ ih => exact ih (p := above o p) (q := above o' q) ho.2

/-- Removing a project that changes nothing leaves the schemas as they are. -/
theorem Everywhere.tRemoveProject {P : Kind → List Attr → List (List Attr) → Prop} (h : Everywhere P p) :
    Everywhere P (tRemoveProject p) ∧ (tRemoveProject p).outAttrs = p.outAttrs := by
  unfold Plan.tRemoveProject
  split
  · rename_i passed projExprs outAttrs bStream input hw
    split
    · rename_i huseless
      have hre := rebuild_walk isSelectDistinctXStream p []
      rw [hw] at hre
      have hout : input.outAttrs = outAttrs := (isUselessProject_attrs huseless).1.symm
      have hall := Everywhere.walk [] h hw
      have hinput := (everywhere_node.mp hall.of_rebuild).2 input (List.mem_singleton_self input)
      have hsame := rebuild_outAttrs (p := .node (.project projExprs) outAttrs bStream [input]) (forall₂_unchanged passed) hout
      rw [show rebuild _ passed = p from hre] at hsame
      exact ⟨Everywhere.replace (forall₂_unchanged passed) hall hinput hout,hsame⟩
    · exact ⟨h,rfl⟩
  · exact ⟨h,rfl⟩

def Crossless : Plan → Prop := Everywhere fun kind _ _ => ¬ kind.IsCross

/-- A plan with at most one cross, which has only operators with one input above it. -/
inductive Spine : Plan → Prop where
  | above {o : Passed} {p : Plan} (hk : isUnaryAboveCross o.kind = true) (h : Spine p) : Spine (above o p)
  | cross {kind : Kind} {outAttrs : List Attr} {bStream : Bool} {inputs : List Plan} (hk : kind.IsCross)
      (h : ∀ i ∈ inputs, Crossless i) : Spine (.node kind outAttrs bStream inputs)
  | crossless {p : Plan} (h : Crossless p) : Spine p

theorem not_cross_above {kind : Kind} (hk : isUnaryAboveCross kind = true) : ¬ kind.IsCross := by
  rintro (rfl | rfl) <;> cases hk

theorem Spine.of_above {o : Passed} (h : Spine (Plan.above o p)) : Spine p := by
  generalize hs : Plan.above o p = s at h
  cases h with
  | @above o' p' _ h =>
    obtain ⟨-,-,-,hin⟩ := Plan.node.inj hs
    obtain rfl := (List.cons.inj hin).1
    exact h
  | cross hk h =>
    obtain ⟨-,-,-,rfl⟩ := Plan.node.inj hs
    exact .crossless (h p (List.mem_singleton_self p))
  | crossless h =>
    subst hs
    exact .crossless (everywhere_above.mp h).2

theorem Spine.of_rebuild {passed : List Passed} (h : Spine (Plan.rebuild p passed)) : Spine p := by
  induction passed generalizing p with
  | nil => exact h
  | cons o passed ih => exact (ih h).of_above

theorem Spine.rebuild {passed : List Passed} (h : Spine p) (hk : ∀ o ∈ passed, isUnaryAboveCross o.kind = true) :
    Spine (Plan.rebuild p passed) := by
  induction passed generalizing p with
  | nil => exact h
  | cons o passed ih => exact ih (.above (hk o List.mem_cons_self) h) fun o ho => hk o (List.mem_cons_of_mem _ ho)

/-- A cross on the spine has no cross below it, and neither has what is not on the spine. -/
theorem Spine.inputs {kind : Kind} {outAttrs : List Attr} {bStream : Bool} {inputs : List Plan}
    (h : Spine (.node kind outAttrs bStream inputs)) (hk : isUnaryAboveCross kind = false) : ∀ i ∈ inputs, Crossless i := by
  generalize hs : Plan.node kind outAttrs bStream inputs = s at h
  cases h with
  | above hk' _ =>
    obtain ⟨rfl,-⟩ := Plan.node.inj hs
    rw [hk] at hk'
    cases hk'
  | cross _ h =>
    obtain ⟨-,-,-,rfl⟩ := Plan.node.inj hs
    exact h
  | crossless h =>
    subst hs
    exact (everywhere_node.mp h).2

theorem spine_unary {kind : Kind} {outAttrs : List Attr} (hk : isUnaryAboveCross kind = true) (h : Spine p) :
    Spine (unaryNode kind outAttrs p) :=
  .above (o := ⟨kind,outAttrs,kind.streams [p.bStream]⟩) hk h

theorem crossless_source (varId tableId : ℕ) : Crossless (sourcePlan tableMgr varId tableId) := by
  unfold sourcePlan
  split
  · exact .node (by simp) (by simp)
  · exact .node (by simp) (by simp)

theorem crossless_branch (t varId : ℕ) : Crossless (branch tableMgr query t varId) := by
  have hsource : Crossless (sourcePlan tableMgr varId (query.refTables varId)) := crossless_source _ _
  have hunary (kind : Kind) (outAttrs : List Attr) (hk : ¬ kind.IsCross) :
      Crossless (unaryNode kind outAttrs (sourcePlan tableMgr varId (query.refTables varId))) := by
    refine .node hk fun q hq => ?_
    rwa [List.mem_singleton.mp hq]
  unfold branch
  dsimp only
  split
  · cases query.winSpec t with
    | range timeUnits => exact hunary (.rangeWin timeUnits) _ (by simp)
    | row numRows => exact hunary (.rowWin numRows) _ (by simp)
    | partition numRows attrs => exact hunary (.partnWin _ numRows) _ (by simp)
    | now => exact hunary .nowWin _ (by simp)
    | unbounded => exact hsource
  · exact hsource

theorem Generated.spine (h : Generated tableMgr query p) : Spine p := by
  have hr2s {p : Plan} (hp : Spine p) : Spine (r2sPlan query p) := by
    unfold r2sPlan
    split
    · exact hp
    · rename_i op _
      refine spine_unary ?_ hp
      cases op <;> rfl
  rcases h with ⟨-,aggrs,-,rfl⟩ | ⟨-,rfl⟩
  · have hb : ∀ b ∈ branches tableMgr query, Crossless b := by
      intro b hb
      obtain ⟨v,-,rfl⟩ := List.mem_map.mp hb
      exact crossless_branch v.2 v.1
    have hjoin : Spine (joinPlan tableMgr query) := by
      unfold joinPlan
      split
      · rename_i p hp
        exact .crossless (hb p (by simp [hp]))
      · exact .cross (.inl rfl) hb
    have hselect (preds : List BExpr) {p : Plan} (hp : Spine p) : Spine (selectPlan preds p) := by
      induction preds generalizing p with
      | nil => exact hp
      | cons b preds ih => exact ih (spine_unary rfl hp)
    have haggr {p : Plan} (hp : Spine p) : Spine (aggrPlan query aggrs p) := by
      unfold aggrPlan
      dsimp only
      split
      · exact hp
      · exact spine_unary rfl hp
    have hdistinct {p : Plan} (hp : Spine p) : Spine (distinctPlan query p) := by
      unfold distinctPlan
      split
      · exact spine_unary rfl hp
      · exact hp
    exact hr2s (hdistinct (spine_unary rfl (haggr (hselect _ hjoin))))
  · refine hr2s (.crossless (.node ?_ fun q hq => ?_))
    · split <;> simp
    · rcases List.mem_pair.mp hq with rfl | rfl
      · exact crossless_source _ _
      · exact crossless_source _ _

theorem Spine.tRstreamNow (h : Spine p) : Spine (tRstreamNow p) := by
  unfold Plan.tRstreamNow
  split
  · rename_i outAttrs bStream input
    split
    · rename_i passed nowAttrs nowStream source hw
      have hre := rebuild_walk isSelectProjectDistinct input []
      rw [hw] at hre
      have hinput : Spine input := Spine.of_above (o := ⟨.rstream,outAttrs,bStream⟩) h
      rw [← show _ = input from hre] at hinput
      refine Spine.rebuild (.crossless (hinput.of_rebuild.inputs rfl source (List.mem_singleton_self source))) fun o ho => ?_
      obtain ⟨o',ho',rfl⟩ := List.mem_map.mp ho
      have hk := walked_kinds hw o' ho'
      cases hk' : o'.kind <;> simp_all [isSelectProjectDistinct,isUnaryAboveCross]
    · exact h
  · exact h

theorem StreamCrossed.spine (h : Spine p) (hq : StreamCrossed p q) : Spine q := by
  cases hq with
  | @intro outAttrs crossAttrs nowAttrs bStream crossStream nowStream input source inputs passed passed' nowIndex hw hnow hkinds =>
    have hre := rebuild_walk isAboveCross input [⟨.rstream,outAttrs,bStream⟩]
    obtain ⟨new,hnew,habove⟩ := walk_passed isAboveCross input [⟨.rstream,outAttrs,bStream⟩]
    rw [hw] at hre hnew
    have hcross : Spine (rebuild (.node .cross crossAttrs crossStream inputs) passed) := by
      rw [show rebuild _ passed = _ from hre]
      exact h
    have hinputs := hcross.of_rebuild.inputs rfl
    have hsource : Crossless source := (everywhere_node.mp (hinputs _ (List.mem_of_getElem? hnow))).2 source (List.mem_singleton_self source)
    refine Spine.rebuild (.cross (.inr rfl) fun i hi => ?_) fun o ho => ?_
    · rcases List.mem_cons.mp hi with rfl | hi
      · exact hsource
      · exact hinputs i (List.mem_of_mem_eraseIdx hi)
    · obtain ⟨o',ho',hk⟩ : ∃ o' ∈ passed, o.kind = o'.kind := by
        have hmem : o.kind ∈ passed.map Passed.kind :=
          kinds_of_forall₂ hkinds ▸ List.mem_map_of_mem (List.mem_of_mem_dropLast ho)
        obtain ⟨o',ho',hk⟩ := List.mem_map.mp hmem
        exact ⟨o',ho',hk.symm⟩
      rw [hk]
      rw [show passed = _ from hnew] at ho'
      rcases List.mem_append.mp ho' with ho' | ho'
      · have hk := habove o' ho'
        cases hk' : o'.kind <;> simp_all [isAboveCross,isUnaryAboveCross]
      · rw [List.mem_singleton.mp ho']
        rfl

theorem Spine.tRemoveProject (h : Spine p) : Spine (tRemoveProject p) := by
  unfold Plan.tRemoveProject
  split
  · rename_i passed projExprs outAttrs bStream input hw
    split
    · have hre := rebuild_walk isSelectDistinctXStream p []
      rw [hw] at hre
      rw [← show _ = p from hre] at h
      have hproject : Spine (Plan.above ⟨.project projExprs,outAttrs,bStream⟩ input) := h.of_rebuild
      refine Spine.rebuild hproject.of_above fun o ho => ?_
      have hk := walked_kinds hw o ho
      cases hk' : o.kind <;> simp_all [isSelectDistinctXStream,isUnaryAboveCross]
    · exact h
  · exact h

def BinaryOf (kind : Kind) : Plan → Prop := Everywhere fun k _ inputs => k = kind → inputs.length = 2

theorem binary_iff : Binary p ↔ BinaryOf .cross p ∧ BinaryOf .streamCross p := by
  constructor
  · exact fun h => ⟨Everywhere.imp h fun _ _ _ h hk => h (.inl hk),Everywhere.imp h fun _ _ _ h hk => h (.inr hk)⟩
  · rintro ⟨h1,h2⟩
    induction h1 with
    | node hc _ ih =>
      obtain ⟨hs,hbelow⟩ := everywhere_node.mp h2
      exact .node (fun hk => hk.elim hc hs) fun p hp => ih p hp (hbelow p hp)

theorem Crossless.binary (h : Crossless p) : Binary p := Everywhere.imp h fun _ _ _ h hk => absurd hk h

/-- What holds of everything but crosses holds above a part that has it. -/
theorem everywhere_rebuild {P : Kind → List Attr → List (List Attr) → Prop} (hP : ∀ kind outAttrs inputs, ¬ kind.IsCross → P kind outAttrs inputs)
    {passed : List Passed} (hk : ∀ o ∈ passed, isUnaryAboveCross o.kind = true) (h : Everywhere P p) :
    Everywhere P (rebuild p passed) := by
  induction passed generalizing p with
  | nil => exact h
  | cons o passed ih =>
    refine ih (fun o ho => hk o (List.mem_cons_of_mem _ ho)) (everywhere_above.mpr ⟨?_,h⟩)
    exact hP _ _ _ (not_cross_above (hk o List.mem_cons_self))

theorem leftDeep_everywhere {P : Kind → List Attr → List (List Attr) → Prop} {kind : Kind} (hP : ∀ l r, P kind (l ++ r) [l, r])
    {first : Plan} {rest : List Plan} : Everywhere P (leftDeep kind first rest) ↔ ∀ i ∈ first :: rest, Everywhere P i := by
  induction rest generalizing first with
  | nil => simp
  | cons r rest ih =>
    rw [leftDeep_cons, ih, List.forall_mem_cons, binaryNode, everywhere_node]
    simp [hP,and_assoc]

theorem derives_single {kind : Kind} {inputs : List (List Attr)} {outAttrs : List Attr} (hk : isUnaryAboveCross kind = true)
    (h : kind.Derives tableMgr inputs outAttrs) : inputs.length = 1 := by
  cases kind <;> simp_all [isUnaryAboveCross,Kind.Derives]

section MakeBinary
variable {binary : Plan → Plan → Gen Plan} {kind : Kind}

theorem makeBinary_binary (h : BinaryOf kind p) :
    Ensures (makeBinary binary (fun k => decide (k = kind)) p) (· = p) := by
  unfold makeBinary
  split
  rename_i passed k outAttrs bStream inputs hw
  split
  · rename_i hk
    obtain rfl : k = kind := by simpa using hk
    have hlen : inputs.length = 2 := by simpa using (everywhere_node.mp (Everywhere.walk [] h hw).of_rebuild).1 rfl
    obtain ⟨l,r,rfl⟩ := List.length_eq_two.mp hlen
    exact ensures_pure rfl
  · exact ensures_pure rfl

/-- Where a walk stops there is an operator of another kind or one that has not one input. -/
theorem walk_stops {through : Kind → Bool} {os passed : List Passed} (h : walk through p passed = (os,q)) :
    through q.kind = false ∨ q.inputs.length ≠ 1 := by
  fun_induction walk through p passed with
  | case1 kind outAttrs bStream input passed hk ih => exact ih h
  | case2 kind outAttrs bStream input passed hk =>
    obtain ⟨-,rfl⟩ := Prod.mk.inj h
    exact .inl (by simpa using hk)
  | case3 p passed hne =>
    obtain ⟨-,rfl⟩ := Prod.mk.inj h
    obtain ⟨kind,outAttrs,bStream,inputs⟩ := p
    refine .inr fun hlen => ?_
    obtain ⟨i,rfl⟩ := List.length_eq_one_iff.mp hlen
    exact hne kind outAttrs bStream i rfl

/-- Plans with the same schema of which each has what the other has everywhere but in crosses. -/
structure Rearranged (p q : Plan) : Prop where
  outAttrs : q.outAttrs = p.outAttrs
  everywhere : ∀ P : Kind → List Attr → List (List Attr) → Prop,
    (∀ kind outAttrs inputs, kind.IsCross → P kind outAttrs inputs) → (Everywhere P q ↔ Everywhere P p)

theorem Rearranged.refl (p : Plan) : Rearranged p p := ⟨rfl,fun _ _ => Iff.rfl⟩

theorem Rearranged.rebuild (h : Rearranged p q) (passed : List Passed) : Rearranged (rebuild p passed) (rebuild q passed) := by
  refine ⟨rebuild_outAttrs (forall₂_unchanged passed) h.outAttrs,fun P hP => ⟨fun hq => ?_,fun hp => ?_⟩⟩
  · exact Everywhere.replace (forall₂_unchanged passed) hq ((h.everywhere P hP).mp hq.of_rebuild) h.outAttrs.symm
  · exact Everywhere.replace (forall₂_unchanged passed) hp ((h.everywhere P hP).mpr hp.of_rebuild) h.outAttrs

/-- The crosses of the kind become binary, and when there are none nothing changes. -/
theorem ensures_makeBinary_spine (hk : kind.IsCross) (hbinary : ∀ l r, Ensures (binary l r) (· = binaryNode kind l r))
    (hd : Derived tableMgr p) (h : Spine p) :
    Ensures (makeBinary binary (fun k => decide (k = kind)) p) (fun q => Derived tableMgr q ∧ Rearranged p q ∧
      (Binary q ∨ q = p ∧ BinaryOf kind p)) := by
  obtain ⟨⟨passed,x⟩,hw⟩ : ∃ w, walk isUnaryAboveCross p [] = w := ⟨_,rfl⟩
  have hre := rebuild_walk isUnaryAboveCross p []
  rw [hw] at hre
  have hpassed := walked_kinds hw
  have hspine : Spine x := @Spine.of_rebuild x passed (by rw [show rebuild x passed = p from hre]; exact h)
  have hall := Everywhere.walk [] hd hw
  obtain ⟨k,outAttrs,bStream,inputs⟩ := x
  by_cases hkind : k = kind
  · subst hkind
    have hinputs := hspine.inputs (by rcases hk with rfl | rfl <;> rfl)
    obtain ⟨⟨hout,hmany⟩,hbelow⟩ := everywhere_node.mp hall.of_rebuild
    have htwo : 2 ≤ inputs.length := by simpa using hmany hk
    obtain ⟨first,second,rest,rfl⟩ : ∃ first second rest, inputs = first :: second :: rest := by
      obtain ⟨first,inputs,rfl⟩ := List.exists_cons_of_length_pos (show 0 < inputs.length by omega)
      obtain ⟨second,rest,rfl⟩ := List.exists_cons_of_length_pos (show 0 < inputs.length by simp at htwo; omega)
      exact ⟨first,second,rest,rfl⟩
    have hnest : Rearranged (.node k outAttrs bStream (first :: second :: rest)) (leftDeep k first (second :: rest)) ∧
        Binary (leftDeep k first (second :: rest)) ∧ Derived tableMgr (leftDeep k first (second :: rest)) := by
      refine ⟨⟨?_,fun P hP => ?_⟩,(leftDeep_everywhere (by simp)).mpr fun i hi => (hinputs i hi).binary,
        (leftDeep_everywhere fun l r => ⟨?_,by simp⟩).mpr hbelow⟩
      · rw [leftDeep_outAttrs]
        rcases hk with rfl | rfl
        · exact hout.symm
        · exact hout.symm
      · rw [leftDeep_everywhere fun l r => hP k _ _ hk, everywhere_node]
        simp [hP k _ _ hk]
      · rcases hk with rfl | rfl
        · simp [Kind.Derives]
        · simp [Kind.Derives]
    have hunary (kind : Kind) (outAttrs : List Attr) (inputs : List (List Attr)) (hk : ¬ kind.IsCross) :
        kind.IsCross → inputs.length = 2 := fun h => absurd h hk
    refine (ensures_makeBinary_eq (fun _ => hbinary) hw).weaken ?_
    rintro q (⟨rfl,hrest⟩ | ⟨-,rfl⟩)
    · obtain rfl := hrest.resolve_left (by simp)
      refine ⟨hd,.refl q,.inl ?_⟩
      rw [← show rebuild _ passed = q from hre]
      refine everywhere_rebuild hunary hpassed (.node (by simp) fun i hi => ?_)
      exact (hinputs i hi).binary
    · have hsame := hnest.1.rebuild passed
      rw [show rebuild _ passed = p from hre] at hsame
      refine ⟨Everywhere.replace (forall₂_unchanged passed) hall hnest.2.2 hnest.1.outAttrs,hsame,.inl ?_⟩
      exact everywhere_rebuild hunary hpassed hnest.2.1
  · have hsame : Ensures (makeBinary binary (fun k => decide (k = kind)) p) (· = p) := by
      unfold makeBinary
      rw [hw]
      simp only [hkind, decide_false, Bool.false_eq_true, if_false]
      exact ensures_pure rfl
    refine hsame.weaken fun q hq => ?_
    subst hq
    refine ⟨hd,.refl q,.inr ⟨rfl,?_⟩⟩
    rw [← show rebuild _ passed = q from hre]
    have hunary (k : Kind) (outAttrs : List Attr) (inputs : List (List Attr)) (hnot : ¬ k.IsCross) : k = kind → inputs.length = 2 := by
      rintro rfl
      exact absurd hk hnot
    refine everywhere_rebuild hunary hpassed (.node (fun he => absurd he hkind) fun i hi => ?_)
    cases hstop : isUnaryAboveCross k with
    | false => exact Everywhere.imp (hspine.inputs hstop i hi) hunary
    | true =>
      -- an operator of this kind has one input, and the walk has gone on
      have hone : inputs.length = 1 := by simpa using derives_single hstop (everywhere_node.mp hall.of_rebuild).1.1
      rcases walk_stops hw with hno | hno
      · rw [kind_node, hstop] at hno
        cases hno
      · exact absurd hone hno

end MakeBinary

def isAboveProject : Kind → Bool
  | .distinct | .istream | .dstream | .rstream => true
  | _ => false

/-- The project of the SELECT list below operators that copy its schema. -/
inductive Listing (projExprs : List Expr) : Plan → Prop where
  | project {outAttrs : List Attr} {bStream : Bool} {p : Plan} : Listing projExprs (.node (.project projExprs) outAttrs bStream [p])
  | above {o : Passed} {p : Plan} (hk : isAboveProject o.kind = true) (h : Listing projExprs p) : Listing projExprs (above o p)

variable {projExprs : List Expr}

theorem Listing.outAttrs (h : Listing projExprs p) (hd : Derived tableMgr p) : p.outAttrs = projExprs.map exprAttr := by
  induction h with
  | project => exact (everywhere_node.mp hd).1.1.2
  | @above o p hk _ ih =>
    obtain ⟨⟨hhere,-⟩,hp⟩ := everywhere_above.mp hd
    have hcopies : o.outAttrs = p.outAttrs := by
      cases hk' : o.kind <;> simp_all [isAboveProject,Kind.Derives]
    exact hcopies.trans (ih hp)

theorem Listing.rebuild {ups : List Passed} (h : Listing projExprs p) (hups : ∀ u ∈ ups, isAboveProject u.kind = true) :
    Listing projExprs (Plan.rebuild p ups) := by
  induction ups generalizing p with
  | nil => exact h
  | cons u ups ih => exact ih (.above (hups u List.mem_cons_self) h) fun u hu => hups u (List.mem_cons_of_mem _ hu)

theorem listing_rebuild {below ups : List Passed} {o : Passed} (ho : o.kind = .project projExprs)
    (hups : ∀ u ∈ ups, isAboveProject u.kind = true) : Listing projExprs (rebuild p (below ++ o :: ups)) := by
  rw [rebuild_append_list]
  have hproject : Listing projExprs (above o (rebuild p below)) := by
    rw [above, ho]
    exact .project
  exact hproject.rebuild hups

/-- A walk that goes on below the project has passed it and what is above it. -/
theorem Listing.walk {through : Kind → Bool} {acc passed : List Passed} (h : Listing projExprs p)
    (hw : walk through p acc = (passed,q)) (hq : isAboveProject q.kind = false) (hproj : q.kind ≠ .project projExprs) :
    ∃ below o ups, passed = below ++ o :: ups ++ acc ∧ o.kind = .project projExprs ∧ ∀ u ∈ ups, isAboveProject u.kind = true := by
  induction h generalizing acc with
  | @project outAttrs bStream p =>
    unfold Plan.walk at hw
    split at hw
    · obtain ⟨below,hbelow,-⟩ := walk_passed through p (⟨.project projExprs,outAttrs,bStream⟩ :: acc)
      rw [hw] at hbelow
      exact ⟨below,_,[],by simpa using hbelow,rfl,by simp⟩
    · obtain ⟨-,rfl⟩ := Prod.mk.inj hw
      exact absurd rfl hproj
  | @above o p hk _ ih =>
    unfold Plan.above Plan.walk at hw
    split at hw
    · obtain ⟨below,o',ups,rfl,ho',hups⟩ := ih hw
      refine ⟨below,o',ups ++ [o],by simp,ho',fun u hu => ?_⟩
      rcases List.mem_append.mp hu with hu | hu
      · exact hups u hu
      · rw [List.mem_singleton.mp hu]
        exact hk
    · obtain ⟨-,rfl⟩ := Prod.mk.inj hw
      rw [kind_node, hk] at hq
      cases hq

theorem Generated.listing (h : Generated tableMgr query p) (hk : query.kind = .sfwQuery) :
    Listing (query.projExprs.map (logicalExpr query)) p := by
  rcases h with ⟨-,aggrs,-,rfl⟩ | ⟨hk',-⟩
  · have hproject : Listing (query.projExprs.map (logicalExpr query))
        (projectPlan query (aggrPlan query aggrs (selectPlan (query.preds.map (logicalBExpr query)) (joinPlan tableMgr query)))) := .project
    have hunary (kind : Kind) {p : Plan} (hkind : isAboveProject kind = true) (h : Listing (query.projExprs.map (logicalExpr query)) p) :
        Listing (query.projExprs.map (logicalExpr query)) (unaryNode kind p.outAttrs p) :=
      .above (o := ⟨kind,p.outAttrs,kind.streams [p.bStream]⟩) hkind h
    have hdistinct : Listing (query.projExprs.map (logicalExpr query)) (distinctPlan query (projectPlan query
        (aggrPlan query aggrs (selectPlan (query.preds.map (logicalBExpr query)) (joinPlan tableMgr query))))) := by
      unfold distinctPlan
      split
      · exact hunary .distinct rfl hproject
      · exact hproject
    unfold sfwPlan r2sPlan
    split
    · exact hdistinct
    · rename_i op _
      refine hunary (r2sKind op) ?_ hdistinct
      cases op <;> rfl
  · rw [hk] at hk'
    cases hk'

theorem Listing.of_rstream {outAttrs : List Attr} {bStream : Bool} {input : Plan}
    (h : Listing projExprs (.node .rstream outAttrs bStream [input])) : Listing projExprs input := by
  generalize hs : Plan.node .rstream outAttrs bStream [input] = s at h
  cases h with
  | project => cases hs
  | above hk h =>
    obtain ⟨-,-,-,hin⟩ := Plan.node.inj hs
    obtain rfl := (List.cons.inj hin).1
    exact h

theorem Listing.tRstreamNow (h : Listing projExprs p) : Listing projExprs (tRstreamNow p) := by
  unfold Plan.tRstreamNow
  split
  · rename_i outAttrs bStream input
    split
    · rename_i passed nowAttrs nowStream source hw
      obtain ⟨below,o,ups,rfl,ho,hups⟩ := h.of_rstream.walk hw rfl (by simp)
      rw [List.append_nil, List.map_append, List.map_cons]
      refine listing_rebuild ho fun u hu => ?_
      obtain ⟨u',hu',rfl⟩ := List.mem_map.mp hu
      exact hups u' hu'
    · exact h
  · exact h

theorem StreamCrossed.listing (h : Listing projExprs p) (hq : StreamCrossed p q) : Listing projExprs q := by
  cases hq with
  | @intro outAttrs crossAttrs nowAttrs bStream crossStream nowStream input source inputs passed passed' nowIndex hw hnow hkinds =>
    obtain ⟨below,o,ups,rfl,ho,hups⟩ := h.of_rstream.walk hw rfl (by simp)
    have hmap := kinds_of_forall₂ hkinds
    rw [List.map_append, List.map_append, List.map_cons, List.append_assoc, List.cons_append, ← List.map_append] at hmap
    obtain ⟨below',rest,rfl,-,hrest⟩ := List.map_eq_append_iff.mp hmap
    obtain ⟨o',ups',rfl,ho',hups'⟩ := List.map_eq_cons_iff.mp hrest
    obtain ⟨ups',last,rfl,hkinds',hlast⟩ := List.map_eq_append_iff.mp (hups'.trans List.map_append)
    obtain ⟨r,rfl,-⟩ := List.map_eq_singleton_iff.mp hlast
    rw [← List.cons_append, ← List.append_assoc, List.dropLast_concat]
    refine listing_rebuild (ho'.trans ho) fun u hu => ?_
    obtain ⟨u',hu',hk⟩ := List.mem_map.mp (show u.kind ∈ ups.map Passed.kind from hkinds' ▸ List.mem_map_of_mem hu)
    rw [← hk]
    exact hups u' hu'

/-- The steps from the naive plan to the plan of a query. -/
theorem genLogPlan_steps {u v : Usage} (h : genLogPlan tableMgr query u = .ok q v) : ∃ p p₂ p₃ p₄ u₁ u₂ u₃ u₄,
    genPlan tableMgr query u = .ok (some p) u₁ ∧ tStreamCross (tRstreamNow p) u₁ = .ok p₂ u₂ ∧
    tMakeCrossBinary (tRemoveProject p₂) u₂ = .ok p₃ u₃ ∧ tMakeStreamCrossBinary p₃ u₃ = .ok p₄ u₄ ∧
    tPushSelect p₄ u₄ = .ok q v := by
  obtain ⟨o,u₁,hgen,h⟩ := bind_eq_ok.mp h
  obtain ⟨p,w,hp,h⟩ := bind_eq_ok.mp h
  obtain ⟨p₂,u₂,hstream,h⟩ := bind_eq_ok.mp h
  obtain ⟨p₃,u₃,hcross,h⟩ := bind_eq_ok.mp h
  obtain ⟨p₄,u₄,hstreamCross,hpush⟩ := bind_eq_ok.mp h
  obtain rfl : o = some p := ensures_deref (Q := fun p => o = some p) (fun p hp => hp) _ _ _ hp
  obtain rfl : u₁ = w := (pure_eq_ok.mp hp).2
  exact ⟨p,p₂,p₃,p₄,u₁,u₂,u₃,u₄,hgen,hstream,hcross,hstreamCross,hpush⟩

/-- What `t_pushSelect` is given, and what it makes of it. -/
theorem tPushSelect_pushed {P : Kind → List Attr → List (List Attr) → Prop}
    (hP : ∀ pred outAttrs inputs, P (.select pred) outAttrs inputs ↔ inputs = [outAttrs]) (hs : Everywhere P p) (hb : Binary p)
    {u v : Usage} (h : tPushSelect p u = .ok q v) : ∃ passed i c, p = rebuild i passed ∧ q = rebuild c passed ∧ Pushed i c := by
  obtain ⟨⟨passed,i⟩,hw⟩ : ∃ w, walk isUnaryAboveSelect p [] = w := ⟨_,rfl⟩
  simp only [tPushSelect, hw] at h
  split at h
  · obtain ⟨rfl,-⟩ := pure_eq_ok.mp h
    exact ⟨[],p,p,rfl,rfl,.refl p⟩
  · obtain ⟨c,w,h1,h⟩ := bind_eq_ok.mp h
    obtain ⟨rfl,-⟩ := pure_eq_ok.mp h
    have his := (Everywhere.walk [] hs hw).of_rebuild
    have hregion := Binary.region (fun _ _ _ => (hP _ _ _).mp) his (Everywhere.walk [] hb hw).of_rebuild
    have hre := rebuild_walk isUnaryAboveSelect p []
    rw [hw] at hre
    exact ⟨passed,i,c,hre.symm,rfl,pushSelects_pushed hP his hregion h1⟩

/-- Every operator has the schema that its kind derives, and every cross has two inputs. -/
def DerivedBinary (tableMgr : TableManager) : Plan → Prop :=
  Everywhere fun kind outAttrs inputs => kind.Derives tableMgr inputs outAttrs ∧ (kind.IsCross → inputs.length = 2)

theorem derivedBinary_of (hd : Derived tableMgr p) (hb : Binary p) : DerivedBinary tableMgr p := by
  induction hd with
  | node hhere _ ih =>
    obtain ⟨hbin,hbelow⟩ := everywhere_node.mp hb
    exact .node ⟨hhere.1,hbin⟩ fun p hp => ih p hp (hbelow p hp)

theorem derivedBinary_select (pred : BExpr) (outAttrs : List Attr) (inputs : List (List Attr)) :
    (Kind.select pred).Derives tableMgr inputs outAttrs ∧ ((Kind.select pred).IsCross → inputs.length = 2) ↔ inputs = [outAttrs] := by
  simp [Kind.Derives]

/-- What the transformations from the third on are given. -/
theorem prepared_derived {u v w : Usage} (hgen : genPlan tableMgr query u = .ok (some p) v)
    (hstream : tStreamCross (tRstreamNow p) v = .ok q w) : Derived tableMgr q ∧ Spine q ∧
      (query.kind = .sfwQuery → Listing (query.projExprs.map (logicalExpr query)) q) := by
  have hgenerated := ensures_genPlan_eq _ _ _ hgen p rfl
  have hderived := hgenerated.everywhere derived_established (ensures_genPlan_from _ _ _ hgen)
  obtain ⟨hq,hall⟩ := derived_handedOn.ensures_tStreamCross (derived_copying.tRstreamNow hderived) _ _ _ hstream
  have hspine := hgenerated.spine.tRstreamNow
  rcases hq with rfl | hq
  · exact ⟨hall,hspine,fun hk => (hgenerated.listing hk).tRstreamNow⟩
  · exact ⟨hall,hq.spine hspine,fun hk => hq.listing (hgenerated.listing hk).tRstreamNow⟩

/-- The crosses of the plan are made binary. -/
theorem made_binary {p₃ p₄ : Plan} {u v w : Usage} (hd : Derived tableMgr p) (hs : Spine p)
    (hcross : tMakeCrossBinary p u = .ok p₃ v) (hstream : tMakeStreamCrossBinary p₃ v = .ok p₄ w) :
    Derived tableMgr p₄ ∧ Binary p₄ ∧ Rearranged p p₄ := by
  obtain ⟨hd₃,hout₃,hb₃⟩ := ensures_makeBinary_spine (.inl rfl) ensures_binaryCross_eq hd hs _ _ _ hcross
  rcases hb₃ with hb₃ | ⟨rfl,hcrosses⟩
  · obtain rfl := makeBinary_binary (binary_iff.mp hb₃).2 _ _ _ hstream
    exact ⟨hd₃,hb₃,hout₃⟩
  · obtain ⟨hd₄,hout₄,hb₄⟩ := ensures_makeBinary_spine (.inr rfl) ensures_binaryStreamCross_eq hd hs _ _ _ hstream
    rcases hb₄ with hb₄ | ⟨rfl,hstreams⟩
    · exact ⟨hd₄,hb₄,hout₄⟩
    · exact ⟨hd₄,binary_iff.mpr ⟨hcrosses,hstreams⟩,.refl _⟩

end Plan

open Plan

/-- The plan of a query has the derived schemas, binary crosses, and the columns of the SELECT list. -/
theorem genLogPlan_derived {tableMgr : TableManager} {query : Semantic.Query} : Ensures (genLogPlan tableMgr query) (fun q =>
    DerivedBinary tableMgr q ∧
      (query.kind = .sfwQuery → q.outAttrs = (query.projExprs.map (logicalExpr query)).map exprAttr)) := by
  intro u q v h
  obtain ⟨p,p₂,p₃,p₄,u₁,u₂,u₃,u₄,hgen,hstream,hcross,hstreamCross,hpush⟩ := genLogPlan_steps h
  obtain ⟨hd₂,hs₂,hlist⟩ := prepared_derived hgen hstream
  obtain ⟨hd,hout⟩ := Everywhere.tRemoveProject hd₂
  obtain ⟨hd₄,hb₄,hout₄⟩ := made_binary hd hs₂.tRemoveProject hcross hstreamCross
  have hall₄ := derivedBinary_of hd₄ hb₄
  obtain ⟨passed,i,c,rfl,rfl,hpushed⟩ := tPushSelect_pushed derivedBinary_select hall₄ hb₄ hpush
  obtain ⟨hall,hsame⟩ := hpushed.everywhere derivedBinary_select hall₄.of_rebuild
  refine ⟨Everywhere.replace (forall₂_unchanged passed) hall₄ hall hsame,fun hk => ?_⟩
  rw [rebuild_outAttrs (forall₂_unchanged passed) hsame, hout₄.outAttrs, hout]
  exact (hlist hk).outAttrs hd₂

end AqsiosCoordinator.Logical
