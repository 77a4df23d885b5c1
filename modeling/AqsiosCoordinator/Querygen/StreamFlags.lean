import AqsiosCoordinator.Querygen.LogPlanGen
import AqsiosCoordinator.Foundation.ListEdits

/-! # The stream flags of logical plans

Whether an operator produces a stream is computed by its constructor from its inputs,
and by the table manager for sources. The transformations keep it so.
-/
namespace AqsiosCoordinator.Logical
open Common Foundation Foundation.Outcome Metadata

def Kind.isWindow : Kind → Bool
  | .rowWin _ | .rangeWin _ | .nowWin | .partnWin _ _ => true
  | _ => false

/-- What an operator of the kind asks of the flags of its inputs: a window is over a
stream, and a union has two inputs. -/
def Kind.Takes : Kind → List Bool → Prop
  | .rowWin _, inputs | .rangeWin _, inputs | .nowWin, inputs | .partnWin _ _, inputs => ∀ b ∈ inputs, b = true
  | .union, inputs => inputs.length = 2
  | _, _ => True

theorem Kind.Takes.congr {kind : Kind} {inputs inputs' : List Bool} (h : kind.Takes inputs) (hk : kind.isWindow = false)
    (hlen : inputs'.length = inputs.length) : kind.Takes inputs' := by
  cases kind <;> simp_all [Kind.Takes,Kind.isWindow]

def Kind.Registered (known : ℕ → Prop) (tableMgr : TableManager) : Kind → Prop
  | .streamSource _ strId => known strId ∧ tableMgr.isStream strId = true
  | .relnSource _ relId => known relId ∧ tableMgr.isStream relId = false
  | _ => True

namespace Plan

/-- Every operator has the flag that its constructor gives it and inputs as it takes them,
and sources are of the kind of their table. -/
inductive Flagged (known : ℕ → Prop) (tableMgr : TableManager) : Plan → Prop where
  | node {kind : Kind} {outAttrs : List Attr} {bStream : Bool} {inputs : List Plan}
      (source : kind.Registered known tableMgr) (takes : kind.Takes (inputs.map Plan.bStream))
      (flag : bStream = kind.streams (inputs.map Plan.bStream)) (below : ∀ p ∈ inputs, Flagged known tableMgr p) :
      Flagged known tableMgr (.node kind outAttrs bStream inputs)

section Constructors
variable {known : ℕ → Prop} {tableMgr : TableManager} {p q : Plan}

theorem flagged_node {kind : Kind} {outAttrs : List Attr} {bStream : Bool} {inputs : List Plan} :
    Flagged known tableMgr (.node kind outAttrs bStream inputs) ↔ kind.Registered known tableMgr ∧
      kind.Takes (inputs.map Plan.bStream) ∧ bStream = kind.streams (inputs.map Plan.bStream) ∧
      ∀ p ∈ inputs, Flagged known tableMgr p := by
  constructor
  · rintro (⟨h1,h2,h3,h4⟩)
    exact ⟨h1,h2,h3,h4⟩
  · rintro ⟨h1,h2,h3,h4⟩
    exact .node h1 h2 h3 h4

theorem flagged_above {o : Passed} :
    Flagged known tableMgr (above o p) ↔ o.kind.Registered known tableMgr ∧ o.kind.Takes [p.bStream] ∧
      o.bStream = o.kind.streams [p.bStream] ∧ Flagged known tableMgr p := by
  rw [above, flagged_node]
  simp

theorem Flagged.of_rebuild {passed : List Passed} (h : Flagged known tableMgr (rebuild p passed)) : Flagged known tableMgr p := by
  induction passed generalizing p with
  | nil => exact h
  | cons o passed ih => exact (flagged_above.mp (ih h)).2.2.2

theorem of_rebuild_cons {o : Passed} {passed : List Passed} (h : Flagged known tableMgr (rebuild p (o :: passed))) :
    Flagged known tableMgr (above o p) :=
  Flagged.of_rebuild (p := above o p) h

/-- What is above a part of a plan stays flagged when the part is replaced by one with the same flag. -/
theorem Flagged.replace {passed passed' : List Passed}
    (hsame : List.Forall₂ (fun o o' : Passed => o'.kind = o.kind ∧ o'.bStream = o.bStream) passed passed')
    (h : Flagged known tableMgr (rebuild p passed)) (hq : Flagged known tableMgr q) (hflag : q.bStream = p.bStream) :
    Flagged known tableMgr (rebuild q passed') := by
  induction hsame generalizing p q with
  | nil => exact hq
  | @cons o o' passed passed' hs _ ih =>
    obtain ⟨hkind,hstream⟩ := hs
    have habove : Flagged known tableMgr (above o p) := of_rebuild_cons h
    obtain ⟨hsource,htakes,hown,-⟩ := flagged_above.mp habove
    refine ih (p := above o p) h (flagged_above.mpr ⟨?_,?_,?_,hq⟩) hstream
    · rw [hkind]
      exact hsource
    · rw [hkind, hflag]
      exact htakes
    · rw [hkind, hstream, hflag]
      exact hown

theorem forall₂_same (passed : List Passed) :
    List.Forall₂ (fun o o' : Passed => o'.kind = o.kind ∧ o'.bStream = o.bStream) passed passed := by
  induction passed with
  | nil => exact .nil
  | cons o passed ih => exact .cons ⟨rfl,rfl⟩ ih

theorem rebuild_append (passed : List Passed) (o : Passed) : rebuild p (passed ++ [o]) = above o (rebuild p passed) := by
  induction passed generalizing p with
  | nil => rfl
  | cons o' passed ih => exact ih

/-- What has been walked past stands above what the walk stops at. -/
theorem rebuild_walk (through : Kind → Bool) (p : Plan) (passed : List Passed) :
    rebuild (walk through p passed).2 (walk through p passed).1 = rebuild p passed := by
  fun_induction walk through p passed with
  | case1 kind outAttrs bStream input passed h ih => exact ih
  | case2 => rfl
  | case3 => rfl

/-- A walk adds operators of the given kinds to those passed before. -/
theorem walk_passed (through : Kind → Bool) (p : Plan) (passed : List Passed) :
    ∃ new, (walk through p passed).1 = new ++ passed ∧ ∀ o ∈ new, through o.kind = true := by
  fun_induction walk through p passed with
  | case1 kind outAttrs bStream input passed h ih =>
    obtain ⟨new,hnew,hkinds⟩ := ih
    refine ⟨new ++ [⟨kind,outAttrs,bStream⟩],by simp [hnew],fun o ho => ?_⟩
    rcases List.mem_append.mp ho with ho | ho
    · exact hkinds o ho
    · rw [List.mem_singleton.mp ho]
      exact h
  | case2 => exact ⟨[],rfl,by simp⟩
  | case3 => exact ⟨[],rfl,by simp⟩

def Holds (Q : Plan → Prop) (o : Option Plan) : Prop := ∀ p ∈ o, Q p

theorem ensures_deref {Q : Plan → Prop} {o : Option Plan} (h : Holds Q o) : Ensures (deref o) Q := by
  cases o with
  | none => exact ensures_throw
  | some p => exact ensures_pure (h p rfl)

theorem ensures_orFail {Q : Plan → Prop} {o : Option Plan} (h : Holds Q o) : Ensures (orFail o) Q := by
  cases o with
  | none => exact ensures_throw
  | some p => exact ensures_pure (h p rfl)

theorem holds_none {Q : Plan → Prop} : Holds Q none := fun _ h => by cases h

theorem holds_some {Q : Plan → Prop} (h : Q p) : Holds Q (some p) := by
  intro q hq
  obtain rfl := Option.mem_some.mp hq
  exact h

/-- Without an operator in the pool there is nothing to show. -/
theorem ensures_newop {Q : Plan → Prop} {fields : Gen Plan} (h : Ensures fields Q) : Ensures (newop fields) (Holds Q) := by
  refine Ensures.bind ensures_any fun u _ => ?_
  split
  · exact ensures_pure holds_none
  · refine Ensures.bind ensures_any fun _ _ => Ensures.bind h fun p hp => ?_
    exact ensures_pure (holds_some hp)

theorem ensures_getSource (varId tableId : ℕ) (h : known tableId) :
    Ensures (getSource tableMgr varId tableId)
      (fun p => Flagged known tableMgr p ∧ p.bStream = tableMgr.isStream tableId) := by
  unfold getSource
  refine Ensures.bind (Q := Holds fun p => Flagged known tableMgr p ∧ p.bStream = tableMgr.isStream tableId) ?_
    fun o ho => ensures_orFail ho
  cases hs : tableMgr.isStream tableId with
  | true =>
    exact ensures_newop (ensures_pure ⟨.node ⟨h,hs⟩ trivial rfl (by simp),rfl⟩)
  | false =>
    exact ensures_newop (ensures_pure ⟨.node ⟨h,hs⟩ trivial rfl (by simp),rfl⟩)

theorem ensures_mkUnary {kind : Kind} {f : Bool → Bool} {input : Option Plan} (hkind : kind.Registered known tableMgr)
    (htakes : Holds (fun p => kind.Takes [p.bStream]) input) (hf : ∀ b, f b = kind.streams [b])
    (h : Holds (Flagged known tableMgr) input) : Ensures (mkUnary kind f input) (Holds (Flagged known tableMgr)) := by
  refine ensures_newop (Ensures.bind (Q := fun i => i ∈ input) (ensures_deref fun p hp => hp) fun i hi => ?_)
  refine ensures_pure (.node hkind (htakes i hi) (hf i.bStream) fun p hp => ?_)
  rw [List.mem_singleton.mp hp]
  exact h i hi

/-- Adding to the parameters of an operator changes neither its kind of flag nor its inputs. -/
theorem Flagged.relabel {kind kind' : Kind} {outAttrs outAttrs' : List Attr} {bStream : Bool} {inputs : List Plan}
    (h : Flagged known tableMgr (.node kind outAttrs bStream inputs)) (hkind : kind'.Registered known tableMgr)
    (htakes : kind'.Takes = kind.Takes) (hstreams : kind'.streams = kind.streams) :
    Flagged known tableMgr (.node kind' outAttrs' bStream inputs) := by
  obtain ⟨-,h2,h3,h4⟩ := flagged_node.mp h
  refine .node hkind ?_ ?_ h4
  · rw [htakes]
    exact h2
  · rw [hstreams]
    exact h3

theorem ensures_partnWindowAddAttr {pwin : Option Plan} (attr : Attr) (h : Holds (Flagged known tableMgr) pwin) :
    Ensures (partnWindowAddAttr pwin attr) (Holds (Flagged known tableMgr)) := by
  refine Ensures.bind (ensures_deref h) fun p hp => ?_
  split
  · split
    · exact ensures_pure holds_none
    · exact ensures_pure (holds_some (hp.relabel trivial rfl rfl))
  · exact ensures_pure (holds_some hp)

theorem ensures_addProjectExpr {proj : Option Plan} (expr : Expr) (h : Holds (Flagged known tableMgr) proj) :
    Ensures (addProjectExpr proj expr) (Holds (Flagged known tableMgr)) := by
  refine Ensures.bind (ensures_deref h) fun p hp => ?_
  split
  · split
    · exact ensures_pure holds_none
    · exact ensures_pure (holds_some (hp.relabel trivial rfl rfl))
  · exact ensures_pure (holds_some hp)

theorem ensures_addGroupAttr {op : Option Plan} (attr : Attr) (h : Holds (Flagged known tableMgr) op) :
    Ensures (addGroupAttr op attr) (Holds (Flagged known tableMgr)) := by
  refine Ensures.bind (ensures_deref h) fun p hp => ?_
  split
  · split
    · exact ensures_pure holds_none
    · refine Ensures.bind ensures_any fun _ _ => ?_
      exact ensures_pure (holds_some (hp.relabel trivial rfl rfl))
  · exact ensures_pure (holds_some hp)

theorem ensures_addAggr {op : Option Plan} (fn : AggrFn) (attr : Attr) (h : Holds (Flagged known tableMgr) op) :
    Ensures (addAggr op fn attr) (Holds (Flagged known tableMgr)) := by
  refine Ensures.bind (ensures_deref h) fun p hp => ?_
  split
  · split
    · exact ensures_pure holds_none
    · refine Ensures.bind ensures_any fun _ _ => ?_
      exact ensures_pure (holds_some (hp.relabel trivial rfl rfl))
  · exact ensures_pure (holds_some hp)

def IsCross (known : ℕ → Prop) (tableMgr : TableManager) (p : Plan) : Prop := Flagged known tableMgr p ∧ p.kind = .cross
def IsStreamCross (known : ℕ → Prop) (tableMgr : TableManager) (p : Plan) : Prop := Flagged known tableMgr p ∧ p.kind = .streamCross

theorem ensures_mkCross : Ensures mkCross (Holds (IsCross known tableMgr)) := by
  exact ensures_newop (ensures_pure ⟨.node trivial trivial rfl (by simp),rfl⟩)

theorem ensures_crossAddInput {cross input : Option Plan} (hcross : Holds (IsCross known tableMgr) cross)
    (hinput : Holds (Flagged known tableMgr) input) :
    Ensures (crossAddInput cross input) (Holds fun p => IsCross known tableMgr p ∧
      ∀ c ∈ cross, ∀ i ∈ input, p.bStream = (c.bStream && i.bStream)) := by
  refine Ensures.bind (Q := fun c => c ∈ cross) (ensures_deref fun p hp => hp) fun c hc => ?_
  refine Ensures.bind (Q := fun i => i ∈ input) (ensures_deref fun p hp => hp) fun i hi => ?_
  split
  · exact ensures_pure holds_none
  split
  · exact ensures_pure holds_none
  obtain ⟨hflag,hkind⟩ := hcross c hc
  obtain ⟨kind,outAttrs,bStream,inputs⟩ := c
  obtain rfl : kind = .cross := hkind
  obtain ⟨-,-,hstreams,hbelow⟩ := flagged_node.mp hflag
  refine ensures_pure (holds_some ⟨⟨.node trivial trivial ?_ fun p hp => ?_,rfl⟩,fun c' hc' i' hi' => ?_⟩)
  · simp [Plan.bStream,Plan.kind,Plan.inputs,hstreams,Kind.streams]
  · rcases List.mem_append.mp hp with hp | hp
    · exact hbelow p hp
    · rw [List.mem_singleton.mp hp]
      exact hinput i hi
  · obtain rfl := Option.mem_unique hc hc'
    obtain rfl := Option.mem_unique hi hi'
    rfl

theorem ensures_mkStreamCross {input : Option Plan} (h : Holds (Flagged known tableMgr) input) :
    Ensures (mkStreamCross input) (Holds (IsStreamCross known tableMgr)) := by
  refine ensures_newop (Ensures.bind (ensures_deref h) fun i hi => ?_)
  refine ensures_pure ⟨.node trivial trivial rfl fun p hp => ?_,rfl⟩
  rw [List.mem_singleton.mp hp]
  exact hi

theorem ensures_streamCrossAddInput {op input : Option Plan} (hop : Holds (IsStreamCross known tableMgr) op)
    (hinput : Holds (Flagged known tableMgr) input) :
    Ensures (streamCrossAddInput op input) (Holds (IsStreamCross known tableMgr)) := by
  refine Ensures.bind (ensures_deref hop) fun c hc => ?_
  split
  · exact ensures_pure holds_none
  refine Ensures.bind (ensures_deref hinput) fun i hi => ?_
  split
  · exact ensures_pure holds_none
  obtain ⟨hflag,hkind⟩ := hc
  obtain ⟨kind,outAttrs,bStream,inputs⟩ := c
  obtain rfl : kind = .streamCross := hkind
  obtain ⟨-,-,hstreams,hbelow⟩ := flagged_node.mp hflag
  refine ensures_pure (holds_some ⟨.node trivial trivial ?_ fun p hp => ?_,rfl⟩)
  · simpa [Plan.bStream,Plan.kind,Kind.streams] using hstreams
  · rcases List.mem_append.mp hp with hp | hp
    · exact hbelow p hp
    · rw [List.mem_singleton.mp hp]
      exact hi

theorem ensures_mkSetOp {kind : Kind} {f : Bool → Bool → Bool} {left right : Option Plan}
    (hkind : kind.Registered known tableMgr) (htakes : ∀ l r, kind.Takes [l, r]) (hf : ∀ l r, f l r = kind.streams [l, r])
    (hleft : Holds (Flagged known tableMgr) left) (hright : Holds (Flagged known tableMgr) right) :
    Ensures (mkSetOp tableMgr kind f left right) (Holds (Flagged known tableMgr)) := by
  refine ensures_newop (Ensures.bind (ensures_deref hleft) fun l hl => Ensures.bind (ensures_deref hright) fun r hr => ?_)
  refine ensures_pure (.node hkind (htakes l.bStream r.bStream) (hf l.bStream r.bStream) fun p hp => ?_)
  rcases List.mem_cons.mp hp with rfl | hp
  · exact hl
  · rw [List.mem_singleton.mp hp]
    exact hr

end Constructors

section Naive
variable {known : ℕ → Prop} {tableMgr : TableManager} {query : Semantic.Query}

theorem ensures_applyWindow (win : Semantic.WindowSpec) {inputStr : Option Plan}
    (h : Holds (fun p => Flagged known tableMgr p ∧ p.bStream = true) inputStr) :
    Ensures (applyWindow query win inputStr) (Holds (Flagged known tableMgr)) := by
  have hflagged : Holds (Flagged known tableMgr) inputStr := fun p hp => (h p hp).1
  have hunary (kind : Kind) (hkind : kind.Registered known tableMgr) (htakes : kind.Takes [true])
      (hflag : ∀ b, false = kind.streams [b]) :
      Ensures (mkUnary kind (fun _ => false) inputStr) (Holds (Flagged known tableMgr)) := by
    refine ensures_mkUnary hkind (fun p hp => ?_) hflag hflagged
    have hstream := (h p hp).2
    simpa only [hstream] using htakes
  cases win with
  | range timeUnits => exact hunary (.rangeWin timeUnits) trivial (by simp [Kind.Takes]) fun _ => rfl
  | row numRows => exact hunary (.rowWin numRows) trivial (by simp [Kind.Takes]) fun _ => rfl
  | now => exact hunary .nowWin trivial (by simp [Kind.Takes]) fun _ => rfl
  | unbounded => exact ensures_pure hflagged
  | partition numRows attrs =>
    refine Ensures.bind (hunary (.partnWin [] numRows) trivial (by simp [Kind.Takes]) fun _ => rfl) fun winOp hwin => ?_
    refine ensures_foldlM (fun winOp a _ hwin => ?_) hwin
    refine Ensures.bind (ensures_partnWindowAddAttr _ hwin) fun o ho => ?_
    cases o with
    | none => exact ensures_pure hwin
    | some p => exact ensures_pure ho

theorem ensures_tablePlan (t varId : ℕ) (h : known (query.refTables varId)) :
    Ensures (tablePlan tableMgr query t varId) (Holds (Flagged known tableMgr)) := by
  refine Ensures.bind (ensures_getSource varId _ h) fun source hsource => ?_
  split
  · rename_i hs
    exact ensures_applyWindow _ (holds_some ⟨hsource.1,hsource.2.trans hs⟩)
  · exact ensures_pure (holds_some hsource.1)

theorem ensures_crossTables (t : ℕ) (vars : List ℕ) (h : ∀ v ∈ vars, known (query.refTables v))
    {cross : Plan} (hcross : IsCross known tableMgr cross) :
    Ensures (crossTables tableMgr query t vars cross) (Flagged known tableMgr) := by
  induction vars generalizing t cross with
  | nil => exact ensures_pure hcross.1
  | cons v vars ih =>
    refine Ensures.bind (ensures_tablePlan t v (h v List.mem_cons_self)) fun table htable => ?_
    refine Ensures.bind (ensures_crossAddInput (holds_some hcross) htable) fun o ho => ?_
    refine Ensures.bind (ensures_orFail ho) fun c hc => ?_
    exact ih (t + 1) (fun v hv => h v (List.mem_cons_of_mem _ hv)) hc.1

theorem ensures_joinTables (h : ∀ v ∈ query.fromClauseTables, known (query.refTables v)) :
    Ensures (joinTables tableMgr query) (Holds (Flagged known tableMgr)) := by
  unfold joinTables
  split
  · exact ensures_throw
  · rename_i v hv
    exact ensures_tablePlan 0 v (h v (by simp [hv]))
  · refine Ensures.bind (Q := Holds (IsCross known tableMgr)) ensures_mkCross fun o ho => ?_
    refine Ensures.bind (ensures_orFail ho) fun cross hcross => ?_
    exact Ensures.bind (ensures_crossTables 0 _ h hcross) fun p hp => ensures_pure (holds_some hp)

theorem ensures_applyPreds {inputPlan : Option Plan} (h : Holds (Flagged known tableMgr) inputPlan) :
    Ensures (applyPreds query inputPlan) (Holds (Flagged known tableMgr)) := by
  refine ensures_foldlM (fun plan b _ hplan => ?_) h
  refine Ensures.bind ensures_any fun bexpr _ => ?_
  refine Ensures.bind (ensures_mkUnary trivial (fun _ _ => trivial) (fun _ => rfl) hplan) fun o ho => ?_
  exact Ensures.bind (ensures_orFail ho) fun p hp => ensures_pure (holds_some hp)

theorem ensures_mkGroupAggr {input : Option Plan} (h : Holds (Flagged known tableMgr) input) :
    Ensures (mkGroupAggr input) (Holds (Flagged known tableMgr)) := by
  refine ensures_newop (Ensures.bind (ensures_deref h) fun i hi => ?_)
  refine ensures_pure (.node trivial trivial rfl fun p hp => ?_)
  rw [List.mem_singleton.mp hp]
  exact hi

theorem ensures_mkProject {input : Option Plan} (h : Holds (Flagged known tableMgr) input) :
    Ensures (mkProject input) (Holds (Flagged known tableMgr)) := by
  refine ensures_newop (Ensures.bind (ensures_deref h) fun i hi => ?_)
  refine ensures_pure (.node trivial trivial rfl fun p hp => ?_)
  rw [List.mem_singleton.mp hp]
  exact hi

theorem ensures_applyAggr {inputPlan : Option Plan} (h : Holds (Flagged known tableMgr) inputPlan) :
    Ensures (applyAggr query inputPlan) (Holds (Flagged known tableMgr)) := by
  unfold applyAggr
  split
  · exact ensures_throw
  split
  · exact ensures_pure h
  refine Ensures.bind (ensures_mkGroupAggr h) fun o ho => Ensures.bind (ensures_orFail ho) fun op hop => ?_
  refine Ensures.bind (ensures_foldlM (fun op a _ hop => ensures_addGroupAttr _ hop) (holds_some hop)) fun op hop => ?_
  exact ensures_foldlM (fun op a _ hop => ensures_addAggr _ _ hop) hop

theorem ensures_doProjs {inputPlan : Option Plan} (h : Holds (Flagged known tableMgr) inputPlan) :
    Ensures (doProjs query inputPlan) (Holds (Flagged known tableMgr)) := by
  refine Ensures.bind (ensures_mkProject h) fun o ho => Ensures.bind (ensures_orFail ho) fun project hproject => ?_
  refine ensures_foldlM (fun project e _ hproject => ?_) (holds_some hproject)
  exact Ensures.bind ensures_any fun expr _ => ensures_addProjectExpr expr hproject

theorem ensures_applyDistinct {inputPlan : Option Plan} (h : Holds (Flagged known tableMgr) inputPlan) :
    Ensures (applyDistinct query inputPlan) (Flagged known tableMgr) := by
  refine Ensures.bind (Q := Holds (Flagged known tableMgr)) ?_ fun o ho => ensures_orFail ho
  split
  · exact ensures_mkUnary trivial (fun _ _ => trivial) (fun _ => rfl) h
  · exact ensures_pure h

theorem ensures_applyR2SOps {inputPlan : Option Plan} (h : Holds (Flagged known tableMgr) inputPlan) :
    Ensures (applyR2SOps query inputPlan) (Holds (Flagged known tableMgr)) := by
  have hstream {kind : Kind} (hkind : kind.Registered known tableMgr) (htakes : ∀ b, kind.Takes [b])
      (hflag : ∀ b, true = kind.streams [b]) :
      Ensures (do return some (← orFail (← mkUnary kind (fun _ => true) inputPlan))) (Holds (Flagged known tableMgr)) := by
    refine Ensures.bind (ensures_mkUnary hkind (fun p _ => htakes p.bStream) hflag h) fun o ho => ?_
    exact Ensures.bind (ensures_orFail ho) fun p hp => ensures_pure (holds_some hp)
  unfold applyR2SOps
  split
  · exact ensures_pure h
  · exact hstream trivial (fun _ => trivial) fun _ => rfl
  · exact hstream trivial (fun _ => trivial) fun _ => rfl
  · exact hstream trivial (fun _ => trivial) fun _ => rfl

theorem ensures_genPlan (h : ∀ v ∈ query.sources, known (query.refTables v)) :
    Ensures (genPlan tableMgr query) (Holds (Flagged known tableMgr)) := by
  refine Ensures.bind ensures_any fun _ _ => ?_
  cases hk : query.kind with
  | sfwQuery =>
    rw [if_pos rfl]
    have hfrom : ∀ v ∈ query.fromClauseTables, known (query.refTables v) := by
      simpa only [Semantic.Query.sources, hk] using h
    refine Ensures.bind (ensures_joinTables hfrom) fun join hjoin => ?_
    refine Ensures.bind (ensures_applyPreds hjoin) fun select hselect => ?_
    refine Ensures.bind (ensures_applyAggr hselect) fun aggr haggr => ?_
    refine Ensures.bind (ensures_doProjs haggr) fun project hproject => ?_
    refine Ensures.bind (ensures_applyDistinct hproject) fun distinct hdistinct => ?_
    exact ensures_applyR2SOps (holds_some hdistinct)
  | binaryOp =>
    rw [if_neg (by simp)]
    have htables : known (query.refTables 0) ∧ known (query.refTables 1) := by
      simpa only [Semantic.Query.sources, hk, List.mem_cons, List.not_mem_nil, or_false, forall_eq_or_imp, forall_eq]
        using h
    refine Ensures.bind (ensures_getSource 0 _ htables.1) fun left hleft => ?_
    refine Ensures.bind (ensures_getSource 0 _ htables.2) fun right hright => ?_
    refine Ensures.bind (Q := Holds (Flagged known tableMgr)) ?_ fun binOp hbin => ensures_applyR2SOps hbin
    split
    · exact ensures_mkSetOp trivial (fun _ _ => rfl) (fun l r => by simp [Kind.streams]) (holds_some hleft.1) (holds_some hright.1)
    · exact ensures_mkSetOp trivial (fun _ _ => trivial) (fun l r => rfl) (holds_some hleft.1) (holds_some hright.1)

end Naive

section Transformations
variable {known : ℕ → Prop} {tableMgr : TableManager} {p q : Plan}

theorem Flagged.input {kind : Kind} {outAttrs : List Attr} {bStream : Bool}
    (h : Flagged known tableMgr (.node kind outAttrs bStream [p])) : Flagged known tableMgr p :=
  (flagged_node.mp h).2.2.2 p (List.mem_singleton_self p)

/-- What a walk from a flagged plan comes to is flagged, with what has been passed above it. -/
theorem Flagged.walk {through : Kind → Bool} (passed : List Passed) {passed' : List Passed} (h : Flagged known tableMgr (rebuild p passed))
    (hw : Plan.walk through p passed = (passed',q)) : Flagged known tableMgr (rebuild q passed') := by
  have hre := rebuild_walk through p passed
  rw [hw] at hre
  rw [hre]
  exact h

theorem flagged_streams {passed : List Passed} (h : Flagged known tableMgr p) (hp : p.bStream = true)
    (hkinds : ∀ o ∈ passed, isSelectProjectDistinct o.kind = true) :
    Flagged known tableMgr (rebuild p (passed.map fun o => { o with bStream := true })) := by
  induction passed generalizing p with
  | nil => exact h
  | cons o passed ih =>
    have ho := hkinds o List.mem_cons_self
    refine ih (p := above _ p) (flagged_above.mpr ?_) rfl fun o ho => hkinds o (List.mem_cons_of_mem _ ho)
    rw [hp]
    cases hk : o.kind <;> simp_all [isSelectProjectDistinct,Kind.Registered,Kind.Takes,Kind.streams]

theorem Flagged.tRstreamNow (h : Flagged known tableMgr p) : Flagged known tableMgr (tRstreamNow p) := by
  unfold Plan.tRstreamNow
  split
  · rename_i outAttrs bStream input
    split
    · rename_i passed nowAttrs nowStream source hw
      obtain ⟨new,hnew,hkinds⟩ := walk_passed isSelectProjectDistinct input []
      rw [hw] at hnew
      obtain rfl : passed = new := by simpa using hnew
      have hnow : Flagged known tableMgr (.node .nowWin nowAttrs nowStream [source]) :=
        Flagged.of_rebuild (Flagged.walk [] h.input hw)
      obtain ⟨-,htakes,-,-⟩ := flagged_node.mp hnow
      exact flagged_streams hnow.input (htakes _ (by simp)) hkinds
    · exact h
  · exact h

theorem ensures_updateSchemaRecursive (input : Plan) (passed : List Passed) :
    Ensures (updateSchemaRecursive input passed)
      (List.Forall₂ (fun o o' : Passed => o'.kind = o.kind ∧ o'.bStream = o.bStream) passed) := by
  induction passed generalizing input with
  | nil => exact ensures_pure .nil
  | cons o passed ih =>
    unfold updateSchemaRecursive
    split
    · exact ensures_pure (forall₂_same _)
    split
    · exact ensures_throw
    · exact Ensures.bind (ih _) fun passed' h => ensures_pure (.cons ⟨rfl,rfl⟩ h)

theorem ensures_updateStreamPropertyRecursive {passed : List Passed} (h : Flagged known tableMgr (rebuild p passed))
    (hq : Flagged known tableMgr q) (hkinds : ∀ o ∈ passed, o.kind.isWindow = false) :
    Ensures (updateStreamPropertyRecursive q passed)
      (fun passed' => Flagged known tableMgr (rebuild q passed') ∧ passed'.length = passed.length) := by
  induction passed generalizing p q with
  | nil => exact ensures_pure ⟨hq,rfl⟩
  | cons o passed ih =>
    have habove : Flagged known tableMgr (above o p) := of_rebuild_cons h
    obtain ⟨hsource,htakes,hown,-⟩ := flagged_above.mp habove
    have hwindow := hkinds o List.mem_cons_self
    have hrest : ∀ o ∈ passed, o.kind.isWindow = false := fun o ho => hkinds o (List.mem_cons_of_mem _ ho)
    have hcopied (hflag : ∀ b, b = o.kind.streams [b]) : Ensures (do
        let o := { o with bStream := q.bStream }
        return o :: (← updateStreamPropertyRecursive (above o q) passed))
        (fun passed' => Flagged known tableMgr (rebuild q passed') ∧ passed'.length = (o :: passed).length) := by
      have hq' : Flagged known tableMgr (above { o with bStream := q.bStream } q) :=
        flagged_above.mpr ⟨hsource,htakes.congr hwindow rfl,hflag q.bStream,hq⟩
      refine Ensures.bind (ih (p := above o p) h hq' hrest) fun passed' hp => ensures_pure ⟨hp.1,?_⟩
      simp [hp.2]
    unfold updateStreamPropertyRecursive
    split
    · rename_i hk
      exact hcopied fun b => by rw [hk]; rfl
    · rename_i hk
      exact hcopied fun b => by rw [hk]; rfl
    · rename_i hk
      exact hcopied fun b => by rw [hk]; rfl
    · rename_i hk
      exact hcopied fun b => by rw [hk]; simp [Kind.streams]
    · exact ensures_throw
    · refine ensures_pure ⟨?_,rfl⟩
      have hq' : Flagged known tableMgr (above o q) := by
        refine flagged_above.mpr ⟨hsource,htakes.congr hwindow rfl,?_,hq⟩
        cases hk : o.kind <;> simp_all [Kind.streams]
      exact Flagged.replace (p := above o p) (q := above o q) (forall₂_same passed) h hq' rfl

theorem ensures_streamCrossAddInputs {cross : Plan} {inputs : List Plan} (hcross : IsStreamCross known tableMgr cross)
    (h : ∀ i ∈ inputs, Flagged known tableMgr i) :
    Ensures (streamCrossAddInputs cross inputs) (IsStreamCross known tableMgr) := by
  refine ensures_foldlM (fun cross i hi hc => ?_) hcross
  exact Ensures.bind (ensures_streamCrossAddInput (holds_some hc) (holds_some (h i hi))) fun _ ho => ensures_orFail ho

theorem ensures_tStreamCross (h : Flagged known tableMgr p) : Ensures (tStreamCross p) (Flagged known tableMgr) := by
  unfold tStreamCross
  split
  · rename_i outAttrs bStream input
    split
    · rename_i passed crossAttrs crossStream inputs hw
      obtain ⟨new,hnew,hkinds⟩ := walk_passed isAboveCross input [⟨.rstream,outAttrs,bStream⟩]
      rw [hw] at hnew
      dsimp only at hnew
      have hall := Flagged.walk [⟨.rstream,outAttrs,bStream⟩] h hw
      obtain ⟨-,-,-,hinputs⟩ := flagged_node.mp hall.of_rebuild
      split
      · exact ensures_pure h
      rename_i nowIndex hidx
      refine Ensures.bind (Q := Flagged known tableMgr) (ensures_deref fun i hi => hinputs i (List.mem_of_getElem? hi))
        fun now hnow => ?_
      obtain ⟨kind,nowAttrs,nowStream,sources⟩ := now
      refine Ensures.bind (Q := Flagged known tableMgr) (ensures_deref fun i hi => ?_) fun source hsource => ?_
      · exact (flagged_node.mp hnow).2.2.2 i (List.mem_of_getElem? hi)
      refine Ensures.bind (ensures_mkStreamCross (holds_some hsource)) fun o ho => ?_
      refine Ensures.bind (ensures_orFail ho) fun cross hcross => ?_
      refine Ensures.bind (ensures_streamCrossAddInputs hcross fun i hi => hinputs i (List.mem_of_mem_eraseIdx hi))
        fun cross hcross => ?_
      refine Ensures.bind (ensures_updateSchemaRecursive cross passed) fun passed₁ hsame => ?_
      have hall₁ := Flagged.replace hsame hall hall.of_rebuild rfl
      refine Ensures.bind (ensures_updateStreamPropertyRecursive hall₁ hcross.1 fun o ho => ?_) fun passed₂ hpassed => ?_
      · obtain ⟨o',ho',hk,-⟩ := forall₂_mem_right hsame ho
        rw [hk]
        rw [hnew] at ho'
        rcases List.mem_append.mp ho' with ho' | ho'
        · have hkind := hkinds o' ho'
          cases hk' : o'.kind <;> simp_all [isAboveCross,Kind.isWindow]
        · rw [List.mem_singleton.mp ho']
          rfl
      refine ensures_pure ?_
      have hne : passed₂ ≠ [] := by
        rw [← List.length_pos_iff, hpassed.2, ← hsame.length_eq, hnew]
        simp
      rw [← List.dropLast_concat_getLast hne, rebuild_append] at hpassed
      exact (flagged_above.mp hpassed.1).2.2.2
    · exact ensures_pure h
  · exact ensures_pure h

theorem Flagged.tRemoveProject (h : Flagged known tableMgr p) : Flagged known tableMgr (tRemoveProject p) := by
  unfold Plan.tRemoveProject
  split
  · rename_i passed projExprs outAttrs bStream input hw
    split
    · have hall := Flagged.walk [] h hw
      have hflag := (flagged_node.mp hall.of_rebuild).2.2.1
      exact Flagged.replace (forall₂_same passed) hall hall.of_rebuild.input hflag.symm
    · exact h
  · exact h

theorem ensures_foldBinary {binary : Plan → Plan → Gen Plan} {kind : Kind}
    (hbinary : ∀ l r, Flagged known tableMgr l → Flagged known tableMgr r →
      Ensures (binary l r) (fun p => Flagged known tableMgr p ∧ p.bStream = kind.streams [l.bStream, r.bStream]))
    (hstreams : ∀ b c bs, kind.streams (kind.streams [b, c] :: bs) = kind.streams (b :: c :: bs)) {rest : List Plan}
    (hp : Flagged known tableMgr p) (hflag : p.bStream = kind.streams [p.bStream]) (hrest : ∀ r ∈ rest, Flagged known tableMgr r) :
    Ensures (rest.foldlM binary p)
      (fun q => Flagged known tableMgr q ∧ q.bStream = kind.streams (p.bStream :: rest.map Plan.bStream)) := by
  induction rest generalizing p with
  | nil => exact ensures_pure ⟨hp,hflag⟩
  | cons r rest ih =>
    rw [List.foldlM_cons]
    refine Ensures.bind (hbinary p r hp (hrest r List.mem_cons_self)) fun q hq => ?_
    have hqflag : q.bStream = kind.streams [q.bStream] := by
      rw [hq.2, hstreams]
    refine (ih hq.1 hqflag fun r hr => hrest r (List.mem_cons_of_mem _ hr)).weaken fun q' hq' => ⟨hq'.1,?_⟩
    rw [hq'.2, hq.2, hstreams]
    rfl

theorem ensures_makeBinary {binary : Plan → Plan → Gen Plan} {isCross : Kind → Bool} {kind : Kind}
    (hcross : ∀ k, isCross k = true → k = kind)
    (hbinary : ∀ l r, Flagged known tableMgr l → Flagged known tableMgr r →
      Ensures (binary l r) (fun p => Flagged known tableMgr p ∧ p.bStream = kind.streams [l.bStream, r.bStream]))
    (hstreams : ∀ b c bs, kind.streams (kind.streams [b, c] :: bs) = kind.streams (b :: c :: bs))
    (h : Flagged known tableMgr p) : Ensures (makeBinary binary isCross p) (Flagged known tableMgr) := by
  unfold makeBinary
  split
  rename_i passed k outAttrs bStream inputs hw
  have hall := Flagged.walk [] h hw
  obtain ⟨-,-,hflag,hinputs⟩ := flagged_node.mp hall.of_rebuild
  split
  · rename_i hk
    obtain rfl := hcross k hk
    split
    · exact ensures_pure h
    · rename_i first second rest _
      have hall₂ : ∀ i ∈ rest, Flagged known tableMgr i := fun i hi => hinputs i (by simp [hi])
      refine Ensures.bind (hbinary first second (hinputs first (by simp)) (hinputs second (by simp))) fun q hq => ?_
      have hqflag : q.bStream = k.streams [q.bStream] := by
        rw [hq.2, hstreams]
      refine Ensures.bind (ensures_foldBinary hbinary hstreams hq.1 hqflag hall₂) fun q' hq' => ensures_pure ?_
      refine Flagged.replace (forall₂_same passed) hall hq'.1 ?_
      rw [hq'.2, hq.2, hstreams]
      exact hflag.symm
    · exact ensures_throw
  · exact ensures_pure h

theorem ensures_binaryCross (l r : Plan) (hl : Flagged known tableMgr l) (hr : Flagged known tableMgr r) :
    Ensures (binaryCross l r) (fun p => Flagged known tableMgr p ∧ p.bStream = Kind.cross.streams [l.bStream, r.bStream]) := by
  have hcross : Ensures mkCross (Holds fun c => IsCross known tableMgr c ∧ c.bStream = true) := by
    exact ensures_newop (ensures_pure ⟨⟨.node trivial trivial rfl (by simp),rfl⟩,rfl⟩)
  refine Ensures.bind hcross fun o ho => Ensures.bind (ensures_orFail ho) fun c hc => ?_
  refine Ensures.bind (ensures_crossAddInput (holds_some hc.1) (holds_some hl)) fun o ho => ?_
  refine Ensures.bind (ensures_orFail ho) fun c₁ hc₁ => ?_
  refine Ensures.bind (ensures_crossAddInput (holds_some hc₁.1) (holds_some hr)) fun o ho => ?_
  refine (ensures_orFail ho).weaken fun p hp => ⟨hp.1.1,?_⟩
  rw [hp.2 c₁ rfl r rfl, hc₁.2 c rfl l rfl, hc.2]
  simp [Kind.streams]

theorem ensures_binaryStreamCross (l r : Plan) (hl : Flagged known tableMgr l) (hr : Flagged known tableMgr r) :
    Ensures (binaryStreamCross l r)
      (fun p => Flagged known tableMgr p ∧ p.bStream = Kind.streamCross.streams [l.bStream, r.bStream]) := by
  refine Ensures.bind (ensures_mkStreamCross (holds_some hl)) fun o ho => Ensures.bind (ensures_orFail ho) fun c hc => ?_
  refine Ensures.bind (ensures_streamCrossAddInput (holds_some hc) (holds_some hr)) fun o ho => ?_
  refine (ensures_orFail ho).weaken fun p hp => ⟨hp.1,?_⟩
  obtain ⟨hflag,hkind⟩ := hp
  obtain ⟨kind,outAttrs,bStream,inputs⟩ := p
  obtain rfl : kind = .streamCross := hkind
  exact (flagged_node.mp hflag).2.2.1

theorem ensures_copyAbove (bexpr : BExpr) (bUsefulPush : Bool) (h : Flagged known tableMgr p) :
    Ensures (copyAbove bexpr bUsefulPush p) (Holds fun q => Flagged known tableMgr q ∧ q.bStream = p.bStream) := by
  unfold copyAbove
  split
  · have hselect : Ensures (mkSelect (some p) bexpr) (Holds fun q => Flagged known tableMgr q ∧ q.bStream = p.bStream) := by
      refine ensures_newop (Ensures.bind (Q := fun i => i = p) (ensures_deref (holds_some rfl)) fun i hi => ?_)
      subst hi
      refine ensures_pure ⟨.node trivial trivial rfl fun q hq => ?_,rfl⟩
      rw [List.mem_singleton.mp hq]
      exact h
    refine Ensures.bind hselect fun o ho => ?_
    exact Ensures.bind (ensures_deref ho) fun q hq => ensures_pure (holds_some hq)
  · exact ensures_pure holds_none

def PushedInputs (known : ℕ → Prop) (tableMgr : TableManager) (inputs : List Plan) (r : Option (Option (List Plan))) : Prop :=
  ∀ inputs', r = some (some inputs') → inputs'.map Plan.bStream = inputs.map Plan.bStream ∧
    ∀ q ∈ inputs', Flagged known tableMgr q

theorem ensures_pushSelect (bexpr : BExpr) (bUsefulPush : Bool) (p : Plan) (h : Flagged known tableMgr p) :
    Ensures (pushSelect bexpr bUsefulPush p) (Holds fun q => Flagged known tableMgr q ∧ q.bStream = p.bStream) := by
  have hnode {kind : Kind} {outAttrs : List Attr} {bStream : Bool} {inputs inputs' : List Plan}
      (h : Flagged known tableMgr (.node kind outAttrs bStream inputs))
      (hin : inputs'.map Plan.bStream = inputs.map Plan.bStream ∧ ∀ q ∈ inputs', Flagged known tableMgr q) :
      Flagged known tableMgr (.node kind outAttrs bStream inputs') := by
    obtain ⟨h1,h2,h3,-⟩ := flagged_node.mp h
    exact .node h1 (by rw [hin.1]; exact h2) (by rw [hin.1]; exact h3) hin.2
  refine (pushSelect.mutual_induct bexpr
    (fun bUsefulPush p => Flagged known tableMgr p → Ensures (pushSelect bexpr bUsefulPush p)
      (Holds fun q => Flagged known tableMgr q ∧ q.bStream = p.bStream))
    (fun fits bUsefulPush inputs => (∀ p ∈ inputs, Flagged known tableMgr p) →
      Ensures (pushBelow bexpr fits bUsefulPush inputs) (PushedInputs known tableMgr inputs))
    ?_ ?_ ?_ ?_ ?_ ?_).1 bUsefulPush p h
  · intro bUsefulPush pred outAttrs bStream inputs ih h
    unfold pushSelect
    refine Ensures.bind (ih (flagged_node.mp h).2.2.2) fun r hr => ?_
    split
    · exact ensures_pure (holds_some ⟨hnode h (hr _ rfl),rfl⟩)
    · exact ensures_pure holds_none
  · intro bUsefulPush kind outAttrs bStream inputs hselect hk ih h
    rw [pushSelect.eq_2 _ _ _ _ _ _ hselect, if_pos hk]
    refine Ensures.bind (ih (flagged_node.mp h).2.2.2) fun r hr => ?_
    split
    · exact ensures_pure (holds_some ⟨hnode h (hr _ rfl),rfl⟩)
    · exact ensures_pure holds_none
    · exact ensures_copyAbove _ _ h
  · intro bUsefulPush kind outAttrs bStream inputs hselect hk h
    rw [pushSelect.eq_2 _ _ _ _ _ _ hselect, if_neg hk]
    exact ensures_copyAbove _ _ h
  · intro fits bUsefulPush _
    exact ensures_pure fun _ h => by cases h
  · intro fits bUsefulPush input inputs hfits ih h
    unfold pushBelow
    rw [if_pos hfits]
    refine Ensures.bind (ih (h input List.mem_cons_self)) fun o ho => ?_
    split
    · rename_i input'
      refine ensures_pure fun inputs' he => ?_
      obtain rfl : input' :: inputs = inputs' := by simpa using he
      obtain ⟨hflag,hstream⟩ := ho input' rfl
      refine ⟨by simp [hstream],fun q hq => ?_⟩
      rcases List.mem_cons.mp hq with rfl | hq
      · exact hflag
      · exact h q (List.mem_cons_of_mem _ hq)
    · exact ensures_pure fun _ he => by simp at he
  · intro fits bUsefulPush input inputs hfits ih h
    unfold pushBelow
    rw [if_neg hfits]
    refine Ensures.bind (ih fun p hp => h p (List.mem_cons_of_mem _ hp)) fun r hr => ?_
    split
    · rename_i inputs₁
      refine ensures_pure fun inputs' he => ?_
      obtain rfl : input :: inputs₁ = inputs' := by simpa using he
      obtain ⟨hstreams,hflag⟩ := hr inputs₁ rfl
      refine ⟨by simp [hstreams],fun q hq => ?_⟩
      rcases List.mem_cons.mp hq with rfl | hq
      · exact h q List.mem_cons_self
      · exact hflag q hq
    · rename_i hne
      exact ensures_pure fun inputs' he => absurd he (hne inputs')

theorem ensures_pushSelects (n : ℕ) (h : Flagged known tableMgr p) :
    Ensures (pushSelects n p) (fun q => Flagged known tableMgr q ∧ q.bStream = p.bStream) := by
  fun_induction pushSelects n p with
  | case1 n bexpr outAttrs bStream input ih =>
    have hflag : bStream = input.bStream := (flagged_node.mp h).2.2.1
    refine Ensures.bind (ensures_pushSelect bexpr false input h.input) fun o ho => ?_
    split
    · rename_i pushed
      obtain ⟨hpushed,hstream⟩ := ho pushed rfl
      refine (ih pushed hpushed).weaken fun q hq => ⟨hq.1,?_⟩
      exact hq.2.trans (hstream.trans hflag.symm)
    · refine Ensures.bind (ih input h.input) fun q hq => ensures_pure ⟨.node trivial trivial ?_ fun r hr => ?_,rfl⟩
      · rw [hflag, ← hq.2]
        rfl
      · rw [List.mem_singleton.mp hr]
        exact hq.1
  | case2 => exact ensures_pure ⟨h,rfl⟩

theorem ensures_tPushSelect (h : Flagged known tableMgr p) : Ensures (tPushSelect p) (Flagged known tableMgr) := by
  unfold tPushSelect
  split
  rename_i passed q hw
  have hall := Flagged.walk [] h hw
  dsimp only
  split
  · exact ensures_pure h
  · refine Ensures.bind (ensures_pushSelects _ hall.of_rebuild) fun q' hq' => ensures_pure ?_
    exact Flagged.replace (forall₂_same passed) hall hq'.1 hq'.2

end Transformations

end Plan

/-- The plan of a query that refers to known tables is flagged. -/
theorem genLogPlan_flagged {known : ℕ → Prop} {tableMgr : TableManager} {query : Semantic.Query}
    (h : ∀ v ∈ query.sources, known (query.refTables v)) :
    Ensures (genLogPlan tableMgr query) (Plan.Flagged known tableMgr) := by
  refine Ensures.bind (Plan.ensures_genPlan h) fun o ho => Ensures.bind (Plan.ensures_deref ho) fun p hp => ?_
  refine Ensures.bind (Plan.ensures_tStreamCross hp.tRstreamNow) fun p hp => ?_
  refine Ensures.bind (Plan.ensures_makeBinary (by simp) Plan.ensures_binaryCross ?_ hp.tRemoveProject) fun p hp => ?_
  · simp [Kind.streams,Bool.and_assoc]
  refine Ensures.bind (Plan.ensures_makeBinary (by simp) Plan.ensures_binaryStreamCross ?_ hp) fun p hp => ?_
  · simp [Kind.streams]
  exact Plan.ensures_tPushSelect hp

/-- A query that has a plan reads a table. -/
theorem genLogPlan_sources {tableMgr : TableManager} {query : Semantic.Query} :
    Ensures (genLogPlan tableMgr query) (fun _ => query.sources ≠ []) := by
  cases hk : query.kind with
  | binaryOp => exact ensures_any.weaken fun _ _ => by simp [Semantic.Query.sources,hk]
  | sfwQuery =>
    cases hfrom : query.fromClauseTables with
    | cons v vars => exact ensures_any.weaken fun _ _ => by simp [Semantic.Query.sources,hk,hfrom]
    | nil =>
      have hjoin : Ensures (Plan.joinTables tableMgr query) (fun _ => False) := by
        unfold Plan.joinTables
        rw [hfrom]
        exact ensures_throw
      have hplan : Ensures (Plan.genPlan tableMgr query) (fun _ => False) := by
        refine Ensures.bind ensures_any fun _ _ => ?_
        rw [if_pos hk]
        exact Ensures.bind hjoin fun _ h => h.elim
      exact Ensures.bind hplan fun _ h => h.elim

end AqsiosCoordinator.Logical
