import AqsiosCoordinator.Querygen.RstreamNow

/-! # Crosses with a stream

The stream cross has the columns of the stream first. Selects and projects above it read
the columns by their names.
-/
namespace AqsiosCoordinator.Logical.Plan
open Common Foundation Foundation.Outcome Foundation.TimeVarying Foundation.BagOp Metadata
variable {α : Type} {tableMgr : TableManager} {p p' q cross source : Plan} {inputs : List Plan} {passed passed' : List Passed}

section Lookup
variable {I : Interp α} {l m n : List Attr} {x y r : Row α} {a : Attr}

theorem lookup_append (h : x.length = l.length) :
    lookup I (l ++ m) (x ++ y) a = if l.any (fun b => a.same b) then lookup I l x a else lookup I m y a := by
  cases hl : l.findIdx? (fun b => a.same b) with
  | some k =>
    have hany : l.any (fun b => a.same b) = true := by
      rw [← List.findIdx?_isSome, hl]
      rfl
    have hlt : k < x.length := by
      rw [h]
      exact (List.findIdx?_eq_some_iff_findIdx_eq.mp hl).1
    simp only [lookup, List.findIdx?_append, hl, Option.some_or, hany, if_true]
    exact List.getD_append _ _ _ _ hlt
  | none =>
    have hany : l.any (fun b => a.same b) = false := by
      rw [← List.findIdx?_isSome, hl]
      rfl
    simp only [lookup, List.findIdx?_append, hl, Option.none_or, hany, Bool.false_eq_true, if_false]
    cases hm : m.findIdx? (fun b => a.same b) with
    | some k =>
      simp only [Option.map_some]
      rw [List.getD_append_right _ _ _ _ (by omega), h, Nat.add_sub_cancel]
    | none => rfl

/-- Columns that have been moved are found by their names. -/
theorem lookup_moveFront (hapart : Apart l m) (hr : r.length = l.length + (m.length + n.length)) :
    lookup I (m ++ (l ++ n)) (moveFront l.length m.length r) a = lookup I (l ++ (m ++ n)) r a := by
  obtain ⟨x,y,z,rfl,hx,hy,-⟩ := exists_three_parts hr
  rw [← hx, ← hy, moveFront_append, lookup_append hy, lookup_append hx, lookup_append hx, lookup_append hy]
  by_cases hm : m.any (fun b => a.same b) = true
  · rw [hapart.not_any hm]
    rfl
  · simp [hm]

end Lookup

section Chain
variable [DecidableEq α] {I : Interp α} {X : Multiset (Row α)} {g : Row α → Row α}

def isProject : Kind → Bool
  | .project _ => true
  | _ => false

theorem dedup_map_of_injOn (h : ∀ x ∈ X, ∀ y ∈ X, g x = g y → x = y) : (X.map g).dedup = X.dedup.map g := by
  have hnodup : (X.dedup.map g).Nodup :=
    (Multiset.nodup_dedup X).map_on fun x hx y hy => h x (Multiset.mem_dedup.mp hx) y (Multiset.mem_dedup.mp hy)
  rw [← Multiset.dedup_map_dedup_eq, hnodup.dedup]

/-- Above the same rows with their columns in another order the operators yield the same rows,
in the order of the project if there is one. -/
theorem run_reordered (hkinds : List.Forall₂ (fun o o' : Passed => o'.kind = o.kind) passed passed')
    (hpassed : ∀ o ∈ passed, isSelectProjectDistinct o.kind = true) (h : Formed tableMgr (rebuild p passed))
    (h' : Formed tableMgr (rebuild p' passed'))
    (hlookup : ∀ r ∈ X, ∀ a, lookup I p'.outAttrs (g r) a = lookup I p.outAttrs r a)
    (hinj : ∀ x ∈ X, ∀ y ∈ X, g x = g y → x = y) :
    run (bagOps I p'.outAttrs passed') (X.map g) =
      (run (bagOps I p.outAttrs passed) X).map (if passed.any (fun o => isProject o.kind) then id else g) := by
  induction hkinds generalizing p p' X g with
  | nil => rfl
  | @cons o o' passed passed' hkind hkinds ih =>
    obtain ⟨ho,hrest⟩ := List.forall_mem_cons.mp hpassed
    obtain ⟨⟨hschema,-⟩,-⟩ := everywhere_above.mp (Everywhere.of_rebuild (p := above o p) h)
    obtain ⟨⟨hschema',-⟩,-⟩ := everywhere_above.mp (Everywhere.of_rebuild (p := above o' p') h')
    obtain ⟨kind,outAttrs,bStream⟩ := o
    obtain ⟨kind',outAttrs',bStream'⟩ := o'
    obtain rfl : kind' = kind := hkind
    cases kind' with
    | select bexpr =>
      obtain rfl : p.outAttrs = outAttrs := (List.cons.inj hschema).1
      obtain rfl : p'.outAttrs = outAttrs' := (List.cons.inj hschema').1
      have hstep : (X.map g).filterMap (Option.guard fun r => I.compare (lookup I p'.outAttrs r) bexpr) =
          (X.filterMap (Option.guard fun r => I.compare (lookup I p.outAttrs r) bexpr)).map g := by
        apply filterMap_map_comm
        intro r hr
        have hsame : I.compare (lookup I p'.outAttrs (g r)) bexpr = I.compare (lookup I p.outAttrs r) bexpr :=
          Interp.compare_congr fun a _ => hlookup r hr a
        simp only [Option.guard, hsame]
        split
        · rfl
        · rfl
      have hmem : ∀ r ∈ X.filterMap (Option.guard fun r => I.compare (lookup I p.outAttrs r) bexpr), r ∈ X := by
        intro r hr
        obtain ⟨x,hx,hsome⟩ := (Multiset.mem_filterMap _ _).mp hr
        obtain ⟨rfl,-⟩ := Option.guard_eq_some_iff.mp hsome
        exact hx
      have hrec := @ih (above ⟨.select bexpr,p.outAttrs,bStream⟩ p) (above ⟨.select bexpr,p'.outAttrs,bStream'⟩ p')
        (X.filterMap (Option.guard fun r => I.compare (lookup I p.outAttrs r) bexpr)) g hrest h h' (fun r hr => hlookup r (hmem r hr)) (fun x hx y hy => hinj x (hmem x hx) y (hmem y hy))
      rw [← hstep] at hrec
      exact hrec
    | project projExprs =>
      obtain rfl : outAttrs = projExprs.map exprAttr := hschema.2
      obtain rfl : outAttrs' = projExprs.map exprAttr := hschema'.2
      have hstep : (X.map g).filterMap (fun r => some (exprRow I p'.outAttrs projExprs r)) =
          (X.filterMap fun r => some (exprRow I p.outAttrs projExprs r)).map id := by
        apply filterMap_map_comm
        intro r hr
        have hsame : exprRow I p'.outAttrs projExprs (g r) = exprRow I p.outAttrs projExprs r :=
          List.map_congr_left fun e _ => Interp.value_congr fun a _ => hlookup r hr a
        rw [hsame]
        rfl
      have hrec := @ih (above ⟨.project projExprs,projExprs.map exprAttr,bStream⟩ p)
        (above ⟨.project projExprs,projExprs.map exprAttr,bStream'⟩ p')
        (X.filterMap fun r => some (exprRow I p.outAttrs projExprs r)) id hrest h h' (fun r _ a => rfl) (fun x _ y _ hxy => hxy)
      rw [← hstep, ite_self] at hrec
      exact hrec
    | distinct =>
      obtain rfl : p.outAttrs = outAttrs := (List.cons.inj hschema).1
      obtain rfl : p'.outAttrs = outAttrs' := (List.cons.inj hschema').1
      have hrec := @ih (above ⟨.distinct,p.outAttrs,bStream⟩ p) (above ⟨.distinct,p'.outAttrs,bStream'⟩ p')
        X.dedup g hrest h h' (fun r hr => hlookup r (Multiset.mem_dedup.mp hr))
        (fun x hx y hy => hinj x (Multiset.mem_dedup.mp hx) y (Multiset.mem_dedup.mp hy))
      rw [← dedup_map_of_injOn hinj] at hrec
      exact hrec
    | _ => cases ho

end Chain

section Flags

/-- The flag of the topmost operator above a stream: a group-aggregate takes it away. -/
theorem rebuild_bStream {known : ℕ → Prop} (h : Flagged known tableMgr (rebuild p passed)) (hp : p.bStream = true)
    (hpassed : ∀ o ∈ passed, isAboveCross o.kind = true) :
    (rebuild p passed).bStream = true ↔ ∀ o ∈ passed, isSelectProjectDistinct o.kind = true := by
  induction passed using List.reverseRecOn with
  | nil => exact ⟨fun _ => by simp,fun _ => hp⟩
  | append_singleton passed o ih =>
    rw [rebuild_append] at h ⊢
    obtain ⟨-,-,hflag,hbelow⟩ := flagged_above.mp h
    have hrec := ih hbelow fun o ho => hpassed o (by simp [ho])
    have ho := hpassed o (by simp)
    have htop : (above o (rebuild p passed)).bStream = o.bStream := rfl
    rw [htop, hflag]
    obtain ⟨kind,outAttrs,bStream⟩ := o
    cases kind with
    | select bexpr => simp [Kind.streams,hrec,isSelectProjectDistinct,or_imp,forall_and]
    | project projExprs => simp [Kind.streams,hrec,isSelectProjectDistinct,or_imp,forall_and]
    | distinct => simp [Kind.streams,hrec,isSelectProjectDistinct,or_imp,forall_and]
    | groupAggr groupAttrs aggrs => simp [Kind.streams,isSelectProjectDistinct,or_imp,forall_and]
    | _ => cases ho

end Flags

section Rewritten
variable [DecidableEq α] {I : Interp α} {S : Sources α}

def nowFirst (inputs : List Plan) (nowIndex : ℕ) : Row α → Row α :=
  moveFront ((inputs.take nowIndex).map fun i => i.outAttrs.length).sum ((inputs[nowIndex]?.map fun i => i.outAttrs.length).getD 0)

/-- The plan that is rewritten: RSTREAM above operators of one input above a cross. -/
def rstreamCross (cross : Plan) (passed : List Passed) : Plan :=
  unaryNode .rstream (rebuild cross passed).outAttrs (rebuild cross passed)

theorem tStreamCross_rstreamCross {u w : Usage} {nowIndex : ℕ} (hcross : cross.kind = .cross)
    (hpassed : ∀ o ∈ passed, isAboveCross o.kind = true) (hidx : cross.inputs.findIdx? isNowWin = some nowIndex)
    (hformed : Formed tableMgr (rstreamCross cross passed)) (h : tStreamCross (rstreamCross cross passed) u = .ok q w) :
    ∃ nowAttrs nowStream source passed', cross.inputs[nowIndex]? = some (.node .nowWin nowAttrs nowStream [source]) ∧
      List.Forall₂ (fun o o' : Passed => o'.kind = o.kind) passed passed' ∧
      q = rebuild (streamCrossPlan (source :: cross.inputs.eraseIdx nowIndex)) passed' ∧ Formed tableMgr q := by
  obtain ⟨kind,crossAttrs,crossStream,inputs⟩ := cross
  obtain rfl : kind = .cross := hcross
  have hw := walk_rebuild_append (p := .node .cross crossAttrs crossStream inputs) hpassed rfl
    [⟨.rstream,(rebuild (.node .cross crossAttrs crossStream inputs) passed).outAttrs,true⟩]
  obtain ⟨nowAttrs,nowStream,source,passed',hnow,hkinds,rfl,hq⟩ := formed_handedOn.ensures_tStreamCross_at hformed hw hidx _ _ _ h
  refine ⟨nowAttrs,nowStream,source,passed'.dropLast,hnow,?_,rfl,hq⟩
  rcases List.eq_nil_or_concat' passed' with rfl | ⟨passed',o',rfl⟩
  · have hlen := hkinds.length_eq
    simp at hlen
  · have hrev := List.forall₂_reverse_iff.mpr hkinds
    rw [List.reverse_append, List.reverse_append, List.reverse_singleton, List.reverse_singleton] at hrev
    cases hrev with
    | cons _ hrev =>
      rw [List.dropLast_concat]
      exact List.forall₂_reverse_iff.mp hrev

theorem denote_cross {kind : Kind} {attrs : List Attr} {bStream : Bool} (h : kind = .cross) (now : ℕ) :
    (Plan.node kind attrs bStream inputs).denote I S now =
      product I.null (inputs.map fun i => (i.outAttrs.length,i.denote I S now)) := by
  subst h
  rw [denote_node]
  simp only [Kind.denote, cross, List.map_map, Function.comp_def]

/-- The stream cross brings the rows that the cross has at every instant, the columns of the stream first. -/
theorem denote_streamCross {nowIndex : ℕ} {nowAttrs attrs : List Attr} {nowStream bStream : Bool}
    (hnow : inputs[nowIndex]? = some (.node .nowWin nowAttrs nowStream [source])) (hattrs : source.outAttrs = nowAttrs) :
    (streamCrossPlan (source :: inputs.eraseIdx nowIndex)).denote I S =
      (accumulate ((Plan.node .cross attrs bStream inputs).denote I S)).map (nowFirst inputs nowIndex) := by
  obtain ⟨hlt,hget⟩ := List.getElem?_eq_some_iff.mp hnow
  have hinputs : inputs = inputs.take nowIndex ++ .node .nowWin nowAttrs nowStream [source] :: inputs.drop (nowIndex + 1) := by
    rw [← hget, ← List.drop_eq_getElem_cons hlt, List.take_append_drop]
  have harrive : (Plan.node .nowWin nowAttrs nowStream [source]).denote I S = (source.denote I S).arrivals := by
    rw [denote_node]
    exact rangeWindow_one (source.denote I S)
  rw [map_accumulate, streamCrossPlan, denote_node]
  simp only [Kind.denote, List.map_cons, streamCross, List.map_map, Function.comp_def]
  congr 1
  funext now
  have hrows : (Plan.node .cross attrs bStream inputs).denote I S now =
      product I.null ((inputs.take nowIndex).map (fun i => (i.outAttrs.length,i.denote I S now)) ++
        (nowAttrs.length,(source.denote I S).arrivals now) ::
          (inputs.drop (nowIndex + 1)).map fun i => (i.outAttrs.length,i.denote I S now)) := by
    rw [denote_cross rfl, ← harrive]
    conv_lhs => rw [hinputs]
    rw [List.map_append, List.map_cons]
    rfl
  rw [hrows, nowFirst, hnow, hattrs, List.eraseIdx_eq_take_drop_succ, List.map_append]
  refine product_moveFront.trans ?_
  rw [List.map_map]
  rfl

/-- Rows of the cross are as long as its schema, and their columns are found after the move. -/
theorem nowFirst_rows {nowIndex : ℕ} {nowAttrs : List Attr} {nowStream : Bool} {kind : Kind} {attrs : List Attr} {bStream : Bool}
    (hkind : kind = .cross) (hformed : Formed tableMgr (.node kind attrs bStream inputs))
    (hnow : inputs[nowIndex]? = some (.node .nowWin nowAttrs nowStream [source])) (hattrs : source.outAttrs = nowAttrs) :
    (∀ now, ∀ r ∈ (Plan.node kind attrs bStream inputs).denote I S now, r.length = attrs.length) ∧
    (∀ r : Row α, r.length = attrs.length → ∀ a, lookup I (streamCrossPlan (source :: inputs.eraseIdx nowIndex)).outAttrs
      (nowFirst inputs nowIndex r) a = lookup I attrs r a) ∧
    ∀ x y : Row α, x.length = attrs.length → y.length = attrs.length → nowFirst inputs nowIndex x = nowFirst inputs nowIndex y →
      x = y := by
  subst hkind
  obtain ⟨⟨⟨hout,hapart⟩,-⟩,-⟩ := everywhere_node.mp hformed
  obtain ⟨hlt,hget⟩ := List.getElem?_eq_some_iff.mp hnow
  have hinputs : inputs = inputs.take nowIndex ++ .node .nowWin nowAttrs nowStream [source] :: inputs.drop (nowIndex + 1) := by
    rw [← hget, ← List.drop_eq_getElem_cons hlt, List.take_append_drop]
  obtain ⟨l,hl⟩ : ∃ l, l = ((inputs.take nowIndex).map Plan.outAttrs).flatten := ⟨_,rfl⟩
  obtain ⟨n,hn⟩ : ∃ n, n = ((inputs.drop (nowIndex + 1)).map Plan.outAttrs).flatten := ⟨_,rfl⟩
  have hsplit : attrs = l ++ (nowAttrs ++ n) := by
    rw [hout, hinputs, hl, hn]
    simp
  have hnew : (streamCrossPlan (source :: inputs.eraseIdx nowIndex)).outAttrs = nowAttrs ++ (l ++ n) := by
    rw [List.eraseIdx_eq_take_drop_succ, hl, hn, ← hattrs]
    simp [streamCrossPlan]
  have hmove (r : Row α) : nowFirst inputs nowIndex r = moveFront l.length nowAttrs.length r := by
    rw [nowFirst, hnow, hl, List.length_flatten, List.map_map]
    rfl
  have hdiffer : Apart l nowAttrs := by
    rw [hinputs, List.map_append, List.map_cons] at hapart
    intro a ha
    rw [hl] at ha
    obtain ⟨attrs',hmem,ha⟩ := List.mem_flatten.mp ha
    exact (List.pairwise_append.mp hapart).2.2 attrs' hmem nowAttrs (by simp) a ha
  have hlen : attrs.length = l.length + (nowAttrs.length + n.length) := by simp [hsplit]
  refine ⟨fun now r hr => ?_,fun r hr a => ?_,fun x y hx hy h => ?_⟩
  · rw [denote_cross rfl] at hr
    rw [length_of_mem_product hr, hout]
    simp [List.length_flatten,Function.comp_def]
  · rw [hnew, hmove, hsplit]
    exact lookup_moveFront hdiffer (hr.trans hlen)
  · rw [hmove, hmove] at h
    exact moveFront_inj (hx.trans hlen) (hy.trans hlen) h

/-- What the rewritten plan computes, by the operators of the plan. -/
theorem denote_tStreamCross {u w : Usage} {nowIndex : ℕ} (hcross : cross.kind = .cross)
    (hpassed : ∀ o ∈ passed, isSelectProjectDistinct o.kind = true) (hidx : cross.inputs.findIdx? isNowWin = some nowIndex)
    (hformed : Formed tableMgr (rstreamCross cross passed)) (h : tStreamCross (rstreamCross cross passed) u = .ok q w) :
    q.denote I S = fun now => (run (bagOps I cross.outAttrs passed) (accumulate (cross.denote I S) now)).map
      (if passed.any (fun o => isProject o.kind) then id else nowFirst cross.inputs nowIndex) := by
  have habove : ∀ o ∈ passed, isAboveCross o.kind = true := fun o ho => by
    have h := hpassed o ho
    cases hk : o.kind <;> simp_all [isSelectProjectDistinct,isAboveCross]
  obtain ⟨nowAttrs,nowStream,source,passed',hnow,hkinds,rfl,hq⟩ := tStreamCross_rstreamCross hcross habove hidx hformed h
  obtain ⟨kind,crossAttrs,crossStream,inputs⟩ := cross
  obtain rfl : kind = .cross := hcross
  have hchain : Formed tableMgr (rebuild (.node .cross crossAttrs crossStream inputs) passed) :=
    (everywhere_node.mp hformed).2 _ (List.mem_singleton_self _)
  have hattrs : source.outAttrs = nowAttrs := by
    have hwindow := (everywhere_node.mp hchain.of_rebuild).2 _ (List.mem_of_getElem? hnow)
    exact (List.cons.inj (everywhere_node.mp hwindow).1.1).1
  obtain ⟨hlength,hlookup,hinj⟩ := nowFirst_rows (I := I) (S := S) rfl hchain.of_rebuild hnow hattrs
  have hpassed' : ∀ o ∈ passed', isSelectProjectDistinct o.kind = true := by
    intro o ho
    have hmem : o.kind ∈ passed.map Passed.kind := kinds_of_forall₂ hkinds ▸ List.mem_map_of_mem ho
    obtain ⟨o',ho',hk⟩ := List.mem_map.mp hmem
    rw [← hk]
    exact hpassed o' ho'
  have hrow (now : ℕ) : ∀ r ∈ accumulate ((Plan.node .cross crossAttrs crossStream inputs).denote I S) now,
      r.length = crossAttrs.length := by
    intro r hr
    obtain ⟨t,-,hr⟩ := Multiset.mem_sum.mp hr
    exact hlength t r hr
  rw [denote_rebuild hpassed']
  funext now
  rw [denote_streamCross hnow hattrs]
  exact run_reordered hkinds hpassed hchain hq (fun r hr a => hlookup r (hrow now r hr) a)
    fun x hx y hy => hinj x y (hrow now x hx) (hrow now y hy)

/-- The rewritten plan yields the same stream exactly when no group-aggregate is passed, no rows
of different instants meet at a distinct, and the columns of the result are not reordered. -/
theorem tStreamCross_same_iff {known : ℕ → Prop} {u w : Usage} {nowIndex : ℕ} (hcross : cross.kind = .cross)
    (hpassed : ∀ o ∈ passed, isAboveCross o.kind = true) (hidx : cross.inputs.findIdx? isNowWin = some nowIndex)
    (hformed : Formed tableMgr (rstreamCross cross passed)) (hflagged : Flagged known tableMgr (rstreamCross cross passed))
    (h : tStreamCross (rstreamCross cross passed) u = .ok q w) :
    (q.denote I S = (rstreamCross cross passed).denote I S ∧ q.bStream = true) ↔
      (∀ o ∈ passed, isSelectProjectDistinct o.kind = true) ∧
      (∀ s t, s < t → ∀ x ∈ cross.denote I S s, ∀ y ∈ cross.denote I S t, ¬ Meet (bagOps I cross.outAttrs passed) x y) ∧
      ((∃ o ∈ passed, isProject o.kind = true) ∨ ∀ t, (run (bagOps I cross.outAttrs passed) (cross.denote I S t)).map
        (nowFirst cross.inputs nowIndex) = run (bagOps I cross.outAttrs passed) (cross.denote I S t)) := by
  have hflag : q.bStream = true ↔ ∀ o ∈ passed, isSelectProjectDistinct o.kind = true := by
    have hq_flagged : Flagged known tableMgr q := ensures_tStreamCross hflagged _ _ _ h
    obtain ⟨nowAttrs,nowStream,source,passed',hnow,hkinds,rfl,hq⟩ := tStreamCross_rstreamCross hcross hpassed hidx hformed h
    have hmap := kinds_of_forall₂ hkinds
    have hall (through : Kind → Bool) : (∀ o ∈ passed', through o.kind = true) ↔ ∀ o ∈ passed, through o.kind = true := by
      rw [← List.forall_mem_map (f := Passed.kind) (P := fun k => through k = true), hmap, List.forall_mem_map]
    rw [rebuild_bStream hq_flagged rfl ((hall isAboveCross).mpr hpassed), hall]
  rw [hflag, and_comm]
  apply and_congr_right
  intro hkinds
  have hold : (rstreamCross cross passed).denote I S =
      accumulate fun t => run (bagOps I cross.outAttrs passed) (cross.denote I S t) := by
    rw [rstreamCross, unaryNode, denote_node]
    exact congrArg rstream (denote_rebuild hkinds)
  rw [denote_tStreamCross hcross hkinds hidx hformed h, hold, funext_iff]
  refine run_sum_map.trans (and_congr_right fun _ => ?_)
  by_cases hproject : ∃ o ∈ passed, isProject o.kind = true
  · simp [hproject]
  · have hnone : passed.any (fun o => isProject o.kind) = false := by
      rw [Bool.eq_false_iff]
      intro hany
      exact hproject (List.any_eq_true.mp hany)
    simp [hproject,hnone]

end Rewritten

def streamTimesRelation : Plan :=
  .node .cross [.named 0 0 0, .named 1 1 0] false
    [.node .nowWin [.named 0 0 0] false [.node (.streamSource 0 0) [.named 0 0 0] true []],
     .node (.relnSource 1 1) [.named 1 1 0] false []]

def projectPassed : List Passed := [⟨.project [.attrRef .int (.named 1 1 0)],[.named 1 1 0],false⟩]

theorem streamTimesRelation_formed : Formed streamAndRelation (rstreamCross streamTimesRelation projectPassed) := by
  simp [Formed,rstreamCross,unaryNode,rebuild,above,projectPassed,streamTimesRelation,everywhere_node,Kind.Schema,exprAttr,
    Apart,Attr.same,tableAttrs,TableManager.getNumAttrs,TableManager.attrs,streamAndRelation]

theorem streamTimesRelation_flagged :
    Flagged (fun _ => True) streamAndRelation (rstreamCross streamTimesRelation projectPassed) := by
  simp [rstreamCross,unaryNode,rebuild,above,projectPassed,streamTimesRelation,flagged_node,Kind.Registered,Kind.Takes,
    Kind.streams,TableManager.isStream,streamAndRelation]

/-- Projected to the attribute of the relation the stream is the same. -/
theorem streamTimesRelation_same : ∃ q w, tStreamCross (rstreamCross streamTimesRelation projectPassed) ⟨0,0⟩ = .ok q w ∧
    q.denote intInterp (streamOf fun _ => {[5]}) =
      (rstreamCross streamTimesRelation projectPassed).denote intInterp (streamOf fun _ => {[5]}) ∧ q.bStream = true := by
  obtain ⟨q,w,hq⟩ : ∃ q w, tStreamCross (rstreamCross streamTimesRelation projectPassed) ⟨0,0⟩ = .ok q w := ⟨_,_,rfl⟩
  have hidx : streamTimesRelation.inputs.findIdx? isNowWin = some 0 := by decide
  have hiff := tStreamCross_same_iff (I := intInterp) (S := streamOf fun _ => {[5]}) rfl (by decide) hidx
    streamTimesRelation_formed streamTimesRelation_flagged hq
  refine ⟨q,w,hq,hiff.mpr ⟨by decide,?_,.inl (by decide)⟩⟩
  rintro s t - x - y - ⟨x',y',-,-,hmeet⟩
  exact hmeet

/-- How many pairs of present rows of the stream and rows of the relation there are. -/
def countedPairs : Semantic.Query :=
  ⟨.sfwQuery,id,[0, 1],fun _ => .now,[],[.aggrExpr .int .count ⟨0,0⟩],false,[],some .rstream,.union⟩

/-- The count is kept over all instants, and it is no stream. -/
theorem countedPairs_differ : ∃ plan q w w', genPlan streamAndRelation countedPairs ⟨0,0⟩ = .ok (some plan) w ∧
    tStreamCross plan w = .ok q w' ∧ q.bStream = false ∧
    q.denote intInterp (streamOf fun _ => {[5]}) ≠ plan.denote intInterp (streamOf fun _ => {[5]}) := by
  refine ⟨_,_,_,_,rfl,rfl,rfl,fun h => ?_⟩
  have h1 := congrArg Multiset.card (congrFun h 1)
  revert h1
  decide +kernel

end AqsiosCoordinator.Logical.Plan
