import AqsiosCoordinator.Querygen.PlanDenotation

/-! # Pushing selects down keeps what a plan computes -/
namespace AqsiosCoordinator.Logical.Plan
open Common Foundation Foundation.Outcome Metadata

def selectAbove (bexpr : BExpr) (p : Plan) : Plan := .node (.select bexpr) p.outAttrs p.bStream [p]

structure Stays (bexpr : BExpr) (p : Plan) : Prop where
  not_select : ∀ pred, p.kind ≠ .select pred
  no_fit : p.kind.IsCross → ∀ i ∈ p.inputs, checkReferences i bexpr = false

/-- `q` is `p` with a copy of the select above the part `x`, which is found as `pushSelect` finds it. -/
inductive Inserted (bexpr : BExpr) (x : Plan) : Plan → Plan → Prop where
  | here (h : Stays bexpr x) : Inserted bexpr x x (selectAbove bexpr x)
  | select {pred : BExpr} {outAttrs : List Attr} {bStream : Bool} {p q : Plan} (h : Inserted bexpr x p q) :
      Inserted bexpr x (.node (.select pred) outAttrs bStream [p]) (.node (.select pred) outAttrs bStream [q])
  | left {kind : Kind} {outAttrs : List Attr} {bStream : Bool} {l l' r : Plan} (hk : kind.IsCross)
      (hl : checkReferences l bexpr = true) (h : Inserted bexpr x l l') :
      Inserted bexpr x (.node kind outAttrs bStream [l, r]) (.node kind outAttrs bStream [l', r])
  | right {kind : Kind} {outAttrs : List Attr} {bStream : Bool} {l r r' : Plan} (hk : kind.IsCross)
      (hl : checkReferences l bexpr = false) (hr : checkReferences r bexpr = true) (h : Inserted bexpr x r r') :
      Inserted bexpr x (.node kind outAttrs bStream [l, r]) (.node kind outAttrs bStream [l, r'])

/-- Only selects are above what a select cannot be pushed below. -/
inductive Blocked (bexpr : BExpr) : Plan → Prop where
  | here {p : Plan} (h : Stays bexpr p) : Blocked bexpr p
  | select {pred : BExpr} {outAttrs : List Attr} {bStream : Bool} {p : Plan} (h : Blocked bexpr p) :
      Blocked bexpr (.node (.select pred) outAttrs bStream [p])

inductive Region : Plan → Prop where
  | select {pred : BExpr} {outAttrs : List Attr} {bStream : Bool} {p : Plan} (h : Region p) :
      Region (.node (.select pred) outAttrs bStream [p])
  | cross {kind : Kind} {outAttrs : List Attr} {bStream : Bool} {l r : Plan} (hk : kind.IsCross) (hl : Region l)
      (hr : Region r) : Region (.node kind outAttrs bStream [l, r])
  | other {p : Plan} (hs : ∀ pred, p.kind ≠ .select pred) (hc : ¬ p.kind.IsCross) : Region p

variable {tableMgr : TableManager} {bexpr : BExpr} {p q x : Plan}

theorem Inserted.outAttrs (h : Inserted bexpr x p q) : q.outAttrs = p.outAttrs := by
  cases h with
  | here => rfl
  | select => rfl
  | left => rfl
  | right => rfl

section Selects
variable {P : Kind → List Attr → List (List Attr) → Prop}

theorem Everywhere.select_input (hP : ∀ pred outAttrs inputs, P (.select pred) outAttrs inputs → inputs = [outAttrs]) {pred : BExpr}
    {outAttrs : List Attr} {bStream : Bool} {inputs : List Plan} (h : Everywhere P (.node (.select pred) outAttrs bStream inputs)) :
    ∃ i, inputs = [i] ∧ i.outAttrs = outAttrs ∧ Everywhere P i := by
  obtain ⟨hhere,hbelow⟩ := everywhere_node.mp h
  obtain ⟨i,rfl,hi⟩ := List.map_eq_singleton_iff.mp (hP _ _ _ hhere)
  exact ⟨i,rfl,hi,hbelow i (List.mem_singleton_self i)⟩

theorem Binary.region (hP : ∀ pred outAttrs inputs, P (.select pred) outAttrs inputs → inputs = [outAttrs]) (hs : Everywhere P p)
    (hb : Binary p) : Region p := by
  induction hb with
  | @node kind outAttrs bStream inputs here _ ih =>
    have hbelow := (everywhere_node.mp hs).2
    by_cases hk : kind.IsCross
    · obtain ⟨l,r,rfl⟩ := List.length_eq_two.mp (by simpa using here hk)
      exact .cross hk (ih l (by simp) (hbelow l (by simp))) (ih r (by simp) (hbelow r (by simp)))
    · by_cases hsel : ∃ pred, kind = .select pred
      · obtain ⟨pred,rfl⟩ := hsel
        obtain ⟨i,rfl,-,hi⟩ := Everywhere.select_input hP hs
        exact .select (ih i (by simp) hi)
      · exact .other (fun pred hp => hsel ⟨pred,hp⟩) hk

/-- The copy has the property of selects, and nothing else has changed. -/
theorem Inserted.everywhere_iff (h : Inserted bexpr x p q) :
    Everywhere P q ↔ Everywhere P p ∧ P (.select bexpr) x.outAttrs [x.outAttrs] := by
  induction h with
  | here h =>
    rw [selectAbove, everywhere_node, List.map_singleton, and_comm]
    simp
  | select h ih => simp [everywhere_node,h.outAttrs,ih,and_assoc]
  | left hk hl h ih => simp only [everywhere_node, List.map_cons, List.map_nil, h.outAttrs, List.forall_mem_cons, ih]; tauto
  | right hk hl hr h ih => simp only [everywhere_node, List.map_cons, List.map_nil, h.outAttrs, List.forall_mem_cons, ih]; tauto

end Selects

theorem Schemed.select_input {pred : BExpr} {outAttrs : List Attr} {bStream : Bool} {inputs : List Plan}
    (h : Schemed tableMgr (.node (.select pred) outAttrs bStream inputs)) :
    ∃ i, inputs = [i] ∧ i.outAttrs = outAttrs ∧ Schemed tableMgr i :=
  Everywhere.select_input (fun _ _ _ h => h) h

theorem copyAbove_ok {b : Bool} {r : Option Plan} {u v : Usage} (h : copyAbove bexpr b p u = .ok r v) :
    (b = true ∧ r = some (selectAbove bexpr p)) ∨ (b = false ∧ r = none) := by
  cases b with
  | false =>
    obtain ⟨rfl,-⟩ := pure_eq_ok.mp h
    exact .inr ⟨rfl,rfl⟩
  | true =>
    obtain ⟨o,w,h1,h⟩ := bind_eq_ok.mp h
    obtain ⟨c,w',h2,h⟩ := bind_eq_ok.mp h
    obtain ⟨rfl,-⟩ := pure_eq_ok.mp h
    have hnew : Ensures (mkSelect (some p) bexpr) (Holds fun q => q = selectAbove bexpr p) := by
      refine ensures_newop (Ensures.bind (Q := fun i => i = p) (ensures_deref (holds_some rfl)) fun i hi => ?_)
      subst hi
      exact ensures_pure rfl
    have hc := ensures_deref (hnew _ _ _ h1) _ _ _ h2
    exact .inl ⟨rfl,by rw [hc]⟩

theorem Blocked.of_select {pred : BExpr} {outAttrs : List Attr} {bStream : Bool}
    (h : Blocked bexpr (.node (.select pred) outAttrs bStream [p])) : Blocked bexpr p := by
  generalize hs : node (.select pred) outAttrs bStream [p] = s at h
  cases h with
  | here h => exact absurd (congrArg Plan.kind hs.symm) (h.not_select pred)
  | select h =>
    obtain ⟨-,-,-,hin⟩ := Plan.node.inj hs
    obtain rfl := (List.cons.inj hin).1
    exact h

/-- A cross with an input that the select fits does not block it. -/
theorem not_blocked {kind : Kind} {outAttrs : List Attr} {bStream : Bool} {inputs : List Plan} (hk : kind.IsCross)
    {i : Plan} (hi : i ∈ inputs) (hfits : checkReferences i bexpr = true) : ¬ Blocked bexpr (.node kind outAttrs bStream inputs) := by
  generalize hs : node kind outAttrs bStream inputs = s
  rintro (⟨h⟩ | ⟨h⟩)
  · subst hs
    have hno := h.no_fit hk i hi
    rw [hfits] at hno
    cases hno
  · obtain ⟨rfl,-⟩ := Plan.node.inj hs
    rcases hk with hk | hk <;> cases hk

/-- What `pushSelect` returns: the plan with a copy, or nothing when no cross has been passed. -/
theorem pushSelect_ok (hp : Region p) {b : Bool} {r : Option Plan} {u v : Usage}
    (h : pushSelect bexpr b p u = .ok r v) :
    (∃ q x, r = some q ∧ Inserted bexpr x p q ∧ (b = true ∨ ¬ Blocked bexpr p)) ∨ (b = false ∧ r = none ∧ Blocked bexpr p) := by
  induction hp generalizing b r u v with
  | @select pred outAttrs bStream p _ ih =>
    simp only [pushSelect, pushBelow, if_true] at h
    obtain ⟨s,w,h1,h⟩ := bind_eq_ok.mp h
    obtain ⟨o,w',h2,h1⟩ := bind_eq_ok.mp h1
    rcases ih h2 with ⟨q,x,rfl,hq,hfree⟩ | ⟨rfl,rfl,hb⟩
    · obtain ⟨rfl,rfl⟩ := pure_eq_ok.mp h1
      obtain ⟨rfl,-⟩ := pure_eq_ok.mp h
      exact .inl ⟨_,x,rfl,.select hq,hfree.imp_right fun hn hb => hn hb.of_select⟩
    · obtain ⟨rfl,rfl⟩ := pure_eq_ok.mp h1
      obtain ⟨rfl,-⟩ := pure_eq_ok.mp h
      exact .inr ⟨rfl,rfl,.select hb⟩
  | @cross kind outAttrs bStream l r' hk _ _ ihl ihr =>
    have hsel : ∀ pred, kind ≠ .select pred := by
      rintro pred rfl
      rcases hk with hk | hk <;> cases hk
    rw [pushSelect.eq_2 _ _ _ _ _ _ hsel, if_pos hk] at h
    obtain ⟨s,w,h1,h⟩ := bind_eq_ok.mp h
    by_cases hl : checkReferences l bexpr = true
    · simp only [pushBelow, hl, if_true] at h1
      obtain ⟨o,w',h2,h1⟩ := bind_eq_ok.mp h1
      rcases ihl h2 with ⟨q,x,rfl,hq,-⟩ | ⟨hb,-⟩
      · obtain ⟨rfl,rfl⟩ := pure_eq_ok.mp h1
        obtain ⟨rfl,-⟩ := pure_eq_ok.mp h
        exact .inl ⟨_,x,rfl,.left hk hl hq,.inr (not_blocked hk (by simp) hl)⟩
      · cases hb
    · have hl' : checkReferences l bexpr = false := by simpa using hl
      by_cases hr : checkReferences r' bexpr = true
      · simp only [pushBelow, hl', hr, if_true, Bool.false_eq_true, if_false] at h1
        obtain ⟨o',w₁,h1,h3⟩ := bind_eq_ok.mp h1
        obtain ⟨o,w',h2,h1⟩ := bind_eq_ok.mp h1
        rcases ihr h2 with ⟨q,x,rfl,hq,-⟩ | ⟨hb,-⟩
        · obtain ⟨rfl,rfl⟩ := pure_eq_ok.mp h1
          obtain ⟨rfl,rfl⟩ := pure_eq_ok.mp h3
          obtain ⟨rfl,-⟩ := pure_eq_ok.mp h
          exact .inl ⟨_,x,rfl,.right hk hl' hr hq,.inr (not_blocked hk (by simp) hr)⟩
        · cases hb
      · have hr' : checkReferences r' bexpr = false := by simpa using hr
        simp only [pushBelow, hl', hr', Bool.false_eq_true, if_false, pure_bind] at h1
        obtain ⟨rfl,rfl⟩ := pure_eq_ok.mp h1
        have hstays : Stays bexpr (.node kind outAttrs bStream [l, r']) := by
          refine ⟨hsel,fun _ i hi => ?_⟩
          simp only [Plan.inputs, List.mem_cons, List.not_mem_nil, or_false] at hi
          rcases hi with rfl | rfl
          · exact hl'
          · exact hr'
        rcases copyAbove_ok h with ⟨hb,rfl⟩ | ⟨rfl,rfl⟩
        · exact .inl ⟨_,_,rfl,.here hstays,.inl hb⟩
        · exact .inr ⟨rfl,rfl,.here hstays⟩
  | @other p hs hc =>
    obtain ⟨kind,outAttrs,bStream,inputs⟩ := p
    have hsel : ∀ pred, kind ≠ .select pred := hs
    have hcross : ¬ kind.IsCross := hc
    rw [pushSelect.eq_2 _ _ _ _ _ _ hsel, if_neg hcross] at h
    have hstays : Stays bexpr (.node kind outAttrs bStream inputs) := ⟨hs,fun hk => absurd hk hc⟩
    rcases copyAbove_ok h with ⟨hb,rfl⟩ | ⟨rfl,rfl⟩
    · exact .inl ⟨_,_,rfl,.here hstays,.inl hb⟩
    · exact .inr ⟨rfl,rfl,.here hstays⟩

theorem checkReference_attrs {e : Expr} (h : checkReference p e = true) :
    ∀ a ∈ e.attrs, p.outAttrs.any (fun b => a.same b) = true := by
  induction e with
  | constVal c => simp [Expr.attrs]
  | attrRef type a => simpa [Expr.attrs,checkReference] using h
  | compExpr type op left right hl hr =>
    obtain ⟨h1,h2⟩ := Bool.and_eq_true_iff.mp h
    intro a ha
    exact (List.mem_append.mp ha).elim (hl h1 a) (hr h2 a)

theorem checkReferences_attrs (h : checkReferences p bexpr = true) :
    ∀ a ∈ bexpr.attrs, p.outAttrs.any (fun b => a.same b) = true := by
  obtain ⟨hl,hr⟩ := Bool.and_eq_true_iff.mp h
  intro a ha
  exact (List.mem_append.mp ha).elim (checkReference_attrs hl a) (checkReference_attrs hr a)

section Meaning
variable {α : Type} {I : Interp α} {l r : List Attr} {y z : Row α}

theorem compare_left (h : ∀ a ∈ bexpr.attrs, l.any (fun b => a.same b) = true) :
    I.compare (lookup I (l ++ r) (fit I.null l.length y ++ z)) bexpr = I.compare (lookup I l y) bexpr :=
  Interp.compare_congr fun a ha => lookup_append_left (h a ha)

theorem compare_right (h : ∀ a ∈ bexpr.attrs, r.any (fun b => a.same b) = true) (hapart : Apart l r) :
    I.compare (lookup I (l ++ r) (fit I.null l.length y ++ fit I.null r.length z)) bexpr = I.compare (lookup I r z) bexpr :=
  Interp.compare_congr fun a ha => lookup_append_right (hapart.not_any (h a ha)) (h a ha)

variable [DecidableEq α] {S : Sources α}

theorem denote_selectAbove : (selectAbove bexpr p).denote I S =
    (p.denote I S).filter fun r => I.compare (lookup I p.outAttrs r) bexpr := by
  simp [selectAbove,Kind.denote]

end Meaning

theorem Schemed.inputs_apart {kind : Kind} {outAttrs : List Attr} {bStream : Bool} {l r : Plan} (hk : kind.IsCross)
    (h : Schemed tableMgr (.node kind outAttrs bStream [l, r])) :
    outAttrs = l.outAttrs ++ r.outAttrs ∧ Apart l.outAttrs r.outAttrs ∧ Schemed tableMgr l ∧ Schemed tableMgr r := by
  obtain ⟨hhere,hbelow⟩ := everywhere_node.mp h
  obtain ⟨h1,h2⟩ := hhere.cross hk
  simp only [List.map_cons, List.map_nil, List.flatten_cons, List.flatten_nil, List.append_nil, List.pairwise_cons,
    List.mem_singleton, forall_eq] at h1 h2
  exact ⟨h1,h2.1,hbelow l (by simp),hbelow r (by simp)⟩

/-- The plan with the copy is schemed, and computes what the select above the plan does. -/
theorem Inserted.same (h : Inserted bexpr x p q) (hs : Schemed tableMgr p) :
    Schemed tableMgr q ∧ Same (selectAbove bexpr p) q := by
  induction h with
  | here h =>
    refine ⟨.node ?_ fun y hy => ?_,.refl _⟩
    · simp [Kind.Schema]
    · rwa [List.mem_singleton.mp hy]
  | @select pred outAttrs bStream p q _ ih =>
    obtain ⟨i,hi,hout,hp⟩ := Schemed.select_input hs
    obtain rfl : p = i := by simpa using hi
    obtain ⟨hq,hsame⟩ := ih hp
    have hqout : q.outAttrs = outAttrs := hsame.outAttrs.trans hout
    refine ⟨.node ?_ fun y hy => ?_,⟨rfl,rfl,fun α _ I S => ?_⟩⟩
    · simp [Kind.Schema,hqout]
    · rwa [List.mem_singleton.mp hy]
    · have hd := hsame.denote α I S
      rw [denote_selectAbove, hout] at hd
      rw [denote_selectAbove]
      simp only [denote_node, List.map_cons, List.map_nil, Kind.denote, List.headD_cons, hqout, hd, hout,
        outAttrs_node, TimeVarying.filter_filter]
      simp only [Bool.and_comm]
  | @left kind outAttrs bStream l l' r hk hl _ ih =>
    obtain ⟨hout,hapart,hls,hrs⟩ := Schemed.inputs_apart hk hs
    obtain ⟨hq,hsame⟩ := ih hls
    have hqout : l'.outAttrs = l.outAttrs := hsame.outAttrs
    refine ⟨.node ?_ fun y hy => ?_,⟨rfl,rfl,fun α _ I S => ?_⟩⟩
    · have hhere := (everywhere_node.mp hs).1
      simpa [hqout] using hhere
    · simp only [List.mem_cons, List.not_mem_nil, or_false] at hy
      rcases hy with rfl | rfl
      · exact hq
      · exact hrs
    · have hd := hsame.denote α I S
      rw [denote_selectAbove] at hd
      have hattrs := checkReferences_attrs hl
      rw [denote_selectAbove]
      simp only [denote_node, List.map_cons, List.map_nil, outAttrs_node, hqout, hd, hout]
      rcases hk with rfl | rfl
      · exact (TimeVarying.filter_cross_left (p := fun y => I.compare (lookup I l.outAttrs y) bexpr)
          fun y z => compare_left hattrs).symm
      · exact (TimeVarying.filter_streamCross_left (p := fun y => I.compare (lookup I l.outAttrs y) bexpr)
          fun y z => compare_left hattrs).symm
  | @right kind outAttrs bStream l r r' hk _ hr _ ih =>
    obtain ⟨hout,hapart,hls,hrs⟩ := Schemed.inputs_apart hk hs
    obtain ⟨hq,hsame⟩ := ih hrs
    have hqout : r'.outAttrs = r.outAttrs := hsame.outAttrs
    refine ⟨.node ?_ fun y hy => ?_,⟨rfl,rfl,fun α _ I S => ?_⟩⟩
    · have hhere := (everywhere_node.mp hs).1
      simpa [hqout] using hhere
    · simp only [List.mem_cons, List.not_mem_nil, or_false] at hy
      rcases hy with rfl | rfl
      · exact hls
      · exact hq
    · have hd := hsame.denote α I S
      rw [denote_selectAbove] at hd
      have hattrs := checkReferences_attrs hr
      rw [denote_selectAbove]
      simp only [denote_node, List.map_cons, List.map_nil, outAttrs_node, hqout, hd, hout]
      rcases hk with rfl | rfl
      · exact (TimeVarying.filter_cross_right (p := fun y => I.compare (lookup I r.outAttrs y) bexpr)
          fun y z => compare_right hattrs hapart).symm
      · exact (TimeVarying.filter_streamCross_right (p := fun y => I.compare (lookup I r.outAttrs y) bexpr)
          fun y z => compare_right hattrs hapart).symm

/-- A region stays one. -/
theorem Inserted.region (h : Inserted bexpr x p q) (hp : Region p) : Region q := by
  induction h with
  | here h => exact .select hp
  | select _ ih =>
    cases hp with
    | select hp => exact .select (ih hp)
    | other hs => exact absurd rfl (hs _)
  | left hk hl _ ih =>
    cases hp with
    | cross _ hpl hpr => exact .cross hk (ih hpl) hpr
    | other _ hc => exact absurd hk hc
  | right hk hl hr _ ih =>
    cases hp with
    | cross _ hpl hpr => exact .cross hk hpl (ih hpr)
    | other _ hc => exact absurd hk hc

/-- `q` is `p` with selects from its top pushed below crosses, each to a part that has its attributes. -/
inductive Pushed : Plan → Plan → Prop where
  | refl (p : Plan) : Pushed p p
  | push {bexpr : BExpr} {outAttrs : List Attr} {bStream : Bool} {input x pushed q : Plan} (inserted : Inserted bexpr x input pushed)
      (fits : checkReferences x bexpr = true) (more : Pushed pushed q) : Pushed (.node (.select bexpr) outAttrs bStream [input]) q
  | keep {bexpr : BExpr} {outAttrs : List Attr} {bStream : Bool} {input q : Plan} (more : Pushed input q) :
      Pushed (.node (.select bexpr) outAttrs bStream [input]) (.node (.select bexpr) outAttrs bStream [q])

section Pushed
variable {P Q : Kind → List Attr → List (List Attr) → Prop}

theorem checkReference_congr (h : q.outAttrs = p.outAttrs) (e : Expr) : checkReference q e = checkReference p e := by
  induction e with
  | constVal c => rfl
  | attrRef type a => simp only [checkReference, h]
  | compExpr type op left right hl hr => simp only [checkReference, hl, hr]

theorem checkReferences_congr (h : q.outAttrs = p.outAttrs) (b : BExpr) : checkReferences q b = checkReferences p b := by
  simp only [checkReferences, checkReference_congr h]

theorem Inserted.fits (hP : ∀ pred outAttrs inputs, P (.select pred) outAttrs inputs → inputs = [outAttrs]) (hs : Everywhere P p)
    (h : Inserted bexpr x p q) (hfree : checkReferences p bexpr = true ∨ ¬ Blocked bexpr p) : checkReferences x bexpr = true := by
  induction h with
  | here h => exact hfree.resolve_right fun hn => hn (.here h)
  | select h ih =>
    obtain ⟨i,hi,hout,hp⟩ := Everywhere.select_input hP hs
    obtain rfl := (List.cons.inj hi).1
    exact ih hp (hfree.imp (fun hc => (checkReferences_congr hout _).trans hc) fun hn hb => hn (.select hb))
  | left hk hl h ih => exact ih ((everywhere_node.mp hs).2 _ (by simp)) (.inl hl)
  | right hk hl hr h ih => exact ih ((everywhere_node.mp hs).2 _ (by simp)) (.inl hr)

theorem pushSelects_pushed (hP : ∀ pred outAttrs inputs, P (.select pred) outAttrs inputs ↔ inputs = [outAttrs]) {n : ℕ} {u v : Usage}
    (hs : Everywhere P p) (hr : Region p) (h : pushSelects n p u = .ok q v) : Pushed p q := by
  fun_induction pushSelects n p generalizing q u v with
  | case1 n bexpr outAttrs bStream input ih =>
    obtain ⟨i,hi,hout,his⟩ := Everywhere.select_input (fun _ _ _ => (hP _ _ _).mp) hs
    obtain rfl := (List.cons.inj hi).1
    have hregion : Region input := by
      cases hr with
      | select hr => exact hr
      | other hsel => exact absurd rfl (hsel _)
    obtain ⟨o,w,h1,h⟩ := bind_eq_ok.mp h
    rcases pushSelect_ok hregion h1 with ⟨pushed,x,rfl,hpushed,hfree⟩ | ⟨-,rfl,-⟩
    · have hfits := hpushed.fits (fun _ _ _ => (hP _ _ _).mp) his (hfree.imp_left (by simp))
      refine .push hpushed hfits (ih pushed ?_ (hpushed.region hregion) h)
      exact hpushed.everywhere_iff.mpr ⟨his,(hP _ _ _).mpr rfl⟩
    · obtain ⟨c,w',h2,h⟩ := bind_eq_ok.mp h
      obtain ⟨rfl,-⟩ := pure_eq_ok.mp h
      exact .keep (ih input his hregion h2)
  | case2 =>
    obtain ⟨rfl,-⟩ := pure_eq_ok.mp h
    exact .refl _

/-- What holds of selects that copy their schema holds after the selects have been pushed. -/
theorem Pushed.everywhere (hP : ∀ pred outAttrs inputs, P (.select pred) outAttrs inputs ↔ inputs = [outAttrs]) (hs : Everywhere P p)
    (h : Pushed p q) : Everywhere P q ∧ q.outAttrs = p.outAttrs := by
  induction h with
  | refl p => exact ⟨hs,rfl⟩
  | push hinserted _ _ ih =>
    obtain ⟨i,hi,hout,his⟩ := Everywhere.select_input (fun _ _ _ => (hP _ _ _).mp) hs
    obtain rfl := (List.cons.inj hi).1
    obtain ⟨hall,hsame⟩ := ih (hinserted.everywhere_iff.mpr ⟨his,(hP _ _ _).mpr rfl⟩)
    exact ⟨hall,hsame.trans (hinserted.outAttrs.trans hout)⟩
  | keep _ ih =>
    obtain ⟨i,hi,hout,his⟩ := Everywhere.select_input (fun _ _ _ => (hP _ _ _).mp) hs
    obtain rfl := (List.cons.inj hi).1
    obtain ⟨hall,hsame⟩ := ih his
    refine ⟨.node ?_ fun p hp => ?_,rfl⟩
    · rw [hP, List.map_singleton, hsame, hout]
    · rwa [List.mem_singleton.mp hp]

end Pushed

theorem select_eq_above {pred : BExpr} {outAttrs : List Attr} {bStream : Bool} {i : Plan}
    (hout : i.outAttrs = outAttrs) (hb : i.bStream = bStream) :
    node (.select pred) outAttrs bStream [i] = selectAbove pred i := by
  rw [selectAbove, hout, hb]

theorem pushSelects_same {known : ℕ → Prop} {n : ℕ} {u v : Usage} (hs : Schemed tableMgr p)
    (hf : Flagged known tableMgr p) (hr : Region p) (h : pushSelects n p u = .ok q v) : Same p q := by
  fun_induction pushSelects n p generalizing q u v with
  | case1 n bexpr outAttrs bStream input ih =>
    obtain ⟨i,hi,hout,his⟩ := Schemed.select_input hs
    obtain rfl : input = i := by simpa using hi
    have hb : input.bStream = bStream := (flagged_node.mp hf).2.2.1.symm
    have hregion : Region input := by
      cases hr with
      | select hr => exact hr
      | other hsel => exact absurd rfl (hsel _)
    obtain ⟨o,w,h1,h⟩ := bind_eq_ok.mp h
    have hflag := ensures_pushSelect bexpr false input hf.input u o w h1
    rcases pushSelect_ok hregion h1 with ⟨pushed,x,rfl,hpushed,-⟩ | ⟨-,rfl,-⟩
    · obtain ⟨hps,hsame⟩ := hpushed.same his
      rw [select_eq_above hout hb]
      exact hsame.trans (ih pushed hps (hflag pushed rfl).1 (hpushed.region hregion) h)
    · obtain ⟨c,w',h2,h⟩ := bind_eq_ok.mp h
      obtain ⟨rfl,-⟩ := pure_eq_ok.mp h
      exact .node (.cons (ih input his hf.input hregion h2) .nil)
  | case2 =>
    obtain ⟨rfl,-⟩ := pure_eq_ok.mp h
    exact .refl _

/-- `t_pushSelect` keeps what a plan with binary crosses computes, its schema and its flag. -/
theorem tPushSelect_same {known : ℕ → Prop} {u v : Usage} (hs : Schemed tableMgr p) (hf : Flagged known tableMgr p)
    (hb : Binary p) (h : tPushSelect p u = .ok q v) : Same p q := by
  obtain ⟨⟨passed,i⟩,hw⟩ : ∃ w, walk isUnaryAboveSelect p [] = w := ⟨_,rfl⟩
  simp only [tPushSelect, hw] at h
  split at h
  · obtain ⟨rfl,-⟩ := pure_eq_ok.mp h
    exact .refl _
  · obtain ⟨c,w,h1,h⟩ := bind_eq_ok.mp h
    obtain ⟨rfl,-⟩ := pure_eq_ok.mp h
    have his := Everywhere.of_rebuild (Everywhere.walk [] hs hw)
    have hib := Everywhere.of_rebuild (Everywhere.walk [] hb hw)
    have hif := (Flagged.walk [] hf hw).of_rebuild
    have hsame : Same (rebuild i passed) (rebuild c passed) := (pushSelects_same his hif (Binary.region (fun _ _ _ h => h) his hib) h1).rebuild
    have hre := rebuild_walk isUnaryAboveSelect p []
    rw [hw] at hre
    rw [hre] at hsame
    exact hsame

/-- Two selects above the cross of the stream's latest rows and the relation. -/
def selectsOverCross : Plan :=
  .node (.select ⟨.eq,.attrRef .int (.named 1 1 0),.constVal (.int 5)⟩) [.named 0 0 0, .named 1 1 0] false
    [.node (.select ⟨.lt,.attrRef .int (.named 0 0 0),.attrRef .int (.named 1 1 0)⟩) [.named 0 0 0, .named 1 1 0] false
      [.node .cross [.named 0 0 0, .named 1 1 0] false
        [.node .nowWin [.named 0 0 0] false [.node (.streamSource 0 0) [.named 0 0 0] true []],
         .node (.relnSource 1 1) [.named 1 1 0] false []]]]

theorem selectsOverCross_schemed : Schemed streamAndRelation selectsOverCross := by
  simp [Schemed,selectsOverCross,everywhere_node,Kind.Schema,Apart,Attr.same,tableAttrs,TableManager.getNumAttrs,
    TableManager.attrs,streamAndRelation]

theorem selectsOverCross_flagged : Flagged (fun _ => True) streamAndRelation selectsOverCross := by
  simp [selectsOverCross,flagged_node,Kind.Registered,Kind.Takes,Kind.streams,TableManager.isStream,streamAndRelation]

/-- The select on the relation goes below the cross. -/
theorem selectsOverCross_same : ∃ q, tPushSelect selectsOverCross ⟨0,0⟩ = .ok q ⟨1,0⟩ ∧ Same selectsOverCross q := by
  have hbinary : Binary selectsOverCross := by simp [Binary,selectsOverCross,everywhere_node]
  obtain ⟨q,hq⟩ : ∃ q, tPushSelect selectsOverCross ⟨0,0⟩ = .ok q ⟨1,0⟩ := ⟨_,rfl⟩
  exact ⟨q,hq,tPushSelect_same selectsOverCross_schemed selectsOverCross_flagged hbinary hq⟩

end AqsiosCoordinator.Logical.Plan
