import AqsiosCoordinator.Metadata.SharingRuns

/-! # How comparisons end does not change along a run

Two operators that have been found equal can stand for each other in every comparison,
so that a merge changes no comparison that comes after it.
-/
namespace AqsiosCoordinator.Physical
open Common Foundation Foundation.Outcome
variable {ops : OpId → Operator} {a b c d x y w : OpId}

theorem exprEq_comm (e f : Expr) : exprEq e f = exprEq f e := by
  rw [Bool.eq_iff_iff, untyped_eq_iff, untyped_eq_iff]
  exact eq_comm

theorem predEq_comm (p q : List BExpr) : predEq p q = predEq q p := by
  rw [Bool.eq_iff_iff, predEq_iff, predEq_iff]
  exact eq_comm

theorem comparePreds_comm (p q : List BExpr) : comparePreds p q = comparePreds q p := by
  simp only [comparePreds, predEq_comm p q, or_comm (a := p = [])]

theorem compareProjs_comm (n : ℕ) (es fs : List Expr) : compareProjs n es fs = compareProjs n fs es := by
  induction n generalizing es fs with
  | zero => rfl
  | succ n ih =>
    cases es with
    | nil => cases fs <;> rfl
    | cons e es =>
      cases fs with
      | nil => rfl
      | cons f fs => simp only [compareProjs, exprEq_comm e f, ih es fs]

theorem compareBodies_comm (n : ℕ) (b c : Body) : compareBodies n b c = compareBodies n c b := by
  cases b <;> cases c <;> simp only [compareBodies]
  case select.select p q => exact comparePreds_comm p q
  case project.project es fs => exact compareProjs_comm n es fs
  case join.join o i p o' i' q | strJoin.strJoin o i p o' i' q =>
    simp only [comparePreds_comm p q, ne_comm (a := o), ne_comm (a := i)]
  case joinProject.joinProject es p fs q | strJoinProject.strJoinProject es p fs q =>
    rw [comparePreds_comm, compareProjs_comm]
  all_goals simp only [eq_comm]

theorem compareInputs_comm {f : OpId → OpId → Except Failure Bool} (hf : ∀ a b, f a b = f b a) (as bs : List OpId) :
    compareInputs f as bs = compareInputs f bs as := by
  induction as generalizing bs with
  | nil => cases bs <;> rfl
  | cons a as ih =>
    cases bs with
    | nil => rfl
    | cons b bs => simp only [compareInputs, hf a b, ih bs]

theorem compareOperators_comm (fuel : ℕ) (a b : OpId) : compareOperators ops fuel a b = compareOperators ops fuel b a := by
  induction fuel generalizing a b with
  | zero => rfl
  | succ fuel ih =>
    simp only [compareOperators, compareInputs_comm ih (ops a).inputs]
    by_cases hab : a = b
    · rw [if_pos hab, if_pos hab.symm]
    rw [if_neg hab, if_neg (Ne.symm hab)]
    by_cases hne : (ops a).body.kind ≠ (ops b).body.kind ∨ (ops a).attrs ≠ (ops b).attrs ∨
        (ops a).bStream ≠ (ops b).bStream ∨ (ops a).inputs.length ≠ (ops b).inputs.length
    · have hne' : (ops b).body.kind ≠ (ops a).body.kind ∨ (ops b).attrs ≠ (ops a).attrs ∨
          (ops b).bStream ≠ (ops a).bStream ∨ (ops b).inputs.length ≠ (ops a).inputs.length :=
        hne.imp Ne.symm (Or.imp Ne.symm (Or.imp Ne.symm Ne.symm))
      rw [if_pos hne, if_pos hne']
    · have hne' : ¬ ((ops b).body.kind ≠ (ops a).body.kind ∨ (ops b).attrs ≠ (ops a).attrs ∨
          (ops b).bStream ≠ (ops a).bStream ∨ (ops b).inputs.length ≠ (ops a).inputs.length) :=
        fun h => hne (h.imp Ne.symm (Or.imp Ne.symm (Or.imp Ne.symm Ne.symm)))
      rw [if_neg hne, if_neg hne', compareBodies_comm]
      have hattrs : (ops a).attrs = (ops b).attrs := by
        by_contra h
        exact hne (.inr (.inl h))
      rw [hattrs]

theorem comparePreds_congr {p q : List BExpr} (h : comparePreds p q = .ok true) (r : List BExpr) :
    comparePreds p r = comparePreds q r := by
  have hpq := comparePreds_sound h
  have hne : ¬ (p = [] ∨ q = []) := fun he => by simp [comparePreds,he] at h
  have heq : predEq p r = predEq q r := by rw [Bool.eq_iff_iff, predEq_iff, predEq_iff, hpq]
  unfold comparePreds
  rw [heq]
  congr 1
  simp only [eq_iff_iff]
  tauto

theorem compareProjs_congr {n : ℕ} {es fs : List Expr} (h : compareProjs n es fs = .ok true) (gs : List Expr) :
    compareProjs n es gs = compareProjs n fs gs := by
  fun_induction compareProjs n es fs generalizing gs with
  | case1 => rfl
  | case2 n e es f fs hef ih =>
    cases gs with
    | nil => rfl
    | cons g gs =>
      have heq : exprEq e g = exprEq f g := by
        rw [Bool.eq_iff_iff, untyped_eq_iff, untyped_eq_iff, (untyped_eq_iff e f).mp hef]
      simp only [compareProjs, heq, ih h gs]
  | case3 => simp at h
  | case4 => simp at h

theorem compareBodies_congr {n : ℕ} {b c : Body} (h : compareBodies n b c = .ok true) (d : Body) :
    compareBodies n b d = compareBodies n c d := by
  unfold compareBodies at h
  split at h
  case h_1 => cases d <;> simp only [compareBodies, comparePreds_congr h]
  case h_2 => cases d <;> simp only [compareBodies, compareProjs_congr h]
  case h_3 | h_4 =>
    obtain ⟨rfl,rfl,hp⟩ := compareJoins_true h
    cases d <;> simp only [compareBodies, comparePreds_congr hp]
  case h_5 | h_6 =>
    obtain ⟨hp,he⟩ := compareJoinProjs_true h
    cases d <;> simp only [compareBodies, comparePreds_congr hp, compareProjs_congr he]
  case h_17 => simp at h
  all_goals
    simp only [Except.ok.injEq, Bool.and_eq_true, decide_eq_true_eq] at h
    cases d <;> simp only [compareBodies, h]

theorem compareInputs_congr {R S : OpId → OpId → Prop} {f g : OpId → OpId → Except Failure Bool}
    {as as' bs bs' : List OpId} (ha : List.Forall₂ R as as') (hb : List.Forall₂ S bs bs')
    (h : ∀ a ∈ as, ∀ a', R a a' → ∀ b ∈ bs, ∀ b', S b b' → f a b = g a' b') :
    compareInputs f as bs = compareInputs g as' bs' := by
  induction ha generalizing bs bs' with
  | nil => cases hb <;> rfl
  | cons haa _ ih =>
    cases hb with
    | nil => rfl
    | cons hbb hbs =>
      simp only [compareInputs, h _ List.mem_cons_self _ haa _ List.mem_cons_self _ hbb]
      congr 1
      funext r
      cases r with
      | false => rfl
      | true =>
        apply ih hbs
        intro a ha a' haa b hb b' hbb
        exact h a (List.mem_cons_of_mem _ ha) a' haa b (List.mem_cons_of_mem _ hb) b' hbb

theorem forall₂_eq (l : List OpId) : List.Forall₂ Eq l l := List.forall₂_same.mpr fun _ _ => rfl

theorem forall₂_of_compareInputs {f : OpId → OpId → Except Failure Bool} {as bs : List OpId}
    (hlen : as.length = bs.length) (h : compareInputs f as bs = .ok true) :
    List.Forall₂ (fun a b => f a b = .ok true) as bs := by
  induction as generalizing bs with
  | nil =>
    obtain rfl := List.length_eq_zero_iff.mp hlen.symm
    exact .nil
  | cons a as ih =>
    cases bs with
    | nil => simp at hlen
    | cons b bs =>
      simp only [compareInputs] at h
      cases hab : f a b with
      | error e => simp [hab,bind,Except.bind] at h
      | ok r =>
        cases r with
        | false => simp [hab,bind,Except.bind,pure,Except.pure] at h
        | true => exact .cons hab (ih (by simpa using hlen) (by simpa [hab,bind,Except.bind] using h))

/-- The parts of a comparison that has found two operators equal. -/
theorem compareOperators_true {fuel : ℕ} (hne : a ≠ b) (h : compareOperators ops (fuel + 1) a b = .ok true) :
    ((ops a).body.kind = (ops b).body.kind ∧ (ops a).attrs = (ops b).attrs ∧ (ops a).bStream = (ops b).bStream ∧
      (ops a).inputs.length = (ops b).inputs.length) ∧
    List.Forall₂ (fun c d => compareOperators ops fuel c d = .ok true) (ops a).inputs (ops b).inputs ∧
    compareBodies (ops a).attrs.length (ops a).body (ops b).body = .ok true := by
  simp only [compareOperators, if_neg hne] at h
  split at h
  · simp [pure,Except.pure] at h
  · rename_i hsame
    simp only [not_or, not_not] at hsame
    cases hin : compareInputs (compareOperators ops fuel) (ops a).inputs (ops b).inputs with
    | error e => simp [hin,bind,Except.bind] at h
    | ok r =>
      cases r with
      | false => simp [hin,bind,Except.bind,pure,Except.pure] at h
      | true => exact ⟨hsame,forall₂_of_compareInputs hsame.2.2.2 hin,by simpa [hin,bind,Except.bind] using h⟩

/-- Operators that are found equal are found the same with respect to every other. -/
theorem compareOperators_congr {fuel : ℕ} (h : compareOperators ops fuel x y = .ok true) (w : OpId) :
    compareOperators ops fuel x w = compareOperators ops fuel y w := by
  induction fuel generalizing x y w with
  | zero => simp [compareOperators] at h
  | succ fuel ih =>
    have hself (z : OpId) : compareOperators ops (fuel + 1) z z = .ok true := by simp [compareOperators,pure,Except.pure]
    by_cases hxy : x = y
    · rw [hxy]
    by_cases hwx : x = w
    · rw [← hwx, hself, compareOperators_comm, h]
    by_cases hwy : y = w
    · rw [← hwy, hself, h]
    obtain ⟨⟨hk,hattrs,hstr,hlen⟩,hin,hbody⟩ := compareOperators_true hxy h
    rw [hattrs] at hbody
    have hins : compareInputs (compareOperators ops fuel) (ops x).inputs (ops w).inputs =
        compareInputs (compareOperators ops fuel) (ops y).inputs (ops w).inputs := by
      apply compareInputs_congr hin (forall₂_eq (ops w).inputs)
      rintro c _ c' hc d _ _ rfl
      exact ih hc d
    simp only [compareOperators, if_neg hwx, if_neg hwy, hk, hattrs, hstr, hlen, hins, compareBodies_congr hbody]

section Run
variable {L : Type} {lab : OpId → Operator → L} {V : List OpId} {T : OpId → ComputationTree L} {s t u : PlanState}

/-- The same comparison with more fuel than the first operator is high. -/
theorem compareOperators_fuel (h : Computes lab V T s) {m n : ℕ} (ha : a ∈ V) (hm : (T a).height ≤ m)
    (hn : (T a).height ≤ n) : compareOperators s.ops m a b = compareOperators s.ops n a b := by
  induction m generalizing a b n with
  | zero => exact absurd (T a).height_pos (by omega)
  | succ m ih =>
    cases n with
    | zero => exact absurd (T a).height_pos (by omega)
    | succ n =>
      have hins : compareInputs (compareOperators s.ops m) (s.ops a).inputs (s.ops b).inputs =
          compareInputs (compareOperators s.ops n) (s.ops a).inputs (s.ops b).inputs := by
        apply compareInputs_congr (forall₂_eq (s.ops a).inputs) (forall₂_eq (s.ops b).inputs)
        rintro c hc _ rfl d _ _ rfl
        have hlt := ComputationTree.height_lt_of_mem (h.unfolding.mem_inputs ha hc)
        exact ih (h.input_mem ha c hc) (by omega) (by omega)
      simp only [compareOperators, hins]

/-- Inputs have been made to read from `x` in place of `y`, and nothing else has changed that is compared. -/
structure Redirected (x y : OpId) (s t : PlanState) : Prop where
  body : ∀ o, (t.ops o).body = (s.ops o).body
  attrs : ∀ o, (t.ops o).attrs = (s.ops o).attrs
  bStream : ∀ o, (t.ops o).bStream = (s.ops o).bStream
  inputs : ∀ o, List.Forall₂ (fun c d => d = c ∨ c = y ∧ d = x) (s.ops o).inputs (t.ops o).inputs

theorem Redirected.refl (x y : OpId) (s : PlanState) : Redirected x y s s :=
  ⟨fun _ => rfl,fun _ => rfl,fun _ => rfl,fun _ => List.forall₂_same.mpr fun _ _ => .inl rfl⟩

theorem Redirected.setOp {o : OpId} {op : Operator} (h : Redirected x y s t) (hbody : op.body = (t.ops o).body)
    (hattrs : op.attrs = (t.ops o).attrs) (hstr : op.bStream = (t.ops o).bStream)
    (hin : List.Forall₂ (fun c d => d = c ∨ c = y ∧ d = x) (s.ops o).inputs op.inputs) :
    Redirected x y s (t.setOp o op) := by
  have hall (p : OpId) : ((t.setOp o op).ops p).body = (s.ops p).body ∧ ((t.setOp o op).ops p).attrs = (s.ops p).attrs ∧
      ((t.setOp o op).ops p).bStream = (s.ops p).bStream ∧
      List.Forall₂ (fun c d => d = c ∨ c = y ∧ d = x) (s.ops p).inputs ((t.setOp o op).ops p).inputs := by
    by_cases hp : p = o
    · subst hp
      rw [setOp_ops_self]
      exact ⟨hbody.trans (h.body p),hattrs.trans (h.attrs p),hstr.trans (h.bStream p),hin⟩
    · rw [setOp_ops_of_ne _ hp]
      exact ⟨h.body p,h.attrs p,h.bStream p,h.inputs p⟩
  exact ⟨fun p => (hall p).1,fun p => (hall p).2.1,fun p => (hall p).2.2.1,fun p => (hall p).2.2.2⟩

theorem forall₂_set {R : OpId → OpId → Prop} {as bs : List OpId} {l : ℕ} (h : List.Forall₂ R as bs)
    (hl : bs[l]? = some y) (hR : ∀ a, R a y → R a x) : List.Forall₂ R as (bs.set l x) := by
  induction h generalizing l with
  | nil => exact .nil
  | cons hab h ih =>
    cases l with
    | zero =>
      obtain rfl := Option.some.inj hl
      exact .cons (hR _ hab) h
    | succ l => exact .cons hab (ih hl)

/-- Every operator of `V` that is merged with others has neighbours on the list. -/
def Linked (V : List OpId) (s : PlanState) : Prop :=
  ∀ o ∈ V, (s.ops o).body.kind.combines = true → s.links.prev o ≠ none ∧ s.links.next o ≠ none

def WithinMerge (V : List OpId) (x y : OpId) (s t : PlanState) : Prop := Redirected x y s t ∧ Linked V t

theorem WithinMerge.setOp {o : OpId} {op : Operator} (h : WithinMerge V x y s t) (hbody : op.body = (t.ops o).body)
    (hattrs : op.attrs = (t.ops o).attrs) (hstr : op.bStream = (t.ops o).bStream)
    (hin : List.Forall₂ (fun c d => d = c ∨ c = y ∧ d = x) (s.ops o).inputs op.inputs) :
    WithinMerge V x y s (t.setOp o op) := by
  refine ⟨h.1.setOp hbody hattrs hstr hin,fun p hp hk => h.2 p hp ?_⟩
  by_cases hpo : p = o
  · subst hpo
    rwa [setOp_ops_self, hbody] at hk
  · rwa [setOp_ops_of_ne _ hpo] at hk

theorem moveOutputs_within (i : ℕ) (qs : List OpId) : Triple (WithinMerge V x y s) (moveOutputs x y i qs)
    (fun _ => WithinMerge V x y s) (fun e t => WithinMerge V x y s t ∧ e = .outOfBounds) := by
  induction qs generalizing i with
  | nil => exact triple_pure fun t ht => ht
  | cons q qs ih =>
    refine Triple.bind (triple_failIf fun t _ ht => ⟨ht,rfl⟩) fun _ => ?_
    refine Triple.bind triple_getOp fun o => ?_
    cases hl : lastIdx y o.inputs with
    | none => exact triple_pure fun t ht => ht.1.1
    | some l =>
      refine Triple.bind (triple_modify fun t ht => ?_) fun _ => ih (i + 1)
      obtain ⟨⟨ht,-⟩,rfl⟩ := ht
      refine ht.setOp rfl rfl rfl (forall₂_set (ht.1.inputs q) (lastIdx_some hl) fun c hc => ?_)
      rcases hc with rfl | ⟨rfl,-⟩ <;> exact .inr ⟨rfl,rfl⟩

theorem dropFromInputs_within (cs : List OpId) : Triple (WithinMerge V x y s) (dropFromInputs y cs)
    (fun _ => WithinMerge V x y s) (fun e t => WithinMerge V x y s t ∧ e = .outOfBounds) := by
  induction cs with
  | nil => exact triple_pure fun t ht => ht
  | cons c cs ih =>
    refine Triple.bind triple_getOp fun o => ?_
    cases hk : lastIdx y o.outputs with
    | none => exact triple_pure fun t ht => ht.1
    | some k =>
      refine Triple.bind (triple_modify fun t ht => ?_) fun _ => ih
      exact ht.1.setOp rfl rfl rfl (ht.1.1.inputs c)

theorem unlinkOp_within (hy : y ∈ V) (hcomb : (s.ops y).body.kind.combines = true) :
    Triple (WithinMerge V x y s) (unlinkOp y) (fun _ => WithinMerge V x y s)
      (fun e t => WithinMerge V x y s t ∧ e = .outOfBounds) := by
  refine Triple.bind triple_get fun u => ?_
  cases hp : u.links.prev y with
  | none =>
    rintro v ⟨hv,rfl⟩
    rw [← hv.1.body y] at hcomb
    exact absurd hp (hv.2 y hy hcomb).1
  | some p =>
    cases hn : u.links.next y with
    | none =>
      rintro v ⟨hv,rfl⟩
      rw [← hv.1.body y] at hcomb
      exact absurd hn (hv.2 y hy hcomb).2
    | some n =>
      rintro v ⟨hv,rfl⟩
      refine ⟨⟨hv.1.body,hv.1.attrs,hv.1.bStream,hv.1.inputs⟩,fun o ho hk => ?_⟩
      obtain ⟨h1,h2⟩ := hv.2 o ho hk
      constructor
      · by_cases hon : o = n
        · rw [hon]
          simp
        · rw [Links.setPrev_prev_of_ne _ hon]
          exact h1
      · by_cases hop : o = p
        · rw [hop]
          simp
        · rw [Links.setPrev_next, Links.setNext_next_of_ne _ hop]
          exact h2

/-- A merge fails only for want of room. -/
theorem mergeOperators_within (sharing : Bool) (hs : Linked V s) (hy : y ∈ V)
    (hcomb : (s.ops y).body.kind.combines = true) :
    Keeps (WithinMerge V x y s) (fun e => e = .outOfBounds) s (mergeOperators x y sharing) (fun _ => True) := by
  have hrest (outs ins : List OpId) (n : ℕ) : Triple (WithinMerge V x y s) (do
      if !(← moveOutputs x y n outs) then return false
      modifyOp x (fun o => { o with outputs := o.outputs ++ outs })
      if !(← dropFromInputs y ins) then return false
      unlinkOp y
      return true) (fun _ t => WithinMerge V x y s t ∧ True) (fun e t => WithinMerge V x y s t ∧ e = .outOfBounds) := by
    refine Triple.bind (moveOutputs_within n outs) fun b => ?_
    split
    · exact triple_pure fun t ht => ⟨ht,trivial⟩
    refine Triple.bind (Q := fun _ => WithinMerge V x y s) (triple_modify fun t ht => ?_) fun _ => ?_
    · exact ht.setOp rfl rfl rfl (ht.1.inputs x)
    refine Triple.bind (dropFromInputs_within ins) fun b => ?_
    split
    · exact triple_pure fun t ht => ⟨ht,trivial⟩
    · exact Triple.bind (unlinkOp_within hy hcomb) fun _ => triple_pure fun t ht => ⟨ht,trivial⟩
  have hget (o : OpId) : getOp o s = .ok (s.ops o) s := rfl
  have hstart : WithinMerge V x y s s := ⟨.refl x y s,hs⟩
  intro v hv
  rw [hv]
  unfold mergeOperators
  rw [bind_of_ok (hget x), bind_of_ok (hget y)]
  by_cases hclass : ((s.ops x).queryClassId ≠ (s.ops y).queryClassId && !sharing) = true
  · rw [if_pos hclass]
    exact ⟨hstart,trivial⟩
  rw [if_neg hclass]
  by_cases hlt : (s.ops y).queryClassId < (s.ops x).queryClassId
  · rw [if_pos hlt]
    refine hrest _ _ _ (s.setOp x { s.ops x with queryClassId := (s.ops y).queryClassId }) ?_
    exact hstart.setOp rfl rfl rfl (hstart.1.inputs x)
  · rw [if_neg hlt]
    exact hrest _ _ _ s hstart

/-- A state of the run from `s`: what operators compute and how comparisons end is as in `s`. -/
structure Steady (lab : OpId → Operator → L) (V : List OpId) (T : OpId → ComputationTree L) (s t : PlanState) : Prop where
  computes : Computes lab V T t
  linked : Linked V t
  compare_eq : ∀ a ∈ V, ∀ b, compareOperators t.ops (MAX_OPS + 1) a b = compareOperators s.ops (MAX_OPS + 1) a b

/-- Comparisons end as they did before operators that are equal were merged. -/
theorem Redirected.compare_eq (hlab : Labelling lab) (h : Redirected x y s t) (hs : Computes lab V T s)
    (ht : Computes lab V T t) (hN : ∀ o ∈ V, (T o).height ≤ MAX_OPS)
    (hx : x ∈ V) (hy : y ∈ V) (hxy : compareOperators s.ops (MAX_OPS + 1) x y = .ok true) (ha : a ∈ V) :
    compareOperators t.ops (MAX_OPS + 1) a b = compareOperators s.ops (MAX_OPS + 1) a b := by
  have heq : T x = T y := compareOperators_sound hlab hs hx hy hxy
  have hstand {c c' : OpId} (hc : c' = c ∨ c = y ∧ c' = x) (w : OpId) :
      compareOperators s.ops (MAX_OPS + 1) c w = compareOperators s.ops (MAX_OPS + 1) c' w := by
    rcases hc with rfl | ⟨rfl,rfl⟩
    · rfl
    · exact (compareOperators_congr hxy w).symm
  induction hheight : (T a).height using Nat.strong_induction_on generalizing a b with
  | _ n ih =>
    have hins : compareInputs (compareOperators s.ops MAX_OPS) (s.ops a).inputs (s.ops b).inputs =
        compareInputs (compareOperators t.ops MAX_OPS) (t.ops a).inputs (t.ops b).inputs := by
      apply compareInputs_congr (h.inputs a) (h.inputs b)
      intro c hc c' hcc d _ d' hdd
      have hcV := hs.input_mem ha c hc
      have hc' : c' ∈ V ∧ T c' = T c := by
        rcases hcc with rfl | ⟨rfl,rfl⟩
        · exact ⟨hcV,rfl⟩
        · exact ⟨hx,heq⟩
      have hlt : (T c').height < (T a).height := by
        rw [hc'.2]
        exact ComputationTree.height_lt_of_mem (hs.unfolding.mem_inputs ha hc)
      calc compareOperators s.ops MAX_OPS c d
          = compareOperators s.ops (MAX_OPS + 1) c d :=
            compareOperators_fuel hs hcV (hN c hcV) ((hN c hcV).trans (Nat.le_succ _))
        _ = compareOperators s.ops (MAX_OPS + 1) c' d := hstand hcc d
        _ = compareOperators s.ops (MAX_OPS + 1) c' d' := by
            rw [compareOperators_comm, hstand hdd, compareOperators_comm]
        _ = compareOperators t.ops (MAX_OPS + 1) c' d' := (ih _ (hheight ▸ hlt) hc'.1 rfl).symm
        _ = compareOperators t.ops MAX_OPS c' d' :=
            (compareOperators_fuel ht hc'.1 (hN c' hc'.1) ((hN c' hc'.1).trans (Nat.le_succ _))).symm
    simp only [compareOperators, h.body, h.attrs, h.bStream, ← (h.inputs a).length_eq, ← (h.inputs b).length_eq, hins]

theorem Steady.merge (hlab : Labelling lab) (h : Steady lab V T s t) (hN : ∀ o ∈ V, (T o).height ≤ MAX_OPS)
    (hx : x ∈ V) (hy : y ∈ V) (hne : x ≠ y) (hxy : compareOperators t.ops (MAX_OPS + 1) x y = .ok true)
    (sharing : Bool) : Keeps (Steady lab V T s) (fun e => e = .outOfBounds) t (mergeOperators x y sharing) (fun _ => True) := by
  have heq := compareOperators_sound hlab h.computes hx hy hxy
  have hcomb : (t.ops y).body.kind.combines = true := (compareBodies_sound (compareOperators_true hne hxy).2.2).2.2
  have hcomputes := mergeOperators_computes hlab sharing hx hy heq
  have hwithin := keeps_iff.mp (mergeOperators_within (x := x) sharing h.linked hy hcomb)
  have hsteady {u : PlanState} (hu : Computes lab V T u) (hw : WithinMerge V x y t u) : Steady lab V T s u := by
    refine ⟨hu,hw.2,fun a ha b => ?_⟩
    rw [hw.1.compare_eq hlab h.computes hu hN hx hy hxy ha, h.compare_eq a ha b]
  apply keeps_iff.mpr
  constructor
  · intro b u hm
    exact ⟨hsteady (hcomputes.of_ok h.computes hm) (hwithin.1 b u hm).1,trivial⟩
  · intro e u hm
    obtain ⟨hw,he⟩ := hwithin.2 e u hm
    exact ⟨hsteady (hcomputes.of_error h.computes hm).1 hw,he⟩

end Run

end AqsiosCoordinator.Physical
