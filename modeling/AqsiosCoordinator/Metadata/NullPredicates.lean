import AqsiosCoordinator.Metadata.ComparisonOutcomes
import AqsiosCoordinator.Metadata.SharedClasses

/-! # Joins without a predicate in comparisons

A join gets its predicate when a select above it is merged into it, and has a null
predicate otherwise. Comparing two joins reads both predicates.
-/
namespace AqsiosCoordinator.Physical
open Common Foundation Foundation.Outcome

def Body.NullJoins : Body → Body → Prop
  | .join outer inner p, .join outer' inner' q | .strJoin outer inner p, .strJoin outer' inner' q =>
    outer = outer' ∧ inner = inner' ∧ (p = [] ∨ q = [])
  | .joinProject _ p, .joinProject _ q | .strJoinProject _ p, .strJoinProject _ q => p = [] ∨ q = []
  | _, _ => False

/-- Operators of the same kind, with the same schema, stream flag and number of inputs. -/
def Operator.Alike (o o' : Operator) : Prop :=
  o.body.kind = o'.body.kind ∧ o.attrs = o'.attrs ∧ o.bStream = o'.bStream ∧ o.inputs.length = o'.inputs.length

/-- At the same place in the plans below two operators, or at the operators themselves, stand
two joins over the same computations of which one has no predicate. -/
inductive PlanState.MeetsNull (s : PlanState) : OpId → OpId → Prop where
  | here {a b : OpId} (hne : a ≠ b) (hlike : (s.ops a).Alike (s.ops b))
      (hin : List.Forall₂ s.SameComputation (s.ops a).inputs (s.ops b).inputs)
      (hnull : (s.ops a).body.NullJoins (s.ops b).body) : s.MeetsNull a b
  | inputs {a b c d : OpId} {as as' bs bs' : List OpId} (hne : a ≠ b) (hlike : (s.ops a).Alike (s.ops b))
      (ha : (s.ops a).inputs = as ++ c :: as') (hb : (s.ops b).inputs = bs ++ d :: bs')
      (hin : List.Forall₂ s.SameComputation as bs) (h : s.MeetsNull c d) : s.MeetsNull a b

theorem comparePreds_null {p q : List BExpr} : comparePreds p q = .error .nullDeref ↔ p = [] ∨ q = [] := by
  unfold comparePreds
  split <;> simp_all

theorem compareProjs_ne_error {n : ℕ} {es fs : List Expr} (he : n ≤ es.length) (hf : n ≤ fs.length) {e : Failure} :
    compareProjs n es fs ≠ .error e := by
  rw [compareProjs_complete he hf]
  simp

theorem compareBodies_null {n : ℕ} {b c : Body} (hb : b.Complete n) (hc : c.Complete n) :
    compareBodies n b c = .error .nullDeref ↔ b.NullJoins c := by
  have hjoin {o i o' i' : ℕ} {p q : List BExpr} :
      (if o ≠ o' ∨ i ≠ i' then .ok false else comparePreds p q) = (.error .nullDeref : Except Failure Bool) ↔
        o = o' ∧ i = i' ∧ (p = [] ∨ q = []) := by
    by_cases hoi : o ≠ o' ∨ i ≠ i'
    · rw [if_pos hoi]
      simp
      tauto
    · rw [if_neg hoi, comparePreds_null]
      tauto
  have hboth {es fs : List Expr} {p q : List BExpr} (he : n ≤ es.length) (hf : n ≤ fs.length) : (do
      if ← comparePreds p q then compareProjs n es fs else return false) = (.error .nullDeref : Except Failure Bool) ↔
        p = [] ∨ q = [] := by
    rw [← comparePreds_null]
    cases hp : comparePreds p q with
    | error e => simp [bind,Except.bind]
    | ok r =>
      cases r with
      | false => simp [bind,Except.bind,pure,Except.pure]
      | true => simp [bind,Except.bind,compareProjs_ne_error he hf]
  cases b <;> cases c <;> simp only [compareBodies, Body.NullJoins, reduceCtorEq]
  case select.select => 
    rw [comparePreds_null]
    simp_all [Body.Complete]
  case project.project => exact iff_of_false (compareProjs_ne_error hb.ge hc.ge) id
  case join.join | strJoin.strJoin => exact hjoin
  case joinProject.joinProject | strJoinProject.strJoinProject => exact hboth hb.ge hc.ge

theorem compareInputs_error_iff {f : OpId → OpId → Except Failure Bool} {as bs : List OpId} {e : Failure}
    (hlen : as.length = bs.length) : compareInputs f as bs = .error e ↔ ∃ as₁ c as₂ bs₁ d bs₂, as = as₁ ++ c :: as₂ ∧
      bs = bs₁ ++ d :: bs₂ ∧ List.Forall₂ (fun a b => f a b = .ok true) as₁ bs₁ ∧ f c d = .error e := by
  constructor
  · intro h
    induction as generalizing bs with
    | nil => simp [compareInputs] at h
    | cons a as ih =>
      cases bs with
      | nil => simp at hlen
      | cons b bs =>
        simp only [compareInputs] at h
        cases hab : f a b with
        | error e' =>
          obtain rfl : e' = e := by simpa [bind,Except.bind,hab] using h
          exact ⟨[],a,as,[],b,bs,rfl,rfl,.nil,hab⟩
        | ok r =>
          cases r with
          | false => simp [bind,Except.bind,pure,Except.pure,hab] at h
          | true =>
            have hrest : compareInputs f as bs = .error e := by simpa [bind,Except.bind,hab] using h
            obtain ⟨as₁,c,as₂,bs₁,d,bs₂,rfl,rfl,hall,hcd⟩ := ih (by simpa using hlen) hrest
            exact ⟨a :: as₁,c,as₂,b :: bs₁,d,bs₂,rfl,rfl,.cons hab hall,hcd⟩
  · rintro ⟨as₁,c,as₂,bs₁,d,bs₂,rfl,rfl,hall,hcd⟩
    clear hlen
    induction hall with
    | nil => simp [compareInputs,bind,Except.bind,hcd]
    | cons hab _ ih => simpa [compareInputs,bind,Except.bind,hab] using ih

theorem forall₂_imp_mem {R S : OpId → OpId → Prop} {as bs : List OpId} (h : List.Forall₂ R as bs)
    (hi : ∀ a ∈ as, ∀ b ∈ bs, R a b → S a b) : List.Forall₂ S as bs := by
  induction h with
  | nil => exact .nil
  | cons hab _ ih =>
    refine .cons (hi _ List.mem_cons_self _ List.mem_cons_self hab) (ih fun a ha b hb => ?_)
    exact hi a (List.mem_cons_of_mem _ ha) b (List.mem_cons_of_mem _ hb)

theorem compareInputs_of_forall₂ {f : OpId → OpId → Except Failure Bool} {as bs : List OpId}
    (h : List.Forall₂ (fun a b => f a b = .ok true) as bs) : compareInputs f as bs = .ok true := by
  induction h with
  | nil => rfl
  | cons hab _ ih => simpa [compareInputs,bind,Except.bind,hab] using ih

/-- The comparison of two operators that differ at most in their inputs and their parameters. -/
theorem compareOperators_alike {ops : OpId → Operator} {a b : OpId} (hne : a ≠ b) (h : (ops a).Alike (ops b)) (fuel : ℕ) :
    compareOperators ops (fuel + 1) a b = (do
      if ← compareInputs (compareOperators ops fuel) (ops a).inputs (ops b).inputs
      then compareBodies (ops a).attrs.length (ops a).body (ops b).body else return false) := by
  obtain ⟨hk,hattrs,hstr,hlen⟩ := h
  simp only [compareOperators, if_neg hne]
  rw [if_neg (by tauto)]

section Meets
variable {V : List OpId} {T : OpId → ComputationTree (Label × Option OpId)} {s t : PlanState} {a b : OpId}

/-- Comparing operators that compute the same finds them equal or meets a null predicate. -/
theorem compare_same (h : Computes identLabel V T s) {fuel : ℕ} (ha : a ∈ V) (hb : b ∈ V) (hf : (T a).height ≤ fuel)
    (heq : T a = T b) : compareOperators s.ops fuel a b = .ok true ∨ compareOperators s.ops fuel a b = .error .nullDeref := by
  cases hr : compareOperators s.ops fuel a b with
  | ok r =>
    cases r with
    | true => exact .inl rfl
    | false => exact absurd hr (compareOperators_ne_false h ha hb heq)
  | error e =>
    rcases compareOperators_error hr with rfl | rfl
    · exact .inr rfl
    · exact absurd hr (compareOperators_terminates h ha hf)

theorem compareInputs_same {f : OpId → OpId → Except Failure Bool} {R : OpId → OpId → Prop} {as bs : List OpId}
    (h : List.Forall₂ R as bs) (hf : ∀ a ∈ as, ∀ b ∈ bs, R a b → f a b = .ok true ∨ f a b = .error .nullDeref) :
    List.Forall₂ (fun a b => f a b = .ok true) as bs ∨ ∀ as' bs', compareInputs f (as ++ as') (bs ++ bs') = .error .nullDeref := by
  induction h with
  | nil => exact .inl .nil
  | cons hab _ ih =>
    rcases hf _ List.mem_cons_self _ List.mem_cons_self hab with hok | herr
    · refine (ih fun a ha b hb => hf a (List.mem_cons_of_mem _ ha) b (List.mem_cons_of_mem _ hb)).imp (.cons hok) ?_
      intro hrest as' bs'
      simpa [compareInputs,bind,Except.bind,hok] using hrest as' bs'
    · refine .inr fun as' bs' => ?_
      simp [compareInputs,bind,Except.bind,herr]

/-- A comparison reads from a null pointer exactly when it meets a join without a predicate. -/
theorem compareOperators_null_iff (h : Computes identLabel V T s)
    (hcomplete : ∀ o ∈ V, (s.ops o).body.Complete (s.ops o).attrs.length) {fuel : ℕ} (ha : a ∈ V) (hb : b ∈ V)
    (hf : (T a).height ≤ fuel) : compareOperators s.ops fuel a b = .error .nullDeref ↔ s.MeetsNull a b := by
  constructor
  · intro he
    induction fuel generalizing a b with
    | zero => exact absurd (T a).height_pos (by omega)
    | succ fuel ih =>
      simp only [compareOperators] at he
      split at he
      · simp [pure,Except.pure] at he
      rename_i hne
      split at he
      · simp [pure,Except.pure] at he
      rename_i hlike
      simp only [not_or, not_not] at hlike
      have hsame {as bs : List OpId} (has : ∀ c ∈ as, c ∈ V) (hbs : ∀ d ∈ bs, d ∈ V)
          (hall : List.Forall₂ (fun c d => compareOperators s.ops fuel c d = .ok true) as bs) :
          List.Forall₂ s.SameComputation as bs := by
        refine forall₂_imp_mem hall fun c hc d hd hcd => ?_
        rw [sameComputation_iff h.unfolding (has c hc) (hbs d hd)]
        exact compareOperators_sound labelling_ident h (has c hc) (hbs d hd) hcd
      cases hin : compareInputs (compareOperators s.ops fuel) (s.ops a).inputs (s.ops b).inputs with
      | error e =>
        obtain rfl : e = .nullDeref := by simpa [bind,Except.bind,hin] using he
        obtain ⟨as,c,as',bs,d,bs',has,hbs,hall,hcd⟩ := (compareInputs_error_iff hlike.2.2.2).mp hin
        have hasV : ∀ z ∈ as ++ c :: as', z ∈ V := fun z hz => h.input_mem ha z (by rw [has]; exact hz)
        have hbsV : ∀ z ∈ bs ++ d :: bs', z ∈ V := fun z hz => h.input_mem hb z (by rw [hbs]; exact hz)
        have hlt := ComputationTree.height_lt_of_mem (h.unfolding.mem_inputs ha (c := c) (by simp [has]))
        have hmeets := ih (hasV c (by simp)) (hbsV d (by simp)) (by omega) hcd
        exact .inputs hne hlike has hbs (hsame (fun c hc => hasV c (by simp [hc])) (fun d hd => hbsV d (by simp [hd])) hall)
          hmeets
      | ok r =>
        cases r with
        | false => simp [bind,Except.bind,pure,Except.pure,hin] at he
        | true =>
          have hbody : compareBodies (s.ops a).attrs.length (s.ops a).body (s.ops b).body = .error .nullDeref := by
            simpa [bind,Except.bind,hin] using he
          have hcb := hcomplete b hb
          rw [← hlike.2.1] at hcb
          exact .here hne hlike (hsame (h.input_mem ha) (h.input_mem hb) (forall₂_of_compareInputs hlike.2.2.2 hin))
            ((compareBodies_null (hcomplete a ha) hcb).mp hbody)
  · intro hm
    have hpairs {as bs : List OpId} {n : ℕ} (has : ∀ c ∈ as, c ∈ V ∧ (T c).height ≤ n) (hbs : ∀ d ∈ bs, d ∈ V)
        (hin : List.Forall₂ s.SameComputation as bs) := compareInputs_same (f := compareOperators s.ops n) hin
      fun c hc d hd hcd => compare_same h (has c hc).1 (hbs d hd) (has c hc).2
        ((sameComputation_iff h.unfolding (has c hc).1 (hbs d hd)).mp hcd)
    induction hm generalizing fuel with
    | @here a b hne hlike hin hnull =>
      cases fuel with
      | zero => exact absurd (T a).height_pos (by omega)
      | succ fuel =>
        have hlow : ∀ c ∈ (s.ops a).inputs, c ∈ V ∧ (T c).height ≤ fuel := by
          intro c hc
          have hlt := ComputationTree.height_lt_of_mem (h.unfolding.mem_inputs ha hc)
          exact ⟨h.input_mem ha c hc,by omega⟩
        have hcb := hcomplete b hb
        rw [← hlike.2.1] at hcb
        have hbody := (compareBodies_null (hcomplete a ha) hcb).mpr hnull
        rw [compareOperators_alike hne hlike]
        rcases hpairs hlow (h.input_mem hb) hin with hall | herr
        · simpa [bind,Except.bind,compareInputs_of_forall₂ hall] using hbody
        · have hin := herr [] []
          simp only [List.append_nil] at hin
          simp [bind,Except.bind,hin]
    | @inputs a b c d as as' bs bs' hne hlike has hbs hin hm ih =>
      cases fuel with
      | zero => exact absurd (T a).height_pos (by omega)
      | succ fuel =>
        have hlow : ∀ z ∈ as ++ c :: as', z ∈ V ∧ (T z).height ≤ fuel := by
          intro z hz
          rw [← has] at hz
          have hlt := ComputationTree.height_lt_of_mem (h.unfolding.mem_inputs ha hz)
          exact ⟨h.input_mem ha z hz,by omega⟩
        have hbsV : ∀ z ∈ bs ++ d :: bs', z ∈ V := fun z hz => h.input_mem hb z (by rw [hbs]; exact hz)
        have hcd := ih (hlow c (by simp)).1 (hbsV d (by simp)) (hlow c (by simp)).2
        have hins : compareInputs (compareOperators s.ops fuel) (s.ops a).inputs (s.ops b).inputs = .error .nullDeref := by
          rw [has, hbs]
          rcases hpairs (fun z hz => hlow z (by simp [hz])) (fun z hz => hbsV z (by simp [hz])) hin with hall | herr
          · apply (compareInputs_error_iff (by rw [← has, ← hbs]; exact hlike.2.2.2)).mpr
            exact ⟨as,c,as',bs,d,bs',rfl,rfl,hall,hcd⟩
          · exact herr (c :: as') (d :: bs')
        rw [compareOperators_alike hne hlike]
        simp [bind,Except.bind,hins]

end Meets

section Run
variable {L : Type} {lab : OpId → Operator → L} {V : List OpId} {T : OpId → ComputationTree L} {s t u : PlanState}
  {x y : OpId} {ys cur l : List OpId} {sharing : Bool}

theorem compareOperators_self (ops : OpId → Operator) (fuel : ℕ) (a : OpId) :
    compareOperators ops (fuel + 1) a a = .ok true := by
  simp [compareOperators,pure,Except.pure]

/-- What `mergeInto` has found when it returns. -/
theorem mergeInto_found (hlab : Labelling lab) (hN : ∀ o ∈ V, (T o).height ≤ MAX_OPS) (h : Steady lab V T s t) (hx : x ∈ V)
    (hys : ∀ y ∈ ys, y ∈ V) (hxys : x ∉ ys) {r : List OpId × List Merge} (hr : mergeInto sharing x ys t = .ok r u) :
    Steady lab V T s u ∧ ∀ y ∈ ys, compareOperators s.ops (MAX_OPS + 1) x y = .ok true ∨
      y ∈ r.1 ∧ compareOperators s.ops (MAX_OPS + 1) x y = .ok false := by
  induction ys generalizing t u r with
  | nil =>
    obtain ⟨rfl,rfl⟩ := pure_eq_ok.mp hr
    exact ⟨h,by simp⟩
  | cons y ys ih =>
    have hrest {v : PlanState} (hv : Steady lab V T s v) {r : List OpId × List Merge} (hr : mergeInto sharing x ys v = .ok r u) :=
      ih hv (fun z hz => hys z (List.mem_cons_of_mem _ hz)) (fun hm => hxys (List.mem_cons_of_mem _ hm)) hr
    have hne : x ≠ y := fun he => hxys (he ▸ List.mem_cons_self)
    obtain ⟨b,_,h1,hr⟩ := bind_eq_ok.mp hr
    obtain ⟨hc,rfl⟩ := compare_ok h1
    have hcs := hc
    rw [h.compare_eq x hx y] at hcs
    cases b with
    | false =>
      obtain ⟨r',_,h2,h3⟩ := bind_eq_ok.mp hr
      obtain ⟨rfl,rfl⟩ := pure_eq_ok.mp h3
      obtain ⟨hu,hall⟩ := hrest h h2
      refine ⟨hu,fun z hz => ?_⟩
      rcases List.mem_cons.mp hz with rfl | hz
      · exact .inr ⟨List.mem_cons_self,hcs⟩
      · exact (hall z hz).imp id (And.imp_left (List.mem_cons_of_mem _))
    | true =>
      rw [if_pos rfl] at hr
      obtain ⟨merged,v,h2,hr⟩ := bind_eq_ok.mp hr
      obtain ⟨r',_,h3,h4⟩ := bind_eq_ok.mp hr
      obtain ⟨rfl,rfl⟩ := pure_eq_ok.mp h4
      have hv := ((keeps_iff.mp (h.merge hlab hN hx (hys y List.mem_cons_self) hne hc sharing)).1 merged v h2).1
      obtain ⟨hu,hall⟩ := hrest hv h3
      refine ⟨hu,fun z hz => ?_⟩
      rcases List.mem_cons.mp hz with rfl | hz
      · exact .inl hcs
      · exact hall z hz

/-- A level that returns could have compared any two operators of its work list. -/
theorem shareLevel_found (hlab : Labelling lab) (hN : ∀ o ∈ V, (T o).height ≤ MAX_OPS) {fuel : ℕ} (h : Steady lab V T s t)
    (hcur : ∀ o ∈ cur, o ∈ V) (hnd : cur.Nodup) {r : List OpId × List Merge} (hr : shareLevel sharing fuel cur t = .ok r u) :
    ∀ a ∈ cur, ∀ b ∈ cur, ∃ e, compareOperators s.ops (MAX_OPS + 1) a b = .ok e := by
  induction fuel generalizing t u cur r with
  | zero =>
    cases cur with
    | nil => simp
    | cons x ys => simp [shareLevel] at hr
  | succ fuel ih =>
    cases cur with
    | nil => simp
    | cons x ys =>
      have hx := hcur x List.mem_cons_self
      have hys : ∀ y ∈ ys, y ∈ V := fun y hy => hcur y (List.mem_cons_of_mem _ hy)
      obtain ⟨hxys,hnd⟩ := List.nodup_cons.mp hnd
      obtain ⟨r₁,v,h1,hr⟩ := bind_eq_ok.mp hr
      obtain ⟨_,_,h2,hr⟩ := bind_eq_ok.mp hr
      obtain ⟨rfl,rfl⟩ := getOp_ok.mp h2
      obtain ⟨next,_,h3,h4⟩ := bind_eq_ok.mp hr
      obtain ⟨rfl,rfl⟩ := pure_eq_ok.mp h4
      obtain ⟨hv,hfound⟩ := mergeInto_found hlab hN h hx hys hxys h1
      have hsub := mergeInto_sublist h1
      have hrest := ih hv (fun o ho => hys o (hsub.subset ho)) (hnd.sublist hsub) h3
      have hxy : ∀ y ∈ ys, ∃ e, compareOperators s.ops (MAX_OPS + 1) x y = .ok e :=
        fun y hy => (hfound y hy).elim (fun h => ⟨true,h⟩) fun h => ⟨false,h.2⟩
      intro a ha b hb
      rcases List.mem_cons.mp ha with rfl | hays
      · rcases List.mem_cons.mp hb with rfl | hbys
        · exact ⟨true,compareOperators_self _ _ _⟩
        · exact hxy b hbys
      rcases List.mem_cons.mp hb with rfl | hbys
      · rw [compareOperators_comm]
        exact hxy a hays
      -- an operator that has been found equal to `x` stands in every comparison for `x`
      rcases hfound a hays with hxa | ⟨har,-⟩
      · rw [← compareOperators_congr hxa]
        exact hxy b hbys
      rcases hfound b hbys with hxb | ⟨hbr,-⟩
      · rw [compareOperators_comm, ← compareOperators_congr hxb]
        exact hxy a hays
      · exact hrest a har b hbr

theorem LevelList.found (hlab : Labelling lab) (hN : ∀ o ∈ V, (T o).height ≤ MAX_OPS) {fuel : ℕ}
    (hl : LevelList sharing fuel cur t l) (h : Steady lab V T s t) (hcur : ∀ o ∈ cur, o ∈ V) (hnd : cur.Nodup)
    {levels : List (List Merge)} (hok : shareLevels sharing fuel cur t = .ok levels u) :
    (∀ o ∈ l, o ∈ V) ∧ ∀ a ∈ l, ∀ b ∈ l, ∃ e, compareOperators s.ops (MAX_OPS + 1) a b = .ok e := by
  induction hl generalizing u levels with
  | here =>
    obtain ⟨r,v,h1,-⟩ := bind_eq_ok.mp hok
    exact ⟨hcur,shareLevel_found hlab hN h hcur hnd h1⟩
  | @next fuel x cur l t v r hr hl ih =>
    obtain ⟨r',v',h1,hok⟩ := bind_eq_ok.mp hok
    rw [hr] at h1
    obtain ⟨rfl,rfl⟩ : r = r' ∧ v = v' := by simpa using h1
    obtain ⟨rest,_,h2,-⟩ := bind_eq_ok.mp hok
    have hlevel : Keeps (Steady lab V T s) (fun _ => True) t (shareLevel sharing (x :: cur).length (x :: cur))
        (fun r => ∀ q ∈ r.1, q ∈ V) := by
      apply shareLevel_keeps trivial (fun t ht o ho q hq => (ht.computes.readers o ho q hq).1)
        (fun _ _ _ _ _ _ _ _ _ => trivial) ?_ hcur h
      intro a ha b hb w hab hw
      obtain ⟨hne,hc⟩ := hab.spec hnd
      have hkeep := keeps_iff.mp (hw.merge hlab hN ha hb hne hc sharing)
      exact keeps_iff.mpr ⟨hkeep.1,fun e u he => ⟨(hkeep.2 e u he).1,trivial⟩⟩
    obtain ⟨hv,hnext⟩ := (keeps_iff.mp hlevel).1 r v hr
    exact ih hv (fun o ho => hnext o (mem_firstOccurrences.mp ho)) (nodup_firstOccurrences r.1) h2

/-- A run fails in no other way than its comparisons, by want of room or of fuel. -/
theorem Steady.run (hlab : Labelling lab) (hN : ∀ o ∈ V, (T o).height ≤ MAX_OPS) (h : Steady lab V T s t)
    (hcur : ∀ o ∈ cur, o ∈ V) (hnd : cur.Nodup) {E : Failure → Prop} (hE : E .nonTermination) (hroom : E .outOfBounds)
    {fuel : ℕ} (hc : ∀ l, LevelList sharing fuel cur t l → (∀ o ∈ l, o ∈ V) → ∀ x ∈ l, ∀ y ∈ l, ∀ e,
      compareOperators s.ops (MAX_OPS + 1) x y = .error e → E e) :
    Keeps (Steady lab V T s) E t (shareLevels sharing fuel cur) (fun _ => True) := by
  refine shareLevels_keeps hE (fun t ht o ho q hq => (ht.computes.readers o ho q hq).1) ?_ ?_ hcur h
  · intro l hl hlV x hx y hy u e v hu he
    obtain ⟨he,-⟩ := compare_error he
    rw [hu.compare_eq x (hlV x hx) y] at he
    exact hc l hl hlV x hx y hy e he
  · intro x hx y hy u hm hu
    obtain ⟨hne,heq⟩ := hm.spec hnd
    have hkeep := keeps_iff.mp (hu.merge hlab hN hx hy hne heq sharing)
    apply keeps_iff.mpr
    refine ⟨hkeep.1,fun e v he => ?_⟩
    obtain ⟨hv,rfl⟩ := hkeep.2 e v he
    exact ⟨hv,hroom⟩

end Run

/-- The operators that a level of the run of `findSharedOps` from `s` works through. -/
def WorkList (sharing : Bool) (s : PlanState) : List OpId → Prop :=
  LevelList sharing (MAX_OPS + 1) s.dataSources s

theorem Merging.steady {s : PlanState} {T : OpId → ComputationTree (Label × Option OpId)} (h : Merging s.used T s) :
    Steady identLabel s.used T s s := by
  refine ⟨h.computes,fun o ho hk => ?_,fun _ _ _ => rfl⟩
  obtain ⟨l₁,l₂,p,n,-,-,-,hp,hn⟩ := h.neighbours ho hk
  simp [hp,hn]

/-- In a plan prepared for it, a run of `findSharedOps` reads from no null pointer when no two
operators of a work list have joins over the same computations below them, at the same place,
of which one has no predicate; and a run that writes behind no array reads from no null pointer
only then. -/
theorem findSharedOps_null_iff {mem : OpId → Operator} {s₀ s₁ s₂ s : PlanState} (h₀ : Registered mem s₀)
    (h₁ : removeQuerySources s₀ = .ok () s₁) (h₂ : addSinks s₁ = .ok () s₂) (h₃ : mergeSelects s₂ = .ok () s)
    (sharingAmongClasses : Bool) :
    ((∀ l, WorkList sharingAmongClasses s l → ∀ a ∈ l, ∀ b ∈ l, ¬ s.MeetsNull a b) →
      ∀ u, findSharedOps sharingAmongClasses s ≠ .error .nullDeref u) ∧
    ((∀ u, findSharedOps sharingAmongClasses s ≠ .error .outOfBounds u) →
      (∀ u, findSharedOps sharingAmongClasses s ≠ .error .nullDeref u) →
      ∀ l, WorkList sharingAmongClasses s l → ∀ a ∈ l, ∀ b ∈ l, ¬ s.MeetsNull a b) := by
  obtain ⟨hs,hr⟩ := prepared_sound h₀ h₁ h₂ h₃
  obtain ⟨T,hT,hN⟩ := hs.merging hr
  have hrun : findSharedOps sharingAmongClasses s = shareLevels sharingAmongClasses (MAX_OPS + 1) s.dataSources s := rfl
  have hsrc : ∀ o ∈ s.dataSources, o ∈ s.used := fun o ho => List.mem_of_mem_filter ho
  have hnd : s.dataSources.Nodup := hs.pool.nodup.filter _
  have hmeets : ∀ a ∈ s.used, ∀ b ∈ s.used,
      (compareOperators s.ops (MAX_OPS + 1) a b = .error .nullDeref ↔ s.MeetsNull a b) :=
    fun a ha b hb => compareOperators_null_iff hT.computes hs.complete ha hb ((hN a ha).trans (Nat.le_succ _))
  constructor
  · intro hfree u hu
    have hkeep : Keeps (Steady identLabel s.used T s) (fun e => e ≠ .nullDeref) s
        (shareLevels sharingAmongClasses (MAX_OPS + 1) s.dataSources) (fun _ => True) := by
      refine hT.steady.run labelling_ident hN hsrc hnd (by simp) (by simp) fun l hl hlV a ha b hb e he => ?_
      rintro rfl
      exact hfree l hl a ha b hb ((hmeets a (hlV a ha) b (hlV b hb)).mp he)
    exact ((keeps_iff.mp hkeep).2 _ u (hrun ▸ hu)).2 rfl
  · intro hfits hnull l hl a ha b hb hm
    have hkeep : Keeps (Steady identLabel s.used T s) (fun e => e = .nullDeref ∨ e = .nonTermination ∨ e = .outOfBounds) s
        (shareLevels sharingAmongClasses (MAX_OPS + 1) s.dataSources) (fun _ => True) := by
      refine hT.steady.run labelling_ident hN hsrc hnd (by simp) (by simp) fun l hl hlV a ha b hb e he => ?_
      exact (compareOperators_error he).imp_right .inl
    have hends := (findSharedOps_keeps_computations s hs.consistent hs.acyclic sharingAmongClasses).2
    cases hok : findSharedOps sharingAmongClasses s with
    | error e u =>
      rcases ((keeps_iff.mp hkeep).2 e u (hrun ▸ hok)).2 with rfl | rfl | rfl
      · exact hnull u hok
      · exact hends u hok
      · exact hfits u hok
    | ok levels u =>
      obtain ⟨hlV,hfound⟩ := hl.found labelling_ident hN hT.steady hsrc hnd (hrun ▸ hok)
      obtain ⟨e,he⟩ := hfound a ha b hb
      rw [(hmeets a (hlV a ha) b (hlV b hb)).mpr hm] at he
      cases he

def streamTimesView : Logical.Plan :=
  .node (.project [.attrRef .int (.named 0 1 0)]) [.named 0 1 0] false
    [.node .cross [.named 0 1 0, .named 1 2 0] false
      [.node (.streamSource 0 1) [.named 0 1 0] true [], .node (.relnSource 1 2) [.named 1 2 0] false []]]

def twoProducts : PlanState := planAfter
  [.addBaseTable streamAndView 0, .addBaseTable streamAndView 1,
    .addLogicalQueryPlan blankUninit 0 windowOfStream false, .map streamAndView 0 2,
    .addLogicalQueryPlan blankUninit 1 streamTimesView true, .addLogicalQueryPlan blankUninit 2 streamTimesView true]

/-- The joins of the two queries have no predicate, and comparing them reads it. -/
theorem twoProducts_null : ∃ s₁ s₂ s₃, Registered blankMemory twoProducts ∧
    removeQuerySources twoProducts = .ok () s₁ ∧ addSinks s₁ = .ok () s₂ ∧ mergeSelects s₂ = .ok () s₃ ∧
    ∃ u, findSharedOps true s₃ = .error .nullDeref u := by
  have h1 := eq_ok_of_returns (r := removeQuerySources twoProducts) (by decide +kernel)
  have h2 := eq_ok_of_returns (r := addSinks (finalState (removeQuerySources twoProducts))) (by decide +kernel)
  have h3 := eq_ok_of_returns (r := mergeSelects (finalState (addSinks (finalState (removeQuerySources twoProducts)))))
    (by decide +kernel)
  have hnull := exists_of_failsWith (e := .nullDeref) (r := findSharedOps true (preparedPlan twoProducts)) (by decide +kernel)
  exact ⟨_,_,_,Registered.start.runCalls _ (by decide +kernel),h1,h2,h3,hnull⟩

theorem Body.NullJoins.joinPred {b c : Body} (h : b.NullJoins c) : b.joinPred = some [] ∨ c.joinPred = some [] := by
  cases b <;> cases c <;> simp only [NullJoins] at h
  case join.join | strJoin.strJoin => exact h.2.2.imp (congrArg some) (congrArg some)
  case joinProject.joinProject | strJoinProject.strJoinProject => exact h.imp (congrArg some) (congrArg some)

/-- Where all joins have predicates no comparison meets one without. -/
theorem Sound.not_meetsNull {s : PlanState} {a b : OpId} (hs : Sound s) (hj : JoinsFiltered s) (ha : a ∈ s.used)
    (hb : b ∈ s.used) : ¬ s.MeetsNull a b := by
  intro h
  induction h with
  | here _ _ _ hnull => exact hnull.joinPred.elim (hj _ ha) (hj _ hb)
  | inputs _ _ hc hd _ _ ih =>
    exact ih (hs.consistent.inputs_mem _ ha _ (by simp [hc])) (hs.consistent.inputs_mem _ hb _ (by simp [hd]))

section Lists
variable {V : List OpId} {T : OpId → ComputationTree (Label × Option OpId)} {s : PlanState} {sharing : Bool} {cur l : List OpId}

theorem LevelList.mem (hN : ∀ o ∈ V, (T o).height ≤ MAX_OPS) {fuel : ℕ} (hl : LevelList sharing fuel cur s l)
    (h : Computes identLabel V T s) (hcur : ∀ o ∈ cur, o ∈ V) : ∀ o ∈ l, o ∈ V := by
  induction hl with
  | here => exact hcur
  | next hr _ ih =>
    have hlevel := shareLevel_computes labelling_ident hN sharing _ _ le_rfl hcur
    obtain ⟨ht,hnext,-⟩ := hlevel.of_ok h hr
    exact ih ht fun q hq => (hnext q (mem_firstOccurrences.mp hq)).1

end Lists

/-- In the run over two equal joins both have their predicates, and are compared. -/
theorem twoJoins_reads : (∀ l, WorkList true (preparedPlan twoJoins) l →
      ∀ a ∈ l, ∀ b ∈ l, ¬ (preparedPlan twoJoins).MeetsNull a b) ∧
    ∀ u, findSharedOps true (preparedPlan twoJoins) ≠ .error .nullDeref u := by
  have hreg : Registered blankMemory twoJoins := Registered.start.runCalls _ (by decide +kernel)
  obtain ⟨s₁,s₂,h1,h2,h3⟩ := preparedPlan_passes (s := twoJoins) (by decide +kernel)
  obtain ⟨hs,hr⟩ := prepared_sound hreg h1 h2 h3
  obtain ⟨T,hT,hN⟩ := hs.merging hr
  have hmeets : ∀ l, WorkList true (preparedPlan twoJoins) l → ∀ a ∈ l, ∀ b ∈ l, ¬ (preparedPlan twoJoins).MeetsNull a b := by
    intro l hl a ha b hb
    have hmem := LevelList.mem hN hl hT.computes fun o ho => List.mem_of_mem_filter ho
    exact hs.not_meetsNull (by decide +kernel) (hmem a ha) (hmem b hb)
  exact ⟨hmeets,(findSharedOps_null_iff hreg h1 h2 h3 true).1 hmeets⟩

end AqsiosCoordinator.Physical
