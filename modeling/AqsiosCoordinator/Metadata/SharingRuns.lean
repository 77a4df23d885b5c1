import AqsiosCoordinator.Metadata.SharedPlans

/-! # The merges of a run and the outputs they bring together

An operator has room for `MAX_OUT_BRANCHING` outputs. Merging does not look whether the
outputs of both operators fit.
-/
namespace AqsiosCoordinator.Physical
open Common Foundation Foundation.Outcome
variable {sharing : Bool} {s t u : PlanState} {x y : OpId} {ys cur : List OpId}

/-- Merging the operators of a list into `x` comes to merging `y` in state `t`. -/
inductive IntoMerges (sharing : Bool) (x : OpId) : List OpId → PlanState → OpId → PlanState → Prop where
  | here {y : OpId} {ys : List OpId} {s t : PlanState} (h : compare x y s = .ok true t) : IntoMerges sharing x (y :: ys) s y t
  | same {y z : OpId} {ys : List OpId} {s t u v : PlanState} {merged : Bool} (h : compare x y s = .ok true t)
      (hm : mergeOperators x y sharing t = .ok merged u) (hr : IntoMerges sharing x ys u z v) :
      IntoMerges sharing x (y :: ys) s z v
  | other {y z : OpId} {ys : List OpId} {s t v : PlanState} (h : compare x y s = .ok false t)
      (hr : IntoMerges sharing x ys t z v) : IntoMerges sharing x (y :: ys) s z v

inductive LevelMerges (sharing : Bool) : ℕ → List OpId → PlanState → OpId → OpId → PlanState → Prop where
  | into {fuel : ℕ} {x y : OpId} {ys : List OpId} {s t : PlanState} (h : IntoMerges sharing x ys s y t) :
      LevelMerges sharing (fuel + 1) (x :: ys) s x y t
  | rest {fuel : ℕ} {x a b : OpId} {ys : List OpId} {s t u : PlanState} {r : List OpId × List Merge}
      (h : mergeInto sharing x ys s = .ok r t) (hr : LevelMerges sharing fuel r.1 t a b u) :
      LevelMerges sharing (fuel + 1) (x :: ys) s a b u

inductive LevelsMerge (sharing : Bool) : ℕ → List OpId → PlanState → OpId → OpId → PlanState → Prop where
  | level {fuel : ℕ} {x a b : OpId} {cur : List OpId} {s t : PlanState}
      (h : LevelMerges sharing (x :: cur).length (x :: cur) s a b t) : LevelsMerge sharing (fuel + 1) (x :: cur) s a b t
  | next {fuel : ℕ} {x a b : OpId} {cur : List OpId} {s t u : PlanState} {r : List OpId × List Merge}
      (h : shareLevel sharing (x :: cur).length (x :: cur) s = .ok r t)
      (hr : LevelsMerge sharing fuel (firstOccurrences r.1) t a b u) : LevelsMerge sharing (fuel + 1) (x :: cur) s a b u

inductive LevelList (sharing : Bool) : ℕ → List OpId → PlanState → List OpId → Prop where
  | here {fuel : ℕ} {x : OpId} {cur : List OpId} {s : PlanState} : LevelList sharing (fuel + 1) (x :: cur) s (x :: cur)
  | next {fuel : ℕ} {x : OpId} {cur l : List OpId} {s t : PlanState} {r : List OpId × List Merge}
      (h : shareLevel sharing (x :: cur).length (x :: cur) s = .ok r t)
      (hl : LevelList sharing fuel (firstOccurrences r.1) t l) : LevelList sharing (fuel + 1) (x :: cur) s l

/-- The run of `findSharedOps` from `s` comes to merging `y` into `x` in state `t`. -/
def RunMerges (sharing : Bool) (s : PlanState) (x y : OpId) (t : PlanState) : Prop :=
  LevelsMerge sharing (MAX_OPS + 1) s.dataSources s x y t

theorem IntoMerges.error {e : Failure} (h : IntoMerges sharing x ys s y t) (he : mergeOperators x y sharing t = .error e u) :
    mergeInto sharing x ys s = .error e u := by
  induction h with
  | here h =>
    unfold mergeInto
    rw [bind_of_ok h, if_pos rfl]
    exact bind_of_error he
  | same h hm _ ih =>
    unfold mergeInto
    rw [bind_of_ok h, if_pos rfl, bind_of_ok hm]
    exact bind_of_error (ih he)
  | other h _ ih =>
    unfold mergeInto
    rw [bind_of_ok h, if_neg (by simp)]
    exact bind_of_error (ih he)

theorem LevelMerges.error {e : Failure} {fuel : ℕ} (h : LevelMerges sharing fuel cur s x y t)
    (he : mergeOperators x y sharing t = .error e u) : shareLevel sharing fuel cur s = .error e u := by
  induction h with
  | into h => exact bind_of_error (h.error he)
  | rest h _ ih =>
    unfold shareLevel
    rw [bind_of_ok h]
    have hget (a : OpId) (v : PlanState) : getOp a v = .ok (v.ops a) v := rfl
    rw [bind_of_ok (hget _ _)]
    exact bind_of_error (ih he)

/-- A merge of the run that fails ends the run. -/
theorem LevelsMerge.error {e : Failure} {fuel : ℕ} (h : LevelsMerge sharing fuel cur s x y t)
    (he : mergeOperators x y sharing t = .error e u) : shareLevels sharing fuel cur s = .error e u := by
  induction h with
  | level h => exact bind_of_error (h.error he)
  | next h _ ih =>
    unfold shareLevels
    rw [bind_of_ok h]
    exact bind_of_error (ih he)

theorem compare_ok {b : Bool} (h : compare x y s = .ok b t) : compareOperators s.ops (MAX_OPS + 1) x y = .ok b ∧ s = t := by
  obtain ⟨_,_,h1,h⟩ := bind_eq_ok.mp h
  obtain ⟨rfl,rfl⟩ := get_eq_ok.mp h1
  cases hr : compareOperators s.ops (MAX_OPS + 1) x y with
  | error e => simp [hr] at h
  | ok r =>
    simp only [hr] at h
    obtain ⟨rfl,rfl⟩ := pure_eq_ok.mp h
    exact ⟨rfl,rfl⟩

theorem compare_error {e : Failure} (h : compare x y s = .error e t) :
    compareOperators s.ops (MAX_OPS + 1) x y = .error e ∧ s = t := by
  unfold compare at h
  rw [bind_of_ok (get_apply s)] at h
  cases hr : compareOperators s.ops (MAX_OPS + 1) x y with
  | error e' =>
    rw [hr] at h
    cases h
    exact ⟨rfl,rfl⟩
  | ok r =>
    rw [hr] at h
    cases h

theorem mergeInto_sublist {r : List OpId × List Merge} (h : mergeInto sharing x ys s = .ok r t) : r.1.Sublist ys := by
  induction ys generalizing s t r with
  | nil =>
    obtain ⟨rfl,-⟩ := pure_eq_ok.mp h
    exact .slnil
  | cons y ys ih =>
    obtain ⟨b,_,-,h⟩ := bind_eq_ok.mp h
    cases b with
    | false =>
      obtain ⟨r',_,h2,h3⟩ := bind_eq_ok.mp h
      obtain ⟨rfl,-⟩ := pure_eq_ok.mp h3
      have hrest := ih h2
      exact hrest.cons_cons y
    | true =>
      rw [if_pos rfl] at h
      obtain ⟨merged,_,-,h⟩ := bind_eq_ok.mp h
      obtain ⟨r',_,h2,h3⟩ := bind_eq_ok.mp h
      obtain ⟨rfl,-⟩ := pure_eq_ok.mp h3
      have hrest := ih h2
      exact hrest.cons y

theorem IntoMerges.spec (h : IntoMerges sharing x ys s y t) :
    y ∈ ys ∧ compareOperators t.ops (MAX_OPS + 1) x y = .ok true := by
  induction h with
  | here h =>
    obtain ⟨hc,rfl⟩ := compare_ok h
    exact ⟨List.mem_cons_self,hc⟩
  | same _ _ _ ih => exact ⟨List.mem_cons_of_mem _ ih.1,ih.2⟩
  | other _ _ ih => exact ⟨List.mem_cons_of_mem _ ih.1,ih.2⟩

theorem LevelMerges.spec {fuel : ℕ} (h : LevelMerges sharing fuel cur s x y t) (hnd : cur.Nodup) :
    x ≠ y ∧ compareOperators t.ops (MAX_OPS + 1) x y = .ok true := by
  induction h with
  | into h =>
    obtain ⟨hy,hc⟩ := h.spec
    refine ⟨fun he => ?_,hc⟩
    rw [he] at hnd
    exact (List.nodup_cons.mp hnd).1 hy
  | rest h _ ih => exact ih ((List.nodup_cons.mp hnd).2.sublist (mergeInto_sublist h))

theorem LevelsMerge.spec {fuel : ℕ} (h : LevelsMerge sharing fuel cur s x y t) (hnd : cur.Nodup) :
    x ≠ y ∧ compareOperators t.ops (MAX_OPS + 1) x y = .ok true := by
  induction h with
  | level h => exact h.spec hnd
  | next _ _ ih => exact ih (nodup_firstOccurrences _)

section Rule
variable {V : List OpId} {I : PlanState → Prop} {E : Failure → Prop}

/-- From a state of the run on, the program keeps `I`, and its failures are among `E`. -/
def Keeps {α : Type} (I : PlanState → Prop) (E : Failure → Prop) (s : PlanState) (m : M α) (Q : α → Prop) : Prop :=
  Triple (fun t => t = s) m (fun a t => I t ∧ Q a) (fun e t => I t ∧ E e)

theorem keeps_iff {α : Type} {m : M α} {Q : α → Prop} : Keeps I E s m Q ↔
    (∀ a t, m s = .ok a t → I t ∧ Q a) ∧ ∀ e t, m s = .error e t → I t ∧ E e := by
  constructor
  · intro h
    exact ⟨fun a t hm => h.of_ok rfl hm,fun e t hm => h.of_error rfl hm⟩
  · rintro ⟨hok,herr⟩ v hv
    rw [hv]
    cases hm : m s with
    | ok a t => exact hok a t hm
    | error e t => exact herr e t hm

theorem Keeps.bind_pure {α β : Type} {m : M α} {Q : α → Prop} {Q' : β → Prop} {f : α → β} (h : Keeps I E s m Q)
    (hf : ∀ a, Q a → Q' (f a)) : Keeps I E s (do return f (← m)) Q' := by
  refine Triple.bind h fun a => triple_pure fun t ht => ?_
  exact ⟨ht.1,hf a ht.2⟩

theorem mergeInto_keeps (hc : ∀ y ∈ ys, ∀ t e u, I t → compare x y t = .error e u → E e)
    (hm : ∀ y ∈ ys, ∀ t, IntoMerges sharing x ys s y t → I t → Keeps I E t (mergeOperators x y sharing) (fun _ => True))
    (hs : I s) : Keeps I E s (mergeInto sharing x ys) (fun _ => True) := by
  induction ys generalizing s with
  | nil =>
    intro v hv
    rw [hv]
    exact ⟨hs,trivial⟩
  | cons y ys ih =>
    have hcrest : ∀ z ∈ ys, ∀ t e u, I t → compare x z t = .error e u → E e :=
      fun z hz => hc z (List.mem_cons_of_mem _ hz)
    intro v hv
    rw [hv]
    unfold mergeInto
    cases hr : compare x y s with
    | error e t =>
      rw [bind_of_error hr]
      obtain ⟨-,rfl⟩ := compare_error hr
      exact ⟨hs,hc y List.mem_cons_self s e s hs hr⟩
    | ok b t =>
      obtain ⟨-,rfl⟩ := compare_ok hr
      rw [bind_of_ok hr]
      cases b with
      | false =>
        have hrest := ih hcrest (fun z hz t h => hm z (List.mem_cons_of_mem _ hz) t (.other hr h)) hs
        rw [if_neg (by simp)]
        exact hrest.bind_pure (fun _ _ => trivial) s rfl
      | true =>
        rw [if_pos rfl]
        have hmerge := keeps_iff.mp (hm y List.mem_cons_self s (.here hr) hs)
        cases hmo : mergeOperators x y sharing s with
        | error e u =>
          rw [bind_of_error hmo]
          exact hmerge.2 e u hmo
        | ok merged u =>
          rw [bind_of_ok hmo]
          have hrest := ih hcrest (fun z hz t h => hm z (List.mem_cons_of_mem _ hz) t (.same hr hmo h))
            (hmerge.1 merged u hmo).1
          exact hrest.bind_pure (fun _ _ => trivial) u rfl

theorem shareLevel_keeps (hE : E .nonTermination) (hV : ∀ t, I t → ∀ o ∈ V, ∀ q ∈ (t.ops o).outputs, q ∈ V)
    (hc : ∀ x ∈ cur, ∀ y ∈ cur, ∀ t e u, I t → compare x y t = .error e u → E e) {fuel : ℕ}
    (hm : ∀ x ∈ V, ∀ y ∈ V, ∀ t, LevelMerges sharing fuel cur s x y t → I t →
      Keeps I E t (mergeOperators x y sharing) (fun _ => True))
    (hcur : ∀ o ∈ cur, o ∈ V) (hs : I s) : Keeps I E s (shareLevel sharing fuel cur) (fun r => ∀ q ∈ r.1, q ∈ V) := by
  induction fuel generalizing s cur with
  | zero =>
    intro v hv
    rw [hv]
    cases cur with
    | nil => exact ⟨hs,by simp⟩
    | cons x ys => exact ⟨hs,hE⟩
  | succ fuel ih =>
    intro v hv
    rw [hv]
    cases cur with
    | nil => exact ⟨hs,by simp⟩
    | cons x ys =>
      have hx := hcur x List.mem_cons_self
      have hys : ∀ y ∈ ys, y ∈ V := fun y hy => hcur y (List.mem_cons_of_mem _ hy)
      have hinto := keeps_iff.mp (mergeInto_keeps (fun y hy => hc x List.mem_cons_self y (List.mem_cons_of_mem _ hy))
        (fun y hy t h => hm x hx y (hys y hy) t (.into h)) hs)
      unfold shareLevel
      cases hr : mergeInto sharing x ys s with
      | error e t =>
        rw [bind_of_error hr]
        exact hinto.2 e t hr
      | ok r t =>
        rw [bind_of_ok hr]
        have ht := (hinto.1 r t hr).1
        have hsub : ∀ o ∈ r.1, o ∈ x :: ys := fun o ho => List.mem_cons_of_mem _ ((mergeInto_sublist hr).subset ho)
        have hrest := ih (fun a ha b hb => hc a (hsub a ha) b (hsub b hb)) (fun a ha b hb u h => hm a ha b hb u (.rest hr h))
          (fun o ho => hcur o (hsub o ho)) ht
        have hget : getOp x t = .ok (t.ops x) t := rfl
        rw [bind_of_ok hget]
        refine hrest.bind_pure (fun next h q hq => ?_) t rfl
        rcases List.mem_append.mp hq with hq | hq
        · exact hV t ht x hx q hq
        · exact h q hq

/-- What every merge of a run keeps, the run keeps. -/
theorem shareLevels_keeps (hE : E .nonTermination) (hV : ∀ t, I t → ∀ o ∈ V, ∀ q ∈ (t.ops o).outputs, q ∈ V) {fuel : ℕ}
    (hc : ∀ l, LevelList sharing fuel cur s l → (∀ o ∈ l, o ∈ V) → ∀ x ∈ l, ∀ y ∈ l, ∀ t e u, I t →
      compare x y t = .error e u → E e)
    (hm : ∀ x ∈ V, ∀ y ∈ V, ∀ t, LevelsMerge sharing fuel cur s x y t → I t →
      Keeps I E t (mergeOperators x y sharing) (fun _ => True))
    (hcur : ∀ o ∈ cur, o ∈ V) (hs : I s) : Keeps I E s (shareLevels sharing fuel cur) (fun _ => True) := by
  induction fuel generalizing s cur with
  | zero =>
    intro v hv
    rw [hv]
    cases cur with
    | nil => exact ⟨hs,trivial⟩
    | cons x ys => exact ⟨hs,hE⟩
  | succ fuel ih =>
    intro v hv
    rw [hv]
    cases cur with
    | nil => exact ⟨hs,trivial⟩
    | cons x ys =>
      have hlevel := keeps_iff.mp (shareLevel_keeps hE hV (hc _ .here hcur) (fun a ha b hb t h => hm a ha b hb t (.level h))
        hcur hs)
      unfold shareLevels
      cases hr : shareLevel sharing (x :: ys).length (x :: ys) s with
      | error e t =>
        rw [bind_of_error hr]
        exact hlevel.2 e t hr
      | ok r t =>
        rw [bind_of_ok hr]
        obtain ⟨ht,hnext⟩ := hlevel.1 r t hr
        have hrest := ih (fun l hl => hc l (.next hr hl)) (fun a ha b hb u h => hm a ha b hb u (.next hr h))
          (fun o ho => hnext o (mem_firstOccurrences.mp ho)) ht
        exact hrest.bind_pure (fun _ _ => trivial) t rfl

/-- What merging keeps holds when the run comes to a merge, and the operators are of `V`. -/
theorem IntoMerges.keeps (hm : ∀ y ∈ ys, ∀ t, I t → Keeps I (fun _ => True) t (mergeOperators x y sharing) (fun _ => True))
    (h : IntoMerges sharing x ys s y t) (hs : I s) : I t := by
  induction h with
  | here h =>
    obtain ⟨-,rfl⟩ := compare_ok h
    exact hs
  | same h hmo _ ih =>
    obtain ⟨-,rfl⟩ := compare_ok h
    have hnext := ((keeps_iff.mp (hm _ List.mem_cons_self _ hs)).1 _ _ hmo).1
    exact ih (fun z hz => hm z (List.mem_cons_of_mem _ hz)) hnext
  | other h _ ih =>
    obtain ⟨-,rfl⟩ := compare_ok h
    exact ih (fun z hz => hm z (List.mem_cons_of_mem _ hz)) hs

variable (hV : ∀ t, I t → ∀ o ∈ V, ∀ q ∈ (t.ops o).outputs, q ∈ V)
  (hm : ∀ x ∈ V, ∀ y ∈ V, ∀ t, I t → Keeps I (fun _ => True) t (mergeOperators x y sharing) (fun _ => True))
include hm

theorem LevelMerges.keeps {fuel : ℕ} (h : LevelMerges sharing fuel cur s x y t) (hcur : ∀ o ∈ cur, o ∈ V) (hs : I s) :
    I t ∧ x ∈ V ∧ y ∈ V := by
  induction h with
  | @into _ x _ ys _ _ h =>
    have hx := hcur x List.mem_cons_self
    have hys : ∀ y ∈ ys, y ∈ V := fun y hy => hcur y (List.mem_cons_of_mem _ hy)
    exact ⟨h.keeps (fun y hy => hm x hx y (hys y hy)) hs,hx,hys _ h.spec.1⟩
  | @rest _ x _ _ ys s t u r h _ ih =>
    have hx := hcur x List.mem_cons_self
    have hys : ∀ y ∈ ys, y ∈ V := fun y hy => hcur y (List.mem_cons_of_mem _ hy)
    have hinto : Keeps I (fun _ => True) s (mergeInto sharing x ys) (fun _ => True) :=
      mergeInto_keeps (fun _ _ _ _ _ _ _ => trivial) (fun y hy t _ => hm x hx y (hys y hy) t) hs
    exact ih (fun o ho => hys o ((mergeInto_sublist h).subset ho)) ((keeps_iff.mp hinto).1 r t h).1

include hV

theorem LevelsMerge.keeps {fuel : ℕ} (h : LevelsMerge sharing fuel cur s x y t) (hcur : ∀ o ∈ cur, o ∈ V) (hs : I s) :
    I t ∧ x ∈ V ∧ y ∈ V := by
  induction h with
  | level h => exact h.keeps hm hcur hs
  | @next _ x _ _ cur s t u r h _ ih =>
    have hlevel : Keeps I (fun _ => True) s (shareLevel sharing (x :: cur).length (x :: cur)) (fun r => ∀ q ∈ r.1, q ∈ V) :=
      shareLevel_keeps trivial hV (fun _ _ _ _ _ _ _ _ _ => trivial) (fun x hx y hy t _ => hm x hx y hy t) hcur hs
    obtain ⟨ht,hr⟩ := (keeps_iff.mp hlevel).1 r t h
    exact ih (fun o ho => hr o (mem_firstOccurrences.mp ho)) ht

end Rule

/-- How many outputs of `op2` are written behind those of `op1`: all, or those up to the first
that does not read from `op2`. -/
def writtenOutputs (op1 op2 : OpId) (inputs : OpId → List OpId) : List OpId → ℕ
  | [] => 0
  | q :: qs => match lastIdx op2 (inputs q) with
    | none => 1
    | some l => writtenOutputs op1 op2 (Function.update inputs q ((inputs q).set l op1)) qs + 1

/-- The classes forbid the merge, or there is room for the outputs that it writes. -/
def MergeFits (sharing : Bool) (s : PlanState) (op1 op2 : OpId) : Prop :=
  ((s.ops op1).queryClassId ≠ (s.ops op2).queryClassId ∧ sharing = false) ∨
    (s.ops op1).outputs.length + writtenOutputs op1 op2 (fun o => (s.ops o).inputs) (s.ops op2).outputs ≤
      MAX_OUT_BRANCHING

/-- The operators of `V` have at most as many outputs as there is room for, and the outputs are of `V`. -/
structure Bounded (V : List OpId) (s : PlanState) : Prop where
  room : ∀ o ∈ V, (s.ops o).outputs.length ≤ MAX_OUT_BRANCHING
  readers : ∀ o ∈ V, ∀ q ∈ (s.ops o).outputs, q ∈ V

variable {V : List OpId} {op1 op2 : OpId}

theorem Bounded.setOp {o : OpId} {op : Operator} (hs : Bounded V s)
    (h : o ∈ V → op.outputs.length ≤ MAX_OUT_BRANCHING ∧ ∀ q ∈ op.outputs, q ∈ V) : Bounded V (s.setOp o op) := by
  have hall : ∀ p ∈ V, ((s.setOp o op).ops p).outputs.length ≤ MAX_OUT_BRANCHING ∧
      ∀ q ∈ ((s.setOp o op).ops p).outputs, q ∈ V := by
    intro p hp
    by_cases hpo : p = o
    · subst hpo
      rw [setOp_ops_self]
      exact h hp
    · rw [setOp_ops_of_ne _ hpo]
      exact ⟨hs.room p hp,hs.readers p hp⟩
  exact ⟨fun p hp => (hall p hp).1,fun p hp => (hall p hp).2⟩

/-- An operator with the outputs that it had. -/
theorem Bounded.setOp_same {o : OpId} {x : Operator} (hs : Bounded V s) (h : x.outputs = (s.ops o).outputs) :
    Bounded V (s.setOp o x) := by
  apply hs.setOp
  intro ho
  rw [h]
  exact ⟨hs.room o ho,hs.readers o ho⟩

theorem inputs_setOp (q : OpId) (op : Operator) :
    (fun o => ((s.setOp q op).ops o).inputs) = Function.update (fun o => (s.ops o).inputs) q op.inputs := by
  funext o
  by_cases ho : o = q
  · subst ho
    rw [setOp_ops_self, Function.update_self]
  · rw [setOp_ops_of_ne _ ho, Function.update_of_ne ho]

/-- When there is room for what is written, the outputs are moved or a reader is missing. -/
theorem moveOutputs_of_fits {i : ℕ} {qs : List OpId} (hs : Bounded V s)
    (h : i + writtenOutputs op1 op2 (fun o => (s.ops o).inputs) qs ≤ MAX_OUT_BRANCHING) :
    ∃ b t, moveOutputs op1 op2 i qs s = .ok b t ∧ Bounded V t ∧ (∀ o, (t.ops o).outputs = (s.ops o).outputs) ∧
      (b = true → i + qs.length ≤ MAX_OUT_BRANCHING) := by
  induction qs generalizing i s with
  | nil => exact ⟨true,s,rfl,hs,fun _ => rfl,fun _ => h⟩
  | cons q qs ih =>
    have hget : getOp q s = .ok (s.ops q) s := rfl
    cases hl : lastIdx op2 (s.ops q).inputs with
    | none =>
      simp only [writtenOutputs, hl] at h
      refine ⟨false,s,?_,hs,fun _ => rfl,by simp⟩
      rw [moveOutputs, bind_of_ok (failIf_neg (by omega)), bind_of_ok hget, hl]
      rfl
    | some l =>
      simp only [writtenOutputs, hl] at h
      have hset := hs.setOp_same (o := q) (x := { s.ops q with inputs := (s.ops q).inputs.set l op1 }) rfl
      obtain ⟨b,t,hm,hb,hout,hlen⟩ := ih (i := i + 1) hset (by rw [inputs_setOp]; dsimp only; omega)
      refine ⟨b,t,?_,hb,fun o => ?_,fun hb => ?_⟩
      · rw [moveOutputs, bind_of_ok (failIf_neg (by omega)), bind_of_ok hget, hl]
        exact hm
      · rw [hout o]
        by_cases ho : o = q
        · rw [ho, setOp_ops_self]
        · rw [setOp_ops_of_ne _ ho]
      · have hrest := hlen hb
        rw [List.length_cons]
        omega

theorem moveOutputs_overflows {i : ℕ} {qs : List OpId} (hs : Bounded V s) (hi : i ≤ MAX_OUT_BRANCHING)
    (h : MAX_OUT_BRANCHING < i + writtenOutputs op1 op2 (fun o => (s.ops o).inputs) qs) :
    ∃ t, moveOutputs op1 op2 i qs s = .error .outOfBounds t ∧ Bounded V t := by
  induction qs generalizing i s with
  | nil =>
    simp only [writtenOutputs] at h
    omega
  | cons q qs ih =>
    have hget : getOp q s = .ok (s.ops q) s := rfl
    by_cases hfull : i ≥ MAX_OUT_BRANCHING
    · refine ⟨s,?_,hs⟩
      rw [moveOutputs, bind_of_error (failIf_pos hfull)]
    cases hl : lastIdx op2 (s.ops q).inputs with
    | none =>
      simp only [writtenOutputs, hl] at h
      omega
    | some l =>
      simp only [writtenOutputs, hl] at h
      have hset := hs.setOp_same (o := q) (x := { s.ops q with inputs := (s.ops q).inputs.set l op1 }) rfl
      obtain ⟨t,ht,hb⟩ := ih (i := i + 1) hset (by omega) (by rw [inputs_setOp]; dsimp only; omega)
      refine ⟨t,?_,hb⟩
      rw [moveOutputs, bind_of_ok (failIf_neg hfull), bind_of_ok hget, hl]
      exact ht

theorem dropFromInputs_bounded (cs : List OpId) :
    Triple (Bounded V) (dropFromInputs op2 cs) (fun _ => Bounded V) (fun e t => Bounded V t ∧ e ≠ .outOfBounds) := by
  induction cs with
  | nil => exact triple_pure fun s hs => hs
  | cons c cs ih =>
    refine Triple.bind triple_getOp fun x => ?_
    cases hk : lastIdx op2 x.outputs with
    | none => exact triple_pure fun s hs => hs.1
    | some k =>
      refine Triple.bind (triple_modify fun s hs => ?_) fun _ => ih
      apply hs.1.setOp
      intro hc
      constructor
      · exact (List.length_eraseIdx_le _ _).trans (hs.1.room c hc)
      · intro q hq
        exact hs.1.readers c hc q (List.mem_of_mem_eraseIdx hq)

theorem unlinkOp_bounded : Triple (Bounded V) (unlinkOp op2) (fun _ => Bounded V)
    (fun e t => Bounded V t ∧ e ≠ .outOfBounds) := by
  refine Triple.bind triple_get fun u => ?_
  split
  · rintro v ⟨hv,rfl⟩
    exact ⟨hv.room,hv.readers⟩
  · exact triple_throw fun u hu => ⟨hu.1,by simp⟩

/-- The part of a merge that the classes do not forbid. -/
theorem merge_keeps (hs : Bounded V s) (h1 : op1 ∈ V) (n : ℕ) (outs ins : List OpId) (hn : n = (s.ops op1).outputs.length)
    (houts : ∀ q ∈ outs, q ∈ V)
    (h : n + writtenOutputs op1 op2 (fun o => (s.ops o).inputs) outs ≤ MAX_OUT_BRANCHING) :
    Keeps (Bounded V) (fun e => e ≠ .outOfBounds) s (do
      if !(← moveOutputs op1 op2 n outs) then return false
      modifyOp op1 (fun o => { o with outputs := o.outputs ++ outs })
      if !(← dropFromInputs op2 ins) then return false
      unlinkOp op2
      return true) (fun _ => True) := by
  intro v hv
  rw [hv]
  obtain ⟨b,t,hm,hb,hout,hlen⟩ := moveOutputs_of_fits hs h
  rw [bind_of_ok hm]
  cases b with
  | false => exact ⟨hb,trivial⟩
  | true =>
    rw [if_neg (by simp)]
    have hset : Bounded V (t.setOp op1 { t.ops op1 with outputs := (t.ops op1).outputs ++ outs }) := by
      apply hb.setOp
      intro _
      rw [hout, List.length_append, ← hn]
      refine ⟨hlen rfl,fun q hq => ?_⟩
      rcases List.mem_append.mp hq with hq | hq
      · exact hs.readers op1 h1 q hq
      · exact houts q hq
    refine Triple.bind (P := fun v => v = t) (Q := fun _ => Bounded V) ?_ (fun _ => ?_) t rfl
    · intro v hv
      rw [hv]
      exact hset
    refine Triple.bind (dropFromInputs_bounded ins) fun d => ?_
    split
    · exact triple_pure fun u hu => ⟨hu,trivial⟩
    · exact Triple.bind unlinkOp_bounded fun _ => triple_pure fun u hu => ⟨hu,trivial⟩

theorem mergeOperators_keeps (hs : Bounded V s) (h1 : op1 ∈ V) (h2 : op2 ∈ V) (h : MergeFits sharing s op1 op2) :
    Keeps (Bounded V) (fun e => e ≠ .outOfBounds) s (mergeOperators op1 op2 sharing) (fun _ => True) := by
  have hget (o : OpId) : getOp o s = .ok (s.ops o) s := rfl
  intro v hv
  rw [hv]
  unfold mergeOperators
  rw [bind_of_ok (hget op1), bind_of_ok (hget op2)]
  by_cases hclass : ((s.ops op1).queryClassId ≠ (s.ops op2).queryClassId && !sharing) = true
  · rw [if_pos hclass]
    exact ⟨hs,trivial⟩
  rw [if_neg hclass]
  have hroom := h.resolve_left fun hc => hclass (by simp [hc.1,hc.2])
  by_cases hlt : (s.ops op2).queryClassId < (s.ops op1).queryClassId
  · rw [if_pos hlt]
    have hset := hs.setOp_same (o := op1) (x := { s.ops op1 with queryClassId := (s.ops op2).queryClassId }) rfl
    refine merge_keeps hset h1 _ _ _ ?_ (hs.readers op2 h2) ?_ _ rfl
    · rw [setOp_ops_self]
    · rw [inputs_setOp]
      dsimp only
      rw [Function.update_eq_self op1 (fun o => (s.ops o).inputs)]
      exact hroom
  · rw [if_neg hlt]
    exact merge_keeps hs h1 _ _ _ rfl (hs.readers op2 h2) hroom s rfl

theorem mergeOperators_overflows (hs : Bounded V s) (h1 : op1 ∈ V) (h : ¬ MergeFits sharing s op1 op2) :
    ∃ t, mergeOperators op1 op2 sharing s = .error .outOfBounds t ∧ Bounded V t := by
  have hget (o : OpId) : getOp o s = .ok (s.ops o) s := rfl
  obtain ⟨hclass,hfull⟩ := not_or.mp h
  rw [not_le] at hfull
  have hshare : ¬ ((s.ops op1).queryClassId ≠ (s.ops op2).queryClassId && !sharing) = true := by
    simpa using hclass
  unfold mergeOperators
  rw [bind_of_ok (hget op1), bind_of_ok (hget op2), if_neg hshare]
  by_cases hlt : (s.ops op2).queryClassId < (s.ops op1).queryClassId
  · rw [if_pos hlt]
    have hstep : modifyOp op1 (fun o => { o with queryClassId := (s.ops op2).queryClassId }) s =
        .ok ⟨⟩ (s.setOp op1 { s.ops op1 with queryClassId := (s.ops op2).queryClassId }) := rfl
    rw [← Function.update_eq_self op1 (fun o => (s.ops o).inputs)] at hfull
    have hset := hs.setOp_same (o := op1) (x := { s.ops op1 with queryClassId := (s.ops op2).queryClassId }) rfl
    obtain ⟨t,ht,hb⟩ := moveOutputs_overflows hset (hs.room op1 h1) (by rw [inputs_setOp]; exact hfull)
    refine ⟨t,?_,hb⟩
    rw [bind_of_ok hstep]
    exact bind_of_error ht
  · rw [if_neg hlt]
    obtain ⟨t,ht,hb⟩ := moveOutputs_overflows hs (hs.room op1 h1) hfull
    exact ⟨t,bind_of_error ht,hb⟩

/-- A merge that writes behind the array stops there. -/
theorem mergeOperators_bounded (hs : Bounded V s) (h1 : op1 ∈ V) (h2 : op2 ∈ V) :
    Keeps (Bounded V) (fun _ => True) s (mergeOperators op1 op2 sharing) (fun _ => True) := by
  by_cases h : MergeFits sharing s op1 op2
  · have hkeep := keeps_iff.mp (mergeOperators_keeps hs h1 h2 h)
    exact keeps_iff.mpr ⟨hkeep.1,fun e t he => ⟨(hkeep.2 e t he).1,trivial⟩⟩
  · obtain ⟨u,hu,hb⟩ := mergeOperators_overflows hs h1 h
    intro v hv
    rw [hv, hu]
    exact ⟨hb,trivial⟩

theorem compare_ne_outOfBounds {e : Failure} (h : compare x y s = .error e t) : e ≠ .outOfBounds := by
  rintro rfl
  obtain ⟨hc,-⟩ := compare_error h
  rcases compareOperators_error hc with he | he <;> cases he

/-- In a plan with no more outputs than there is room for, the run of `findSharedOps` writes
behind no array of outputs, and leaves every operator with as many outputs as there is room for
at most, exactly when there is room in every merge of the run. -/
theorem findSharedOps_outputs_iff (s : PlanState)
    (hroom : ∀ o ∈ s.used, (s.ops o).outputs.length ≤ MAX_OUT_BRANCHING)
    (hreaders : ∀ o ∈ s.used, ∀ q ∈ (s.ops o).outputs, q ∈ s.used) (sharingAmongClasses : Bool) :
    ((∀ u, findSharedOps sharingAmongClasses s ≠ .error .outOfBounds u) ∧
      ∀ o ∈ s.used, ((finalState (findSharedOps sharingAmongClasses s)).ops o).outputs.length ≤ MAX_OUT_BRANCHING) ↔
    ∀ op1 op2 t, RunMerges sharingAmongClasses s op1 op2 t → MergeFits sharingAmongClasses t op1 op2 := by
  have hrun : findSharedOps sharingAmongClasses s = shareLevels sharingAmongClasses (MAX_OPS + 1) s.dataSources s := rfl
  have hs : Bounded s.used s := ⟨hroom,hreaders⟩
  have hsrc : ∀ o ∈ s.dataSources, o ∈ s.used := fun o ho => List.mem_of_mem_filter ho
  constructor
  · rintro ⟨hnever,-⟩ op1 op2 t hmerge
    by_contra hfull
    obtain ⟨ht,h1,-⟩ := LevelsMerge.keeps (fun t ht => ht.readers) (fun x hx y hy t ht => mergeOperators_bounded ht hx hy)
      hmerge hsrc hs
    obtain ⟨u,hu,-⟩ := mergeOperators_overflows ht h1 hfull
    exact hnever u (hrun ▸ hmerge.error hu)
  · intro hfits
    have hkeep := keeps_iff.mp (shareLevels_keeps (I := Bounded s.used) (E := fun e => e ≠ .outOfBounds) (by simp)
      (fun t ht => ht.readers) (fun l _ _ x _ y _ t e u _ h => compare_ne_outOfBounds h)
      (fun x hx y hy t hm ht => mergeOperators_keeps ht hx hy (hfits x y t hm)) hsrc hs)
    rw [← hrun] at hkeep
    refine ⟨fun u hu => (hkeep.2 _ u hu).2 rfl,?_⟩
    cases hr : findSharedOps sharingAmongClasses s with
    | ok levels u => exact (hkeep.1 levels u hr).1.room
    | error e u => exact (hkeep.2 e u hr).1.room

def streamAndViews : Metadata.TableManager :=
  ⟨[⟨['D'],true,[⟨['a'],.int,4⟩]⟩,⟨['S'],true,[⟨['a'],.int,4⟩]⟩,⟨['V'],false,[⟨['a'],.int,4⟩]⟩,
    ⟨['W'],false,[⟨['a'],.int,4⟩]⟩]⟩

def rowsAbove (tableId : ℕ) (bound : ℤ) : Logical.Plan :=
  .node (.select ⟨.gt,.attrRef .int (.named 0 tableId 0),.constVal (.int bound)⟩) [.named 0 tableId 0] false
    [.node (.relnSource 0 tableId) [.named 0 tableId 0] false []]

/-- Two views that are the same window over a stream, with six queries over each. -/
def crowdedViews : PlanState := planAfter <|
  [.addBaseTable streamAndViews 0, .addBaseTable streamAndViews 1,
    .addLogicalQueryPlan blankUninit 0 windowOfStream false, .map streamAndViews 0 2,
    .addLogicalQueryPlan blankUninit 1 windowOfStream false, .map streamAndViews 1 3] ++
  (List.range 6).map (fun i => .addLogicalQueryPlan blankUninit (2 + i) (rowsAbove 2 i) true) ++
  (List.range 6).map (fun i => .addLogicalQueryPlan blankUninit (8 + i) (rowsAbove 3 i) true)

/-- The twelve readers of the two windows do not fit in one array. -/
theorem crowdedViews_overflow : ∃ s₁ s₂ s₃, Registered blankMemory crowdedViews ∧
    removeQuerySources crowdedViews = .ok () s₁ ∧ addSinks s₁ = .ok () s₂ ∧ mergeSelects s₂ = .ok () s₃ ∧
    (∀ o ∈ s₃.used, (s₃.ops o).outputs.length ≤ MAX_OUT_BRANCHING) ∧ JoinsFiltered s₃ ∧
    ∃ u, findSharedOps true s₃ = .error .outOfBounds u := by
  have h1 := eq_ok_of_returns (r := removeQuerySources crowdedViews) (by decide +kernel)
  have h2 := eq_ok_of_returns (r := addSinks (finalState (removeQuerySources crowdedViews))) (by decide +kernel)
  have h3 := eq_ok_of_returns (r := mergeSelects (finalState (addSinks (finalState (removeQuerySources crowdedViews)))))
    (by decide +kernel)
  have hall : (preparedPlan crowdedViews).used.all
      (fun o => ((preparedPlan crowdedViews).ops o).outputs.length ≤ MAX_OUT_BRANCHING) = true := by decide +kernel
  have hroom : ∀ o ∈ (preparedPlan crowdedViews).used,
      ((preparedPlan crowdedViews).ops o).outputs.length ≤ MAX_OUT_BRANCHING := by simpa using hall
  have hj : JoinsFiltered (preparedPlan crowdedViews) := by decide +kernel
  have hover := exists_of_failsWith (e := .outOfBounds) (r := findSharedOps true (preparedPlan crowdedViews)) (by decide +kernel)
  exact ⟨_,_,_,Registered.start.runCalls _ (by decide +kernel),h1,h2,h3,hroom,hj,hover⟩

instance (sharing : Bool) (s : PlanState) (op1 op2 : OpId) : Decidable (MergeFits sharing s op1 op2) :=
  inferInstanceAs (Decidable (_ ∨ _))

/-- Goes through the merges into `x`, and tells whether there is room in each. -/
def intoFits (sharing : Bool) (x : OpId) : List OpId → PlanState → Bool
  | [], _ => true
  | y :: ys, s => match compare x y s with
    | .ok true t => decide (MergeFits sharing t x y) && match mergeOperators x y sharing t with
      | .ok _ u => intoFits sharing x ys u
      | .error _ _ => true
    | .ok false t => intoFits sharing x ys t
    | .error _ _ => true

def levelFits (sharing : Bool) : ℕ → List OpId → PlanState → Bool
  | fuel+1, x :: ys, s => intoFits sharing x ys s && match mergeInto sharing x ys s with
    | .ok r t => levelFits sharing fuel r.1 t
    | .error _ _ => true
  | _, _, _ => true

def levelsFit (sharing : Bool) : ℕ → List OpId → PlanState → Bool
  | fuel+1, x :: cur, s => levelFits sharing (x :: cur).length (x :: cur) s &&
    match shareLevel sharing (x :: cur).length (x :: cur) s with
    | .ok r t => levelsFit sharing fuel (firstOccurrences r.1) t
    | .error _ _ => true
  | _, _, _ => true

theorem IntoMerges.fits (h : IntoMerges sharing x ys s y t) (hfits : intoFits sharing x ys s = true) :
    MergeFits sharing t x y := by
  induction h with
  | here h =>
    rw [intoFits, h, Bool.and_eq_true] at hfits
    exact of_decide_eq_true hfits.1
  | same h hm _ ih =>
    simp only [intoFits, h, hm, Bool.and_eq_true] at hfits
    exact ih hfits.2
  | other h _ ih =>
    rw [intoFits, h] at hfits
    exact ih hfits

theorem LevelMerges.fits {fuel : ℕ} (h : LevelMerges sharing fuel cur s x y t) (hfits : levelFits sharing fuel cur s = true) :
    MergeFits sharing t x y := by
  induction h with
  | into h =>
    rw [levelFits, Bool.and_eq_true] at hfits
    exact h.fits hfits.1
  | rest h _ ih =>
    simp only [levelFits, h, Bool.and_eq_true] at hfits
    exact ih hfits.2

theorem LevelsMerge.fits {fuel : ℕ} (h : LevelsMerge sharing fuel cur s x y t) (hfits : levelsFit sharing fuel cur s = true) :
    MergeFits sharing t x y := by
  induction h with
  | level h =>
    rw [levelsFit, Bool.and_eq_true] at hfits
    exact h.fits hfits.1
  | next h _ ih =>
    simp only [levelsFit, h, Bool.and_eq_true] at hfits
    exact ih hfits.2

/-- There is room in every merge of the run that shares two selects, and it overflows nothing. -/
theorem twoSelects_outputs :
    (∀ op1 op2 t, RunMerges true (preparedPlan twoSelects) op1 op2 t → MergeFits true t op1 op2) ∧
    (∀ u, findSharedOps true (preparedPlan twoSelects) ≠ .error .outOfBounds u) ∧
    ∀ o ∈ (preparedPlan twoSelects).used,
      ((finalState (findSharedOps true (preparedPlan twoSelects))).ops o).outputs.length ≤ MAX_OUT_BRANCHING := by
  have hall : (preparedPlan twoSelects).used.all (fun o =>
      ((preparedPlan twoSelects).ops o).outputs.length ≤ MAX_OUT_BRANCHING ∧
      ((preparedPlan twoSelects).ops o).outputs.all (fun q => (preparedPlan twoSelects).used.contains q)) = true := by
    decide +kernel
  have hmem : ∀ o ∈ (preparedPlan twoSelects).used,
      ((preparedPlan twoSelects).ops o).outputs.length ≤ MAX_OUT_BRANCHING ∧
      ∀ q ∈ ((preparedPlan twoSelects).ops o).outputs, q ∈ (preparedPlan twoSelects).used := by
    simpa [List.all_eq_true] using hall
  have hrun : levelsFit true (MAX_OPS + 1) (preparedPlan twoSelects).dataSources (preparedPlan twoSelects) = true := by
    decide +kernel
  have hfits : ∀ op1 op2 t, RunMerges true (preparedPlan twoSelects) op1 op2 t → MergeFits true t op1 op2 :=
    fun _ _ _ h => LevelsMerge.fits h hrun
  refine ⟨hfits,?_⟩
  exact (findSharedOps_outputs_iff (preparedPlan twoSelects) (fun o ho => (hmem o ho).1) (fun o ho => (hmem o ho).2) true).mpr hfits

end AqsiosCoordinator.Physical
