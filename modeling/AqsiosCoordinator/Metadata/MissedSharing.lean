import AqsiosCoordinator.Metadata.SharingLevelBound

/-! # Which operators finding shared operators misses

The run starts from the data sources, and an operator is compared with others when it
stands above one. An operator whose merge the classes forbid is taken off the work list
all the same, and with it what is above it.
-/
namespace AqsiosCoordinator.Physical
open Common Foundation Foundation.Outcome Relation
variable {s t u : PlanState} {x y : OpId} {ys cur : List OpId} {sharing : Bool}

/-- Two operators may be shared when classes do not matter or theirs are the same. -/
def PlanState.MayShare (sharing : Bool) (s : PlanState) (x y : OpId) : Prop :=
  sharing = true ∨ s.queryClass x = s.queryClass y

instance (sharing : Bool) (s : PlanState) (x y : OpId) : Decidable (s.MayShare sharing x y) :=
  inferInstanceAs (Decidable (_ ∨ _))

def PlanState.FullyShared (sharing : Bool) (s : PlanState) : Prop :=
  ∀ x ∈ s.used, ∀ y ∈ s.used, x ≠ y → s.MayShare sharing x y → compareOperators s.ops (MAX_OPS + 1) x y ≠ .ok true

/-- Of any two operators that are equal and may be shared, the first stands above a data source. -/
def PlanState.EqualAboveSources (sharing : Bool) (s : PlanState) : Prop :=
  ∀ x ∈ s.used, ∀ y ∈ s.used, x ≠ y → s.MayShare sharing x y → compareOperators s.ops (MAX_OPS + 1) x y = .ok true →
    ∃ d ∈ s.dataSources, ReflTransGen s.ports.Feeds d x

def NoneRefused (sharing : Bool) (s : PlanState) : Prop := ∀ x y t, RunMerges sharing s x y t → t.MayShare sharing x y

theorem mergeOperators_mayShare (h : s.MayShare sharing x y) : mergeOperators x y sharing s = mergeOperators x y true s := by
  rcases h with rfl | hclass
  · rfl
  · have hsame : (s.ops x).queryClassId = (s.ops y).queryClassId := hclass
    have hget (o : OpId) : getOp o s = .ok (s.ops o) s := rfl
    unfold mergeOperators
    simp only [bind_of_ok (hget x), bind_of_ok (hget y), hsame, ne_eq, not_true_eq_false, decide_false, Bool.false_and]

theorem mergeInto_mayShare (h : ∀ y t, IntoMerges sharing x ys s y t → t.MayShare sharing x y) :
    mergeInto sharing x ys s = mergeInto true x ys s := by
  induction ys generalizing s with
  | nil => rfl
  | cons y ys ih =>
    apply bind_congr rfl
    intro b t hc
    cases b with
    | false =>
      have hrest := ih fun z v hz => h z v (.other hc hz)
      exact bind_congr hrest fun _ _ _ => rfl
    | true =>
      simp only [if_true]
      apply bind_congr (mergeOperators_mayShare (h y t (.here hc)))
      intro merged v hm
      have hrest := ih fun z w hz => h z w (.same hc hm hz)
      exact bind_congr hrest fun _ _ _ => rfl

theorem shareLevel_mayShare {fuel : ℕ} (h : ∀ x y t, LevelMerges sharing fuel cur s x y t → t.MayShare sharing x y) :
    shareLevel sharing fuel cur s = shareLevel true fuel cur s := by
  induction fuel generalizing s cur with
  | zero => cases cur <;> rfl
  | succ fuel ih =>
    cases cur with
    | nil => rfl
    | cons x ys =>
      apply bind_congr (mergeInto_mayShare fun y t hy => h x y t (.into hy))
      intro r t hr
      apply bind_congr rfl
      intro o v hv
      obtain ⟨-,rfl⟩ := getOp_ok.mp hv
      have hrest := ih fun a b u hab => h a b u (.rest hr hab)
      exact bind_congr hrest fun _ _ _ => rfl

/-- A run that refuses no merge does what it does when classes do not matter. -/
theorem shareLevels_mayShare {fuel : ℕ} (h : ∀ x y t, LevelsMerge sharing fuel cur s x y t → t.MayShare sharing x y) :
    shareLevels sharing fuel cur s = shareLevels true fuel cur s := by
  induction fuel generalizing s cur with
  | zero => cases cur <;> rfl
  | succ fuel ih =>
    cases cur with
    | nil => rfl
    | cons x ys =>
      apply bind_congr (shareLevel_mayShare fun a b t hab => h a b t (.level hab))
      intro r t hr
      have hrest := ih fun a b u hab => h a b u (.next hr hab)
      exact bind_congr hrest fun _ _ _ => rfl

/-- Whether it returns or fails, `m` leaves the classes of the operators as they are. -/
def KeepsClasses {α : Type} (m : M α) : Prop := ∀ s, (finalState (m s)).queryClass = s.queryClass

section Classes
variable {α β : Type}

theorem KeepsClasses.bind {m : M α} {f : α → M β} (hm : KeepsClasses m) (hf : ∀ a, KeepsClasses (f a)) :
    KeepsClasses (m >>= f) := by
  intro s
  have hs := hm s
  cases h : m s with
  | ok a t =>
    rw [h] at hs
    rw [bind_of_ok h]
    exact (hf a t).trans hs
  | error e t =>
    rw [h] at hs
    rw [bind_of_error h]
    exact hs

theorem KeepsClasses.ite {c : Prop} [Decidable c] {m m' : M α} (hm : KeepsClasses m) (hm' : KeepsClasses m') :
    KeepsClasses (if c then m else m') := by
  split
  · exact hm
  · exact hm'

theorem keepsClasses_pure (a : α) : KeepsClasses (pure a : M α) := fun _ => rfl
theorem keepsClasses_throw (e : Failure) : KeepsClasses (throw e : M α) := fun _ => rfl
theorem keepsClasses_getOp (o : OpId) : KeepsClasses (getOp o) := fun _ => rfl
theorem keepsClasses_get : KeepsClasses (get : M PlanState) := fun _ => rfl

theorem keepsClasses_modifyOp (o : OpId) {f : Operator → Operator} (h : ∀ op, (f op).queryClassId = op.queryClassId) :
    KeepsClasses (modifyOp o f) := by
  intro s
  funext p
  by_cases hp : p = o
  · subst hp
    simp [PlanState.queryClass,modifyOp,modify_apply,h]
  · simp [PlanState.queryClass,modifyOp,modify_apply,setOp_ops_of_ne _ hp]

theorem moveOutputs_keepsClasses (x y : OpId) (i : ℕ) (qs : List OpId) : KeepsClasses (moveOutputs x y i qs) := by
  induction qs generalizing i with
  | nil => exact keepsClasses_pure true
  | cons q qs ih =>
    apply KeepsClasses.bind
    · exact (keepsClasses_throw _).ite (keepsClasses_pure _)
    intro _
    apply (keepsClasses_getOp q).bind
    intro o
    cases lastIdx y o.inputs with
    | none => exact keepsClasses_pure false
    | some l =>
      apply KeepsClasses.bind
      · apply keepsClasses_modifyOp
        exact fun _ => rfl
      · exact fun _ => ih (i + 1)

theorem dropFromInputs_keepsClasses (y : OpId) (cs : List OpId) : KeepsClasses (dropFromInputs y cs) := by
  induction cs with
  | nil => exact keepsClasses_pure true
  | cons c cs ih =>
    apply (keepsClasses_getOp c).bind
    intro o
    cases lastIdx y o.outputs with
    | none => exact keepsClasses_pure false
    | some k =>
      apply KeepsClasses.bind
      · apply keepsClasses_modifyOp
        exact fun _ => rfl
      · exact fun _ => ih

theorem unlinkOp_keepsClasses (y : OpId) : KeepsClasses (unlinkOp y) := by
  intro s
  unfold unlinkOp
  rw [bind_of_ok (get_apply s)]
  cases s.links.prev y with
  | none => rfl
  | some p => cases s.links.next y <;> rfl

theorem mergeOperators_keepsClasses (x y : OpId) : KeepsClasses (mergeOperators x y false) := by
  apply (keepsClasses_getOp x).bind
  intro o1
  apply (keepsClasses_getOp y).bind
  intro o2
  by_cases hclass : o1.queryClassId = o2.queryClassId
  · simp only [hclass, ne_eq, not_true_eq_false, decide_false, Bool.false_and, Bool.false_eq_true, if_false, lt_irrefl]
    apply (moveOutputs_keepsClasses x y _ _).bind
    intro moved
    apply (keepsClasses_pure false).ite
    apply KeepsClasses.bind
    · apply keepsClasses_modifyOp
      exact fun _ => rfl
    intro _
    apply (dropFromInputs_keepsClasses y _).bind
    intro dropped
    exact (keepsClasses_pure false).ite ((unlinkOp_keepsClasses y).bind fun _ => keepsClasses_pure true)
  · simp only [ne_eq, hclass, not_false_eq_true, decide_true, Bool.not_false, Bool.and_self, if_true]
    exact keepsClasses_pure false

theorem mergeInto_keepsClasses (x : OpId) (ys : List OpId) : KeepsClasses (mergeInto false x ys) := by
  induction ys with
  | nil => exact keepsClasses_pure _
  | cons y ys ih =>
    apply KeepsClasses.bind
    · apply keepsClasses_get.bind
      intro s
      cases compareOperators s.ops (MAX_OPS + 1) x y with
      | ok same => exact keepsClasses_pure same
      | error e => exact keepsClasses_throw e
    intro same
    apply KeepsClasses.ite
    · exact (mergeOperators_keepsClasses x y).bind fun _ => ih.bind fun _ => keepsClasses_pure _
    · exact ih.bind fun _ => keepsClasses_pure _

theorem shareLevel_keepsClasses (fuel : ℕ) (cur : List OpId) : KeepsClasses (shareLevel false fuel cur) := by
  induction fuel generalizing cur with
  | zero =>
    cases cur with
    | nil => exact keepsClasses_pure _
    | cons x ys => exact keepsClasses_throw _
  | succ fuel ih =>
    cases cur with
    | nil => exact keepsClasses_pure _
    | cons x ys =>
      apply (mergeInto_keepsClasses x ys).bind
      intro r
      apply (keepsClasses_getOp x).bind
      intro o
      exact (ih r.1).bind fun _ => keepsClasses_pure _

theorem shareLevels_keepsClasses (fuel : ℕ) (cur : List OpId) : KeepsClasses (shareLevels false fuel cur) := by
  induction fuel generalizing cur with
  | zero =>
    cases cur with
    | nil => exact keepsClasses_pure _
    | cons x ys => exact keepsClasses_throw _
  | succ fuel ih =>
    cases cur with
    | nil => exact keepsClasses_pure _
    | cons x ys =>
      apply (shareLevel_keepsClasses _ _).bind
      intro r
      exact (ih _).bind fun _ => keepsClasses_pure _

end Classes

theorem findSharedOps_mayShare {levels : List (List Merge)} (h : findSharedOps sharing s = .ok levels t) :
    t.MayShare sharing x y ↔ s.MayShare sharing x y := by
  cases sharing with
  | true => simp [PlanState.MayShare]
  | false =>
    have hclass := shareLevels_keepsClasses (MAX_OPS + 1) s.dataSources s
    have hrun : shareLevels false (MAX_OPS + 1) s.dataSources s = .ok levels t := h
    rw [hrun, finalState_ok] at hclass
    simp only [PlanState.MayShare, hclass]

/-- On a plan prepared for it, when the levels start clear and the classes forbid no merge: no
two operators are left that are equal and may be shared exactly when all that were there
stand above data sources. -/
theorem findSharedOps_fullyShared_iff (hs : Sound s) (hr : AllRead s) (hj : JoinsFiltered s)
    (hlevels : LevelsClear (MAX_OPS + 1) s.dataSources s) (hclass : NoneRefused sharing s) {levels : List (List Merge)}
    (hok : findSharedOps sharing s = .ok levels t) : t.FullyShared sharing ↔ s.EqualAboveSources sharing := by
  obtain ⟨T,hT,hN⟩ := hs.sharing hr hj
  have hrun : shareLevels true (MAX_OPS + 1) s.dataSources s = .ok levels t := (shareLevels_mayShare hclass).symm.trans hok
  have hshared := hs.sharedRun hT.toMerging (hs.levelsOrderly hr hj hlevels) hrun
  have hequal : ∀ x ∈ s.used, ∀ y ∈ s.used, (compareOperators s.ops (MAX_OPS + 1) x y = .ok true ↔ T x = T y) :=
    fun x hx y hy => (hs.same_iff hr hj hx hy).symm.trans (hT.toMerging.same_iff hx hy)
  have hsteady : Keeps (Steady identLabel s.used T s) (fun _ => True) s (shareLevels true (MAX_OPS + 1) s.dataSources)
      (fun _ => True) := hT.steady.run labelling_ident hN (fun o ho => List.mem_of_mem_filter ho) (hs.pool.nodup.filter _)
    trivial trivial fun _ _ _ _ _ _ _ _ _ => trivial
  have hcompare := ((keeps_iff.mp hsteady).1 levels t hrun).1.compare_eq
  constructor
  · intro hfull x hx y hy hne hmay hxy
    by_contra hnone
    have heq := (hequal x hx y hy).mp hxy
    have hkept {z : OpId} (hz : z ∈ s.used) (hzx : T z = T x) : z ∈ t.used :=
      (hshared.spared z hz fun habove => hnone (hT.toMerging.aboveTable_same hx hzx habove)).used hz
    apply hfull x (hkept hx rfl) y (hkept hy heq.symm) hne ((findSharedOps_mayShare hok).mpr hmay)
    rw [hcompare x hx y]
    exact hxy
  · intro habove x hx y hy hne hmay hxy
    have hxs := hshared.lowered.used x hx
    have hys := hshared.lowered.used y hy
    rw [hcompare x hxs y] at hxy
    have hxabove := habove x hxs y hys hne ((findSharedOps_mayShare hok).mp hmay) hxy
    exact hne (hshared.unique x hx hxabove y hy ((hequal x hxs y hys).mp hxy))

/-- The two selects over one stream are shared. -/
theorem twoSelects_fullyShared : ∃ levels t, findSharedOps true (preparedPlan twoSelects) = .ok levels t ∧
    t.FullyShared true := by
  have hreg : Registered blankMemory twoSelects := Registered.start.runCalls _ (by decide +kernel)
  obtain ⟨s₁,s₂,h1,h2,h3⟩ := preparedPlan_passes (s := twoSelects) (by decide +kernel)
  obtain ⟨hs,hr⟩ := prepared_sound hreg h1 h2 h3
  obtain ⟨levels,t,hrun⟩ := exists_of_returns (r := findSharedOps true (preparedPlan twoSelects)) (by decide +kernel)
  have habove : (preparedPlan twoSelects).EqualAboveSources true := by
    intro x hx y hy hne _ hxy
    have hall : (preparedPlan twoSelects).used.all (fun x => (preparedPlan twoSelects).used.all fun y => decide (x ≠ y →
        compareOperators (preparedPlan twoSelects).ops (MAX_OPS + 1) x y = .ok true →
        x ∈ closeUnder (fun a => ((preparedPlan twoSelects).ops a).outputs) (preparedPlan twoSelects).used.length
          (preparedPlan twoSelects).dataSources)) = true := by decide +kernel
    simp only [List.all_eq_true, decide_eq_true_eq] at hall
    exact reaches_of_mem_closeUnder (hall x hx y hy hne hxy)
  refine ⟨levels,t,hrun,?_⟩
  exact (findSharedOps_fullyShared_iff hs hr (by decide +kernel) (by decide +kernel) (fun _ _ _ _ => .inl rfl) hrun).mpr habove

/-- Two queries for the same rows of table 0, which are those of the system's own stream. -/
def systemSelects : PlanState := planAfter
  [.addBaseTable streamAndView 0, .addLogicalQueryPlan blankUninit 0 (positiveRows 0) true,
    .addLogicalQueryPlan blankUninit 1 (positiveRows 0) true]

/-- Three queries for the same rows of a stream, the first under class 1 and the others under class 2. -/
def classedSelects : PlanState := planAfter
  [.addBaseTable streamAndView 0, .addBaseTable streamAndView 1, .setQueryClass 1,
    .addLogicalQueryPlan blankUninit 0 (positiveRows 1) true, .setQueryClass 2,
    .addLogicalQueryPlan blankUninit 1 (positiveRows 1) true, .addLogicalQueryPlan blankUninit 2 (positiveRows 1) true]

/-- A plan that comes from registered queries and in which sharing is missed. -/
def SharingMissed (sharing : Bool) (s : PlanState) : Prop :=
  Registered blankMemory s ∧ ∃ s₁ s₂ s₃ levels t, removeQuerySources s = .ok () s₁ ∧ addSinks s₁ = .ok () s₂ ∧
    mergeSelects s₂ = .ok () s₃ ∧ JoinsFiltered s₃ ∧ findSharedOps sharing s₃ = .ok levels t ∧ ¬ t.FullyShared sharing

/-- The selects over the system's own stream are never compared, and the select of class 1
takes both selects of class 2 off the work list. -/
theorem selects_missed : SharingMissed true systemSelects ∧ SharingMissed false classedSelects := by
  have hmissed {sharing : Bool} {s t : PlanState} {x y : OpId} {levels : List (List Merge)}
      (hrun : findSharedOps sharing s = .ok levels t)
      (hxy : decide (x ∈ (finalState (findSharedOps sharing s)).used ∧ y ∈ (finalState (findSharedOps sharing s)).used ∧
        x ≠ y ∧ (finalState (findSharedOps sharing s)).MayShare sharing x y ∧
        compareOperators (finalState (findSharedOps sharing s)).ops (MAX_OPS + 1) x y = .ok true) = true) :
      ¬ t.FullyShared sharing := by
    rw [hrun, finalState_ok, decide_eq_true_iff] at hxy
    obtain ⟨hx,hy,hne,hmay,hequal⟩ := hxy
    exact fun hfull => hfull x hx y hy hne hmay hequal
  constructor
  · obtain ⟨s₁,s₂,h1,h2,h3⟩ := preparedPlan_passes (s := systemSelects) (by decide +kernel)
    obtain ⟨levels,t,hrun⟩ := exists_of_returns (r := findSharedOps true (preparedPlan systemSelects)) (by decide +kernel)
    refine ⟨Registered.start.runCalls _ (by decide +kernel),_,_,_,levels,t,h1,h2,h3,by decide +kernel,hrun,?_⟩
    exact hmissed (x := ⟨2,by decide +kernel⟩) (y := ⟨5,by decide +kernel⟩) hrun (by decide +kernel)
  · obtain ⟨s₁,s₂,h1,h2,h3⟩ := preparedPlan_passes (s := classedSelects) (by decide +kernel)
    obtain ⟨levels,t,hrun⟩ := exists_of_returns (r := findSharedOps false (preparedPlan classedSelects)) (by decide +kernel)
    refine ⟨Registered.start.runCalls _ (by decide +kernel),_,_,_,levels,t,h1,h2,h3,by decide +kernel,hrun,?_⟩
    exact hmissed (x := ⟨6,by decide +kernel⟩) (y := ⟨9,by decide +kernel⟩) hrun (by decide +kernel)

end AqsiosCoordinator.Physical
