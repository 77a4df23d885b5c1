import AqsiosCoordinator.Metadata.NullPredicates

/-! # How many levels finding shared operators works through

The operators of level `k` read a table at distance `k`. Merging changes who reads and who
is read but not what an operator computes, so the distance is one of the plan before the run.
-/
namespace AqsiosCoordinator.Physical
open Common Foundation Foundation.Outcome

/-- The operators on a way from a data source up, the last one first. -/
inductive PlanState.Way (s : PlanState) : List OpId → Prop where
  | source {o : OpId} (h : o ∈ s.dataSources) : s.Way [o]
  | reader {c q : OpId} {way : List OpId} (h : s.Way (c :: way)) (hq : q ∈ (s.ops c).outputs) : s.Way (q :: c :: way)

section Levels
variable {V : List OpId} {T : OpId → ComputationTree (Label × Option OpId)} {s t : PlanState} {cur : List OpId} {sharing : Bool}

/-- The operators of the last level of a run read a table at a distance of the number of levels. -/
theorem shareLevels_reach (hN : ∀ o ∈ V, (T o).height ≤ MAX_OPS) {fuel k : ℕ} (h : Computes identLabel V T s)
    (hcur : ∀ o ∈ cur, o ∈ V ∧ ReadsTable k (T o)) {levels : List (List Merge)}
    (hr : shareLevels sharing fuel cur s = .ok levels t) :
    levels = [] ∨ ∃ o ∈ V, ∃ j, ReadsTable j (T o) ∧ k + levels.length = j + 1 := by
  induction fuel generalizing k s cur levels with
  | zero =>
    cases cur with
    | nil =>
      obtain ⟨rfl,-⟩ := pure_eq_ok.mp hr
      exact .inl rfl
    | cons x cur => cases hr
  | succ fuel ih =>
    cases cur with
    | nil =>
      obtain ⟨rfl,-⟩ := pure_eq_ok.mp hr
      exact .inl rfl
    | cons x cur =>
      obtain ⟨r,u,h1,hr⟩ := bind_eq_ok.mp hr
      obtain ⟨rest,_,h2,h3⟩ := bind_eq_ok.mp hr
      obtain ⟨rfl,rfl⟩ := pure_eq_ok.mp h3
      have hlevel := shareLevel_computes labelling_ident hN sharing _ _ le_rfl fun o ho => (hcur o ho).1
      obtain ⟨hu,hnext,-⟩ := hlevel.of_ok h h1
      have hreads : ∀ q ∈ firstOccurrences r.1, q ∈ V ∧ ReadsTable (k + 1) (T q) := by
        intro q hq
        obtain ⟨hqV,o,ho,hoq⟩ := hnext q (mem_firstOccurrences.mp hq)
        exact ⟨hqV,T o,hoq,(hcur o ho).2⟩
      right
      rcases ih hu hreads h2 with rfl | ⟨o,ho,j,hj,hlen⟩
      · obtain ⟨hx,hread⟩ := hcur x List.mem_cons_self
        exact ⟨x,hx,k,hread,rfl⟩
      · refine ⟨o,ho,j,hj,?_⟩
        rw [List.length_cons]
        omega

end Levels

variable {s : PlanState} {T : OpId → ComputationTree (Label × Option OpId)} {o c : OpId}

/-- An operator that reads a table at distance `k` is at the end of a way of `k + 1` operators. -/
theorem Sound.way_of_readsTable (hs : Sound s) (hT : IsUnfolding (fun o => identLabel o (s.ops o)) s.ports.inputs s.used T)
    {k : ℕ} (ho : o ∈ s.used) (h : ReadsTable k (T o)) : ∃ way, s.Way (o :: way) ∧ way.length = k := by
  induction k generalizing o with
  | zero => exact ⟨[],.source ((readsTable_zero hT ho).mp h),rfl⟩
  | succ k ih =>
    obtain ⟨c,hc,hread⟩ := h
    rw [hT.inputs_eq ho] at hc
    obtain ⟨w,hw,rfl⟩ := List.mem_map.mp hc
    have hwu := hs.consistent.inputs_mem o ho w hw
    obtain ⟨way,hway,hlen⟩ := ih hwu hread
    exact ⟨w :: way,.reader hway ((hs.consistent.mem_iff ho hwu).mp hw),by rw [List.length_cons, hlen]⟩

theorem PlanState.Way.mem (hs : Sound s) {way : List OpId} (h : s.Way (o :: way)) : o ∈ s.used := by
  generalize hl : o :: way = l at h
  induction h generalizing o way with
  | source h =>
    obtain ⟨rfl,-⟩ := List.cons.inj hl
    exact List.mem_of_mem_filter h
  | reader h hq ih =>
    obtain ⟨rfl,-⟩ := List.cons.inj hl
    exact hs.consistent.outputs_mem _ (ih rfl) _ hq

theorem PlanState.Way.aboveTable {way : List OpId} (h : s.Way (o :: way)) : s.AboveTable o := by
  generalize hl : o :: way = l at h
  induction h generalizing o way with
  | source h =>
    obtain ⟨rfl,-⟩ := List.cons.inj hl
    exact ⟨o,h,.refl⟩
  | reader h hq ih =>
    obtain ⟨rfl,-⟩ := List.cons.inj hl
    obtain ⟨d,hd,hdc⟩ := ih rfl
    exact ⟨d,hd,hdc.tail hq⟩

/-- Every way leads on to an output or a sink. -/
theorem Sound.way_up (hs : Sound s) (hr : AllRead s)
    (hT : IsUnfolding (fun o => identLabel o (s.ops o)) s.ports.inputs s.used T) (hN : ∀ o ∈ s.used, (T o).height ≤ MAX_OPS)
    {way : List OpId} (h : s.Way (o :: way)) :
    ∃ p way', s.Way (p :: way') ∧ (s.ops p).body.kind.isOutput = true ∧ way.length ≤ way'.length := by
  have ho := h.mem hs
  generalize hn : MAX_OPS - (T o).height = n
  induction n using Nat.strong_induction_on generalizing o way with
  | h n ih =>
    rcases hr o ho with hunread | hread
    · have hne := hs.aboveTable_ne_ssGen h.aboveTable
      refine ⟨o,way,h,?_,le_rfl⟩
      cases hk : (s.ops o).body.kind <;> simp [hk,mayBeUnread,OperatorKind.isOutput] at hunread hne ⊢
    · obtain ⟨q,hq⟩ := List.exists_mem_of_ne_nil _ hread
      have hqu := hs.consistent.outputs_mem o ho q hq
      have hlt := ComputationTree.height_lt_of_mem (hT.mem_inputs hqu ((hs.consistent.mem_iff hqu ho).mpr hq))
      have hle := hN q hqu
      obtain ⟨p,way',hway,hout,hlen⟩ := ih (MAX_OPS - (T q).height) (by omega) (.reader h hq) hqu rfl
      refine ⟨p,way',hway,hout,?_⟩
      rw [List.length_cons] at hlen
      omega

/-- On a plan prepared for it, finding shared operators comes to an end after no more levels than there are
operators on some way from a data source to an output or a sink. -/
theorem findSharedOps_levels (hs : Sound s) (hr : AllRead s) (hj : JoinsFiltered s) (sharingAmongClasses : Bool)
    (hfits : ∀ u, findSharedOps sharingAmongClasses s ≠ .error .outOfBounds u) :
    ∃ levels t, findSharedOps sharingAmongClasses s = .ok levels t ∧
      (levels = [] ∨ ∃ o way, s.Way (o :: way) ∧ (s.ops o).body.kind.isOutput = true ∧
        levels.length ≤ (o :: way).length) := by
  obtain ⟨T,hT,hN⟩ := hs.sharing hr hj
  have hrun : findSharedOps sharingAmongClasses s = shareLevels sharingAmongClasses (MAX_OPS + 1) s.dataSources s := rfl
  have hsrc : ∀ o ∈ s.dataSources, o ∈ s.used := fun o ho => List.mem_of_mem_filter ho
  have hkeep : Keeps (Steady identLabel s.used T s) (fun e => e = .nonTermination ∨ e = .outOfBounds) s
      (shareLevels sharingAmongClasses (MAX_OPS + 1) s.dataSources) (fun _ => True) := by
    refine hT.steady.run labelling_ident hN hsrc (hs.pool.nodup.filter _) (by simp) (by simp) fun l _ hlV a ha b hb e he => ?_
    obtain ⟨r,hcompare,-⟩ := compareOperators_complete hT.computes.unfolding hT.comparable (hlV a ha) (hlV b hb)
      ((hN a (hlV a ha)).trans (Nat.le_succ _))
    rw [hcompare] at he
    cases he
  have hends := (findSharedOps_keeps_computations s hs.consistent hs.acyclic sharingAmongClasses).2
  cases hok : findSharedOps sharingAmongClasses s with
  | error e u =>
    rcases ((keeps_iff.mp hkeep).2 e u (hrun ▸ hok)).2 with rfl | rfl
    · exact absurd hok (hends u)
    · exact absurd hok (hfits u)
  | ok levels t =>
    have htables : ∀ o ∈ s.dataSources, o ∈ s.used ∧ ReadsTable 0 (T o) :=
      fun o ho => ⟨hsrc o ho,(readsTable_zero hT.computes.unfolding (hsrc o ho)).mpr ho⟩
    refine ⟨levels,t,rfl,?_⟩
    rcases shareLevels_reach hN hT.computes htables (hrun ▸ hok) with rfl | ⟨o,ho,j,hj,hlen⟩
    · exact .inl rfl
    · right
      obtain ⟨way,hway,hwaylen⟩ := hs.way_of_readsTable hT.computes.unfolding ho hj
      obtain ⟨p,way',hway',hout,hle⟩ := hs.way_up hr hT.computes.unfolding hN hway
      refine ⟨p,way',hway',hout,?_⟩
      rw [List.length_cons]
      omega

/-- The run in which a join that has been merged away stays on the work list. -/
theorem twoJoins_levels : ∃ levels t, findSharedOps true (preparedPlan twoJoins) = .ok levels t ∧
    (levels = [] ∨ ∃ o way, (preparedPlan twoJoins).Way (o :: way) ∧
      ((preparedPlan twoJoins).ops o).body.kind.isOutput = true ∧ levels.length ≤ (o :: way).length) := by
  have hreg : Registered blankMemory twoJoins := Registered.start.runCalls _ (by decide +kernel)
  obtain ⟨s₁,s₂,h1,h2,h3⟩ := preparedPlan_passes (s := twoJoins) (by decide +kernel)
  obtain ⟨hs,hr⟩ := prepared_sound hreg h1 h2 h3
  have hreturns : returns (findSharedOps true (preparedPlan twoJoins)) = true := by decide +kernel
  exact findSharedOps_levels hs hr (by decide +kernel) true (ne_error_of_returns hreturns _)

end AqsiosCoordinator.Physical
