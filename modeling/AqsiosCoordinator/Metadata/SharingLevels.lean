import AqsiosCoordinator.Metadata.SharingConsistency
import Mathlib.Data.List.Find

/-! # The levels of finding shared operators

A level is clear when every operator in use on its work list is found equal to an
operator in use before any other. On clear levels the operators in use stay a
consistent plan; on the first other level one that has been merged away survives.
-/
namespace AqsiosCoordinator.Physical
open Common Foundation Foundation.Outcome
variable {V : List OpId} {T : OpId → ComputationTree (Label × Option OpId)} {s t u : PlanState} {x y : OpId}
  {cur ys : List OpId}

/-- The first operator of the work list that each operator in use is found equal to is in use. -/
def Clear (s : PlanState) (currentOps : List OpId) : Prop :=
  ∀ y ∈ currentOps, y ∈ s.used →
    ∀ x ∈ currentOps.find? (fun x => compareOperators s.ops (MAX_OPS + 1) x y = .ok true), x ∈ s.used

instance (s : PlanState) (currentOps : List OpId) : Decidable (Clear s currentOps) :=
  have (y : OpId) : Decidable (∀ x ∈ currentOps.find? (fun x => compareOperators s.ops (MAX_OPS + 1) x y = .ok true),
    x ∈ s.used) := Option.decidableForallMem _
  List.decidableBAll (fun y => y ∈ s.used →
    ∀ x ∈ currentOps.find? (fun x => compareOperators s.ops (MAX_OPS + 1) x y = .ok true), x ∈ s.used) currentOps

def LevelsClear : ℕ → List OpId → PlanState → Prop
  | _, [], _ => True
  | 0, _ :: _, _ => False
  | fuel+1, x :: cur, s => Clear s (x :: cur) ∧
    match shareLevel true (x :: cur).length (x :: cur) s with
    | .ok r t => LevelsClear fuel (firstOccurrences r.1) t
    | .error _ _ => True

def decideLevelsClear : (fuel : ℕ) → (cur : List OpId) → (s : PlanState) → Decidable (LevelsClear fuel cur s)
  | 0, [], _ => .isTrue trivial
  | _+1, [], _ => .isTrue trivial
  | 0, _ :: _, _ => .isFalse id
  | fuel+1, x :: cur, s =>
    let next : Decidable (match shareLevel true (x :: cur).length (x :: cur) s with
      | .ok r t => LevelsClear fuel (firstOccurrences r.1) t
      | .error _ _ => True) := match shareLevel true (x :: cur).length (x :: cur) s with
      | .ok r t => decideLevelsClear fuel (firstOccurrences r.1) t
      | .error _ _ => .isTrue trivial
    @instDecidableAnd _ _ inferInstance next

instance (fuel : ℕ) (cur : List OpId) (s : PlanState) : Decidable (LevelsClear fuel cur s) := decideLevelsClear fuel cur s

def UsedAfter (merges : List Merge) (s t : PlanState) : Prop := ∀ o, o ∈ t.used ↔ o ∈ s.used ∧ ∀ m ∈ merges, m.2 ≠ o

theorem UsedAfter.nil (h : t.used = s.used) : UsedAfter [] s t := fun o => by simp [h]

theorem UsedAfter.append {ms ns : List Merge} (h : UsedAfter ms s t) (h' : UsedAfter ns t u) : UsedAfter (ms ++ ns) s u := by
  intro o
  rw [h' o, h o, List.forall_mem_append, and_assoc]

/-- Comparing leaves the state as it is and tells whether two operators compute the same. -/
theorem Sharing.compare (h : Sharing V T s) (hN : ∀ o ∈ V, (T o).height ≤ MAX_OPS) (hx : x ∈ V) (hy : y ∈ V) :
    ∃ b, Physical.compare x y s = .ok b s ∧ (b = true ↔ T x = T y) := by
  obtain ⟨b,hb,hiff⟩ := compareOperators_complete h.computes.unfolding h.comparable hx hy ((hN x hx).trans (Nat.le_succ _))
  refine ⟨b,?_,hiff⟩
  simp [Physical.compare,bind,EStateM.bind,get_apply,hb,pure,EStateM.pure]

section Classical
open Classical

noncomputable def others (T : OpId → ComputationTree (Label × Option OpId)) (x : OpId) (ys : List OpId) : List OpId :=
  ys.filter (fun y => decide (T x ≠ T y))

theorem mem_others {z : OpId} : z ∈ others T x ys ↔ z ∈ ys ∧ T x ≠ T z := by simp [others]

theorem others_cons_same (h : T x = T y) : others T x (y :: ys) = others T x ys := by simp [others,h]

theorem others_cons_other (h : T x ≠ T y) : others T x (y :: ys) = y :: others T x ys := by simp [others,h]

/-- Every operator that computes the same as `x` is merged into it or has been merged away before. -/
theorem mergeInto_fits (h : Sharing V T s) (hN : ∀ o ∈ V, (T o).height ≤ MAX_OPS) (hx : x ∈ V) (hxy : x ∉ ys)
    (hys : ∀ y ∈ ys, y ∈ V) (hlive : ∀ y ∈ ys, T x = T y → y ∈ s.used → x ∈ s.used) :
    Fits (mergeInto true x ys) s (fun r t => Sharing V T t ∧ r.1 = others T x ys ∧
      (∀ m ∈ r.2, m.1 = x ∧ x ∈ s.used ∧ T x = T m.2) ∧ UsedAfter r.2 s t) := by
  induction ys generalizing s with
  | nil => exact fits_pure ⟨h,rfl,by simp,.nil rfl⟩
  | cons y ys ih =>
    have hyV := hys y List.mem_cons_self
    have hxne : x ≠ y := fun he => hxy (he ▸ List.mem_cons_self)
    have hxys : x ∉ ys := fun hm => hxy (List.mem_cons_of_mem _ hm)
    have hrest {t : PlanState} (ht : Sharing V T t) (hu : ∀ o, o ∈ t.used → o ∈ s.used)
        (hxt : x ∈ s.used → x ∈ t.used) := ih ht hxys (fun z hz => hys z (List.mem_cons_of_mem _ hz))
      fun z hz he hzu => hxt (hlive z (List.mem_cons_of_mem _ hz) he (hu z hzu))
    obtain ⟨b,hb,hiff⟩ := h.compare hN hx hyV
    refine Fits.bind (Q := fun b' t => b' = b ∧ t = s) (by rw [Fits, hb]; exact ⟨rfl,rfl⟩) fun b' t ht => ?_
    obtain ⟨rfl,rfl⟩ := ht
    cases b' with
    | false =>
      have hne : T x ≠ T y := by simpa using hiff
      refine Fits.bind (hrest h (fun o ho => ho) id) fun r t ht => fits_pure ?_
      rw [others_cons_other hne]
      exact ⟨ht.1,by rw [ht.2.1],ht.2.2.1,ht.2.2.2⟩
    | true =>
      have heq := hiff.mp rfl
      rw [if_pos rfl, others_cons_same heq]
      by_cases hyu : y ∈ t.used
      · have hxu := hlive y List.mem_cons_self heq hyu
        refine Fits.bind (h.merged hxu hyu hxne heq) fun merged v hv => ?_
        obtain ⟨rfl,hvS,hvu⟩ := hv
        have hmem (o : OpId) : o ∈ v.used ↔ o ≠ y ∧ o ∈ t.used := by
          rw [hvu]
          exact h.usedList.nodup.mem_erase_iff
        refine Fits.bind (hrest hvS (fun o ho => ((hmem o).mp ho).2) fun _ => (hmem x).mpr ⟨hxne,hxu⟩) fun r w hw => ?_
        obtain ⟨hwS,hr,hms,hwu⟩ := hw
        refine fits_pure ⟨hwS,hr,fun m hm => ?_,?_⟩
        · rcases List.mem_cons.mp hm with rfl | hm
          · exact ⟨rfl,hxu,heq⟩
          · exact ⟨(hms m hm).1,hxu,(hms m hm).2.2⟩
        · refine @UsedAfter.append _ _ _ [(x,y)] _ (fun o => ?_) hwu
          rw [hmem, List.forall_mem_singleton]
          constructor
          · rintro ⟨h1,h2⟩
            exact ⟨h2,Ne.symm h1⟩
          · rintro ⟨h1,h2⟩
            exact ⟨Ne.symm h2,h1⟩
      · refine Fits.bind (h.give_up hx hyV hyu hxne heq) fun merged v hv => ?_
        obtain ⟨rfl,hvS,hvu⟩ := hv
        refine Fits.bind (hrest hvS (fun o ho => hvu ▸ ho) fun hxu => hvu ▸ hxu) fun r w hw => fits_pure ?_
        obtain ⟨hwS,hr,hms,hwu⟩ := hw
        refine ⟨hwS,hr,fun m hm => ?_,UsedAfter.append (.nil hvu) hwu⟩
        obtain ⟨h1,h2,h3⟩ := hms m hm
        exact ⟨h1,hvu ▸ h2,h3⟩

/-- An operator that has been merged away survives when an equal one in use comes behind it. -/
theorem mergeInto_survivor (h : Sharing V T s) (hN : ∀ o ∈ V, (T o).height ≤ MAX_OPS) (hx : x ∈ V) (hgone : x ∉ s.used)
    (hys : ∀ y ∈ ys, y ∈ V) (hxy : x ∉ ys) (hlive : ∃ y ∈ ys, T x = T y ∧ y ∈ s.used) {r : List OpId × List Merge}
    (hr : mergeInto true x ys s = .ok r t) : ∃ m ∈ r.2, m.1 = x := by
  induction ys generalizing s r with
  | nil => simp at hlive
  | cons y ys ih =>
    have hyV := hys y List.mem_cons_self
    have hxne : x ≠ y := fun he => hxy (he ▸ List.mem_cons_self)
    have hlater (hy : ¬ (T x = T y ∧ y ∈ s.used)) : ∃ z ∈ ys, T x = T z ∧ z ∈ s.used := by
      obtain ⟨z,hz,hzz⟩ := hlive
      rcases List.mem_cons.mp hz with rfl | hz
      · exact absurd hzz hy
      · exact ⟨z,hz,hzz⟩
    have hrest {v : PlanState} (hv : Sharing V T v) (hvu : v.used = s.used) (hz : ∃ z ∈ ys, T x = T z ∧ z ∈ s.used)
        {r : List OpId × List Merge} (hr : mergeInto true x ys v = .ok r t) : ∃ m ∈ r.2, m.1 = x :=
      ih hv (hvu ▸ hgone) (fun z hz => hys z (List.mem_cons_of_mem _ hz)) (fun hm => hxy (List.mem_cons_of_mem _ hm))
        (hvu ▸ hz) hr
    obtain ⟨b,hb,hiff⟩ := h.compare hN hx hyV
    obtain ⟨b',_,h1,hr⟩ := bind_eq_ok.mp hr
    rw [hb] at h1
    obtain ⟨rfl,rfl⟩ : b = b' ∧ s = _ := by simpa using h1
    cases b with
    | false =>
      obtain ⟨r',_,h2,h3⟩ := bind_eq_ok.mp hr
      obtain ⟨rfl,rfl⟩ := pure_eq_ok.mp h3
      have hne : T x ≠ T y := by simpa using hiff
      have hm : ∃ m ∈ r'.2, m.1 = x := hrest h rfl (hlater fun he => hne he.1) h2
      exact hm
    | true =>
      have heq := hiff.mp rfl
      rw [if_pos rfl] at hr
      obtain ⟨merged,v,h2,hr⟩ := bind_eq_ok.mp hr
      obtain ⟨r',_,h3,h4⟩ := bind_eq_ok.mp hr
      obtain ⟨rfl,rfl⟩ := pure_eq_ok.mp h4
      by_cases hyu : y ∈ s.used
      · have hmerge := h.merge hx hyu hxne heq
        rw [Fits, h2] at hmerge
        obtain ⟨rfl,-⟩ := hmerge
        exact ⟨(x,y),List.mem_cons_self,rfl⟩
      · have hgive := h.give_up hx hyV hyu hxne heq
        rw [Fits, h2] at hgive
        obtain ⟨rfl,hv,hvu⟩ := hgive
        have hm : ∃ m ∈ r'.2, m.1 = x := hrest hv hvu (hlater fun he => hyu he.2) h3
        exact hm

def ClearComputations (T : OpId → ComputationTree (Label × Option OpId)) (s : PlanState) (currentOps : List OpId) : Prop :=
  ∀ y ∈ currentOps, y ∈ s.used → ∀ x, currentOps.find? (fun x => decide (T x = T y)) = some x → x ∈ s.used

theorem Sharing.clear_iff (h : Sharing V T s) (hN : ∀ o ∈ V, (T o).height ≤ MAX_OPS) (hcur : ∀ o ∈ cur, o ∈ V) :
    Clear s cur ↔ ClearComputations T s cur := by
  have hfind : ∀ y ∈ cur, cur.find? (fun x => decide (compareOperators s.ops (MAX_OPS + 1) x y = .ok true)) =
      cur.find? (fun x => decide (T x = T y)) := by
    intro y hy
    refine List.find?_congr fun x hx => ?_
    obtain ⟨b,hb,hiff⟩ := compareOperators_complete h.computes.unfolding h.comparable (hcur x hx) (hcur y hy)
      ((hN x (hcur x hx)).trans (Nat.le_succ _))
    rw [decide_eq_decide, hb, ← hiff, Except.ok.injEq]
  unfold Clear ClearComputations
  constructor
  · intro hc y hy hyu x hx
    exact hc y hy hyu x ((hfind y hy).trans hx)
  · intro hc y hy hyu x hx
    exact hc y hy hyu x ((hfind y hy).symm.trans hx)

/-- The rest of a clear work list, without what computes the same as its first operator. -/
theorem find?_others {z : OpId} (hz : T x ≠ T z) :
    (x :: ys).find? (fun o => decide (T o = T z)) = (others T x ys).find? (fun o => decide (T o = T z)) := by
  rw [List.find?_cons_of_neg (by simpa using hz)]
  induction ys with
  | nil => rfl
  | cons y ys ih =>
    by_cases hy : T x = T y
    · rw [others_cons_same hy, ← ih, List.find?_cons_of_neg]
      simpa [← hy] using hz
    · rw [others_cons_other hy, List.find?_cons, List.find?_cons, ih]

theorem clear_head (hc : ClearComputations T s (x :: ys)) : ∀ y ∈ ys, T x = T y → y ∈ s.used → x ∈ s.used := by
  intro y hy heq hyu
  refine hc y (List.mem_cons_of_mem _ hy) hyu x ?_
  rw [List.find?_cons_of_pos (by simpa using heq)]

variable (ys) in
theorem clear_rest {ms : List Merge} (hu : UsedAfter ms s t) (hms : ∀ m ∈ ms, T x = T m.2) :
    (∀ z, T x ≠ T z → (z ∈ t.used ↔ z ∈ s.used)) ∧
      (ClearComputations T s (x :: ys) → ClearComputations T t (others T x ys)) := by
  have hkeep : ∀ z, T x ≠ T z → (z ∈ t.used ↔ z ∈ s.used) := by
    intro z hz
    rw [hu z, and_iff_left]
    rintro m hm rfl
    exact hz (hms m hm)
  refine ⟨hkeep,fun hc z hz hzu o ho => ?_⟩
  obtain ⟨hzys,hzx⟩ := mem_others.mp hz
  have hox := (mem_others.mp (List.mem_of_find?_eq_some ho)).2
  rw [hkeep o hox]
  refine hc z (List.mem_cons_of_mem _ hzys) ((hkeep z hzx).mp hzu) o ?_
  rw [find?_others hzx]
  exact ho

/-- A clear level. -/
theorem shareLevel_fits (hN : ∀ o ∈ V, (T o).height ≤ MAX_OPS) (fuel : ℕ) (h : Sharing V T s) (hlen : cur.length ≤ fuel)
    (hnd : cur.Nodup) (hcur : ∀ o ∈ cur, o ∈ V) (hc : ClearComputations T s cur) :
    Fits (shareLevel true fuel cur) s (fun r t => Sharing V T t ∧
      (∀ q ∈ r.1, q ∈ V ∧ ∃ o ∈ cur, T o ∈ (T q).inputs) ∧ (∀ m ∈ r.2, m.1 ∈ s.used) ∧ UsedAfter r.2 s t) := by
  induction fuel generalizing s cur with
  | zero =>
    obtain rfl := List.length_eq_zero_iff.mp (Nat.le_zero.mp hlen)
    exact fits_pure ⟨h,by simp,by simp,.nil rfl⟩
  | succ fuel ih =>
    cases cur with
    | nil => exact fits_pure ⟨h,by simp,by simp,.nil rfl⟩
    | cons x ys =>
      have hx := hcur x List.mem_cons_self
      obtain ⟨hxy,hnd⟩ := List.nodup_cons.mp hnd
      refine Fits.bind (mergeInto_fits h hN hx hxy (fun y hy => hcur y (List.mem_cons_of_mem _ hy)) (clear_head hc))
        fun r t ht => ?_
      obtain ⟨htS,hr,hms,hu⟩ := ht
      refine Fits.bind (fits_getOp (Q := fun o v => o = t.ops x ∧ v = t) ⟨rfl,rfl⟩) fun o v hv => ?_
      obtain ⟨rfl,rfl⟩ := hv
      obtain ⟨hkeep,hclear⟩ := clear_rest ys hu fun m hm => (hms m hm).2.2
      have hsub : (others T x ys).Sublist ys := List.filter_sublist
      rw [hr]
      refine Fits.bind (ih htS (hsub.length_le.trans (Nat.le_of_succ_le_succ hlen)) (hnd.sublist hsub)
        (fun o ho => hcur o (List.mem_cons_of_mem _ (hsub.subset ho))) (hclear hc)) fun next w hw => fits_pure ?_
      obtain ⟨hwS,hnext,hsurv,hwu⟩ := hw
      refine ⟨hwS,fun q hq => ?_,fun m hm => ?_,hu.append hwu⟩
      · rcases List.mem_append.mp hq with hq | hq
        · obtain ⟨hqV,hqx⟩ := htS.computes.readers x hx q hq
          exact ⟨hqV,x,List.mem_cons_self,hqx⟩
        · obtain ⟨hqV,o,ho,hoq⟩ := hnext q hq
          exact ⟨hqV,o,List.mem_cons_of_mem _ (hsub.subset ho),hoq⟩
      · rcases List.mem_append.mp hm with hm | hm
        · exact (hms m hm).1 ▸ (hms m hm).2.1
        · exact ((hu m.1).mp (hsurv m hm)).1

/-- On a level that is not clear, an operator that was not in use before it survives. -/
theorem shareLevel_survivor (hN : ∀ o ∈ V, (T o).height ≤ MAX_OPS) (fuel : ℕ) (h : Sharing V T s) (hnd : cur.Nodup)
    (hcur : ∀ o ∈ cur, o ∈ V) (hc : ¬ ClearComputations T s cur) {r : List OpId × List Merge}
    (hr : shareLevel true fuel cur s = .ok r t) : ∃ m ∈ r.2, m.1 ∈ cur ∧ m.1 ∉ s.used := by
  induction fuel generalizing s cur r with
  | zero =>
    cases cur with
    | nil => exact absurd (fun y hy => absurd hy List.not_mem_nil) hc
    | cons x ys => simp [shareLevel] at hr
  | succ fuel ih =>
    cases cur with
    | nil => exact absurd (fun y hy => absurd hy List.not_mem_nil) hc
    | cons x ys =>
      have hx := hcur x List.mem_cons_self
      have hysV : ∀ y ∈ ys, y ∈ V := fun y hy => hcur y (List.mem_cons_of_mem _ hy)
      obtain ⟨hxy,hnd⟩ := List.nodup_cons.mp hnd
      obtain ⟨r₁,t₁,h1,hr⟩ := bind_eq_ok.mp hr
      obtain ⟨_,_,h2,hr⟩ := bind_eq_ok.mp hr
      obtain ⟨rfl,rfl⟩ := getOp_ok.mp h2
      obtain ⟨next,_,h3,h4⟩ := bind_eq_ok.mp hr
      obtain ⟨rfl,rfl⟩ := pure_eq_ok.mp h4
      by_cases hhead : ∀ y ∈ ys, T x = T y → y ∈ s.used → x ∈ s.used
      · have hinto := mergeInto_fits h hN hx hxy hysV hhead
        rw [Fits, h1] at hinto
        obtain ⟨htS,hr₁,hms,hu⟩ := hinto
        obtain ⟨hkeep,-⟩ := clear_rest ys hu fun m hm => (hms m hm).2.2
        have hsub : (others T x ys).Sublist ys := List.filter_sublist
        have hnext : ¬ ClearComputations T t₁ (others T x ys) := by
          intro hrest
          refine hc fun z hz hzu o ho => ?_
          by_cases hzx : T x = T z
          · rw [List.find?_cons_of_pos (by simpa using hzx)] at ho
            obtain rfl : x = o := by simpa using ho
            rcases List.mem_cons.mp hz with rfl | hz
            · exact hzu
            · exact hhead z hz hzx hzu
          · rw [find?_others hzx] at ho
            have hzys : z ∈ ys := by
              rcases List.mem_cons.mp hz with rfl | hz
              · exact absurd rfl hzx
              · exact hz
            have hox := (mem_others.mp (List.mem_of_find?_eq_some ho)).2
            exact (hkeep o hox).mp (hrest z (mem_others.mpr ⟨hzys,hzx⟩) ((hkeep z hzx).mpr hzu) o ho)
        rw [hr₁] at h3
        obtain ⟨m,hm,hmcur,hmu⟩ := ih htS (hnd.sublist hsub) (fun o ho => hysV o (hsub.subset ho)) hnext h3
        refine ⟨m,List.mem_append_right _ hm,List.mem_cons_of_mem _ (hsub.subset hmcur),?_⟩
        rwa [hkeep m.1 (mem_others.mp hmcur).2] at hmu
      · simp only [not_forall] at hhead
        obtain ⟨y,hy,heq,hyu,hxu⟩ := hhead
        obtain ⟨m,hm,hmx⟩ := mergeInto_survivor h hN hx hxu hysV hxy ⟨y,hy,heq,hyu⟩ h1
        exact ⟨m,List.mem_append_left _ hm,hmx ▸ List.mem_cons_self,hmx ▸ hxu⟩

end Classical

theorem nodup_firstOccurrences (l : List OpId) : (firstOccurrences l).Nodup := by
  have hfold (l acc : List OpId) (h : acc.Nodup) :
      (l.foldl (fun cur o => if o ∈ cur then cur else cur ++ [o]) acc).Nodup := by
    induction l generalizing acc with
    | nil => exact h
    | cons x l ih =>
      apply ih
      beta_reduce
      split
      · exact h
      · rename_i hx
        rw [List.nodup_append]
        refine ⟨h,List.nodup_singleton x,fun a ha b hb => ?_⟩
        rw [List.mem_singleton.mp hb]
        exact fun he => hx (he ▸ ha)
  exact hfold l [] List.nodup_nil

/-- No operator that a level merges away survives a merge of a later level. -/
def SurvivorsInUse (levels : List (List Merge)) : Prop :=
  levels.Pairwise (fun earlier later => ∀ m ∈ earlier, ∀ n ∈ later, n.1 ≠ m.2)

instance (levels : List (List Merge)) : Decidable (SurvivorsInUse levels) :=
  letI : DecidableRel (fun earlier later : List Merge => ∀ m ∈ earlier, ∀ n ∈ later, n.1 ≠ m.2) := fun earlier later =>
    @List.decidableBAll _ _ (fun m => List.decidableBAll (fun n => n.1 ≠ m.2) later) earlier
  List.instDecidablePairwise levels

/-- A run from a state of the pass keeps the plan consistent exactly when its levels are clear. -/
theorem shareLevels_iff (hN : ∀ o ∈ V, (T o).height ≤ MAX_OPS) (fuel : ℕ) (h : Sharing V T s) (hnd : cur.Nodup)
    (hcur : ∀ o ∈ cur, o ∈ V ∧ MAX_OPS + 1 ≤ (T o).height + fuel)
    (hfits : ∀ u, shareLevels true fuel cur s ≠ .error .outOfBounds u) :
    (∃ levels t, shareLevels true fuel cur s = .ok levels t ∧ t.ports.Consistent t.used ∧ SurvivorsInUse levels ∧
      ∀ l ∈ levels, ∀ m ∈ l, m.1 ∈ s.used) ↔ LevelsClear fuel cur s := by
  induction fuel generalizing s cur with
  | zero =>
    cases cur with
    | nil =>
      simp only [LevelsClear, iff_true]
      exact ⟨[],s,rfl,h.consistent,List.Pairwise.nil,by simp⟩
    | cons x cur =>
      obtain ⟨hx,hfuel⟩ := hcur x List.mem_cons_self
      have hle := hN x hx
      omega
  | succ fuel ih =>
    cases cur with
    | nil =>
      simp only [LevelsClear, iff_true]
      exact ⟨[],s,rfl,h.consistent,List.Pairwise.nil,by simp⟩
    | cons x ys =>
      have hcurV : ∀ o ∈ x :: ys, o ∈ V := fun o ho => (hcur o ho).1
      have hrun : shareLevels true (fuel + 1) (x :: ys) = (do
        let r ← shareLevel true (x :: ys).length (x :: ys)
        let rest ← shareLevels true fuel (firstOccurrences r.1)
        return r.2 :: rest) := rfl
      by_cases hc : Clear s (x :: ys)
      · have hlevel := shareLevel_fits hN _ h le_rfl hnd hcurV ((h.clear_iff hN hcurV).mp hc)
        unfold Fits at hlevel
        cases hr : shareLevel true (x :: ys).length (x :: ys) s with
        | error e u =>
          rw [hr] at hlevel
          refine absurd ?_ (hfits u)
          rw [hrun, bind_of_error hr, hlevel]
        | ok r t =>
          rw [hr] at hlevel
          obtain ⟨htS,hnext,hsurv,hu⟩ := hlevel
          have hrest (levels : List (List Merge)) (v : PlanState) :
              shareLevels true fuel (firstOccurrences r.1) t = .ok levels v ↔
                shareLevels true (fuel + 1) (x :: ys) s = .ok (r.2 :: levels) v := by
            rw [hrun, bind_of_ok hr]
            constructor
            · intro hl
              rw [bind_of_ok hl]
              rfl
            · intro hl
              obtain ⟨levels',_,h1,h2⟩ := bind_eq_ok.mp hl
              obtain ⟨h3,rfl⟩ := pure_eq_ok.mp h2
              rw [h1, (List.cons.inj h3).2]
          have hnextfits : ∀ u, shareLevels true fuel (firstOccurrences r.1) t ≠ .error .outOfBounds u := by
            intro u hu'
            apply hfits u
            rw [hrun, bind_of_ok hr, bind_of_error hu']
          have hind := ih htS (nodup_firstOccurrences r.1) (fun q hq => by
            obtain ⟨hqV,o,ho,hoq⟩ := hnext q (mem_firstOccurrences.mp hq)
            have hlt := ComputationTree.height_lt_of_mem hoq
            have hfuel := (hcur o ho).2
            exact ⟨hqV,by omega⟩) hnextfits
          rw [LevelsClear, hr]
          simp only [hc, true_and]
          rw [← hind]
          constructor
          · rintro ⟨levels,v,hok,hcons,hpair,hall⟩
            have hhead : ∃ rest, levels = r.2 :: rest := by
              rw [hrun, bind_of_ok hr] at hok
              obtain ⟨rest,_,-,h2⟩ := bind_eq_ok.mp hok
              exact ⟨rest,(pure_eq_ok.mp h2).1.symm⟩
            obtain ⟨rest,rfl⟩ := hhead
            obtain ⟨hfirst,hpair⟩ := List.pairwise_cons.mp hpair
            refine ⟨rest,v,(hrest rest v).mpr hok,hcons,hpair,fun l hl n hn => (hu n.1).mpr ⟨?_,fun m hm => ?_⟩⟩
            · exact hall l (List.mem_cons_of_mem _ hl) n hn
            · exact (hfirst l hl m hm n hn).symm
          · rintro ⟨rest,v,hok,hcons,hpair,hall⟩
            refine ⟨r.2 :: rest,v,(hrest rest v).mp hok,hcons,List.pairwise_cons.mpr ⟨fun l hl m hm n hn => ?_,hpair⟩,?_⟩
            · exact Ne.symm (((hu n.1).mp (hall l hl n hn)).2 m hm)
            · intro l hl m hm
              rcases List.mem_cons.mp hl with rfl | hl
              · exact hsurv m hm
              · exact ((hu m.1).mp (hall l hl m hm)).1
      · have hfalse : ¬ LevelsClear (fuel + 1) (x :: ys) s := fun hcl => hc (by unfold LevelsClear at hcl; exact hcl.1)
        refine iff_of_false ?_ hfalse
        rintro ⟨levels,v,hok,-,-,hall⟩
        rw [hrun] at hok
        obtain ⟨r,t,hr,hok⟩ := bind_eq_ok.mp hok
        obtain ⟨rest,_,-,h2⟩ := bind_eq_ok.mp hok
        obtain ⟨rfl,-⟩ := pure_eq_ok.mp h2
        obtain ⟨m,hm,-,hgone⟩ := shareLevel_survivor hN _ h hnd hcurV (fun hcl => hc ((h.clear_iff hN hcurV).mpr hcl)) hr
        exact hgone (hall r.2 List.mem_cons_self m hm)

end AqsiosCoordinator.Physical
