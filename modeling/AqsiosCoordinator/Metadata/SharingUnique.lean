import AqsiosCoordinator.Metadata.SharingLevels
import AqsiosCoordinator.Metadata.QueryClasses

/-! # What a run leaves of operators that compute the same

On levels that start orderly, one of the operators that compute the same is left of
those that read a table, and it has the least of their classes.
-/
namespace AqsiosCoordinator.Physical
open Common Foundation Foundation.Outcome
variable {V : List OpId} {T : OpId → ComputationTree (Label × Option OpId)} {s t u : PlanState} {x y : OpId}
  {cur ys : List OpId}

/-- Every operator of `V` has the class of an operator of before that computes the same,
and the least class among the operators in use that compute the same is no greater. -/
structure Lowered (V : List OpId) (T : OpId → ComputationTree (Label × Option OpId)) (s t : PlanState) : Prop where
  origin : ∀ z ∈ V, ∃ w ∈ V, T w = T z ∧ t.queryClass z = s.queryClass w
  least : ∀ z ∈ s.used, ∃ w ∈ t.used, T w = T z ∧ t.queryClass w ≤ s.queryClass z
  used : ∀ o ∈ t.used, o ∈ s.used

theorem Lowered.refl (V : List OpId) (T : OpId → ComputationTree (Label × Option OpId)) (s : PlanState) : Lowered V T s s :=
  ⟨fun z hz => ⟨z,hz,rfl,rfl⟩,fun z hz => ⟨z,hz,rfl,le_rfl⟩,fun _ ho => ho⟩

theorem Lowered.trans (h : Lowered V T s t) (h' : Lowered V T t u) : Lowered V T s u := by
  refine ⟨fun z hz => ?_,fun z hz => ?_,fun o ho => h.used o (h'.used o ho)⟩
  · obtain ⟨w,hw,hwz,hclass⟩ := h'.origin z hz
    obtain ⟨v,hv,hvw,hclass'⟩ := h.origin w hw
    exact ⟨v,hv,hvw.trans hwz,hclass.trans hclass'⟩
  · obtain ⟨w,hw,hwz,hle⟩ := h.least z hz
    obtain ⟨v,hv,hvw,hle'⟩ := h'.least w hw
    exact ⟨v,hv,hvw.trans hwz,hle'.trans hle⟩

/-- The classes after a merge, whether it is given up or not. -/
theorem mergeOperators_class {b : Bool} (h : mergeOperators x y true s = .ok b t) (o : OpId) :
    t.queryClass o = if o = x then min (s.queryClass x) (s.queryClass y) else s.queryClass o := by
  obtain ⟨ins,outs,hop⟩ := mergeOperators_rewired h o
  rw [PlanState.queryClass, hop]
  by_cases ho : o = x
  · subst ho
    simp [PlanState.queryClass]
  · simp [PlanState.queryClass,ho,setOp_ops_of_ne _ ho]

/-- What a state of the run from `s` has kept of an operator. -/
structure Spared (z : OpId) (s t : PlanState) : Prop where
  used : z ∈ s.used → z ∈ t.used
  queryClass : t.queryClass z = s.queryClass z
  inputs : ∀ q, z ∈ (t.ops q).inputs ↔ z ∈ (s.ops q).inputs

theorem Spared.refl (z : OpId) (s : PlanState) : Spared z s s := ⟨id,rfl,fun _ => .rfl⟩

theorem Spared.trans {z : OpId} (h : Spared z s t) (h' : Spared z t u) : Spared z s u :=
  ⟨fun hz => h'.used (h.used hz),h'.queryClass.trans h.queryClass,fun q => (h'.inputs q).trans (h.inputs q)⟩

theorem mergeOperators_lowered (hx : x ∈ V) (hy : y ∈ V) (heq : T x = T y) {b : Bool}
    (hm : mergeOperators x y true s = .ok b t) (hused : ∀ o ∈ s.used, o ≠ y ∨ x ∉ s.used → o ∈ t.used)
    (hsub : ∀ o ∈ t.used, o ∈ s.used) (hxt : y ∈ s.used → x ∈ s.used → x ∈ t.used) : Lowered V T s t := by
  have hclass := mergeOperators_class hm
  have hle : ∀ o, t.queryClass o ≤ s.queryClass o := by
    intro o
    rw [hclass]
    split
    · rename_i ho
      exact ho ▸ min_le_left _ _
    · exact le_rfl
  refine ⟨fun z hz => ?_,fun z hz => ?_,hsub⟩
  · by_cases hzx : z = x
    · rw [hclass, if_pos hzx]
      rcases min_choice (s.queryClass x) (s.queryClass y) with hmin | hmin
      · exact ⟨x,hx,by rw [hzx],hmin⟩
      · exact ⟨y,hy,by rw [hzx, heq],hmin⟩
    · exact ⟨z,hz,rfl,by rw [hclass, if_neg hzx]⟩
  · by_cases hzy : z ≠ y ∨ x ∉ s.used
    · exact ⟨z,hused z hz hzy,rfl,hle z⟩
    · obtain ⟨hzy,hxs⟩ := not_or.mp hzy
      obtain rfl := not_not.mp hzy
      refine ⟨x,hxt hz (not_not.mp hxs),heq,?_⟩
      rw [hclass, if_pos rfl]
      exact min_le_right _ _

theorem Merging.compare_ok (h : Merging V T s) (hx : x ∈ V) (hy : y ∈ V) {b : Bool}
    (hc : Physical.compare x y s = .ok b t) : t = s ∧ (b = true ↔ T x = T y) := by
  obtain ⟨_,_,h1,hc⟩ := bind_eq_ok.mp hc
  obtain ⟨rfl,rfl⟩ := get_eq_ok.mp h1
  cases hr : compareOperators s.ops (MAX_OPS + 1) x y with
  | error e => simp [hr] at hc
  | ok r =>
    simp only [hr] at hc
    obtain ⟨rfl,rfl⟩ := pure_eq_ok.mp hc
    refine ⟨rfl,fun hb => compareOperators_sound labelling_ident h.computes hx hy (hb ▸ hr),fun heq => ?_⟩
    cases r with
    | true => rfl
    | false => exact absurd hr (compareOperators_ne_false h.computes hx hy heq)

structure Absorbed (V : List OpId) (T : OpId → ComputationTree (Label × Option OpId)) (x : OpId) (ys : List OpId)
    (r : List OpId × List Merge) (s t : PlanState) : Prop where
  merging : Merging V T t
  lowered : Lowered V T s t
  rest : r.1 = others T x ys
  merges : ∀ m ∈ r.2, T x = T m.2
  used : UsedAfter r.2 s t
  gone : ∀ y ∈ ys, T x = T y → y ∉ t.used
  outputs : ∀ c, c ≠ x → ∀ q ∈ (t.ops c).outputs, q ∈ (s.ops c).outputs
  spared : ∀ z, T x ≠ T z → Spared z s t

theorem outputsAfter_subset {c q : OpId} (hc : c ≠ x) (hq : q ∈ outputsAfter s x y c) : q ∈ (s.ops c).outputs := by
  rw [outputsAfter, if_neg hc] at hq
  split at hq
  · exact List.mem_of_mem_filter hq
  · exact hq

theorem mem_inputsAfter {z q : OpId} (hzx : z ≠ x) (hzy : z ≠ y) : z ∈ inputsAfter s x y q ↔ z ∈ (s.ops q).inputs := by
  unfold inputsAfter
  split
  · simp only [List.mem_map]
    constructor
    · rintro ⟨c,hc,hcz⟩
      split at hcz
      · exact absurd hcz.symm hzx
      · exact hcz ▸ hc
    · exact fun hz => ⟨z,hz,if_neg hzy⟩
  · exact .rfl

/-- One merge of the run: the second operator is not in use afterwards. -/
theorem Merging.step (h : Merging V T s) (hx : x ∈ V) (hy : y ∈ V) (hne : x ≠ y) (heq : T x = T y)
    (hlive : y ∈ s.used → x ∈ s.used) {b : Bool} (hm : mergeOperators x y true s = .ok b t) :
    Merging V T t ∧ Lowered V T s t ∧ (∀ o, o ∈ t.used ↔ o ∈ s.used ∧ o ≠ y) ∧ (b = true ↔ y ∈ s.used) ∧
      (∀ c, c ≠ x → ∀ q ∈ (t.ops c).outputs, q ∈ (s.ops c).outputs) ∧ ∀ z, z ≠ x → z ≠ y → Spared z s t := by
  have hclass {z : OpId} (hzx : z ≠ x) : t.queryClass z = s.queryClass z := by rw [mergeOperators_class hm, if_neg hzx]
  by_cases hyu : y ∈ s.used
  · have hxu := hlive hyu
    have hmerged := h.merged hxu hyu hne heq
    have hmerge := h.merge hx hyu hne heq
    rw [Fits, hm] at hmerged hmerge
    obtain ⟨rfl,ht,hused⟩ := hmerged
    obtain ⟨-,r,hr,hst⟩ := hmerge
    have hmem (o : OpId) : o ∈ t.used ↔ o ∈ s.used ∧ o ≠ y := by
      rw [hused, h.usedList.nodup.mem_erase_iff, and_comm]
    refine ⟨ht,?_,hmem,by simp [hyu],fun c hc q hq => ?_,fun z hzx hzy =>
      ⟨fun hz => (hmem z).mpr ⟨hz,hzy⟩,hclass hzx,fun q => ?_⟩⟩
    · refine mergeOperators_lowered hx hy heq hm (fun o ho hoy => (hmem o).mpr ⟨ho,?_⟩) (fun o ho => ((hmem o).mp ho).1)
        fun _ _ => (hmem x).mpr ⟨hxu,hne⟩
      exact hoy.resolve_right fun hn => hn hxu
    · refine outputsAfter_subset (s := s) (y := y) hc ?_
      rw [hst] at hq
      exact hq
    · rw [hst]
      exact mem_inputsAfter hzx hzy
  · have hgive := h.give_up hx hy hyu hne heq
    have hports : Fits (mergeOperators x y true) s (fun b t => b = false ∧ s.sameButClasses t) :=
      mergeOperators_given_up (h.gone y hy hyu).1 (h.gone y hy hyu).2 (h.reads y hy (h.combines hx hy hne heq))
    rw [Fits, hm] at hgive hports
    obtain ⟨rfl,ht,hused⟩ := hgive
    have hmem (o : OpId) : o ∈ t.used ↔ o ∈ s.used ∧ o ≠ y := by
      rw [hused]
      constructor
      · intro ho
        exact ⟨ho,fun he => hyu (he ▸ ho)⟩
      · exact fun ho => ho.1
    refine ⟨ht,?_,hmem,by simp [hyu],fun c _ q hq => ?_,fun z hzx hzy =>
      ⟨fun hz => (hmem z).mpr ⟨hz,hzy⟩,hclass hzx,fun q => ?_⟩⟩
    · exact mergeOperators_lowered hx hy heq hm (fun o ho _ => hused ▸ ho) (fun o ho => hused ▸ ho) fun hy' => absurd hy' hyu
    · have hp := congrArg (fun G : Ports OpId => G.outputs c) hports.2.ports
      simp only [ports_outputs] at hp
      rwa [hp] at hq
    · have hp := congrArg (fun G : Ports OpId => G.inputs q) hports.2.ports
      simp only [ports_inputs] at hp
      rw [hp]

theorem mergeInto_ok (h : Merging V T s) (hx : x ∈ V) (hxy : x ∉ ys) (hys : ∀ y ∈ ys, y ∈ V)
    (hlive : ∀ y ∈ ys, T x = T y → y ∈ s.used → x ∈ s.used) {r : List OpId × List Merge}
    (hr : mergeInto true x ys s = .ok r t) : Absorbed V T x ys r s t := by
  induction ys generalizing s r with
  | nil =>
    obtain ⟨rfl,rfl⟩ := pure_eq_ok.mp hr
    exact ⟨h,.refl V T s,rfl,by simp,.nil rfl,by simp,fun _ _ _ hq => hq,fun z _ => .refl z s⟩
  | cons y ys ih =>
    have hyV := hys y List.mem_cons_self
    have hysV : ∀ z ∈ ys, z ∈ V := fun z hz => hys z (List.mem_cons_of_mem _ hz)
    have hxne : x ≠ y := fun he => hxy (he ▸ List.mem_cons_self)
    have hxys : x ∉ ys := fun hm => hxy (List.mem_cons_of_mem _ hm)
    have hlive' : ∀ z ∈ ys, T x = T z → z ∈ s.used → x ∈ s.used := fun z hz => hlive z (List.mem_cons_of_mem _ hz)
    obtain ⟨b,_,h1,hr⟩ := bind_eq_ok.mp hr
    obtain ⟨rfl,hiff⟩ := h.compare_ok hx hyV h1
    cases b with
    | false =>
      obtain ⟨r',_,h2,h3⟩ := bind_eq_ok.mp hr
      obtain ⟨rfl,rfl⟩ := pure_eq_ok.mp h3
      have hne : T x ≠ T y := by simpa using hiff
      have hrest := ih h hxys hysV hlive' h2
      refine ⟨hrest.merging,hrest.lowered,?_,hrest.merges,hrest.used,fun z hz he => ?_,hrest.outputs,hrest.spared⟩
      · rw [others_cons_other hne, ← hrest.rest]
      · rcases List.mem_cons.mp hz with rfl | hz
        · exact absurd he hne
        · exact hrest.gone z hz he
    | true =>
      have heq := hiff.mp rfl
      rw [if_pos rfl] at hr
      obtain ⟨merged,v,h2,hr⟩ := bind_eq_ok.mp hr
      obtain ⟨r',_,h3,h4⟩ := bind_eq_ok.mp hr
      obtain ⟨rfl,rfl⟩ := pure_eq_ok.mp h4
      obtain ⟨hv,hlow,hmem,hmerged,houts,hspared⟩ := h.step hx hyV hxne heq (hlive y List.mem_cons_self heq) h2
      have hrest := ih hv hxys hysV (fun z hz he hzu => by
        obtain ⟨hzs,-⟩ := (hmem z).mp hzu
        exact (hmem x).mpr ⟨hlive' z hz he hzs,hxne⟩) h3
      refine ⟨hrest.merging,hlow.trans hrest.lowered,?_,fun m hm => ?_,fun o => ?_,fun z hz he hzt => ?_,
        fun c hc q hq => houts c hc q (hrest.outputs c hc q hq),fun z hz => ?_⟩
      · rw [others_cons_same heq, ← hrest.rest]
      · cases merged with
        | false => exact hrest.merges m hm
        | true =>
          rcases List.mem_cons.mp hm with rfl | hm
          · exact heq
          · exact hrest.merges m hm
      · rw [hrest.used o, hmem o]
        cases merged with
        | false =>
          have hyn : y ∉ _ := fun hyu => Bool.noConfusion (hmerged.mpr hyu)
          simp only [Bool.false_eq_true, if_false]
          constructor
          · rintro ⟨⟨h1,-⟩,h2⟩
            exact ⟨h1,h2⟩
          · rintro ⟨h1,h2⟩
            exact ⟨⟨h1,fun he => hyn (he ▸ h1)⟩,h2⟩
        | true =>
          simp only [if_true, List.forall_mem_cons]
          constructor
          · rintro ⟨⟨h1,h2⟩,h3⟩
            exact ⟨h1,Ne.symm h2,h3⟩
          · rintro ⟨h1,h2,h3⟩
            exact ⟨⟨h1,Ne.symm h2⟩,h3⟩
      · rcases List.mem_cons.mp hz with rfl | hz
        · exact ((hmem z).mp (hrest.lowered.used z hzt)).2 rfl
        · exact hrest.gone z hz he hzt
      · refine (hspared z ?_ ?_).trans (hrest.spared z hz)
        · exact fun he => hz (he ▸ rfl)
        · exact fun he => hz (heq.trans (he ▸ rfl))

structure Leveled (V : List OpId) (T : OpId → ComputationTree (Label × Option OpId)) (cur : List OpId)
    (r : List OpId × List Merge) (s t : PlanState) : Prop where
  merging : Merging V T t
  lowered : Lowered V T s t
  unique : ∀ x ∈ cur, ∀ y ∈ cur, x ∈ t.used → y ∈ t.used → T x = T y → x = y
  next : ∀ c ∈ cur, c ∈ t.used → ∀ q ∈ (t.ops c).outputs, q ∈ r.1
  next_mem : ∀ q ∈ r.1, q ∈ V ∧ ∃ o ∈ cur, T o ∈ (T q).inputs
  outputs : ∀ c, c ∉ cur → ∀ q ∈ (t.ops c).outputs, q ∈ (s.ops c).outputs
  spared : ∀ z, (∀ o ∈ cur, T o ≠ T z) → Spared z s t

theorem shareLevel_ok (fuel : ℕ) (h : Merging V T s) (hnd : cur.Nodup) (hcur : ∀ o ∈ cur, o ∈ V)
    (hc : ClearComputations T s cur) {r : List OpId × List Merge} (hr : shareLevel true fuel cur s = .ok r t) :
    Leveled V T cur r s t := by
  induction fuel generalizing s cur r with
  | zero =>
    cases cur with
    | nil =>
      obtain ⟨rfl,rfl⟩ := pure_eq_ok.mp hr
      exact ⟨h,.refl V T s,by simp,by simp,by simp,fun _ _ _ hq => hq,fun z _ => .refl z s⟩
    | cons x ys => simp [shareLevel] at hr
  | succ fuel ih =>
    cases cur with
    | nil =>
      obtain ⟨rfl,rfl⟩ := pure_eq_ok.mp hr
      exact ⟨h,.refl V T s,by simp,by simp,by simp,fun _ _ _ hq => hq,fun z _ => .refl z s⟩
    | cons x ys =>
      have hx := hcur x List.mem_cons_self
      have hysV : ∀ y ∈ ys, y ∈ V := fun y hy => hcur y (List.mem_cons_of_mem _ hy)
      obtain ⟨hxy,hnd⟩ := List.nodup_cons.mp hnd
      obtain ⟨r₁,t₁,h1,hr⟩ := bind_eq_ok.mp hr
      obtain ⟨_,_,h2,hr⟩ := bind_eq_ok.mp hr
      obtain ⟨rfl,rfl⟩ := getOp_ok.mp h2
      obtain ⟨next,v,h3,h4⟩ := bind_eq_ok.mp hr
      obtain ⟨rfl,rfl⟩ := pure_eq_ok.mp h4
      have hinto := mergeInto_ok h hx hxy hysV (clear_head hc) h1
      obtain ⟨-,hclear⟩ := clear_rest ys hinto.used hinto.merges
      have hsub : (others T x ys).Sublist ys := List.filter_sublist
      rw [hinto.rest] at h3
      have hrest := ih hinto.merging (hnd.sublist hsub) (fun o ho => hysV o (hsub.subset ho)) (hclear hc) h3
      have hxo : x ∉ others T x ys := fun hm => hxy (hsub.subset hm)
      have hother : ∀ y ∈ ys, y ∈ v.used → y ∈ others T x ys := by
        intro y hy hyt
        refine mem_others.mpr ⟨hy,fun he => ?_⟩
        exact hinto.gone y hy he (hrest.lowered.used y hyt)
      refine ⟨hrest.merging,hinto.lowered.trans hrest.lowered,fun a ha b hb hat hbt heq => ?_,fun c hc hct q hq => ?_,
        fun q hq => ?_,fun c hcn q hq => ?_,fun z hz => ?_⟩
      · rcases List.mem_cons.mp ha with rfl | ha'
        · rcases List.mem_cons.mp hb with rfl | hb'
          · rfl
          · exact absurd (hrest.lowered.used b hbt) (hinto.gone b hb' heq)
        · rcases List.mem_cons.mp hb with rfl | hb'
          · exact absurd (hrest.lowered.used a hat) (hinto.gone a ha' heq.symm)
          · exact hrest.unique a (hother a ha' hat) b (hother b hb' hbt) hat hbt heq
      · rcases List.mem_cons.mp hc with rfl | hc
        · exact List.mem_append_left _ (hrest.outputs c hxo q hq)
        · exact List.mem_append_right _ (hrest.next c (hother c hc hct) hct q hq)
      · rcases List.mem_append.mp hq with hq | hq
        · obtain ⟨hqV,hread⟩ := hinto.merging.computes.readers x hx q hq
          exact ⟨hqV,x,List.mem_cons_self,hread⟩
        · obtain ⟨hqV,o,ho,hread⟩ := hrest.next_mem q hq
          exact ⟨hqV,o,List.mem_cons_of_mem _ (hsub.subset ho),hread⟩
      · have hcx : c ≠ x := fun he => hcn (he ▸ List.mem_cons_self)
        have hco : c ∉ others T x ys := fun hm => hcn (List.mem_cons_of_mem _ (hsub.subset hm))
        exact hinto.outputs c hcx q (hrest.outputs c hco q hq)
      · refine (hinto.spared z (hz x List.mem_cons_self)).trans (hrest.spared z fun o ho => ?_)
        exact hz o (List.mem_cons_of_mem _ (hsub.subset ho))

def ReadsTable : ℕ → ComputationTree (Label × Option OpId) → Prop
  | 0, tree => tree.label.1.body.kind = .streamSource ∨ tree.label.1.body.kind = .relnSource
  | k+1, tree => ∃ c ∈ tree.inputs, ReadsTable k c

/-- The operators that are tables are the data sources. -/
theorem readsTable_zero {o : OpId} (hT : IsUnfolding (fun o => identLabel o (s.ops o)) s.ports.inputs s.used T)
    (ho : o ∈ s.used) : ReadsTable 0 (T o) ↔ o ∈ s.dataSources := by
  rw [ReadsTable, hT.label_eq ho, PlanState.dataSources, List.mem_filter, and_iff_right ho]
  simp only [identLabel, Operator.label, untyped_kind, Bool.or_eq_true, decide_eq_true_eq]

/-- Below an operator that reads a table there is one at every smaller distance from the table. -/
theorem Merging.readsTable_below (h : Merging V T s) {j k : ℕ} (hk : k ≤ j) {z : OpId} (hz : z ∈ s.used)
    (hread : ReadsTable j (T z)) : ∃ w ∈ s.used, ReadsTable k (T w) := by
  induction j generalizing z with
  | zero =>
    obtain rfl := Nat.le_zero.mp hk
    exact ⟨z,hz,hread⟩
  | succ j ih =>
    by_cases hkj : k = j + 1
    · exact ⟨z,hz,hkj ▸ hread⟩
    · obtain ⟨c,hc,hread⟩ := hread
      rw [h.computes.unfolding.inputs_eq (h.used_mem z hz)] at hc
      obtain ⟨w,hw,rfl⟩ := List.mem_map.mp hc
      exact ih (by omega) (h.consistent.inputs_mem z hz w hw) hread

/-- The operators of the work list that are in use are found first among those that are
the same, at the start of each level of a run. -/
def LevelsOrderly (same : OpId → OpId → Prop) : ℕ → List OpId → PlanState → Prop
  | _, [], _ => True
  | 0, _ :: _, _ => True
  | fuel+1, x :: cur, s => (∀ y ∈ x :: cur, y ∈ s.used → ∀ l₁ z l₂, x :: cur = l₁ ++ z :: l₂ → same z y →
      (∀ w ∈ l₁, ¬ same w y) → z ∈ s.used) ∧
    ∀ r t, shareLevel true (x :: cur).length (x :: cur) s = .ok r t → LevelsOrderly same fuel (firstOccurrences r.1) t

theorem clearComputations_iff : ClearComputations T s cur ↔ ∀ y ∈ cur, y ∈ s.used → ∀ l₁ z l₂, cur = l₁ ++ z :: l₂ →
    T z = T y → (∀ w ∈ l₁, T w ≠ T y) → z ∈ s.used := by
  unfold ClearComputations
  simp only [List.find?_eq_some_iff_append, decide_eq_true_eq, Bool.not_eq_eq_eq_not, Bool.not_true, decide_eq_false_iff_not]
  constructor
  · intro hc y hy hyu l₁ z l₂ hcur hzy hl
    exact hc y hy hyu z ⟨hzy,l₁,l₂,hcur,hl⟩
  · rintro hc y hy hyu z ⟨hzy,l₁,l₂,hcur,hl⟩
    exact hc y hy hyu l₁ z l₂ hcur hzy hl

theorem LevelsOrderly.clear {same : OpId → OpId → Prop} (hsame : ∀ x ∈ V, ∀ y ∈ V, (same x y ↔ T x = T y)) {fuel : ℕ}
    {x : OpId} (hc : LevelsOrderly same (fuel + 1) (x :: cur) s) (hcur : ∀ o ∈ x :: cur, o ∈ V) :
    ClearComputations T s (x :: cur) := by
  apply clearComputations_iff.mpr
  intro y hy hyu l₁ z l₂ hl hzy hfirst
  apply hc.1 y hy hyu l₁ z l₂ hl
  · exact (hsame z (hcur z (by simp [hl])) y (hcur y hy)).mpr hzy
  · intro w hw hwy
    exact hfirst w hw ((hsame w (hcur w (by simp [hl,hw])) y (hcur y hy)).mp hwy)

/-- A run whose levels start orderly leaves one of the operators that compute the same when
they read a table, and does not touch them when they read none. -/
theorem shareLevels_ok {same : OpId → OpId → Prop} (hsame : ∀ x ∈ V, ∀ y ∈ V, (same x y ↔ T x = T y)) (fuel k : ℕ)
    (h : Merging V T s) (hnd : cur.Nodup) (hcurV : ∀ o ∈ cur, o ∈ V ∧ ReadsTable k (T o))
    (hcur : ∀ z ∈ s.used, ReadsTable k (T z) → z ∈ cur)
    (hc : LevelsOrderly same fuel cur s) {levels : List (List Merge)}
    (hr : shareLevels true fuel cur s = .ok levels t) :
    Merging V T t ∧ Lowered V T s t ∧
      (∀ j, k ≤ j → ∀ x ∈ t.used, ∀ y ∈ t.used, ReadsTable j (T x) → T x = T y → x = y) ∧
      ∀ z, (∀ j, ¬ ReadsTable j (T z)) → Spared z s t := by
  induction fuel generalizing s cur levels k with
  | zero =>
    cases cur with
    | nil =>
      obtain ⟨-,rfl⟩ := pure_eq_ok.mp hr
      refine ⟨h,.refl V T s,fun j hj x hx y hy hread _ => ?_,fun z _ => .refl z s⟩
      obtain ⟨w,hw,hwk⟩ := h.readsTable_below hj hx hread
      exact absurd (hcur w hw hwk) List.not_mem_nil
    | cons x ys => simp [shareLevels] at hr
  | succ fuel ih =>
    cases cur with
    | nil =>
      obtain ⟨-,rfl⟩ := pure_eq_ok.mp hr
      refine ⟨h,.refl V T s,fun j hj x hx y hy hread _ => ?_,fun z _ => .refl z s⟩
      obtain ⟨w,hw,hwk⟩ := h.readsTable_below hj hx hread
      exact absurd (hcur w hw hwk) List.not_mem_nil
    | cons x ys =>
      obtain ⟨r,t₁,h1,hr⟩ := bind_eq_ok.mp hr
      obtain ⟨rest,_,h2,h3⟩ := bind_eq_ok.mp hr
      obtain ⟨rfl,rfl⟩ := pure_eq_ok.mp h3
      have hV : ∀ o ∈ x :: ys, o ∈ V := fun o ho => (hcurV o ho).1
      have hlevel := shareLevel_ok _ h hnd hV (hc.clear hsame hV) h1
      have hreaders : ∀ z ∈ t₁.used, ReadsTable (k + 1) (T z) → z ∈ firstOccurrences r.1 := by
        rintro z hz ⟨c,hcz,hread⟩
        rw [hlevel.merging.computes.unfolding.inputs_eq (hlevel.merging.used_mem z hz)] at hcz
        obtain ⟨w,hw,rfl⟩ := List.mem_map.mp hcz
        have hwt := hlevel.merging.consistent.inputs_mem z hz w hw
        have hwcur := hcur w (hlevel.lowered.used w hwt) hread
        have hzw := (hlevel.merging.consistent.mem_iff hz hwt).mp hw
        exact mem_firstOccurrences.mpr (hlevel.next w hwcur hwt z hzw)
      have hnext : ∀ q ∈ firstOccurrences r.1, q ∈ V ∧ ReadsTable (k + 1) (T q) := by
        intro q hq
        obtain ⟨hqV,o,ho,hread⟩ := hlevel.next_mem q (mem_firstOccurrences.mp hq)
        exact ⟨hqV,T o,hread,(hcurV o ho).2⟩
      obtain ⟨hm,hlow,huniq,hspared⟩ := ih (k + 1) hlevel.merging (nodup_firstOccurrences r.1) hnext hreaders
        (hc.2 r t₁ h1) h2
      refine ⟨hm,hlevel.lowered.trans hlow,fun j hj a ha b hb hread heq => ?_,fun z hz => ?_⟩
      · by_cases hjk : k = j
        · subst hjk
          have ha₁ := hlow.used a ha
          have hb₁ := hlow.used b hb
          exact hlevel.unique a (hcur a (hlevel.lowered.used a ha₁) hread) b
            (hcur b (hlevel.lowered.used b hb₁) (heq ▸ hread)) ha₁ hb₁ heq
        · exact huniq j (by omega) a ha b hb hread heq
      · refine (hlevel.spared z fun o ho he => ?_).trans (hspared z hz)
        exact hz k (he ▸ (hcurV o ho).2)

end AqsiosCoordinator.Physical
