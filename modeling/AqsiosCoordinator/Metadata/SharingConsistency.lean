import AqsiosCoordinator.Metadata.MergeEffects
import AqsiosCoordinator.Metadata.PlanTransSoundness

/-! # When finding shared operators keeps the plan consistent

An operator that has been merged away can still stand on the work list of the next
level. A merge with it as the second operator is given up; as the first operator it
takes over the readers of an operator in use.
-/
namespace AqsiosCoordinator.Physical
open Common Foundation Foundation.Outcome
variable {V : List OpId} {T : OpId → ComputationTree (Label × Option OpId)} {s t u : PlanState} {op1 op2 x y : OpId}

/-- A state of the pass on the plan of operators `V`, which compute `T`. The operators in
use form a consistent plan, and the edges of an operator that has been merged away do not
agree at both ends. -/
structure Merging (V : List OpId) (T : OpId → ComputationTree (Label × Option OpId)) (s : PlanState) : Prop where
  computes : Computes identLabel V T s
  usedList : s.links.IsList none s.usedOps s.used
  used_mem : ∀ o ∈ s.used, o ∈ V
  consistent : s.ports.Consistent s.used
  reads : ∀ o ∈ V, (s.ops o).body.kind.combines = true → (s.ops o).inputs ≠ []
  first : ∀ o, s.used.head? = some o → (s.ops o).body.kind.combines = false
  last : ∀ o, s.used.getLast? = some o → (s.ops o).body.kind.combines = false
  gone : ∀ z ∈ V, z ∉ s.used → (∀ q ∈ (s.ops z).outputs, z ∉ (s.ops q).inputs) ∧
    ∀ c ∈ (s.ops z).inputs, z ∉ (s.ops c).outputs

/-- A state of the pass in which any two operators can be compared. -/
structure Sharing (V : List OpId) (T : OpId → ComputationTree (Label × Option OpId)) (s : PlanState) : Prop
    extends Merging V T s where
  comparable : ∀ o ∈ V, (s.ops o).body.Comparable (s.ops o).attrs.length

theorem Merging.of_sameButClasses (h : Merging V T s) (hst : s.sameButClasses t) : Merging V T t := by
  obtain ⟨f,rfl⟩ := hst
  exact ⟨⟨h.computes.unfolding,h.computes.readers⟩,h.usedList,h.used_mem,h.consistent,h.reads,h.first,h.last,h.gone⟩

/-- Two operators that compute the same and are not one. -/
theorem Merging.combines (h : Merging V T s) (hx : x ∈ V) (hy : y ∈ V) (hne : x ≠ y) (heq : T x = T y) :
    (s.ops y).body.kind.combines = true :=
  combines_of_same h.computes hx hy hne heq

theorem Merging.height_input (h : Merging V T s) (hy : y ∈ V) (hc : x ∈ (s.ops y).inputs) : (T x).height < (T y).height :=
  ComputationTree.height_lt_of_mem (h.computes.unfolding.mem_inputs hy hc)

theorem Merging.height_output (h : Merging V T s) (hy : y ∈ V) (hq : x ∈ (s.ops y).outputs) : (T y).height < (T x).height :=
  ComputationTree.height_lt_of_mem (h.computes.readers y hy x hq).2

theorem Merging.neighbours (h : Merging V T s) (hy : y ∈ s.used) (hk : (s.ops y).body.kind.combines = true) :
    ∃ l₁ l₂ p n, s.used = l₁ ++ y :: l₂ ∧ l₁ ≠ [] ∧ l₂ ≠ [] ∧ s.links.prev y = some p ∧ s.links.next y = some n := by
  obtain ⟨l₁,l₂,hused⟩ := List.append_of_mem hy
  have hlist := h.usedList
  rw [hused] at hlist
  have h1 : l₁ ≠ [] := by
    rintro rfl
    have hfirst := h.first y (by rw [hused]; rfl)
    rw [hk] at hfirst
    simp at hfirst
  have h2 : l₂ ≠ [] := by
    rintro rfl
    have hlast := h.last y (by rw [hused]; simp)
    rw [hk] at hlast
    simp at hlast
  obtain ⟨n,l₂,rfl⟩ := List.exists_cons_of_ne_nil h2
  obtain ⟨p,hp⟩ : ∃ p, s.links.prev y = some p := by
    rw [← Option.ne_none_iff_exists']
    exact fun he => h1 (hlist.prev_eq_none_iff.mp he)
  exact ⟨l₁,n :: l₂,p,n,hused,h1,h2,hp,hlist.next_eq⟩

/-- Merging away an operator in use succeeds. -/
theorem Merging.merge (h : Merging V T s) (h1 : op1 ∈ V) (h2 : op2 ∈ s.used) (hne : op1 ≠ op2) (heq : T op1 = T op2) :
    Fits (mergeOperators op1 op2 true) s (fun b t => b = true ∧ ∃ r, s.sameButClasses r ∧
      t = { r.withPorts (inputsAfter s op1 op2) (outputsAfter s op1 op2) with links := s.links.bypass op2 }) := by
  have h2V := h.used_mem op2 h2
  obtain ⟨-,-,p,n,-,-,-,hp,hn⟩ := h.neighbours h2 (h.combines h1 h2V hne heq)
  refine mergeOperators_fits hne (fun q hq => ?_) (fun c hc => ⟨?_,?_⟩) hp hn
  · exact h.consistent.balanced q (h.consistent.outputs_mem op2 h2 q hq) op2 h2
  · rintro rfl
    have hlt := h.height_input h2V hc
    rw [heq] at hlt
    exact absurd hlt (lt_irrefl _)
  · exact (h.consistent.balanced op2 h2 c (h.consistent.inputs_mem op2 h2 c hc)).symm

/-- What is known of the state after a merge into an operator in use. -/
theorem Merging.merged (h : Merging V T s) (h1 : op1 ∈ s.used) (h2 : op2 ∈ s.used) (hne : op1 ≠ op2) (heq : T op1 = T op2) :
    Fits (mergeOperators op1 op2 true) s (fun b t => b = true ∧ Merging V T t ∧ t.used = s.used.erase op2) := by
  have h1V := h.used_mem op1 h1
  have h2V := h.used_mem op2 h2
  have hcomb := h.combines h1V h2V hne heq
  refine (h.merge h1V h2 hne heq).and_ok.weaken fun b t ht => ?_
  obtain ⟨⟨hb,r,hr,ht⟩,hok⟩ := ht
  have hcomputes := (mergeOperators_computes labelling_ident true h1V h2V heq).of_ok h.computes hok
  have hins (o : OpId) : (t.ops o).inputs = inputsAfter s op1 op2 o := by
    rw [ht]
    rfl
  have houts (o : OpId) : (t.ops o).outputs = outputsAfter s op1 op2 o := by
    rw [ht]
    rfl
  have hkeep (o : OpId) : (t.ops o).body = (s.ops o).body ∧ (t.ops o).attrs = (s.ops o).attrs := by
    obtain ⟨f,rfl⟩ := hr
    rw [ht]
    exact ⟨rfl,rfl⟩
  have hlt {c : OpId} (hc : c ∈ (s.ops op2).inputs) : c ≠ op1 ∧ c ≠ op2 := by
    have hlt := h.height_input h2V hc
    constructor
    · rintro rfl
      rw [heq] at hlt
      exact absurd hlt (lt_irrefl _)
    · rintro rfl
      exact absurd hlt (lt_irrefl _)
  have hself : op2 ∉ (s.ops op2).outputs := fun hq => absurd (h.height_output h2V hq) (lt_irrefl _)
  have hnot1 : op2 ∉ (s.ops op1).outputs := fun hq => by
    have hgt := h.height_output h1V hq
    rw [heq] at hgt
    exact absurd hgt (lt_irrefl _)
  -- the list of used operators
  obtain ⟨l₁,l₂,p,n,hused,hl₁,hl₂,hp,hn⟩ := h.neighbours h2 hcomb
  have hlist := h.usedList
  rw [hused] at hlist
  have hnodup := hlist.nodup
  have hnd : op2 ∉ l₁ := fun hm => (List.nodup_append.mp hnodup).2.2 op2 hm op2 List.mem_cons_self rfl
  have herase : s.used.erase op2 = l₁ ++ l₂ := by
    rw [hused, List.erase_append_right _ hnd, List.erase_cons_head]
  have hlinks : t.links.IsList none t.usedOps (l₁ ++ l₂) := by
    have hby := hlist.bypass (fun x _ => by simp)
    rw [if_neg hl₁] at hby
    obtain ⟨f,rfl⟩ := hr
    rw [ht]
    exact hby
  have htused : t.used = s.used.erase op2 := (used_eq hlinks).trans herase.symm
  have hmem (o : OpId) : o ∈ t.used ↔ o ≠ op2 ∧ o ∈ s.used := by
    rw [htused]
    exact h.usedList.nodup.mem_erase_iff
  have hmerged : Ports.Merged op1 op2 s.used s.ports t.ports := by
    refine ⟨fun q hq hq2 => ?_,fun c hc hc2 => ?_⟩
    · rw [ports_inputs, hins, inputsAfter]
      split
      · rfl
      · rename_i hqo
        refine (map_replace_of_not_mem op2 op1 fun hm => hqo ?_).symm
        exact (h.consistent.mem_iff hq h2).mp hm
    · rw [ports_outputs, houts, outputsAfter]
      split
      · rfl
      · rename_i hci
        refine (List.filter_eq_self.mpr fun q hq => ?_).symm
        rw [decide_eq_true_iff]
        rintro rfl
        split at hq
        · rcases List.mem_append.mp hq with hq | hq
          · exact hnot1 hq
          · exact hself hq
        · exact hci ((h.consistent.mem_iff h2 hc).mpr hq)
  refine ⟨hb,⟨hcomputes,?_,fun o ho => h.used_mem o ((hmem o).mp ho).2,?_,fun o ho hk => ?_,fun o ho => ?_,
    fun o ho => ?_,fun z hz hzu => ⟨fun q hq hm => ?_,fun c hc hm => ?_⟩⟩,htused⟩
  · rw [htused, herase]
    exact hlinks
  · rw [htused]
    exact hmerged.consistent h.consistent h.usedList.nodup h1 h2 hne
  · rw [(hkeep o).1] at hk
    rw [hins, inputsAfter]
    split <;> simpa using h.reads o ho hk
  · rw [(hkeep o).1]
    refine h.first o ?_
    rw [htused, herase, List.head?_append_of_ne_nil _ hl₁] at ho
    rw [hused, List.head?_append_of_ne_nil _ hl₁, ho]
  · rw [(hkeep o).1]
    refine h.last o ?_
    rw [htused, herase, List.getLast?_append_of_ne_nil _ hl₂] at ho
    rw [hused, List.getLast?_append_of_ne_nil _ (List.cons_ne_nil _ _), List.getLast?_cons, ho]
    rfl
  · rw [houts, outputsAfter] at hq
    rw [hins, inputsAfter] at hm
    by_cases hz2 : z = op2
    · subst hz2
      rw [if_neg (fun hc => (hlt hc).2 rfl), if_neg (Ne.symm hne)] at hq
      rw [if_pos hq, List.mem_map] at hm
      obtain ⟨c,-,hc⟩ := hm
      split at hc
      · exact hne hc
      · exact absurd hc ‹_›
    · have hzs : z ∉ s.used := fun hzs => hzu ((hmem z).mpr ⟨hz2,hzs⟩)
      have hzi : z ∉ (s.ops op2).inputs := fun hc => hzs (h.consistent.inputs_mem op2 h2 z hc)
      have hz1 : z ≠ op1 := fun he => hzs (he ▸ h1)
      rw [if_neg hzi, if_neg hz1] at hq
      refine (h.gone z hz hzs).1 q hq ?_
      split at hm
      · obtain ⟨c,hc,hcz⟩ := List.mem_map.mp hm
        split at hcz
        · exact absurd (hcz ▸ h1) hzs
        · exact hcz ▸ hc
      · exact hm
  · rw [hins, inputsAfter] at hc
    rw [houts, outputsAfter] at hm
    by_cases hz2 : z = op2
    · subst hz2
      rw [if_neg hself] at hc
      rw [if_pos hc, List.mem_filter] at hm
      simp at hm
    · have hzs : z ∉ s.used := fun hzs => hzu ((hmem z).mpr ⟨hz2,hzs⟩)
      have hzo : z ∉ (s.ops op2).outputs := fun hm => hzs (h.consistent.outputs_mem op2 h2 z hm)
      rw [if_neg hzo] at hc
      have hm' : z ∈ if c = op1 then (s.ops op1).outputs ++ (s.ops op2).outputs else (s.ops c).outputs := by
        split at hm
        · exact List.mem_of_mem_filter hm
        · exact hm
      refine (h.gone z hz hzs).2 c hc ?_
      split at hm'
      · rename_i hc1
        rw [hc1]
        exact (List.mem_append.mp hm').resolve_right hzo
      · exact hm'

/-- A merge with an operator that has been merged away is given up. -/
theorem Merging.give_up (h : Merging V T s) (h1 : op1 ∈ V) (h2 : op2 ∈ V) (hgone : op2 ∉ s.used) (hne : op1 ≠ op2)
    (heq : T op1 = T op2) :
    Fits (mergeOperators op1 op2 true) s (fun b t => b = false ∧ Merging V T t ∧ t.used = s.used) := by
  obtain ⟨ho,hi⟩ := h.gone op2 h2 hgone
  refine (mergeOperators_given_up ho hi (h.reads op2 h2 (h.combines h1 h2 hne heq))).weaken fun b t ht => ?_
  refine ⟨ht.1,h.of_sameButClasses ht.2,?_⟩
  obtain ⟨f,rfl⟩ := ht.2
  rfl

theorem Sharing.merged (h : Sharing V T s) (h1 : op1 ∈ s.used) (h2 : op2 ∈ s.used) (hne : op1 ≠ op2) (heq : T op1 = T op2) :
    Fits (mergeOperators op1 op2 true) s (fun b t => b = true ∧ Sharing V T t ∧ t.used = s.used.erase op2) := by
  refine (h.toMerging.merged h1 h2 hne heq).and_ok.weaken fun b t ht => ⟨ht.1.1,⟨ht.1.2.1,fun o ho => ?_⟩,ht.1.2.2⟩
  obtain ⟨hbody,hattrs,-⟩ := mergeOperators_bodies ht.2 o
  rw [hbody, hattrs]
  exact h.comparable o ho

theorem Sharing.give_up (h : Sharing V T s) (h1 : op1 ∈ V) (h2 : op2 ∈ V) (hgone : op2 ∉ s.used) (hne : op1 ≠ op2)
    (heq : T op1 = T op2) :
    Fits (mergeOperators op1 op2 true) s (fun b t => b = false ∧ Sharing V T t ∧ t.used = s.used) := by
  refine (h.toMerging.give_up h1 h2 hgone hne heq).and_ok.weaken fun b t ht => ⟨ht.1.1,⟨ht.1.2.1,fun o ho => ?_⟩,ht.1.2.2⟩
  obtain ⟨hbody,hattrs,-⟩ := mergeOperators_bodies ht.2 o
  rw [hbody, hattrs]
  exact h.comparable o ho

end AqsiosCoordinator.Physical
