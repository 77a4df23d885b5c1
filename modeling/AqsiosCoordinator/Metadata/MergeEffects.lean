import AqsiosCoordinator.Metadata.SharingKeepsComputations
import AqsiosCoordinator.Foundation.ListEdits

/-! # What merging two operators does to the edges of the plan -/
namespace AqsiosCoordinator.Physical
open Common Foundation Foundation.Outcome
variable {s t u : PlanState} {op1 op2 : OpId}

theorem lastIdx_none {a : OpId} {l : List OpId} (h : lastIdx a l = none) : a ∉ l := by
  induction l with
  | nil => simp
  | cons b l ih =>
    simp only [lastIdx] at h
    cases hl : lastIdx a l with
    | some i => simp [hl] at h
    | none =>
      simp only [hl] at h
      split at h
      · simp at h
      · rename_i hb
        rw [List.mem_cons, not_or]
        exact ⟨Ne.symm hb,ih hl⟩

theorem exists_lastIdx {a : OpId} {l : List OpId} (h : a ∈ l) : ∃ k, lastIdx a l = some k ∧ l[k]? = some a := by
  cases hl : lastIdx a l with
  | some k => exact ⟨k,rfl,lastIdx_some hl⟩
  | none => exact absurd h (lastIdx_none hl)

def Fits {α : Type} (m : M α) (s : PlanState) (Q : α → PlanState → Prop) : Prop :=
  match m s with
  | .ok a t => Q a t
  | .error e _ => e = .outOfBounds

theorem Fits.bind {α β : Type} {m : M α} {f : α → M β} {Q : α → PlanState → Prop} {Q' : β → PlanState → Prop}
    (hm : Fits m s Q) (hf : ∀ a t, Q a t → Fits (f a) t Q') : Fits (m >>= f) s Q' := by
  unfold Fits at hm
  cases h : m s with
  | ok a t =>
    rw [h] at hm
    unfold Fits
    rw [bind_of_ok h]
    exact hf a t hm
  | error e t =>
    rw [h] at hm
    unfold Fits
    rw [bind_of_error h]
    exact hm

theorem Fits.weaken {α : Type} {m : M α} {Q Q' : α → PlanState → Prop} (hm : Fits m s Q) (h : ∀ a t, Q a t → Q' a t) :
    Fits m s Q' := by
  unfold Fits at *
  split at hm
  · exact h _ _ hm
  · exact hm

theorem fits_pure {α : Type} {a : α} {Q : α → PlanState → Prop} (h : Q a s) : Fits (pure a) s Q := h

theorem fits_getOp {Q : Operator → PlanState → Prop} (h : Q (s.ops op1) s) : Fits (getOp op1) s Q := h

theorem fits_modifyOp {f : Operator → Operator} {Q : Unit → PlanState → Prop}
    (h : Q () (s.setOp op1 (f (s.ops op1)))) : Fits (modifyOp op1 f) s Q := h

def PlanState.withPorts (s : PlanState) (ins outs : OpId → List OpId) : PlanState :=
  { s with ops := fun o => { s.ops o with inputs := ins o, outputs := outs o } }

theorem withPorts_setOp (ins outs : OpId → List OpId) (o : OpId) (i' o' : List OpId) :
    (s.withPorts ins outs).setOp o { s.ops o with inputs := i', outputs := o' } =
      s.withPorts (Function.update ins o i') (Function.update outs o o') := by
  unfold PlanState.withPorts PlanState.setOp
  congr 1
  funext p
  by_cases hp : p = o
  · subst hp
    simp
  · simp [hp]

/-- Every reader of `op2` is redirected when it reads `op2` as often as it is among its outputs. -/
theorem moveOutputs_fits (hne : op1 ≠ op2) (i : ℕ) (qs : List OpId) (ins outs : OpId → List OpId)
    (hcount : ∀ q ∈ qs, (ins q).count op2 = qs.count q) :
    Fits (moveOutputs op1 op2 i qs) (s.withPorts ins outs) (fun b t => b = true ∧
      t = s.withPorts (fun o => if o ∈ qs then (ins o).map (fun c => if c = op2 then op1 else c) else ins o) outs) := by
  induction qs generalizing i ins with
  | nil =>
    refine fits_pure ⟨rfl,?_⟩
    simp
  | cons q qs ih =>
    refine Fits.bind (Q := fun _ t => t = s.withPorts ins outs) ?_ fun _ t ht => ?_
    · by_cases hi : i ≥ MAX_OUT_BRANCHING
      · simp only [Fits, failIf, if_pos hi]
        rfl
      · simp only [failIf, if_neg hi]
        exact fits_pure rfl
    subst ht
    refine Fits.bind (fits_getOp (Q := fun x t => x = (s.withPorts ins outs).ops q ∧ t = s.withPorts ins outs)
      ⟨rfl,rfl⟩) fun x t ht => ?_
    obtain ⟨rfl,rfl⟩ := ht
    have hq : op2 ∈ ins q := by
      rw [← List.count_pos_iff, hcount q List.mem_cons_self, List.count_cons_self]
      omega
    obtain ⟨l,hl,hget⟩ := exists_lastIdx hq
    have hl' : lastIdx op2 ((s.withPorts ins outs).ops q).inputs = some l := hl
    simp only [hl']
    refine Fits.bind (fits_modifyOp (Q := fun _ t => t = s.withPorts (Function.update ins q ((ins q).set l op1)) outs)
      ?_) fun _ t ht => ?_
    · have hset := withPorts_setOp (s := s) ins outs q ((ins q).set l op1) (outs q)
      rw [Function.update_eq_self] at hset
      exact hset
    subst ht
    have hupd (x : OpId) (hx : x ≠ q) : Function.update ins q ((ins q).set l op1) x = ins x := Function.update_of_ne hx ..
    refine (ih (i + 1) (Function.update ins q ((ins q).set l op1)) fun x hx => ?_).weaken fun b t ht => ⟨ht.1,?_⟩
    · have hall := hcount x (List.mem_cons_of_mem _ hx)
      by_cases hxq : x = q
      · subst hxq
        have hone := count_set_occurrence hget hne
        rw [List.count_cons_self] at hall
        rw [Function.update_self]
        omega
      · rw [hupd x hxq, hall, List.count_cons_of_ne (Ne.symm hxq)]
    · rw [ht.2]
      congr 1
      funext o
      by_cases ho : o = q
      · subst ho
        rw [Function.update_self, map_set_occurrence hget hne, if_pos List.mem_cons_self]
        split
        · rfl
        · rename_i hqs
          have hone := count_set_occurrence hget hne
          rw [hcount o List.mem_cons_self, List.count_cons_self, List.count_eq_zero_of_not_mem hqs] at hone
          have hno : op2 ∉ (ins o).set l op1 := List.count_eq_zero.mp (by omega)
          rw [← map_replace_of_not_mem op2 op1 hno, map_set_occurrence hget hne]
      · simp [ho]

/-- No input has `op2` among its outputs any more when each had it as often as it was read. -/
theorem dropFromInputs_fits (cs : List OpId) (ins outs : OpId → List OpId)
    (hcount : ∀ c ∈ cs, (outs c).count op2 = cs.count c) :
    Fits (dropFromInputs op2 cs) (s.withPorts ins outs) (fun b t => b = true ∧
      t = s.withPorts ins (fun o => if o ∈ cs then (outs o).filter (fun q => decide (q ≠ op2)) else outs o)) := by
  induction cs generalizing outs with
  | nil =>
    refine fits_pure ⟨rfl,?_⟩
    simp
  | cons c cs ih =>
    refine Fits.bind (fits_getOp (Q := fun x t => x = (s.withPorts ins outs).ops c ∧ t = s.withPorts ins outs)
      ⟨rfl,rfl⟩) fun x t ht => ?_
    obtain ⟨rfl,rfl⟩ := ht
    have hc : op2 ∈ outs c := by
      rw [← List.count_pos_iff, hcount c List.mem_cons_self, List.count_cons_self]
      omega
    obtain ⟨k,hk,hget⟩ := exists_lastIdx hc
    have hk' : lastIdx op2 ((s.withPorts ins outs).ops c).outputs = some k := hk
    simp only [hk']
    refine Fits.bind (fits_modifyOp (Q := fun _ t => t = s.withPorts ins (Function.update outs c ((outs c).eraseIdx k)))
      ?_) fun _ t ht => ?_
    · have hset := withPorts_setOp (s := s) ins outs c (ins c) ((outs c).eraseIdx k)
      rw [Function.update_eq_self] at hset
      exact hset
    subst ht
    have hupd (x : OpId) (hx : x ≠ c) : Function.update outs c ((outs c).eraseIdx k) x = outs x :=
      Function.update_of_ne hx ..
    have hone := count_eraseIdx_occurrence hget
    refine (ih (Function.update outs c ((outs c).eraseIdx k)) fun x hx => ?_).weaken fun b t ht => ⟨ht.1,?_⟩
    · have hall := hcount x (List.mem_cons_of_mem _ hx)
      by_cases hxc : x = c
      · subst hxc
        rw [List.count_cons_self] at hall
        rw [Function.update_self]
        omega
      · rw [hupd x hxc, hall, List.count_cons_of_ne (Ne.symm hxc)]
    · rw [ht.2]
      congr 1
      funext o
      by_cases ho : o = c
      · subst ho
        rw [Function.update_self, filter_eraseIdx_occurrence hget, if_pos List.mem_cons_self]
        split
        · rfl
        · rename_i hcs
          rw [hcount o List.mem_cons_self, List.count_cons_self, List.count_eq_zero_of_not_mem hcs] at hone
          have hno : op2 ∉ (outs o).eraseIdx k := List.count_eq_zero.mp (by omega)
          rw [← filter_eraseIdx_occurrence hget]
          exact (List.filter_eq_self.mpr fun q hq => by simpa using fun he : q = op2 => hno (he ▸ hq)).symm
      · simp [ho]

theorem Fits.and_ok {α : Type} {m : M α} {Q : α → PlanState → Prop} (hm : Fits m s Q) :
    Fits m s (fun a t => Q a t ∧ m s = .ok a t) := by
  unfold Fits at *
  split at hm
  · rename_i h
    rw [h]
    exact ⟨hm,rfl⟩
  · exact hm

/-- The inputs of an operator once the readers of `op2` read from `op1`. -/
def inputsAfter (s : PlanState) (op1 op2 o : OpId) : List OpId :=
  if o ∈ (s.ops op2).outputs then (s.ops o).inputs.map (fun c => if c = op2 then op1 else c) else (s.ops o).inputs

/-- The outputs of an operator once `op1` has those of `op2` and the inputs of `op2` do without it. -/
def outputsAfter (s : PlanState) (op1 op2 o : OpId) : List OpId :=
  let outs := if o = op1 then (s.ops op1).outputs ++ (s.ops op2).outputs else (s.ops o).outputs
  if o ∈ (s.ops op2).inputs then outs.filter (fun q => decide (q ≠ op2)) else outs

/-- A merge between the classes: the class of the survivor does not matter for what follows. -/
theorem fits_mergeOperators {Q : Bool → PlanState → Prop} (h : ∀ r, s.sameButClasses r → Fits (do
      if !(← moveOutputs op1 op2 (s.ops op1).outputs.length (s.ops op2).outputs) then return false
      modifyOp op1 (fun o => { o with outputs := o.outputs ++ (s.ops op2).outputs })
      if !(← dropFromInputs op2 (s.ops op2).inputs) then return false
      unlinkOp op2
      return true) r Q) : Fits (mergeOperators op1 op2 true) s Q := by
  refine Fits.bind (fits_getOp (Q := fun x t => x = s.ops op1 ∧ t = s) ⟨rfl,rfl⟩) fun o1 t ht => ?_
  obtain ⟨rfl,rfl⟩ := ht
  refine Fits.bind (fits_getOp (Q := fun x u => x = t.ops op2 ∧ u = t) ⟨rfl,rfl⟩) fun o2 u hu => ?_
  obtain ⟨rfl,rfl⟩ := hu
  rw [if_neg (by simp)]
  by_cases hclass : (u.ops op2).queryClassId < (u.ops op1).queryClassId
  · simp only [hclass, if_true]
    refine Fits.bind (fits_modifyOp (Q := fun _ r => u.sameButClasses r) (sameButClasses_setOp op1 _)) fun _ r hr => ?_
    exact h r hr
  · simp only [hclass, if_false]
    exact h u (sameButClasses_refl u)

/-- Merging away an operator whose edges agree at both ends. -/
theorem mergeOperators_fits {p n : OpId} (hne : op1 ≠ op2)
    (hout : ∀ q ∈ (s.ops op2).outputs, (s.ops q).inputs.count op2 = (s.ops op2).outputs.count q)
    (hin : ∀ c ∈ (s.ops op2).inputs, c ≠ op1 ∧ (s.ops c).outputs.count op2 = (s.ops op2).inputs.count c)
    (hp : s.links.prev op2 = some p) (hn : s.links.next op2 = some n) :
    Fits (mergeOperators op1 op2 true) s (fun b t => b = true ∧ ∃ r, s.sameButClasses r ∧
      t = { r.withPorts (inputsAfter s op1 op2) (outputsAfter s op1 op2) with links := s.links.bypass op2 }) := by
  refine fits_mergeOperators fun r hr => ?_
  have hself : r = r.withPorts (fun o => (s.ops o).inputs) (fun o => (s.ops o).outputs) := by
    obtain ⟨f,rfl⟩ := hr
    rfl
  have hlinks : r.links = s.links := by
    obtain ⟨f,rfl⟩ := hr
    rfl
  rw [hself]
  refine Fits.bind (moveOutputs_fits hne _ _ _ _ hout) fun b t ht => ?_
  obtain ⟨rfl,rfl⟩ := ht
  rw [if_neg (by simp)]
  refine Fits.bind (fits_modifyOp (Q := fun _ t => t = r.withPorts (inputsAfter s op1 op2)
    (fun o => if o = op1 then (s.ops op1).outputs ++ (s.ops op2).outputs else (s.ops o).outputs)) ?_) fun _ t ht => ?_
  · have hset := withPorts_setOp (s := r) (inputsAfter s op1 op2) (fun o => (s.ops o).outputs) op1
      (inputsAfter s op1 op2 op1) ((s.ops op1).outputs ++ (s.ops op2).outputs)
    rw [Function.update_eq_self] at hset
    refine hset.trans ?_
    congr 1
    funext o
    simp [Function.update_apply]
  subst ht
  refine Fits.bind (dropFromInputs_fits _ _ _ fun c hc => ?_) fun b t ht => ?_
  · rw [if_neg (hin c hc).1, (hin c hc).2]
  obtain ⟨rfl,rfl⟩ := ht
  rw [if_neg (by simp)]
  have hunlink : (r.links.setNext p (some n)).setPrev n (some p) = s.links.bypass op2 := by
    rw [hlinks, Links.bypass, hp, hn]
    rfl
  rw [← hlinks] at hp hn
  unfold Fits
  simp only [unlinkOp, PlanState.withPorts, bind, EStateM.bind, get_apply, hp, hn, set_apply, pure, EStateM.pure, hunlink]
  exact ⟨trivial,r,hr,rfl⟩

/-- A merge is given up when no reader of `op2` has it among its inputs and no input of
`op2` has it among its outputs. -/
theorem mergeOperators_given_up (hout : ∀ q ∈ (s.ops op2).outputs, op2 ∉ (s.ops q).inputs)
    (hin : ∀ c ∈ (s.ops op2).inputs, op2 ∉ (s.ops c).outputs) (hsome : (s.ops op2).inputs ≠ []) :
    Fits (mergeOperators op1 op2 true) s (fun b t => b = false ∧ s.sameButClasses t) := by
  refine fits_mergeOperators fun r hr => ?_
  have hins (o : OpId) : (r.ops o).inputs = (s.ops o).inputs := by
    obtain ⟨f,rfl⟩ := hr
    rfl
  have houts (o : OpId) : (r.ops o).outputs = (s.ops o).outputs := by
    obtain ⟨f,rfl⟩ := hr
    rfl
  have hnone {o : OpId} {l : List OpId} (h : o ∉ l) : lastIdx o l = none := by
    cases hl : lastIdx o l with
    | none => rfl
    | some k => exact absurd (List.mem_of_getElem? (lastIdx_some hl)) h
  cases hq : (s.ops op2).outputs with
  | cons q qs =>
    have hqin : lastIdx op2 (r.ops q).inputs = none := hnone (hins q ▸ hout q (by rw [hq]; exact List.mem_cons_self))
    by_cases hi : (s.ops op1).outputs.length ≥ MAX_OUT_BRANCHING
    · simp only [Fits, moveOutputs, failIf, if_pos hi, bind, EStateM.bind]
      rfl
    · simp only [Fits, moveOutputs, failIf, if_neg hi, bind, EStateM.bind, pure, EStateM.pure, getOp, get_apply, hqin,
        Bool.not_false, if_true]
      exact ⟨trivial,hr⟩
  | nil =>
    cases hc : (s.ops op2).inputs with
    | nil => exact absurd hc hsome
    | cons c cs =>
      have hcout : lastIdx op2 (r.ops c).outputs = none :=
        hnone (houts c ▸ hin c (by rw [hc]; exact List.mem_cons_self))
      have hset : r.setOp op1 { r.ops op1 with outputs := (r.ops op1).outputs ++ [] } = r := by
        rw [List.append_nil]
        unfold PlanState.setOp
        rw [Function.update_eq_self]
      simp only [Fits, moveOutputs, bind, EStateM.bind, pure, EStateM.pure, Bool.not_true, Bool.false_eq_true, if_false,
        modifyOp, modify_apply, hset, dropFromInputs, getOp, get_apply, hcout, Bool.not_false, if_true]
      exact ⟨trivial,hr⟩

def Rewired (s t : PlanState) : Prop := ∀ o, ∃ ins outs, t.ops o = { s.ops o with inputs := ins, outputs := outs }

theorem Rewired.of_ops (h : t.ops = s.ops) : Rewired s t :=
  fun o => ⟨(s.ops o).inputs,(s.ops o).outputs,by rw [h]⟩

theorem Rewired.trans (h : Rewired s t) (h' : Rewired t u) : Rewired s u := by
  intro o
  obtain ⟨ins,outs,h1⟩ := h o
  obtain ⟨ins',outs',h2⟩ := h' o
  exact ⟨ins',outs',by rw [h2, h1]⟩

theorem rewired_setOp (o : OpId) (ins outs : List OpId) :
    Rewired s (s.setOp o { s.ops o with inputs := ins, outputs := outs }) := by
  intro p
  by_cases hp : p = o
  · subst hp
    exact ⟨ins,outs,setOp_ops_self _ _⟩
  · exact ⟨_,_,setOp_ops_of_ne _ hp⟩

theorem moveOutputs_rewired {i : ℕ} {qs : List OpId} {b : Bool} (h : moveOutputs op1 op2 i qs s = .ok b t) :
    Rewired s t := by
  induction qs generalizing i s with
  | nil =>
    obtain ⟨-,rfl⟩ := pure_eq_ok.mp h
    exact .of_ops rfl
  | cons q qs ih =>
    obtain ⟨_,_,h1,h⟩ := bind_eq_ok.mp h
    obtain ⟨-,rfl⟩ := failIf_eq_ok.mp h1
    obtain ⟨_,_,h2,h⟩ := bind_eq_ok.mp h
    obtain ⟨rfl,rfl⟩ := getOp_ok.mp h2
    cases hl : lastIdx op2 (s.ops q).inputs with
    | none =>
      simp only [hl] at h
      obtain ⟨-,rfl⟩ := pure_eq_ok.mp h
      exact .of_ops rfl
    | some l =>
      simp only [hl] at h
      obtain ⟨_,_,h3,h⟩ := bind_eq_ok.mp h
      obtain rfl := modifyOp_ok.mp h3
      exact (rewired_setOp q _ _).trans (ih h)

theorem dropFromInputs_rewired {cs : List OpId} {b : Bool} (h : dropFromInputs op2 cs s = .ok b t) : Rewired s t := by
  induction cs generalizing s with
  | nil =>
    obtain ⟨-,rfl⟩ := pure_eq_ok.mp h
    exact .of_ops rfl
  | cons c cs ih =>
    obtain ⟨_,_,h1,h⟩ := bind_eq_ok.mp h
    obtain ⟨rfl,rfl⟩ := getOp_ok.mp h1
    cases hl : lastIdx op2 (s.ops c).outputs with
    | none =>
      simp only [hl] at h
      obtain ⟨-,rfl⟩ := pure_eq_ok.mp h
      exact .of_ops rfl
    | some k =>
      simp only [hl] at h
      obtain ⟨_,_,h2,h⟩ := bind_eq_ok.mp h
      obtain rfl := modifyOp_ok.mp h2
      exact (rewired_setOp c _ _).trans (ih h)

theorem unlinkOp_rewired {a : Unit} (h : unlinkOp op2 s = .ok a t) : Rewired s t := by
  obtain ⟨_,_,h1,h⟩ := bind_eq_ok.mp h
  obtain ⟨rfl,rfl⟩ := get_eq_ok.mp h1
  cases hp : s.links.prev op2 with
  | none => simp [hp] at h
  | some p =>
    cases hn : s.links.next op2 with
    | none => simp [hp,hn] at h
    | some n =>
      simp only [hp, hn] at h
      obtain rfl := set_eq_ok.mp h
      exact .of_ops rfl

/-- Whether a merge between the classes is given up or not, the first operator gets the
lesser of the two classes, and apart from that only edges change. -/
theorem mergeOperators_rewired {b : Bool} (h : mergeOperators op1 op2 true s = .ok b t) :
    Rewired (s.setOp op1 { s.ops op1 with queryClassId := min (s.ops op1).queryClassId (s.ops op2).queryClassId }) t := by
  obtain ⟨_,_,h1,h⟩ := bind_eq_ok.mp h
  obtain ⟨rfl,rfl⟩ := getOp_ok.mp h1
  obtain ⟨_,_,h2,h⟩ := bind_eq_ok.mp h
  obtain ⟨rfl,rfl⟩ := getOp_ok.mp h2
  rw [if_neg (by simp)] at h
  have hrest {r : PlanState} (h : (do
      if !(← moveOutputs op1 op2 (s.ops op1).outputs.length (s.ops op2).outputs) then return false
      modifyOp op1 (fun o => { o with outputs := o.outputs ++ (s.ops op2).outputs })
      if !(← dropFromInputs op2 (s.ops op2).inputs) then return false
      unlinkOp op2
      return true) r = .ok b t) : Rewired r t := by
    obtain ⟨m,u,h1,h⟩ := bind_eq_ok.mp h
    have hm := moveOutputs_rewired h1
    split at h
    · obtain ⟨-,rfl⟩ := pure_eq_ok.mp h
      exact hm
    obtain ⟨_,v,h2,h⟩ := bind_eq_ok.mp h
    obtain rfl := modifyOp_ok.mp h2
    obtain ⟨d,w,h3,h⟩ := bind_eq_ok.mp h
    have hd := (hm.trans (rewired_setOp op1 _ _)).trans (dropFromInputs_rewired h3)
    split at h
    · obtain ⟨-,rfl⟩ := pure_eq_ok.mp h
      exact hd
    obtain ⟨_,x,h4,h⟩ := bind_eq_ok.mp h
    obtain ⟨-,rfl⟩ := pure_eq_ok.mp h
    exact hd.trans (unlinkOp_rewired h4)
  split at h
  · rename_i hlt
    obtain ⟨_,_,h3,h⟩ := bind_eq_ok.mp h
    obtain rfl := modifyOp_ok.mp h3
    rw [min_eq_right hlt.le]
    exact hrest h
  · rename_i hlt
    rw [min_eq_left (not_lt.mp hlt)]
    have hsame : s.setOp op1 { s.ops op1 with queryClassId := (s.ops op1).queryClassId } = s := by
      unfold PlanState.setOp
      rw [Function.update_eq_self]
    rw [hsame]
    exact hrest h

theorem mergeOperators_bodies {b : Bool} (h : mergeOperators op1 op2 true s = .ok b t) (o : OpId) :
    (t.ops o).body = (s.ops o).body ∧ (t.ops o).attrs = (s.ops o).attrs ∧ (t.ops o).bStream = (s.ops o).bStream := by
  obtain ⟨ins,outs,hop⟩ := mergeOperators_rewired h o
  rw [hop]
  by_cases ho : o = op1
  · subst ho
    simp
  · simp [setOp_ops_of_ne _ ho]

end AqsiosCoordinator.Physical
