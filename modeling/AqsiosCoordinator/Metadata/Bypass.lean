import AqsiosCoordinator.Metadata.PlanGraph
import AqsiosCoordinator.Metadata.PlanTrans
import AqsiosCoordinator.Foundation.ListEdits

/-! # Taking operators out of a plan -/
namespace AqsiosCoordinator.Physical
open Common Foundation Foundation.Outcome

variable {s t u : PlanState} {op i q : OpId}

/-- The state after the operators of `qs` have been made to read from `i` in place of `op`. -/
def PlanState.redirected (s : PlanState) (op i : OpId) (qs : List OpId) : PlanState :=
  { s with ops := fun o => { s.ops o with
      inputs := if o ∈ qs then (s.ops o).inputs.map (fun c => if c = op then i else c) else (s.ops o).inputs
      outputs := if o = i then (s.ops o).outputs ++ qs else (s.ops o).outputs } }

theorem redirectOutputs_ok {qs : List OpId} {a : Unit} (hi : i ≠ op)
    (hcount : ∀ q ∈ qs, (s.ops q).inputs.count op = qs.count q) (h : redirectOutputs op i qs s = .ok a t) :
    t = s.redirected op i qs := by
  induction qs generalizing s with
  | nil =>
    obtain ⟨-,rfl⟩ := pure_eq_ok.mp h
    unfold PlanState.redirected
    simp
  | cons q qs ih =>
    obtain ⟨_,_,h1,h⟩ := bind_eq_ok.mp h
    obtain rfl := modifyOp_ok.mp h1
    obtain ⟨_,_,h2,h⟩ := bind_eq_ok.mp h
    obtain ⟨-,rfl⟩ := addOutput_ok.mp h2
    have hq : op ∈ (s.ops q).inputs := by
      rw [← List.count_pos_iff, hcount q List.mem_cons_self, List.count_cons_self]
      omega
    have hidx : (s.ops q).inputs.set (getInputIndex (s.ops q) op) i = (s.ops q).inputs.replace op i :=
      set_findIdx?_eq op i hq
    rw [hidx] at h
    have hstep (o : OpId) : ((s.setOp q { s.ops q with inputs := (s.ops q).inputs.replace op i }).readBy
        [i] q).ops o = { s.ops o with
          inputs := if o = q then (s.ops o).inputs.replace op i else (s.ops o).inputs
          outputs := if o = i then (s.ops o).outputs ++ [q] else (s.ops o).outputs } := by
      have hrep : List.replicate ([i].count o) q = if o = i then [q] else [] := by
        by_cases hoi : o = i
        · simp [hoi]
        · simp [hoi,Ne.symm hoi]
      by_cases ho : o = q
      · subst ho
        simp only [PlanState.readBy, setOp_ops_self, hrep, if_true]
        split <;> simp
      · simp only [PlanState.readBy, setOp_ops_of_ne _ ho, hrep, if_neg ho]
        split <;> simp
    have hcount' : ∀ x ∈ qs, ((if x = q then (s.ops x).inputs.replace op i else (s.ops x).inputs)).count op = qs.count x := by
      intro x hx
      have hall := hcount x (List.mem_cons_of_mem _ hx)
      by_cases hxq : x = q
      · subst hxq
        have hone := count_replace op i hi hq
        rw [List.count_cons_self] at hall
        rw [if_pos rfl]
        omega
      · rw [if_neg hxq, hall, List.count_cons_of_ne (Ne.symm hxq)]
    have hlast : q ∉ qs → (s.ops q).inputs.replace op i = (s.ops q).inputs.map (fun c => if c = op then i else c) := by
      intro hqs
      have hone := count_replace op i hi hq
      rw [hcount q List.mem_cons_self, List.count_cons_self, List.count_eq_zero_of_not_mem hqs] at hone
      have hno : op ∉ (s.ops q).inputs.replace op i := List.count_eq_zero.mp (by omega)
      rw [← map_replace op i hi hq, map_replace_of_not_mem op i hno]
    rw [ih (fun x hx => by rw [hstep]; exact hcount' x hx) h]
    unfold PlanState.redirected
    congr 1
    funext o
    rw [hstep o]
    have hin : (if o ∈ qs then (if o = q then (s.ops o).inputs.replace op i else (s.ops o).inputs).map
          (fun c => if c = op then i else c) else if o = q then (s.ops o).inputs.replace op i else (s.ops o).inputs) =
        if o ∈ q :: qs then (s.ops o).inputs.map (fun c => if c = op then i else c) else (s.ops o).inputs := by
      by_cases hoq : o = q
      · subst hoq
        by_cases hmem : o ∈ qs
        · rw [if_pos hmem, if_pos rfl, if_pos List.mem_cons_self, map_replace op i hi hq]
        · rw [if_neg hmem, if_pos rfl, if_pos List.mem_cons_self, hlast hmem]
      · simp [hoq]
    have hout : (if o = i then (if o = i then (s.ops o).outputs ++ [q] else (s.ops o).outputs) ++ qs
        else if o = i then (s.ops o).outputs ++ [q] else (s.ops o).outputs) =
        if o = i then (s.ops o).outputs ++ q :: qs else (s.ops o).outputs := by
      by_cases hoi : o = i
      · simp [hoi]
      · simp [hoi]
    simp only [hin, hout]

/-- `op`, whose input is `i`, has been taken out of the plan and of the list of used operators. -/
structure Removed (done rest : List OpId) (op i : OpId) (s u : PlanState) : Prop where
  used_before : s.used = done ++ op :: rest
  input : (s.ops op).inputs = [i]
  input_ne : i ≠ op
  pool : PoolInv u
  used : u.used = done ++ rest
  bypassed : Ports.Bypassed op i s.used s.ports u.ports
  fields : ∀ o, ∃ ins outs, ins.length = (s.ops o).inputs.length ∧
    u.ops o = { s.ops o with inputs := ins, outputs := outs }
  tables : u.tables = s.tables

theorem shortCircuit_ok {a : Unit} (hc : s.ports.Consistent s.used) (hop : op ∈ s.used)
    (hin : (s.ops op).inputs = [i]) (hi : i ≠ op) (h : shortCircuitInputOutput op s = .ok a t) :
    ∃ outs, outs.Perm ((s.ops i).outputs.erase op ++ (s.ops op).outputs) ∧
      t = { s with ops := fun o => { s.ops o with
        inputs := if o ∈ (s.ops op).outputs then (s.ops o).inputs.map (fun c => if c = op then i else c)
          else (s.ops o).inputs
        outputs := if o = i then outs else (s.ops o).outputs } } := by
  have hiV : i ∈ s.used := hc.inputs_mem op hop i (by simp [hin])
  have hcount : ∀ q ∈ (s.ops op).outputs, (s.ops q).inputs.count op = (s.ops op).outputs.count q :=
    fun q hq => hc.balanced q (hc.outputs_mem op hop q hq) op hop
  have hmem : op ∈ (s.ops i).outputs := (hc.mem_iff hop hiV).mp (by simp [hin])
  obtain ⟨k,hk⟩ : ∃ k, (s.ops i).outputs.findIdx? (fun o => o == op) = some k := by
    rw [← Option.isSome_iff_exists, List.findIdx?_isSome]
    simpa using hmem
  have hkop : (s.ops i).outputs[k]? = some op := by
    obtain ⟨hlt,hval,-⟩ := List.findIdx?_eq_some_iff_getElem.mp hk
    rw [List.getElem?_eq_getElem hlt, eq_of_beq hval]
  have hklt : k < (s.ops i).outputs.length := (List.getElem?_eq_some_iff.mp hkop).1
  obtain ⟨_,_,h1,h⟩ := bind_eq_ok.mp h
  obtain ⟨rfl,rfl⟩ := getOp_ok.mp h1
  simp only [hin] at h
  obtain ⟨_,_,h2,h⟩ := bind_eq_ok.mp h
  obtain ⟨rfl,rfl⟩ := getOp_ok.mp h2
  obtain ⟨_,r,h3,h⟩ := bind_eq_ok.mp h
  obtain rfl := redirectOutputs_ok hi hcount h3
  obtain ⟨_,_,h4,h⟩ := bind_eq_ok.mp h
  obtain ⟨rfl,rfl⟩ := getOp_ok.mp h4
  have houts : ((s.redirected op i (s.ops op).outputs).ops i).outputs = (s.ops i).outputs ++ (s.ops op).outputs := by
    simp [PlanState.redirected]
  rw [houts] at h
  cases hlast : ((s.ops i).outputs ++ (s.ops op).outputs).getLast? with
  | none => simp [hlast] at h
  | some z =>
    simp only [hlast] at h
    obtain rfl := modifyOp_ok.mp h
    refine ⟨(((s.ops i).outputs ++ (s.ops op).outputs).set k z).dropLast,?_,?_⟩
    · have hkop' : ((s.ops i).outputs ++ (s.ops op).outputs)[k]? = some op := by
        rw [List.getElem?_append_left hklt]
        exact hkop
      refine (set_getLast_dropLast_perm hkop' hlast).trans ?_
      rw [List.erase_append_left _ hmem]
    · unfold PlanState.setOp
      congr 1
      funext o
      by_cases ho : o = i
      · subst ho
        simp [PlanState.redirected,getOutputIndex,hk]
      · simp [PlanState.redirected,ho]

theorem nextOp_ok {next : Option OpId} : nextOp op s = .ok next t ↔ s.links.next op = next ∧ s = t := by
  constructor
  · intro h
    cases h
    exact ⟨rfl,rfl⟩
  · rintro ⟨rfl,rfl⟩
    rfl

theorem removeOp_ok {next : Option OpId} {done rest : List OpId} (hs : PoolInv s) (hc : s.ports.Consistent s.used)
    (hused : s.used = done ++ op :: rest) (hin : (s.ops op).inputs = [i]) (hi : i ≠ op)
    (h : removeOp op s = .ok next u) : next = rest.head? ∧ Removed done rest op i s u := by
  have hop : op ∈ s.used := by simp [hused]
  obtain ⟨_,t,h1,h⟩ := bind_eq_ok.mp h
  obtain ⟨next',_,h2,h⟩ := bind_eq_ok.mp h
  obtain ⟨_,u',h3,h⟩ := bind_eq_ok.mp h
  obtain ⟨rfl,rfl⟩ := pure_eq_ok.mp h
  obtain ⟨rfl,rfl⟩ := nextOp_ok.mp h2
  obtain ⟨outs,hperm,ht⟩ := shortCircuit_ok hc hop hin hi h1
  have hs' : PoolInv t := by
    rw [ht]
    exact ⟨hs.1,hs.2,hs.3⟩
  have htused : t.used = done ++ op :: rest := by
    rw [ht]
    exact hused
  have httab : t.tables = s.tables := by
    rw [ht]
    rfl
  obtain ⟨hpool,hused',-,hops,htab,hnext⟩ := freeOp_used hs' htused h3
  rw [ht] at hops
  rw [httab] at htab
  refine ⟨hnext,hused,hin,hi,hpool,hused',⟨fun q hq hqo => ?_,?_,fun o _ hoo hoi => ?_⟩,fun o => ?_,htab⟩
  · simp only [ports_inputs, hops]
    by_cases hqmem : q ∈ (s.ops op).outputs
    · rw [if_pos hqmem]
    · rw [if_neg hqmem, map_replace_of_not_mem op i]
      exact fun hm => hqmem ((hc.mem_iff hq hop).mp hm)
  · simpa only [ports_outputs, hops, if_true] using hperm
  · simp only [ports_outputs, hops, if_neg hoi]
  · rw [hops]
    refine ⟨_,_,?_,rfl⟩
    split <;> simp

theorem Removed.op_mem {done rest : List OpId} (h : Removed done rest op i s u) : op ∈ s.used := by
  simp [h.used_before]

theorem Removed.erase {done rest : List OpId} (h : Removed done rest op i s u) (hs : PoolInv s) :
    u.used = s.used.erase op := by
  have hnd := hs.nodup
  rw [h.used_before] at hnd
  have hdone : op ∉ done := fun hm => by
    have hdis := (List.nodup_append.mp hnd).2.2 op hm op List.mem_cons_self
    exact hdis rfl
  rw [h.used, h.used_before, List.erase_append_right _ hdone, List.erase_cons_head]

theorem Removed.consistent {done rest : List OpId} (h : Removed done rest op i s u) (hs : PoolInv s)
    (hc : s.ports.Consistent s.used) : u.ports.Consistent u.used := by
  rw [h.erase hs]
  exact h.bypassed.consistent hc hs.nodup h.op_mem h.input h.input_ne

theorem Removed.acyclic {done rest : List OpId} (h : Removed done rest op i s u) (hs : PoolInv s)
    (hc : s.ports.Consistent s.used) (hac : s.ports.Acyclic s.used) : u.ports.Acyclic u.used := by
  rw [h.erase hs]
  exact h.bypassed.acyclic hc hs.nodup h.op_mem h.input h.input_ne hac

theorem Removed.mem_before {done rest : List OpId} (h : Removed done rest op i s u) {o : OpId} (ho : o ∈ u.used) :
    o ∈ s.used := by
  rw [h.used] at ho
  rw [h.used_before]
  simp only [List.mem_append, List.mem_cons] at ho ⊢
  tauto

theorem Removed.sound {done rest : List OpId} (h : Removed done rest op i s u) (hs : Sound s) : Sound u := by
  refine ⟨h.pool,h.consistent hs.pool hs.consistent,?_,fun o ho => ?_,fun o ho => ?_⟩
  · have hnd := hs.pool.nodup
    have hlay := hs.layered
    rw [h.used_before] at hnd hlay
    rw [h.used]
    exact h.bypassed.layered h.input (fun o ho => h.used_before ▸ ho) hnd hlay
  · obtain ⟨ins,outs,hlen,heq⟩ := h.fields o
    rw [heq]
    exact hlen.trans (hs.arity o (h.mem_before ho))
  · obtain ⟨ins,outs,-,heq⟩ := h.fields o
    rw [heq]
    exact hs.complete o (h.mem_before ho)

/-- An acyclic plan has no operator that reads from itself. -/
theorem input_ne_of_acyclic (hac : s.ports.Acyclic s.used) (hop : op ∈ s.used) (hin : (s.ops op).inputs = [i]) :
    i ≠ op := by
  rintro rfl
  exact hac i hop (.single (by simp [Ports.Reads,hin]))

/-- The loop over the used operators: `done` is what it has kept and `rest` what it has not reached. -/
theorem removeWhere_rule {merged : OpId → M Bool} {I : List OpId → List OpId → PlanState → Prop}
    (hI : ∀ done rest s, I done rest s → PoolInv s ∧ s.used = done ++ rest)
    (hkeep : ∀ done op rest s t, I done (op :: rest) s → merged op s = .ok false t → I (done ++ [op]) rest t)
    (hremove : ∀ done op rest s t u next, I done (op :: rest) s → merged op s = .ok true t →
      removeOp op t = .ok next u → next = rest.head? ∧ I done rest u)
    {fuel : ℕ} {done rest : List OpId} {a : Unit} (h0 : I done rest s)
    (h : removeWhere merged fuel rest.head? s = .ok a t) : ∃ done', I done' [] t := by
  induction fuel generalizing done rest s with
  | zero =>
    cases rest with
    | nil =>
      obtain ⟨-,rfl⟩ := pure_eq_ok.mp h
      exact ⟨done,h0⟩
    | cons op rest => simp [removeWhere] at h
  | succ fuel ih =>
    cases rest with
    | nil =>
      obtain ⟨-,rfl⟩ := pure_eq_ok.mp h
      exact ⟨done,h0⟩
    | cons op rest =>
      obtain ⟨b,r,h1,h⟩ := bind_eq_ok.mp h
      cases b with
      | true =>
        obtain ⟨next,r',h2,h⟩ := bind_eq_ok.mp h
        obtain ⟨rfl,h3⟩ := hremove done op rest s r r' next h0 h1 h2
        exact ih h3 h
      | false =>
        have h2 := hkeep done op rest s r h0 h1
        obtain ⟨next,r',h3,h⟩ := bind_eq_ok.mp h
        obtain ⟨rfl,rfl⟩ := nextOp_ok.mp h3
        obtain ⟨hpool,hused⟩ := hI _ _ _ h2
        have hlist := hpool.usedList
        rw [hused, List.append_assoc, List.singleton_append] at hlist
        rw [hlist.next_eq] at h
        exact ih h2 h

end AqsiosCoordinator.Physical
