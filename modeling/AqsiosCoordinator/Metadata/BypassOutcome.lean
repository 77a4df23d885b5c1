import AqsiosCoordinator.Metadata.SharingRuns
import AqsiosCoordinator.Foundation.ListEdits

/-! # When an operator can be bypassed

The readers of an operator move to its input one by one while the operator itself
still is among the outputs of the input, so one place more is asked for than is needed
in the end.
-/
namespace AqsiosCoordinator.Physical
open Common Foundation Foundation.Outcome

variable {s t u : PlanState} {op i q o : OpId} {qs : List OpId}

theorem count_set_le {l : List OpId} (hi : i ≠ op) (k : ℕ) : (l.set k i).count op ≤ l.count op := by
  induction l generalizing k with
  | nil => simp
  | cons x l ih =>
    cases k with
    | zero =>
      rw [List.set_cons_zero, List.count_cons_of_ne hi, List.count_cons]
      omega
    | succ k =>
      have h := ih k
      rw [List.set_cons_succ, List.count_cons, List.count_cons]
      omega

/-- The state in which `q` reads from `i` where it first read from `op`. -/
def PlanState.redirectedOnce (s : PlanState) (op i q : OpId) : PlanState :=
  s.setOp q { s.ops q with inputs := (s.ops q).inputs.set (getInputIndex (s.ops q) op) i }

theorem redirectedOnce_outputs : ((s.redirectedOnce op i q).ops o).outputs = (s.ops o).outputs := by
  unfold PlanState.redirectedOnce
  by_cases h : o = q
  · subst h
    rw [setOp_ops_self]
  · rw [setOp_ops_of_ne _ h]

theorem redirectedOnce_count_le (hi : i ≠ op) :
    ((s.redirectedOnce op i q).ops o).inputs.count op ≤ (s.ops o).inputs.count op := by
  unfold PlanState.redirectedOnce
  by_cases h : o = q
  · subst h
    rw [setOp_ops_self]
    exact count_set_le hi _
  · rw [setOp_ops_of_ne _ h]

theorem redirectedOnce_count_lt (hi : i ≠ op) (hq : op ∈ (s.ops q).inputs) :
    ((s.redirectedOnce op i q).ops q).inputs.count op < (s.ops q).inputs.count op := by
  have hidx : (s.ops q).inputs.set (getInputIndex (s.ops q) op) i = (s.ops q).inputs.replace op i :=
    set_findIdx?_eq op i hq
  have hone := count_replace op i hi hq
  unfold PlanState.redirectedOnce
  rw [setOp_ops_self]
  dsimp only
  rw [hidx]
  omega

theorem readBy_outputs_self : ((s.readBy [i] q).ops i).outputs = (s.ops i).outputs ++ [q] := by
  simp [PlanState.readBy]

/-- With no room the loop stops behind the input that it has set. -/
theorem redirectOutputs_full (h : MAX_OUT_BRANCHING ≤ (s.ops i).outputs.length) :
    redirectOutputs op i (q :: qs) s = .error (.code (-1)) (s.redirectedOnce op i q) := by
  have hadd : addOutput i q (s.redirectedOnce op i q) = .error (.code (-1)) (s.redirectedOnce op i q) := by
    unfold addOutput
    rw [bind_of_ok (getOp_ok.mpr ⟨rfl,rfl⟩), bind_of_error (failIf_pos (by rwa [redirectedOnce_outputs]))]
  unfold redirectOutputs
  rw [bind_of_ok ((modifyOp_ok (a := ())).mpr rfl)]
  exact bind_of_error hadd

theorem redirectOutputs_room (h : (s.ops i).outputs.length < MAX_OUT_BRANCHING) :
    redirectOutputs op i (q :: qs) s = redirectOutputs op i qs ((s.redirectedOnce op i q).readBy [i] q) := by
  have hadd : addOutput i q (s.redirectedOnce op i q) = .ok () ((s.redirectedOnce op i q).readBy [i] q) := by
    apply addOutput_ok.mpr
    rw [redirectedOnce_outputs]
    exact ⟨h,rfl⟩
  rw [redirectOutputs, bind_of_ok ((modifyOp_ok (a := ())).mpr rfl)]
  exact bind_of_ok hadd

/-- The readers of an operator move to its input as long as there is room. -/
theorem redirectOutputs_returns (op : OpId) (hlen : (s.ops i).outputs.length ≤ MAX_OUT_BRANCHING) :
    returns (redirectOutputs op i qs s) = true ↔ (s.ops i).outputs.length + qs.length ≤ MAX_OUT_BRANCHING := by
  induction qs generalizing s with
  | nil => simpa [redirectOutputs,returns,pure,EStateM.pure] using hlen
  | cons q qs ih =>
    rw [List.length_cons]
    by_cases hroom : (s.ops i).outputs.length < MAX_OUT_BRANCHING
    · have hlen' : (((s.redirectedOnce op i q).readBy [i] q).ops i).outputs.length = (s.ops i).outputs.length + 1 := by
        rw [readBy_outputs_self, redirectedOnce_outputs, List.length_append, List.length_singleton]
      rw [redirectOutputs_room hroom, ih (by omega), hlen']
      omega
    · rw [redirectOutputs_full (by omega)]
      simp only [returns, Bool.false_eq_true, false_iff]
      omega

/-- No reader is moved back. -/
theorem redirectOutputs_count_le (hi : i ≠ op) (qs : List OpId) (s : PlanState) (o : OpId) :
    ((finalState (redirectOutputs op i qs s)).ops o).inputs.count op ≤ (s.ops o).inputs.count op := by
  induction qs generalizing s with
  | nil => rfl
  | cons q qs ih =>
    by_cases hroom : (s.ops i).outputs.length < MAX_OUT_BRANCHING
    · rw [redirectOutputs_room hroom]
      exact (ih _).trans (redirectedOnce_count_le hi)
    · rw [redirectOutputs_full (by omega), finalState_error]
      exact redirectedOnce_count_le hi

/-- The first reader is moved in any case. -/
theorem redirectOutputs_count_lt (hi : i ≠ op) (hq : op ∈ (s.ops q).inputs) (qs : List OpId) :
    ((finalState (redirectOutputs op i (q :: qs) s)).ops q).inputs.count op < (s.ops q).inputs.count op := by
  by_cases hroom : (s.ops i).outputs.length < MAX_OUT_BRANCHING
  · rw [redirectOutputs_room hroom]
    exact (redirectOutputs_count_le hi qs _ q).trans_lt (redirectedOnce_count_lt hi hq)
  · rw [redirectOutputs_full (by omega), finalState_error]
    exact redirectedOnce_count_lt hi hq

theorem shortCircuit_of_error {e : Failure} (hin : (s.ops op).inputs = [i])
    (h : redirectOutputs op i (s.ops op).outputs s = .error e t) : shortCircuitInputOutput op s = .error e t := by
  unfold shortCircuitInputOutput
  rw [bind_of_ok (getOp_ok.mpr ⟨rfl,rfl⟩)]
  simp only [hin]
  rw [bind_of_ok (getOp_ok.mpr ⟨rfl,rfl⟩)]
  exact bind_of_error h

/-- Once the readers have been moved, nothing can fail. -/
theorem shortCircuit_of_ok {a : Unit} (hin : (s.ops op).inputs = [i])
    (h : redirectOutputs op i (s.ops op).outputs s = .ok a t) (hne : (t.ops i).outputs ≠ []) :
    returns (shortCircuitInputOutput op s) = true := by
  unfold shortCircuitInputOutput
  rw [bind_of_ok (getOp_ok.mpr ⟨rfl,rfl⟩)]
  simp only [hin]
  rw [bind_of_ok (getOp_ok.mpr ⟨rfl,rfl⟩), bind_of_ok h, bind_of_ok (getOp_ok.mpr ⟨rfl,rfl⟩)]
  rw [List.getLast?_eq_some_getLast hne]
  rfl

/-- What the function is for: the readers of `op` read from its input `i` where they read from `op`, and
they take the place of `op` among the outputs of `i`. -/
def PlanState.ShortCircuited (op i : OpId) (s t : PlanState) : Prop :=
  ∃ outs : List OpId, outs.Perm ((s.ops i).outputs.erase op ++ (s.ops op).outputs) ∧
    t = { s with ops := fun o => { s.ops o with
      inputs := if o ∈ (s.ops op).outputs then (s.ops o).inputs.map (fun c => if c = op then i else c) else (s.ops o).inputs
      outputs := if o = i then outs else (s.ops o).outputs } }

/-- The function does what it is for exactly when the result fits, and otherwise nothing. -/
def PlanState.BypassedWhenFitting (s : PlanState) (op i : OpId) : Prop :=
  (returns (shortCircuitInputOutput op s) = true ↔
    (s.ops i).outputs.length - 1 + (s.ops op).outputs.length ≤ MAX_OUT_BRANCHING) ∧
  (∀ a t, shortCircuitInputOutput op s = .ok a t → s.ShortCircuited op i t) ∧
  ∀ e t, shortCircuitInputOutput op s = .error e t → t = s

section Outcome
variable (hc : s.ports.Consistent s.used) (hop : op ∈ s.used) (hin : (s.ops op).inputs = [i]) (hi : i ≠ op)
  (hlen : (s.ops i).outputs.length ≤ MAX_OUT_BRANCHING)
include hc hop hin hi hlen

theorem shortCircuit_returns : returns (shortCircuitInputOutput op s) = true ↔
    (s.ops i).outputs.length + (s.ops op).outputs.length ≤ MAX_OUT_BRANCHING := by
  have hiV : i ∈ s.used := hc.inputs_mem op hop i (by simp [hin])
  have hmem : op ∈ (s.ops i).outputs := (hc.mem_iff hop hiV).mp (by simp [hin])
  have hcount : ∀ q ∈ (s.ops op).outputs, (s.ops q).inputs.count op = (s.ops op).outputs.count q :=
    fun q hq => hc.balanced q (hc.outputs_mem op hop q hq) op hop
  rw [← redirectOutputs_returns op hlen]
  cases h : redirectOutputs op i (s.ops op).outputs s with
  | ok a t =>
    have ht := redirectOutputs_ok hi hcount h
    have hne : (t.ops i).outputs ≠ [] := by
      rw [ht]
      simp [PlanState.redirected,List.ne_nil_of_mem hmem]
    rw [shortCircuit_of_ok hin h hne]
    simp [returns]
  | error e t => rw [shortCircuit_of_error hin h]

/-- A failure leaves a reader that has been moved. -/
theorem shortCircuit_changes {e : Failure} (h : shortCircuitInputOutput op s = .error e t) : t ≠ s := by
  have hredirect : ∃ e' t', redirectOutputs op i (s.ops op).outputs s = .error e' t' := by
    cases hr : redirectOutputs op i (s.ops op).outputs s with
    | error e' t' => exact ⟨e',t',rfl⟩
    | ok a u =>
      have hret := (shortCircuit_returns hc hop hin hi hlen).mpr ((redirectOutputs_returns op hlen).mp (by rw [hr]; rfl))
      rw [h] at hret
      cases hret
  obtain ⟨e',t',hr⟩ := hredirect
  have heq := shortCircuit_of_error hin hr
  rw [h] at heq
  obtain ⟨rfl,rfl⟩ := EStateM.Result.error.inj heq
  cases houts : (s.ops op).outputs with
  | nil =>
    rw [houts] at hr
    cases hr
  | cons q qs =>
    have hq : q ∈ (s.ops op).outputs := by simp [houts]
    have hreads : op ∈ (s.ops q).inputs := (hc.mem_iff (hc.outputs_mem op hop q hq) hop).mpr hq
    have hlt := redirectOutputs_count_lt hi hreads qs
    rw [← houts, hr, finalState_error] at hlt
    rintro rfl
    omega

end Outcome

/-- In a consistent acyclic plan an operator is bypassed when the result fits, without effect otherwise, exactly if
there is room for its readers while it still is a reader itself. -/
theorem bypassedWhenFitting_iff (hc : s.ports.Consistent s.used) (hac : s.ports.Acyclic s.used)
    (hlen : ∀ o ∈ s.used, (s.ops o).outputs.length ≤ MAX_OUT_BRANCHING) (hop : op ∈ s.used)
    (hin : (s.ops op).inputs = [i]) :
    s.BypassedWhenFitting op i ↔ (s.ops i).outputs.length + (s.ops op).outputs.length ≤ MAX_OUT_BRANCHING := by
  have hi := input_ne_of_acyclic hac hop hin
  have hilen := hlen i (hc.inputs_mem op hop i (by simp [hin]))
  have hreturns := shortCircuit_returns hc hop hin hi hilen
  constructor
  · rintro ⟨-,-,herror⟩
    rw [← hreturns]
    cases h : shortCircuitInputOutput op s with
    | ok a t => rfl
    | error e t => exact absurd (herror e t h) (shortCircuit_changes hc hop hin hi hilen h)
  · intro hroom
    have hret := hreturns.mpr hroom
    constructor
    · simp only [hret, true_iff]
      omega
    constructor
    · intro a t h
      exact shortCircuit_ok hc hop hin hi h
    · intro e t h
      exact absurd h (ne_error_of_returns hret e t)

def crowdedView : PlanState := planAfter <|
  [.addBaseTable streamAndViews 0, .addBaseTable streamAndViews 1,
    .addLogicalQueryPlan blankUninit 0 windowOfStream false, .map streamAndViews 0 2] ++
  (List.range 10).map (fun i => .addLogicalQueryPlan blankUninit (1 + i) (rowsAbove 2 i) true)

theorem crowdedView_sound : Sound crowdedView ∧
    ∀ o ∈ crowdedView.used, (crowdedView.ops o).outputs.length ≤ MAX_OUT_BRANCHING := by
  have hreg : Registered blankMemory crowdedView := Registered.start.runCalls _ (by decide +kernel)
  have hall : crowdedView.used.all (fun o => (crowdedView.ops o).outputs.length ≤ MAX_OUT_BRANCHING) = true := by
    decide +kernel
  exact ⟨registered_sound hreg,by simpa using hall⟩

/-- The window of the view has one reader. -/
theorem crowdedView_window : ∃ op ∈ crowdedView.used, ∃ i, (crowdedView.ops op).inputs = [i] ∧
    crowdedView.BypassedWhenFitting op i := by
  obtain ⟨hs,hlen⟩ := crowdedView_sound
  have hop : ⟨3,by decide +kernel⟩ ∈ crowdedView.used := by decide +kernel
  have hin : (crowdedView.ops ⟨3,by decide +kernel⟩).inputs = [⟨2,by decide +kernel⟩] := by decide +kernel
  refine ⟨_,hop,_,hin,(bypassedWhenFitting_iff hs.consistent hs.acyclic hlen hop hin).mpr ?_⟩
  decide +kernel

/-- The source of the view for the queries stays, although its ten readers are no more than the window may have. -/
theorem crowdedView_stuck : ∃ op i, crowdedView.ports.Consistent crowdedView.used ∧ crowdedView.ports.Acyclic crowdedView.used ∧
    (∀ o ∈ crowdedView.used, (crowdedView.ops o).outputs.length ≤ MAX_OUT_BRANCHING) ∧ op ∈ crowdedView.used ∧
    (crowdedView.ops op).inputs = [i] ∧ ¬ crowdedView.BypassedWhenFitting op i := by
  obtain ⟨hs,hlen⟩ := crowdedView_sound
  refine ⟨⟨4,by decide +kernel⟩,⟨3,by decide +kernel⟩,hs.consistent,hs.acyclic,hlen,by decide +kernel,by decide +kernel,?_⟩
  rintro ⟨hreturns,-⟩
  revert hreturns
  decide +kernel

end AqsiosCoordinator.Physical
