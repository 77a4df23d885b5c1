import AqsiosCoordinator.Metadata.OptimizedMeaning
import AqsiosCoordinator.Server.QueryResults

/-! # The results of queries after optimization

The specification of an application ends with the optimization of its plan. What the
outputs of the queries receive then is what the plans of the queries compute.
-/
namespace AqsiosCoordinator.Server
open Common Foundation Foundation.Outcome Metadata Physical

variable {Node : Type} {front : Frontend Node} {u : Uninit} {mem : OpId → Operator}

theorem endAppSpecification_ok {sharing : Bool} {s t : ServerImpl} (h : endAppSpecification sharing s = .ok () t) :
    ∃ planMgr, optimizePlan sharing s.planMgr = .ok () planMgr ∧ t = { s with planMgr := planMgr, state := .planGen } := by
  obtain ⟨_,_,h1,h⟩ := bind_eq_ok.mp h
  obtain ⟨rfl,rfl⟩ := get_eq_ok.mp h1
  obtain ⟨_,_,h2,h⟩ := bind_eq_ok.mp h
  obtain ⟨-,rfl⟩ := failIf_eq_ok.mp h2
  obtain ⟨_,v,h3,h⟩ := bind_eq_ok.mp h
  obtain rfl := modify_eq_ok.mp h
  unfold callPlanMgr at h3
  cases hopt : optimizePlan sharing s.planMgr with
  | error e planMgr => simp [hopt] at h3
  | ok a planMgr =>
    rw [hopt] at h3
    cases h3
    exact ⟨planMgr,rfl,rfl⟩

namespace Network
variable {c d : Network}

/-- A server that is not in the state for registrations accepts none. -/
theorem step_closed {request : Request} (h : c.server.state ≠ .appSpec) : c.step front u request = none := by
  have htable (tableInfo : Option (List Char)) :
      registerTableInfo front tableInfo c.server = .error (.code INVALID_USE_ERR) c.server := by
    unfold registerTableInfo
    rw [bind_of_ok (get_apply _)]
    exact bind_of_error (failIf_pos h)
  cases request with
  | registerBaseTable tableInfo =>
    have hcall : registerBaseTable front tableInfo c.server = .error (.code INVALID_USE_ERR) c.server := bind_of_error (htable tableInfo)
    simp [step,Registrations.step,hcall,returned]
  | registerQuery querySpec output =>
    have hcall : planQuery front querySpec c.server = .error (.code INVALID_USE_ERR) c.server := by
      unfold planQuery
      rw [bind_of_ok (get_apply _)]
      exact bind_of_error (failIf_pos h)
    simp [step,hcall,returned]
  | registerView queryId tableInfo =>
    have hcall : registerView front queryId tableInfo c.server = .error (.code INVALID_USE_ERR) c.server := bind_of_error (htable tableInfo)
    simp [step,Registrations.step,hcall,returned]

/-- What the outputs of the optimized plan receive. -/
theorem Inv.optimized (h : c.Inv mem) (hlevels : c.planMgr.SharesOrderly) {server : ServerImpl}
    (hend : endAppSpecification true c.server = .ok () server) {α : Type} [DecidableEq α] {I : Interp α} (hI : I.CountsRows)
    (hT : I.IgnoresTypes) {S : Sources α} (hS : c.Fits S) :
    (∃ T, c.Contents I S T) ∧ (∃ D, server.planMgr.Meaning I S D) ∧ ∀ T D, c.Contents I S T → server.planMgr.Meaning I S D →
      (∀ q ∈ c.queries, q.output = true → ∃ o ∈ server.planMgr.used, ∃ outputId, (server.planMgr.ops o).body = .output outputId q.queryId) ∧
      ∀ o ∈ server.planMgr.used, ∀ outputId queryId, (server.planMgr.ops o).body = .output outputId queryId →
        ∃ q ∈ c.queries, q.queryId = queryId ∧ q.output = true ∧ server.planMgr.received D o = [q.plan.denote I T] := by
  obtain ⟨planMgr,hopt,rfl⟩ := endAppSpecification_ok hend
  have hsound := registered_sound h.registered
  obtain ⟨D₀,hD₀⟩ := exists_meaning I S hsound.consistent hsound.acyclic
  obtain ⟨ht,hkept⟩ := optimizePlan_resultsKept (S := S) h.registered h.refers hlevels hT hopt
  obtain ⟨-,⟨D₁,hD₁⟩,hsame⟩ := hkept.sameResults hsound.consistent hsound.acyclic ht.consistent ht.acyclic
  refine ⟨⟨_,contents_tableSources h hI hD₀ hS⟩,⟨D₁,hD₁⟩,fun T D hT' hD => ?_⟩
  obtain ⟨hqueries,houtputs⟩ := h.results hI hS hT' hD₀
  constructor
  · intro q hq hout
    obtain ⟨o,ho,outputId,hbody⟩ := (hqueries q hq).2 hout
    obtain ⟨ho',hbody',-⟩ := hsame D₀ D hD₀ hD o ho (by rw [hbody]; rfl)
    exact ⟨o,ho',outputId,hbody'.trans hbody⟩
  · intro o ho outputId queryId hbody
    have hout : planMgr.IsOutput o := ⟨ho,by rw [show (planMgr.ops o).body = _ from hbody]; rfl⟩
    obtain ⟨hold,hk⟩ := optimizePlan_isOutput h.registered h.refers hlevels hopt hout
    obtain ⟨-,hbody',hrec⟩ := hsame D₀ D hD₀ hD o hold (by rw [hk]; rfl)
    obtain ⟨q,hq,hid,hqout,hval⟩ := houtputs o hold outputId queryId (hbody'.symm.trans hbody)
    exact ⟨q,hq,hid,hqout,hrec.trans hval⟩

/-- After every run of registrations of queries that can be answered, on whose plan every level of sharing
starts with operators in use: when the specification ends, no more is registered, the tables have contents
that agree with the queries of the views, and by every such contents the optimized plan has the output of
each query that is to have one, which receives what the plan of its query computes, and no other output. -/
theorem optimized_results {requests : List Request} (hallowed : RunsWithin (step front u) (Allowed front) (start mem) requests)
    (hrun : runAll (step front u) (start mem) requests = some c) (hlevels : c.planMgr.SharesOrderly) {server : ServerImpl}
    (hend : endAppSpecification true c.server = .ok () server) {α : Type} [DecidableEq α] {I : Interp α} (hI : I.CountsRows)
    (hT : I.IgnoresTypes) {S : Sources α} (hS : c.Fits S) :
    (∀ request, step front u { c with regs := { c.regs with server := server } } request = none) ∧
    (∃ T, c.Contents I S T) ∧ (∃ D, server.planMgr.Meaning I S D) ∧ ∀ T D, c.Contents I S T → server.planMgr.Meaning I S D →
      (∀ q ∈ c.queries, q.output = true → ∃ o ∈ server.planMgr.used, ∃ outputId, (server.planMgr.ops o).body = .output outputId q.queryId) ∧
      ∀ o ∈ server.planMgr.used, ∀ outputId queryId, (server.planMgr.ops o).body = .output outputId queryId →
        ∃ q ∈ c.queries, q.queryId = queryId ∧ q.output = true ∧ server.planMgr.received D o = [q.plan.denote I T] := by
  have h : c.Inv mem := hallowed.invariant (fun _ _ _ h ha hs => step_inv h ha hs) (start_inv mem) hrun
  refine ⟨fun _ => step_closed ?_,h.optimized hlevels hend hI hT hS⟩
  obtain ⟨planMgr,-,rfl⟩ := endAppSpecification_ok hend
  simp

/-- The select of the query over the view becomes part of the select of the view, and its output receives
the positive rows of the view. -/
theorem queryOfView_optimized : ∃ c server, runAll (step viewFrontend blankUninit) (start blankMemory) queryOfView = some c ∧
    endAppSpecification true c.server = .ok () server ∧ server.planMgr.used.length < c.planMgr.used.length ∧
    ∃ T D, c.Contents intInterp (oneRow [1]) T ∧ server.planMgr.Meaning intInterp (oneRow [1]) D ∧
      ∃ q ∈ c.queries, ∃ o ∈ server.planMgr.used, server.planMgr.received D o = [q.plan.denote intInterp T] := by
  have hcheck : ((runAll (step viewFrontend blankUninit) (start blankMemory) queryOfView).map fun c =>
      (c.regs.bases.all (fun e => (c.tableMgr.columns e.1).length = 1) && c.queries.any Accepted.output) &&
      (returns (removeQuerySources c.planMgr) && returns (addSinks (finalState (removeQuerySources c.planMgr))) &&
        returns (mergeSelects (finalState (addSinks (finalState (removeQuerySources c.planMgr))))) &&
        decide (JoinsFiltered (preparedPlan c.planMgr)) &&
        decide (LevelsClear (MAX_OPS + 1) (preparedPlan c.planMgr).dataSources (preparedPlan c.planMgr))) &&
      (returns (endAppSpecification true c.server) &&
        decide ((finalState (endAppSpecification true c.server)).planMgr.used.length < c.planMgr.used.length))) = some true := by decide +kernel
  obtain ⟨c,hc,hchecks⟩ := Option.map_eq_some_iff.mp hcheck
  simp only [Bool.and_eq_true] at hchecks
  obtain ⟨⟨⟨hwidth,hout⟩,⟨⟨hpasses,hjoins⟩,hclear⟩⟩,hreturns,hsmaller⟩ := hchecks
  have hfits : c.Fits (oneRow [1]) := by
    intro e he now r hr
    obtain rfl := Multiset.mem_singleton.mp hr
    have hone := List.all_eq_true.mp hwidth e he
    simpa [Logical.Plan.HasWidth] using (of_decide_eq_true hone).symm
  have hcounts : intInterp.CountsRows := fun xs ys hxy => by simp [intInterp,hxy]
  have hinv : c.Inv blankMemory := queryOfView_allowed.invariant (fun _ _ _ h ha hs => step_inv h ha hs) (start_inv blankMemory) hc
  obtain ⟨s₁,s₂,h1,h2,h3⟩ := preparedPlan_passes (s := c.planMgr) (by simpa [Bool.and_eq_true] using hpasses)
  have hlevels : c.planMgr.SharesOrderly := .of_clear hinv.registered h1 h2 h3 (of_decide_eq_true hjoins) (of_decide_eq_true hclear)
  have hend := eq_ok_of_returns hreturns
  obtain ⟨-,⟨T,hT⟩,⟨D,hD⟩,hresults⟩ :=
    optimized_results queryOfView_allowed hc hlevels hend hcounts intInterp_ignoresTypes hfits
  obtain ⟨hqueries,houtputs⟩ := hresults T D hT hD
  obtain ⟨q,hq,hqout⟩ := List.any_eq_true.mp hout
  obtain ⟨o,ho,outputId,hbody⟩ := hqueries q hq hqout
  obtain ⟨q',hq',-,-,hrec⟩ := houtputs o ho outputId q.queryId hbody
  exact ⟨c,_,hc,hend,of_decide_eq_true hsmaller,T,D,hT,hD,q',hq',o,ho,hrec⟩

end Network
end AqsiosCoordinator.Server
