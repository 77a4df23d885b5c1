import Mathlib.Data.List.Basic

/-! # Runs of a system that takes one action after the other -/
namespace AqsiosCoordinator.Foundation
variable {S A : Type*} (step : S → A → Option S)

/-- The state after the actions in order; absent when one of them is not possible. -/
def runAll : S → List A → Option S
  | s, [] => some s
  | s, a :: as => (step s a).bind (fun t => runAll t as)

def RunsWithin (allowed : S → A → Prop) : S → List A → Prop
  | _, [] => True
  | s, a :: as => allowed s a ∧ ∀ t, step s a = some t → RunsWithin allowed t as

variable {step} {allowed : S → A → Prop} {s t : S} {a : A} {as bs : List A}

theorem runAll_cons : runAll step s (a :: as) = some t ↔ ∃ u, step s a = some u ∧ runAll step u as = some t :=
  Option.bind_eq_some_iff

theorem runAll_append :
    runAll step s (as ++ bs) = some t ↔ ∃ u, runAll step s as = some u ∧ runAll step u bs = some t := by
  induction as generalizing s with
  | nil => simp [runAll]
  | cons a as ih =>
    simp only [List.cons_append, runAll_cons, ih]
    constructor
    · rintro ⟨v,hv,u,hu,ht⟩
      exact ⟨u,⟨v,hv,hu⟩,ht⟩
    · rintro ⟨u,⟨v,hv,hu⟩,ht⟩
      exact ⟨v,hv,u,hu,ht⟩

theorem runAll_concat :
    runAll step s (as ++ [a]) = some t ↔ ∃ u, runAll step s as = some u ∧ step u a = some t := by
  simp [runAll_append,runAll]

theorem RunsWithin.append (hrun : runAll step s as = some t) :
    RunsWithin step allowed s (as ++ bs) ↔ RunsWithin step allowed s as ∧ RunsWithin step allowed t bs := by
  induction as generalizing s with
  | nil =>
    simp only [runAll, Option.some.injEq] at hrun
    simp [RunsWithin,hrun]
  | cons a as ih =>
    obtain ⟨u,hu,hrest⟩ := runAll_cons.mp hrun
    simp [RunsWithin,hu,ih hrest,and_assoc]

theorem RunsWithin.of_forall (h : ∀ s, ∀ a ∈ as, allowed s a) : RunsWithin step allowed s as := by
  induction as generalizing s with
  | nil => exact trivial
  | cons a as ih =>
    exact ⟨h s a List.mem_cons_self,fun t _ => ih fun s b hb => h s b (List.mem_cons_of_mem a hb)⟩

/-- The rule for invariants: what every allowed step keeps holds after a run of such steps. -/
theorem RunsWithin.invariant {I : S → Prop} (hw : RunsWithin step allowed s as)
    (hstep : ∀ s a t, I s → allowed s a → step s a = some t → I t)
    (hs : I s) (hrun : runAll step s as = some t) : I t := by
  induction as generalizing s with
  | nil =>
    simp only [runAll, Option.some.injEq] at hrun
    exact hrun ▸ hs
  | cons a as ih =>
    obtain ⟨u,hu,hrest⟩ := runAll_cons.mp hrun
    exact ih (hw.2 u hu) (hstep s a u hs hw.1 hu) hrest

theorem runAll_invariant {I : S → Prop} (hstep : ∀ s a t, I s → step s a = some t → I t)
    (hs : I s) (hrun : runAll step s as = some t) : I t := by
  have hw : RunsWithin step (fun _ _ => True) s as := RunsWithin.of_forall fun _ _ _ => trivial
  exact hw.invariant (fun s a t h _ => hstep s a t h) hs hrun

/-- A run that leaves what is allowed does so first after some of its actions. -/
theorem exists_of_not_runsWithin (h : ¬ RunsWithin step allowed s as) :
    ∃ pre a u, pre ++ [a] <+: as ∧ runAll step s pre = some u ∧ RunsWithin step allowed s pre ∧
      ¬ allowed u a := by
  induction as generalizing s with
  | nil => exact absurd trivial h
  | cons a as ih =>
    by_cases ha : allowed s a
    · have hrest : ∃ t, step s a = some t ∧ ¬ RunsWithin step allowed t as := by
        by_contra hno
        push Not at hno
        exact h ⟨ha,hno⟩
      obtain ⟨t,ht,hbad⟩ := hrest
      obtain ⟨pre,b,u,hpre,hu,hw,hb⟩ := ih hbad
      refine ⟨a :: pre,b,u,?_,runAll_cons.mpr ⟨t,ht,hu⟩,⟨ha,fun v hv => ?_⟩,hb⟩
      · simpa using hpre
      · rw [ht, Option.some.injEq] at hv
        exact hv ▸ hw
    · exact ⟨[],a,s,by simp,rfl,trivial,ha⟩

theorem RunsWithin.of_prefix {pre : List A} (h : RunsWithin step allowed s as) (hp : pre <+: as) :
    RunsWithin step allowed s pre := by
  induction pre generalizing s as with
  | nil => exact trivial
  | cons a pre ih =>
    obtain ⟨rest,rfl⟩ := hp
    exact ⟨h.1,fun t ht => ih (h.2 t ht) (List.prefix_append pre rest)⟩

end AqsiosCoordinator.Foundation
