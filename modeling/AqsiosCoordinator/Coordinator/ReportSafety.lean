import AqsiosCoordinator.Coordinator.LoadReports

/-! # Messages that are no reports

`update` looks at the first letters of a message only. What comes behind them is
taken for a report, also where it ends too early or is none.
-/
namespace AqsiosCoordinator.Coordinator
open Foundation Foundation.Reader
variable {D : Type} [Double D] {info : NodeInfo D} {w : List Char}

def WellFormed (n : ℕ) (w : List Char) : Prop := ∃ r : Report, r.Fits n ∧ w = r.text

def HasHeader (w : List Char) : Prop := ['N','I'] <+: w ∨ ['P'] <+: w

theorem matchesList_nul {word : List Char} (hword : NUL ∉ word) (w : List Char) :
    matchesList word (w ++ [NUL]) = some (decide (word <+: w)) := by
  induction word generalizing w with
  | nil => simp [matchesList]
  | cons c word ih =>
    obtain ⟨hc,hword⟩ := List.ne_and_not_mem_of_not_mem_cons hword
    cases w with
    | nil => simp [matchesList,hc]
    | cons x w =>
      rw [List.cons_append, matchesList]
      by_cases hx : x = c
      · rw [if_pos hx, ih hword w]
        simp [hx]
      · rw [if_neg hx]
        simp [Ne.symm hx]

theorem startsWith_nul {word : List Char} (hword : NUL ∉ word) (w : List Char) :
    (startsWith word : Msg Bool) (w ++ [NUL]) = some (decide (word <+: w),w ++ [NUL]) := by
  unfold startsWith
  rw [matchesList_nul hword]
  rfl

/-- Without a header the message is refused. -/
theorem update_refused (h : ¬ HasHeader w) : info.update (w ++ [NUL]) = some ((-1,info),w ++ [NUL]) := by
  have hni : ¬ ['N','I'] <+: w := fun hp => h (.inl hp)
  have hp : ¬ ['P'] <+: w := fun hp => h (.inr hp)
  unfold NodeInfo.update
  rw [bind_of_eq (startsWith_nul (by decide) w), if_neg (by simpa using hni),
    bind_of_eq (startsWith_nul (by decide) w), if_neg (by simpa using hp)]
  rfl

/-- Behind a header nothing is refused. -/
theorem update_accepts (h : HasHeader w) {rc : ℤ} {info' : NodeInfo D} {mid : List Char}
    (hu : info.update (w ++ [NUL]) = some ((rc,info'),mid)) : rc = 0 := by
  have hload : Yields info.updateLoadInfo fun r => r.1 = 0 :=
    yields_bind fun _ => yields_bind fun _ => yields_bind fun _ => yields_bind fun _ => yields_bind fun _ =>
      yields_bind fun _ => yields_pure rfl
  have hport : Yields info.updateListeningPortNo fun r => r.1 = 0 :=
    yields_bind fun _ => yields_bind fun _ => yields_bind fun _ => yields_pure rfl
  unfold NodeInfo.update at hu
  rw [bind_of_eq (startsWith_nul (by decide) w)] at hu
  split at hu
  · exact hload _ _ _ hu
  · rename_i hni
    rw [bind_of_eq (startsWith_nul (by decide) w), if_pos] at hu
    · exact hport _ _ _ hu
    · simpa using h.resolve_left (by simpa using hni)

/-- A message is read inside its NUL, and refused without effect when it is no report, exactly if it
is a report or has no header of one. -/
theorem update_safe_iff [ExactInts D] (hinfo : info.Valid) (w : List Char) :
    (∃ rc info' mid, info.update (w ++ [NUL]) = some ((rc,info'),mid) ∧
      (¬ WellFormed info.numberOfClasses w → rc = -1 ∧ info' = info)) ↔
    WellFormed info.numberOfClasses w ∨ ¬ HasHeader w := by
  constructor
  · rintro ⟨rc,info',mid,hu,hrefused⟩
    by_contra hnot
    obtain ⟨hmal,hheader⟩ := not_or.mp hnot
    have hzero := update_accepts (not_not.mp hheader) hu
    rw [(hrefused hmal).1] at hzero
    cases hzero
  · rintro (h | h)
    · obtain ⟨r,hr,rfl⟩ := h
      obtain ⟨mid,hu⟩ := update_text [] hinfo hr
      exact ⟨0,_,mid,hu,fun hmal => absurd ⟨r,hr,rfl⟩ hmal⟩
    · exact ⟨-1,info,_,update_refused h,fun _ => ⟨rfl,rfl⟩⟩

theorem shortPort_safe : ∃ rc info' mid, (NodeInfo.new 1 : NodeInfo ℚ).update (['P',',','2'] ++ [NUL]) = some ((rc,info'),mid) ∧
    (¬ WellFormed (NodeInfo.new 1 : NodeInfo ℚ).numberOfClasses ['P',',','2'] → rc = -1 ∧ info' = NodeInfo.new 1) := by
  apply (update_safe_iff (NodeInfo.new_valid 1) ['P',',','2']).mpr
  exact .inl ⟨.port (reportType 2),fun l hl => absurd hl (by simp [Report.levels]),rfl⟩

/-- A list of queries without its `E` is read beyond the NUL. -/
theorem cutReport_unsafe : ¬ ∃ rc info' mid,
    (NodeInfo.new 1 : NodeInfo ℚ).update (['N','I',',','2',',','7',',','1',','] ++ [NUL]) = some ((rc,info'),mid) ∧
      (¬ WellFormed (NodeInfo.new 1 : NodeInfo ℚ).numberOfClasses ['N','I',',','2',',','7',',','1',','] →
        rc = -1 ∧ info' = NodeInfo.new 1) := by
  rintro ⟨rc,info',mid,h,-⟩
  have hnone : ((NodeInfo.new 1 : NodeInfo ℚ).update (['N','I',',','2',',','7',',','1',','] ++ [NUL])).isNone = true := by
    decide +kernel
  rw [h] at hnone
  cases hnone

end AqsiosCoordinator.Coordinator
