import AqsiosCoordinator.Foundation.GrowingStreams
import AqsiosCoordinator.Querygen.PlanDenotation

/-! # Plans that are flagged as streams only grow -/
namespace AqsiosCoordinator.Logical.Plan
open Common Foundation Foundation.TimeVarying Metadata
variable {α : Type} [DecidableEq α] {I : Interp α} {S : Sources α} {known : ℕ → Prop} {tableMgr : TableManager} {p : Plan}

/-- Where the tables of streams only grow, so does what every plan computes that has the flag of streams. -/
theorem Flagged.monotone (h : Flagged known tableMgr p)
    (hS : ∀ tableId, known tableId → tableMgr.isStream tableId = true → Monotone (S.table tableId)) (hp : p.bStream = true) : Monotone (p.denote I S) := by
  induction h with
  | @node kind outAttrs bStream inputs source takes flag _ ih =>
    obtain rfl : bStream = true := hp
    rw [denote_node]
    have hfirst (hflag : (inputs.map Plan.bStream).headD false = true) :
        ∃ i rest, inputs = i :: rest ∧ Monotone (i.denote I S) := by
      cases inputs with
      | nil => cases hflag
      | cons i rest => exact ⟨i,rest,rfl,ih i List.mem_cons_self hflag⟩
    cases kind with
    | streamSource varId tableId => exact monotone_map (hS tableId source.1 source.2) _
    | select bexpr =>
      obtain ⟨i,rest,rfl,hi⟩ := hfirst flag.symm
      exact monotone_filter hi _
    | project projExprs =>
      obtain ⟨i,rest,rfl,hi⟩ := hfirst flag.symm
      exact monotone_map hi _
    | distinct =>
      obtain ⟨i,rest,rfl,hi⟩ := hfirst flag.symm
      exact monotone_distinct hi
    | cross =>
      apply monotone_cross
      intro f hf
      simp only [List.map_map, List.mem_map, Function.comp_apply] at hf
      obtain ⟨i,hi,rfl⟩ := hf
      have hall : ∀ b ∈ inputs.map Plan.bStream, b = true := by simpa [Kind.streams] using flag.symm
      exact ih i hi (hall _ (List.mem_map_of_mem hi))
    | union =>
      obtain ⟨l,r,rfl⟩ := List.length_eq_two.mp (show inputs.length = 2 by simpa [Kind.Takes] using takes)
      have hboth : l.bStream = true ∧ r.bStream = true := by simpa [Kind.streams] using flag.symm
      exact monotone_union (ih l (by simp) hboth.1) (monotone_map (ih r (by simp) hboth.2) _)
    | streamCross => exact monotone_streamCross _
    | istream => exact monotone_accumulate _
    | dstream => exact monotone_accumulate _
    | rstream => exact monotone_accumulate _
    | _ => cases flag

end AqsiosCoordinator.Logical.Plan
