import AqsiosCoordinator.Foundation.Unfolding

/-! # Values of the nodes of an acyclic graph

Each node has a function of the values of its inputs. `IsValuation` says that a family
of values follows these functions. An acyclic graph has one, and only one.
-/
namespace AqsiosCoordinator.Foundation
variable {ι β : Type}

namespace ComputationTree

mutual

def eval : ComputationTree (List β → β) → β
  | node f ts => f (evals ts)

def evals : List (ComputationTree (List β → β)) → List β
  | [] => []
  | t :: ts => t.eval :: evals ts

end

theorem evals_eq_map (ts : List (ComputationTree (List β → β))) : evals ts = ts.map eval := by
  induction ts with
  | nil => simp [evals]
  | cons t ts ih => simp [evals,ih]

end ComputationTree

/-- `D` gives each node of `V` what its function makes of the values of its inputs. -/
def IsValuation (inputs : ι → List ι) (f : ι → List β → β) (V : List ι) (D : ι → β) : Prop :=
  ∀ o ∈ V, D o = f o ((inputs o).map D)

variable {f f' : ι → List β → β} {G G' : Ports ι} {V : List ι} {D D' : ι → β} {op i : ι}

theorem IsValuation.eq_eval {T : ι → ComputationTree (List β → β)} (hD : IsValuation G.inputs f V D)
    (hT : IsUnfolding f G.inputs V T) : ∀ o ∈ V, D o = (T o).eval := by
  have hind : ∀ n, ∀ o ∈ V, (T o).height ≤ n → D o = (T o).eval := by
    intro n
    induction n with
    | zero => exact fun o _ hn => absurd (T o).height_pos (by omega)
    | succ n ih =>
      intro o ho hn
      rw [hD o ho, hT.node o ho]
      simp only [ComputationTree.eval, ComputationTree.evals_eq_map, List.map_map]
      congr 1
      refine List.map_congr_left fun c hc => ih c (hT.closed o ho c hc) ?_
      have hlt := ComputationTree.height_lt_of_mem (hT.mem_inputs ho hc)
      omega
  exact fun o ho => hind _ o ho le_rfl

/-- Nodes that read from others keep their values as long as they unfold to the same trees. -/
theorem IsValuation.of_unfolding {T : ι → ComputationTree (List β → β)} (hD : IsValuation G.inputs f V D)
    (hT : IsUnfolding f G.inputs V T) (hT' : IsUnfolding f' G'.inputs V T) :
    IsValuation G'.inputs f' V D ∧ ∀ o ∈ V, (G'.inputs o).map D = (G.inputs o).map D := by
  have hvalues {f : ι → List β → β} {G : Ports ι} (hT : IsUnfolding f G.inputs V T) {o : ι} (ho : o ∈ V)
      (heval : ∀ o ∈ V, D o = (T o).eval) : (G.inputs o).map D = (T o).inputs.map ComputationTree.eval := by
    rw [hT.inputs_eq ho, List.map_map]
    exact List.map_congr_left fun c hc => heval c (hT.closed o ho c hc)
  have heval := hD.eq_eval hT
  have hsame {o : ι} (ho : o ∈ V) : (G'.inputs o).map D = (G.inputs o).map D :=
    (hvalues hT' ho heval).trans (hvalues hT ho heval).symm
  constructor
  · intro o ho
    rw [hsame ho, ← hT'.label_eq ho, hT.label_eq ho]
    exact hD o ho
  · exact fun o ho => hsame ho

section Acyclic
variable [Fintype ι]

theorem exists_valuation (f : ι → List β → β) (hclosed : ∀ o ∈ V, ∀ c ∈ G.inputs o, c ∈ V) (hac : G.Acyclic V) :
    ∃ D, IsValuation G.inputs f V D := by
  obtain ⟨T,hT,-⟩ := exists_unfolding f hclosed hac
  refine ⟨fun o => (T o).eval,fun o ho => ?_⟩
  simp only [hT.node o ho, ComputationTree.eval, ComputationTree.evals_eq_map, List.map_map]
  rfl

theorem IsValuation.unique (hD : IsValuation G.inputs f V D) (hD' : IsValuation G.inputs f V D')
    (hclosed : ∀ o ∈ V, ∀ c ∈ G.inputs o, c ∈ V) (hac : G.Acyclic V) : ∀ o ∈ V, D o = D' o := by
  obtain ⟨T,hT,-⟩ := exists_unfolding f hclosed hac
  intro o ho
  rw [hD.eq_eval hT o ho, hD'.eq_eval hT o ho]

end Acyclic

section Bypassed
variable [DecidableEq ι]

/-- The values after `op`, whose only input is `i`, has been merged into `i`. -/
def mergedValue (op i : ι) (D : ι → β) : ι → β := fun o => if o = i then D op else D o

/-- The nodes that do not read from `i` find at their inputs what they found there. -/
theorem Ports.Bypassed.values_eq (h : Ports.Bypassed op i V G G') {o : ι} (ho : o ∈ V) (hop : o ≠ op)
    (hread : i ∉ G.inputs o) : (G'.inputs o).map (mergedValue op i D) = (G.inputs o).map D := by
  rw [h.inputs o ho hop, List.map_map]
  refine List.map_congr_left fun c hc => ?_
  have hci : c ≠ i := fun he => hread (he ▸ hc)
  by_cases hcop : c = op
  · simp [mergedValue,hcop]
  · simp [mergedValue,hcop,hci]

/-- When nobody else reads from `i` and the function of `i` becomes that of `op` after it,
the other nodes keep their values. -/
theorem IsValuation.bypass (hD : IsValuation G.inputs f V D) (h : Ports.Bypassed op i V G G') (hV : V.Nodup)
    (hop : op ∈ V) (hin : G.inputs op = [i]) (honly : ∀ o ∈ V, i ∈ G.inputs o → o = op)
    (hf : ∀ o, o ≠ op → o ≠ i → f' o = f o) (hfi : f' i ((G.inputs i).map D) = f op [f i ((G.inputs i).map D)]) :
    IsValuation G'.inputs f' (V.erase op) (mergedValue op i D) := by
  intro o ho
  obtain ⟨hoop,hoV⟩ := hV.mem_erase_iff.mp ho
  have hread : i ∉ G.inputs o := fun hmem => hoop (honly o hoV hmem)
  rw [h.values_eq hoV hoop hread]
  by_cases hoi : o = i
  · subst hoi
    rw [hfi, ← hD o hoV]
    simp only [mergedValue, if_true]
    rw [hD op hop, hin]
    rfl
  · rw [hf o hoop hoi, ← hD o hoV]
    simp [mergedValue,hoi]

end Bypassed
end AqsiosCoordinator.Foundation
