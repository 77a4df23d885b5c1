import AqsiosCoordinator.Foundation.PortGraph
import Mathlib.Data.Fintype.Card

/-! # The trees that the nodes of an acyclic graph unfold to -/
namespace AqsiosCoordinator.Foundation
variable {ι L : Type}

inductive ComputationTree (L : Type) where
  | node (label : L) (inputs : List (ComputationTree L))

namespace ComputationTree

def label : ComputationTree L → L
  | node label _ => label
def inputs : ComputationTree L → List (ComputationTree L)
  | node _ inputs => inputs

mutual

def height : ComputationTree L → ℕ
  | node _ ts => heights ts + 1

def heights : List (ComputationTree L) → ℕ
  | [] => 0
  | t :: ts => max t.height (heights ts)

end

theorem height_le_heights {t : ComputationTree L} {ts : List (ComputationTree L)} (h : t ∈ ts) : t.height ≤ heights ts := by
  induction ts with
  | nil => simp at h
  | cons u ts ih =>
    simp only [heights]
    rcases List.mem_cons.mp h with rfl | h
    · exact le_max_left _ _
    · exact (ih h).trans (le_max_right _ _)

theorem heights_le {ts : List (ComputationTree L)} {n : ℕ} (h : ∀ t ∈ ts, t.height ≤ n) : heights ts ≤ n := by
  induction ts with
  | nil => exact Nat.zero_le n
  | cons u ts ih => exact max_le (h u List.mem_cons_self) (ih fun t ht => h t (List.mem_cons_of_mem _ ht))

theorem height_pos (t : ComputationTree L) : 0 < t.height := by
  cases t
  simp [height]

theorem height_lt_of_mem {t u : ComputationTree L} (h : t ∈ u.inputs) : t.height < u.height := by
  obtain ⟨l,ts⟩ := u
  exact Nat.lt_succ_of_le (height_le_heights h)

end ComputationTree

variable {label : ι → L} {inputs : ι → List ι} {V : List ι} {o : ι} {T : ι → ComputationTree L}

inductive Unfolds (label : ι → L) (inputs : ι → List ι) : ι → ComputationTree L → Prop where
  | node (o : ι) (child : ι → ComputationTree L) (h : ∀ c ∈ inputs o, Unfolds label inputs c (child c)) :
      Unfolds label inputs o (.node (label o) ((inputs o).map child))

theorem Unfolds.unique {t u : ComputationTree L} (h : Unfolds label inputs o t) (h' : Unfolds label inputs o u) : t = u := by
  induction h generalizing u with
  | node o child _ ih =>
    cases h' with
    | node _ child' h' =>
      congr 1
      exact List.map_congr_left fun c hc => ih c hc (h' c hc)

structure IsUnfolding (label : ι → L) (inputs : ι → List ι) (V : List ι) (T : ι → ComputationTree L) : Prop where
  closed : ∀ o ∈ V, ∀ c ∈ inputs o, c ∈ V
  node : ∀ o ∈ V, T o = .node (label o) ((inputs o).map T)

theorem IsUnfolding.inputs_eq (h : IsUnfolding label inputs V T) (ho : o ∈ V) : (T o).inputs = (inputs o).map T := by
  rw [h.node o ho]
  rfl

theorem IsUnfolding.label_eq (h : IsUnfolding label inputs V T) (ho : o ∈ V) : (T o).label = label o := by
  rw [h.node o ho]
  rfl

theorem IsUnfolding.mem_inputs (h : IsUnfolding label inputs V T) (ho : o ∈ V) {c : ι} (hc : c ∈ inputs o) :
    T c ∈ (T o).inputs := by
  rw [h.inputs_eq ho]
  exact List.mem_map_of_mem hc

theorem IsUnfolding.unfolds (h : IsUnfolding label inputs V T) (ho : o ∈ V) : Unfolds label inputs o (T o) := by
  have hind : ∀ n, ∀ o ∈ V, (T o).height ≤ n → Unfolds label inputs o (T o) := by
    intro n
    induction n with
    | zero => exact fun o _ hn => absurd (T o).height_pos (by omega)
    | succ n ih =>
      intro o ho hn
      rw [h.node o ho]
      refine .node o T fun c hc => ih c (h.closed o ho c hc) ?_
      have hlt := ComputationTree.height_lt_of_mem (h.mem_inputs ho hc)
      omega
  exact hind _ o ho le_rfl

def ComputationTree.Below (t u : ComputationTree L) : Prop := Relation.ReflTransGen (fun v w => w ∈ v.inputs) u t

theorem IsUnfolding.below {G : Ports ι} {p : ι} (h : IsUnfolding label G.inputs V T) (hp : p ∈ V)
    (hr : Relation.ReflTransGen G.Reads p o) : o ∈ V ∧ (T o).Below (T p) := by
  induction hr with
  | refl => exact ⟨hp,.refl⟩
  | @tail b c _ hbc ih => exact ⟨h.closed b ih.1 c hbc,ih.2.tail (h.mem_inputs ih.1 hbc)⟩

/-- Nodes that unfold to trees read no cycle. -/
theorem IsUnfolding.acyclic {G : Ports ι} (h : IsUnfolding label G.inputs V T) : G.Acyclic V := by
  intro o ho hcycle
  have hdown : ∀ c, Relation.TransGen G.Reads o c → c ∈ V ∧ (T c).height < (T o).height := by
    intro c hc
    induction hc with
    | single hr => exact ⟨h.closed o ho _ hr,ComputationTree.height_lt_of_mem (h.mem_inputs ho hr)⟩
    | tail _ hr ih => exact ⟨h.closed _ ih.1 _ hr,(ComputationTree.height_lt_of_mem (h.mem_inputs ih.1 hr)).trans ih.2⟩
  exact lt_irrefl _ (hdown o hcycle).2

theorem IsUnfolding.exists_of_below {G : Ports ι} {p : ι} {t : ComputationTree L} (h : IsUnfolding label G.inputs V T)
    (hp : p ∈ V) (ht : t.Below (T p)) : ∃ o, Relation.ReflTransGen G.Reads p o ∧ T o = t := by
  induction ht with
  | refl => exact ⟨p,.refl,rfl⟩
  | @tail u w _ huw ih =>
    obtain ⟨o,hpo,rfl⟩ := ih
    have ho := (h.below hp hpo).1
    rw [h.inputs_eq ho] at huw
    obtain ⟨c,hc,rfl⟩ := List.mem_map.mp huw
    exact ⟨c,hpo.tail hc,rfl⟩

section Acyclic
variable {G : Ports ι} [Fintype ι]

open Classical in
noncomputable def Ports.below (G : Ports ι) (o : ι) : Finset ι :=
  Finset.univ.filter fun x => Relation.ReflTransGen G.Reads o x

theorem Ports.below_ssubset {c : ι} (h : ¬ Relation.TransGen G.Reads o o) (hc : c ∈ G.inputs o) :
    G.below c ⊂ G.below o := by
  have hself : o ∈ G.below o := by simp [Ports.below,Relation.ReflTransGen.refl]
  refine (Finset.ssubset_iff_of_subset fun x hx => ?_).mpr ⟨o,hself,fun hback => h ?_⟩
  · simp only [Ports.below, Finset.mem_filter, Finset.mem_univ, true_and] at hx ⊢
    exact hx.head hc
  · simp only [Ports.below, Finset.mem_filter, Finset.mem_univ, true_and] at hback
    exact .head' hc hback

theorem exists_unfolds (hclosed : ∀ o ∈ V, ∀ c ∈ G.inputs o, c ∈ V) (hac : G.Acyclic V) :
    ∀ n, ∀ o ∈ V, (G.below o).card ≤ n → ∃ t, Unfolds label G.inputs o t ∧ t.height ≤ n := by
  intro n
  induction n with
  | zero =>
    intro o _ hn
    have hself : o ∈ G.below o := by simp [Ports.below,Relation.ReflTransGen.refl]
    exact absurd (Finset.card_pos.mpr ⟨o,hself⟩) (by omega)
  | succ n ih =>
    intro o ho hn
    have hchild : ∀ c, ∃ t, c ∈ G.inputs o → Unfolds label G.inputs c t ∧ t.height ≤ n := by
      intro c
      by_cases hc : c ∈ G.inputs o
      · have hlt := Finset.card_lt_card (Ports.below_ssubset (hac o ho) hc)
        obtain ⟨t,ht⟩ := ih c (hclosed o ho c hc) (by omega)
        exact ⟨t,fun _ => ht⟩
      · exact ⟨.node (label o) [],fun h => absurd h hc⟩
    choose child hchild using hchild
    refine ⟨_,.node o child fun c hc => (hchild c hc).1,?_⟩
    refine Nat.succ_le_succ (ComputationTree.heights_le fun t ht => ?_)
    obtain ⟨c,hc,rfl⟩ := List.mem_map.mp ht
    exact (hchild c hc).2

/-- Every node of an acyclic graph unfolds to a tree, of at most as many levels as there are nodes. -/
theorem exists_unfolding (label : ι → L) (hclosed : ∀ o ∈ V, ∀ c ∈ G.inputs o, c ∈ V) (hac : G.Acyclic V) :
    ∃ T, IsUnfolding label G.inputs V T ∧ ∀ o ∈ V, (T o).height ≤ Fintype.card ι := by
  have hall : ∀ o, ∃ t, o ∈ V → Unfolds label G.inputs o t ∧ t.height ≤ Fintype.card ι := by
    intro o
    by_cases ho : o ∈ V
    · have hex : ∃ t, Unfolds label G.inputs o t ∧ t.height ≤ Fintype.card ι :=
        exists_unfolds hclosed hac (Fintype.card ι) o ho (Finset.card_le_univ _)
      obtain ⟨t,ht⟩ := hex
      exact ⟨t,fun _ => ht⟩
    · exact ⟨.node (label o) [],fun h => absurd h ho⟩
  choose T hT using hall
  refine ⟨T,⟨hclosed,fun o ho => ?_⟩,fun o ho => (hT o ho).2⟩
  exact (hT o ho).1.unique (.node o T fun c hc => (hT c (hclosed o ho c hc)).1)

end Acyclic

end AqsiosCoordinator.Foundation
