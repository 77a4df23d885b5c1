import Mathlib.Data.List.Count
import Mathlib.Data.List.Nodup
import Mathlib.Logic.Relation

/-! # Graphs with edges kept at both ends

Each node lists what it reads from, in order and with repetitions, and who reads
from it. `Consistent` says that both ends agree. `Added` and `Bypassed` are what
creating a node on top of its inputs and taking a node with one input out of the
graph do to the lists.
-/
namespace AqsiosCoordinator.Foundation
variable {ι : Type}

structure Ports (ι : Type) where
  inputs : ι → List ι
  outputs : ι → List ι

namespace Ports

def Reads (G : Ports ι) (p c : ι) : Prop := c ∈ G.inputs p

def Feeds (G : Ports ι) (c p : ι) : Prop := p ∈ G.outputs c

def Acyclic (G : Ports ι) (V : List ι) : Prop := ∀ o ∈ V, ¬ Relation.TransGen G.Reads o o

def Layered (G : Ports ι) : List ι → Prop
  | [] => True
  | p :: l => (∀ c ∈ G.inputs p, c ∈ l) ∧ G.Layered l

variable {G G' : Ports ι} {V l : List ι} {a b : ι}

theorem Layered.inputs_mem (h : G.Layered l) (ha : a ∈ l) : ∀ c ∈ G.inputs a, c ∈ l := by
  induction l with
  | nil => simp at ha
  | cons p l ih =>
    intro c hc
    rcases List.mem_cons.mp ha with rfl | ha
    · exact List.mem_cons_of_mem _ (h.1 c hc)
    · exact List.mem_cons_of_mem _ (ih h.2 ha c hc)

theorem Layered.reads_mem (h : G.Layered l) (ha : a ∈ l) (hr : Relation.TransGen G.Reads a b) : b ∈ l := by
  induction hr with
  | single hab => exact h.inputs_mem ha _ hab
  | tail _ hbc ih => exact h.inputs_mem ih _ hbc

theorem Layered.acyclic (h : G.Layered l) (hl : l.Nodup) : G.Acyclic l := by
  induction l with
  | nil => simp [Acyclic]
  | cons p l ih =>
    obtain ⟨hp,hl⟩ := List.nodup_cons.mp hl
    intro o ho hcycle
    rcases List.mem_cons.mp ho with rfl | ho
    · obtain ⟨c,hc,hrest⟩ := Relation.TransGen.head'_iff.mp hcycle
      rcases Relation.reflTransGen_iff_eq_or_transGen.mp hrest with rfl | hrest
      · exact hp (h.1 _ hc)
      · exact hp (h.2.reads_mem (h.1 c hc) hrest)
    · exact ih h.2 hl o ho hcycle

theorem Layered.append_right {l₁ l₂ : List ι} (h : G.Layered (l₁ ++ l₂)) : G.Layered l₂ := by
  induction l₁ with
  | nil => exact h
  | cons p l₁ ih => exact ih h.2

theorem Layered.congr (h : G.Layered l) (hi : ∀ o ∈ l, G'.inputs o = G.inputs o) : G'.Layered l := by
  induction l with
  | nil => trivial
  | cons p l ih =>
    refine ⟨?_,ih h.2 fun o ho => hi o (List.mem_cons_of_mem _ ho)⟩
    rw [hi p List.mem_cons_self]
    exact h.1

def Precedes (l : List ι) (p c : ι) : Prop := ∃ l₁ l₂ l₃, l = l₁ ++ p :: l₂ ++ c :: l₃

theorem Layered.precedes (h : G.Layered l) : ∀ p ∈ l, ∀ c ∈ G.inputs p, Precedes l p c := by
  induction l with
  | nil => simp
  | cons q l ih =>
    intro p hp c hc
    rcases List.mem_cons.mp hp with rfl | hp
    · obtain ⟨l₂,l₃,rfl⟩ := List.append_of_mem (h.1 c hc)
      exact ⟨[],l₂,l₃,rfl⟩
    · obtain ⟨l₁,l₂,l₃,rfl⟩ := ih h.2 p hp c hc
      exact ⟨q :: l₁,l₂,l₃,rfl⟩

variable [DecidableEq ι]

/-- Both ends of the edges between nodes of `V` agree, and no edge leaves `V`. -/
structure Consistent (G : Ports ι) (V : List ι) : Prop where
  inputs_mem : ∀ p ∈ V, ∀ c ∈ G.inputs p, c ∈ V
  outputs_mem : ∀ c ∈ V, ∀ p ∈ G.outputs c, p ∈ V
  balanced : ∀ p ∈ V, ∀ c ∈ V, (G.inputs p).count c = (G.outputs c).count p

theorem Consistent.congr (h : G.Consistent V) (hi : ∀ o ∈ V, G'.inputs o = G.inputs o)
    (ho : ∀ o ∈ V, G'.outputs o = G.outputs o) : G'.Consistent V := by
  refine ⟨fun p hp => ?_,fun c hc => ?_,fun p hp c hc => ?_⟩
  · rw [hi p hp]
    exact h.inputs_mem p hp
  · rw [ho c hc]
    exact h.outputs_mem c hc
  · rw [hi p hp, ho c hc]
    exact h.balanced p hp c hc

/-- The two ends of an edge. -/
theorem Consistent.mem_iff (h : G.Consistent V) (ha : a ∈ V) (hb : b ∈ V) : b ∈ G.inputs a ↔ a ∈ G.outputs b := by
  rw [← List.count_pos_iff, ← List.count_pos_iff, h.balanced a ha b hb]

theorem Consistent.feeds_iff (h : G.Consistent V) (ha : a ∈ V) (hb : b ∈ V) : G.Feeds b a ↔ G.Reads a b :=
  (h.mem_iff ha hb).symm

theorem Consistent.feeds_mem (h : G.Consistent V) (ha : a ∈ V) (hab : Relation.ReflTransGen G.Feeds a b) : b ∈ V := by
  induction hab with
  | refl => exact ha
  | tail _ hbc ih => exact h.outputs_mem _ ih _ hbc

/-- Reading backwards from a node of `V` leads to the nodes that feed it. -/
theorem Consistent.feeds_of_reads (h : G.Consistent V) (ha : a ∈ V) (hab : Relation.ReflTransGen G.Reads a b) :
    b ∈ V ∧ Relation.ReflTransGen G.Feeds b a := by
  induction hab with
  | refl => exact ⟨ha,.refl⟩
  | tail _ hbc ih =>
    have hc := h.inputs_mem _ ih.1 _ hbc
    exact ⟨hc,.head ((h.feeds_iff ih.1 hc).mpr hbc) ih.2⟩

theorem Consistent.reads_of_feeds (h : G.Consistent V) (ha : a ∈ V) (hab : Relation.ReflTransGen G.Feeds a b) :
    Relation.ReflTransGen G.Reads b a := by
  induction hab with
  | refl => exact .refl
  | tail hac hcd ih =>
    have hc := h.feeds_mem ha hac
    exact .head ((h.feeds_iff (h.outputs_mem _ hc _ hcd) hc).mp hcd) ih

structure Added (op : ι) (ins : List ι) (G G' : Ports ι) : Prop where
  inputs_self : G'.inputs op = ins
  outputs_self : G'.outputs op = []
  inputs_other : ∀ o, o ≠ op → G'.inputs o = G.inputs o
  outputs_other : ∀ o, o ≠ op → G'.outputs o = G.outputs o ++ List.replicate (ins.count o) op

section Added
variable {op : ι} {ins : List ι}

theorem Added.consistent (h : Added op ins G G') (hG : G.Consistent V) (hop : op ∉ V) (hins : ∀ i ∈ ins, i ∈ V) :
    G'.Consistent (op :: V) := by
  have hne : ∀ o ∈ V, o ≠ op := fun o ho he => hop (he ▸ ho)
  have hself : op ∉ ins := fun hi => hop (hins op hi)
  refine ⟨fun p hp c hc => ?_,fun c hc p hp => ?_,fun p hp c hc => ?_⟩
  · rcases List.mem_cons.mp hp with rfl | hp
    · rw [h.inputs_self] at hc
      exact List.mem_cons_of_mem _ (hins c hc)
    · rw [h.inputs_other p (hne p hp)] at hc
      exact List.mem_cons_of_mem _ (hG.inputs_mem p hp c hc)
  · rcases List.mem_cons.mp hc with rfl | hc
    · rw [h.outputs_self] at hp
      simp at hp
    · rw [h.outputs_other c (hne c hc)] at hp
      rcases List.mem_append.mp hp with hp | hp
      · exact List.mem_cons_of_mem _ (hG.outputs_mem c hc p hp)
      · exact List.mem_cons.mpr (.inl (List.eq_of_mem_replicate hp))
  · have hout : ∀ c ∈ V, (G.outputs c).count op = 0 := fun c hc =>
      List.count_eq_zero.mpr fun hm => hop (hG.outputs_mem c hc op hm)
    rcases List.mem_cons.mp hp with rfl | hpV <;> rcases List.mem_cons.mp hc with rfl | hcV
    · rw [h.inputs_self, h.outputs_self, List.count_eq_zero_of_not_mem hself, List.count_nil]
    · rw [h.inputs_self, h.outputs_other c (hne c hcV), List.count_append, hout c hcV, List.count_replicate_self,
        Nat.zero_add]
    · have hin : (G.inputs p).count c = 0 := List.count_eq_zero.mpr fun hm => hop (hG.inputs_mem p hpV c hm)
      rw [h.inputs_other p (hne p hpV), h.outputs_self, hin, List.count_nil]
    · have hrep : (List.replicate (ins.count c) op).count p = 0 :=
        List.count_eq_zero.mpr fun hm => hne p hpV (List.eq_of_mem_replicate hm)
      rw [h.inputs_other p (hne p hpV), h.outputs_other c (hne c hcV), List.count_append, hrep, Nat.add_zero]
      exact hG.balanced p hpV c hcV

theorem Added.layered (h : Added op ins G G') (hG : G.Layered l) (hop : op ∉ l) (hins : ∀ i ∈ ins, i ∈ l) :
    G'.Layered (op :: l) := by
  refine ⟨?_,hG.congr fun o ho => h.inputs_other o fun he => hop (he ▸ ho)⟩
  rw [h.inputs_self]
  exact hins

theorem Added.reaches_self (h : Added op ins G G') : Relation.ReflTransGen G'.Feeds op b ↔ b = op := by
  constructor
  · intro hb
    rcases hb.cases_head with rfl | ⟨c,hc,-⟩
    · rfl
    · simp [Feeds,h.outputs_self] at hc
  · rintro rfl
    exact .refl

/-- What a node reaches, but for the new one, is what it reached. -/
theorem Added.reaches_iff (h : Added op ins G G') (hG : G.Consistent V) (hop : op ∉ V) (ha : a ∈ V) (hb : b ≠ op) :
    Relation.ReflTransGen G'.Feeds a b ↔ Relation.ReflTransGen G.Feeds a b := by
  have hne : ∀ o ∈ V, o ≠ op := fun o ho he => hop (he ▸ ho)
  constructor
  · intro hab
    induction hab using Relation.ReflTransGen.head_induction_on with
    | refl => exact .refl
    | @head a c hac hcb ih =>
      have hc : c ≠ op := by
        rintro rfl
        exact hb (h.reaches_self.mp hcb)
      have hac' : c ∈ G.outputs a := by
        rw [Feeds, h.outputs_other a (hne a ha)] at hac
        exact (List.mem_append.mp hac).resolve_right fun hm => hc (List.eq_of_mem_replicate hm)
      exact .head hac' (ih (hG.outputs_mem a ha c hac'))
  · intro hab
    induction hab with
    | refl => exact .refl
    | @tail c d hac hcd ih =>
      have hc := hne c (hG.feeds_mem ha hac)
      refine (ih hc).tail ?_
      rw [Feeds, h.outputs_other c hc]
      exact List.mem_append_left _ hcd

end Added

/-- `op`, whose one input is `i`, is taken out, and its readers read from `i`. -/
structure Bypassed (op i : ι) (V : List ι) (G G' : Ports ι) : Prop where
  inputs : ∀ q ∈ V, q ≠ op → G'.inputs q = (G.inputs q).map (fun c => if c = op then i else c)
  outputs_input : (G'.outputs i).Perm ((G.outputs i).erase op ++ G.outputs op)
  outputs_other : ∀ o ∈ V, o ≠ op → o ≠ i → G'.outputs o = G.outputs o

section Bypassed
variable {op i : ι}

theorem count_bypassed (hi : i ≠ op) (c : ι) (ins : List ι) (hc : c ≠ op) :
    (ins.map (fun x => if x = op then i else x)).count c = ins.count c + if c = i then ins.count op else 0 := by
  induction ins with
  | nil => simp
  | cons x ins ih =>
    rw [List.map_cons, List.count_cons, ih, List.count_cons, List.count_cons]
    by_cases hx : x = op
    · subst hx
      by_cases hci : c = i
      · subst hci
        simp [Ne.symm hc]
        omega
      · simp [hci,Ne.symm hci,Ne.symm hc]
    · by_cases hci : c = i
      · subst hci
        simp [hx]
        omega
      · simp [hx,hci]

theorem Bypassed.consistent (h : Bypassed op i V G G') (hG : G.Consistent V) (hV : V.Nodup) (hop : op ∈ V)
    (hin : G.inputs op = [i]) (hi : i ≠ op) : G'.Consistent (V.erase op) := by
  have hiV : i ∈ V := hG.inputs_mem op hop i (by rw [hin]; exact List.mem_singleton_self i)
  have hmem : ∀ o, o ∈ V.erase op ↔ o ≠ op ∧ o ∈ V := fun o => hV.mem_erase_iff
  have hone : (G.outputs i).count op = 1 := by
    rw [← hG.balanced op hop i hiV, hin, List.count_singleton_self]
  have hnone : ∀ c ∈ V, c ≠ i → op ∉ G.outputs c := by
    intro c hc hci hm
    have hr := (hG.mem_iff hop hc).mpr hm
    rw [hin] at hr
    exact hci (List.mem_singleton.mp hr)
  refine ⟨fun p hp c hc => ?_,fun c hc p hp => ?_,fun p hp c hc => ?_⟩
  · obtain ⟨hpo,hpV⟩ := (hmem p).mp hp
    rw [h.inputs p hpV hpo, List.mem_map] at hc
    obtain ⟨x,hx,rfl⟩ := hc
    split
    · exact (hmem i).mpr ⟨hi,hiV⟩
    · exact (hmem x).mpr ⟨‹_›,hG.inputs_mem p hpV x hx⟩
  · obtain ⟨hco,hcV⟩ := (hmem c).mp hc
    by_cases hci : c = i
    · subst hci
      rcases List.mem_append.mp (h.outputs_input.mem_iff.mp hp) with hp | hp
      · have hpo : p ≠ op := by
          rintro rfl
          have hpos := List.count_pos_iff.mpr hp
          rw [List.count_erase_self] at hpos
          omega
        exact (hmem p).mpr ⟨hpo,hG.outputs_mem c hcV p (List.mem_of_mem_erase hp)⟩
      · exact (hmem p).mpr ⟨fun he => hnone op hop (Ne.symm hi) (he ▸ hp),hG.outputs_mem op hop p hp⟩
    · rw [h.outputs_other c hcV hco hci] at hp
      exact (hmem p).mpr ⟨fun he => hnone c hcV hci (he ▸ hp),hG.outputs_mem c hcV p hp⟩
  · obtain ⟨hpo,hpV⟩ := (hmem p).mp hp
    obtain ⟨hco,hcV⟩ := (hmem c).mp hc
    rw [h.inputs p hpV hpo, count_bypassed hi c _ hco, hG.balanced p hpV c hcV]
    by_cases hci : c = i
    · subst hci
      rw [h.outputs_input.count_eq, List.count_append, List.count_erase_of_ne hpo, if_pos rfl,
        hG.balanced p hpV op hop]
    · rw [h.outputs_other c hcV hco hci, if_neg hci, Nat.add_zero]

theorem Bypassed.reads (h : Bypassed op i V G G') (hin : G.inputs op = [i]) (ha : a ∈ V) (hao : a ≠ op)
    (hr : G'.Reads a b) : Relation.TransGen G.Reads a b := by
  unfold Reads at hr
  rw [h.inputs a ha hao, List.mem_map] at hr
  obtain ⟨x,hx,rfl⟩ := hr
  split
  · rename_i he
    subst he
    exact .tail (.single hx) (by unfold Reads; rw [hin]; exact List.mem_singleton_self i)
  · exact .single hx

theorem Bypassed.acyclic (h : Bypassed op i V G G') (hG : G.Consistent V) (hV : V.Nodup) (hop : op ∈ V)
    (hin : G.inputs op = [i]) (hi : i ≠ op) (hac : G.Acyclic V) : G'.Acyclic (V.erase op) := by
  have hG' := h.consistent hG hV hop hin hi
  have htrans : ∀ a b, a ∈ V.erase op → Relation.TransGen G'.Reads a b →
      b ∈ V.erase op ∧ Relation.TransGen G.Reads a b := by
    intro a b ha hr
    induction hr with
    | single hab =>
      obtain ⟨hao,haV⟩ := hV.mem_erase_iff.mp ha
      exact ⟨hG'.inputs_mem a ha _ hab,h.reads hin haV hao hab⟩
    | tail _ hbc ih =>
      obtain ⟨hbo,hbV⟩ := hV.mem_erase_iff.mp ih.1
      exact ⟨hG'.inputs_mem _ ih.1 _ hbc,ih.2.trans (h.reads hin hbV hbo hbc)⟩
  intro o ho hcycle
  exact hac o (List.mem_of_mem_erase ho) (htrans o o ho hcycle).2

theorem Bypassed.layered (h : Bypassed op i V G G') (hin : G.inputs op = [i]) {l₁ l₂ : List ι}
    (hV : ∀ o ∈ l₁ ++ op :: l₂, o ∈ V) (hl : (l₁ ++ op :: l₂).Nodup) (hG : G.Layered (l₁ ++ op :: l₂)) :
    G'.Layered (l₁ ++ l₂) := by
  induction l₁ with
  | nil =>
    obtain ⟨hop,-⟩ := List.nodup_cons.mp hl
    refine hG.2.congr fun o ho => ?_
    have hoo : o ≠ op := fun he => hop (he ▸ ho)
    rw [h.inputs o (hV o (List.mem_cons_of_mem _ ho)) hoo]
    refine (List.map_congr_left fun c hc => if_neg fun he => ?_).trans (List.map_id _)
    exact hop (he ▸ hG.2.inputs_mem ho c hc)
  | cons p l₁ ih =>
    obtain ⟨hp,hl⟩ := List.nodup_cons.mp hl
    refine ⟨fun c hc => ?_,ih (fun o ho => hV o (List.mem_cons_of_mem _ ho)) hl hG.2⟩
    have hpo : p ≠ op := by
      rintro rfl
      exact hp (by simp)
    rw [h.inputs p (hV p List.mem_cons_self) hpo, List.mem_map] at hc
    obtain ⟨x,hx,rfl⟩ := hc
    have hxl := hG.1 x hx
    by_cases hxo : x = op
    · have hil : i ∈ l₂ := hG.2.append_right.1 i (by rw [hin]; exact List.mem_singleton_self i)
      rw [if_pos hxo]
      exact List.mem_append_right _ hil
    · rw [if_neg hxo]
      rcases List.mem_append.mp hxl with hx | hx
      · exact List.mem_append_left _ hx
      · exact List.mem_append_right _ ((List.mem_cons.mp hx).resolve_left hxo)

end Bypassed

/-- `b` is taken out, its readers read from `a`, and nobody has it among its outputs any more. -/
structure Merged (a b : ι) (V : List ι) (G G' : Ports ι) : Prop where
  inputs : ∀ q ∈ V, q ≠ b → G'.inputs q = (G.inputs q).map (fun c => if c = b then a else c)
  outputs : ∀ c ∈ V, c ≠ b → G'.outputs c =
    (if c = a then G.outputs a ++ G.outputs b else G.outputs c).filter (fun q => decide (q ≠ b))

theorem Merged.consistent (h : Merged a b V G G') (hG : G.Consistent V) (hV : V.Nodup) (ha : a ∈ V) (hb : b ∈ V)
    (hab : a ≠ b) : G'.Consistent (V.erase b) := by
  have hmem : ∀ o, o ∈ V.erase b ↔ o ≠ b ∧ o ∈ V := fun o => hV.mem_erase_iff
  refine ⟨fun p hp c hc => ?_,fun c hc p hp => ?_,fun p hp c hc => ?_⟩
  · obtain ⟨hpb,hpV⟩ := (hmem p).mp hp
    rw [h.inputs p hpV hpb, List.mem_map] at hc
    obtain ⟨x,hx,rfl⟩ := hc
    split
    · exact (hmem a).mpr ⟨hab,ha⟩
    · exact (hmem x).mpr ⟨‹_›,hG.inputs_mem p hpV x hx⟩
  · obtain ⟨hcb,hcV⟩ := (hmem c).mp hc
    rw [h.outputs c hcV hcb] at hp
    obtain ⟨hp,hpb⟩ := List.mem_filter.mp hp
    refine (hmem p).mpr ⟨by simpa using hpb,?_⟩
    split at hp
    · rcases List.mem_append.mp hp with hp | hp
      · exact hG.outputs_mem a ha p hp
      · exact hG.outputs_mem b hb p hp
    · exact hG.outputs_mem c hcV p hp
  · obtain ⟨hpb,hpV⟩ := (hmem p).mp hp
    obtain ⟨hcb,hcV⟩ := (hmem c).mp hc
    rw [h.inputs p hpV hpb, h.outputs c hcV hcb, count_bypassed hab c _ hcb, List.count_filter (by simpa using hpb)]
    by_cases hca : c = a
    · subst hca
      rw [if_pos rfl, if_pos rfl, List.count_append, hG.balanced p hpV c hcV, hG.balanced p hpV b hb]
    · rw [if_neg hca, if_neg hca, Nat.add_zero, hG.balanced p hpV c hcV]

end Ports
end AqsiosCoordinator.Foundation
