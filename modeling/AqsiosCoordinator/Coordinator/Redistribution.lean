import AqsiosCoordinator.Coordinator.LoadManager
import AqsiosCoordinator.Foundation.ExtremalScan

/-! # The migration decision

`redistributeLoad` moves every active query of the most loaded node to the least
loaded one. The loads are doubles, among which a NaN compares with nothing.
-/
namespace AqsiosCoordinator.Coordinator
open Foundation
variable {D : Type} [Double D]

class LawfulDouble (D : Type) [Double D] : Prop where
  order : ScanOrder (Double.lt : D → D → Bool)

instance : LawfulDouble ℚ where
  order := by
    constructor
    · intro x
      simp [Double.lt]
    · intro x y z hxy hyz
      simp only [Double.lt, decide_eq_true_eq] at hxy hyz ⊢
      exact hxy.trans hyz
    · intro x y z hxz
      simp only [Double.lt, decide_eq_true_eq] at hxz ⊢
      obtain h | h := lt_or_ge x y
      · exact .inl h
      · exact .inr (.inl (lt_of_le_of_lt h hxz))

def NodeInfo.lighter (a b : NodeInfo D) : Bool := Double.lt a.getTotalCapacityUsage b.getTotalCapacityUsage

theorem scanOrder_lighter [LawfulDouble D] : ScanOrder (NodeInfo.lighter : NodeInfo D → NodeInfo D → Bool) :=
  LawfulDouble.order.comap NodeInfo.getTotalCapacityUsage

/-- An integer as the stream operator prints it. -/
def decimal (i : ℤ) : List Char :=
  if i < 0 then '-' :: Nat.toDigits 10 i.natAbs else Nat.toDigits 10 i.natAbs

/-- `QM,<destination ip>,<destination port>,<queryID1>,<queryID2>...,E` -/
def migrationMessage (address : List Char) (port : ℤ) (queryIDs : List ℤ) : List Char :=
  ['Q','M',','] ++ address ++ [','] ++ decimal port ++ [','] ++
    queryIDs.flatMap (fun q => decimal q ++ [',']) ++ ['E']

/-- The loop over the nodes from position `i`, with the nodes `itMax` and `itMin` stand at. -/
def scanLoads : ℕ → ℕ × NodeInfo D → ℕ × NodeInfo D → List (NodeInfo D) →
    (ℕ × NodeInfo D) × (ℕ × NodeInfo D)
  | _, itMax, itMin, [] => (itMax,itMin)
  | i, itMax, itMin, n :: ns =>
    scanLoads (i+1)
      (if Double.lt itMax.2.getTotalCapacityUsage n.getTotalCapacityUsage then (i,n) else itMax)
      (if Double.lt n.getTotalCapacityUsage itMin.2.getTotalCapacityUsage then (i,n) else itMin) ns

namespace LoadManager

/-- The source and the destination of the migration, when `itMax` and `itMin` differ
at the end. Without a node the loop starts behind the end of the list. -/
def migrationEnds (m : LoadManager D) : Option (Option (NodeInfo D × NodeInfo D)) :=
  match m.nodes with
  | [] => none
  | n :: ns =>
    let its := scanLoads 1 (0,n) (0,n) ns
    some (if its.1.1 ≠ its.2.1 then some (its.1.2,its.2.2) else none)

/-- The entries `redistributeLoad` inserts into an empty `migrationDecision`; `getNodeAddress`
asks the operating system for the peer of the node's socket. -/
def redistributeLoad (getNodeAddress : ℕ → List Char) (m : LoadManager D) : Option (List (ℕ × List Char)) :=
  m.migrationEnds.map (fun ends => ends.toList.map (fun e =>
    (e.1.nodeID,
      migrationMessage (getNodeAddress e.2.nodeID) e.2.listeningPort (e.1.activeQueries.map QueryInfo.queryID))))

end LoadManager

theorem scanLoads_eq (i : ℕ) (itMax itMin : ℕ × NodeInfo D) (ns : List (NodeInfo D)) :
    scanLoads i itMax itMin ns =
      (scan (fun a b => NodeInfo.lighter b a) i itMax ns, scan NodeInfo.lighter i itMin ns) := by
  induction ns generalizing i itMax itMin with
  | nil => rfl
  | cons n ns ih =>
    simp only [scanLoads, scan, ih]
    rfl

/-- The first of the least loaded nodes, when some node carries more than it. -/
def PreferredDestination (ns : List (NodeInfo D)) (n : NodeInfo D) : Prop :=
  (∃ i, First NodeInfo.lighter ns i n) ∧ ∃ m ∈ ns, n.lighter m = true

/-- The destination is the preferred one, and is absent only when no node is preferred. -/
theorem destination_iff [LawfulDouble D] {m : LoadManager D} {ends : Option (NodeInfo D × NodeInfo D)}
    (h : m.migrationEnds = some ends) (n : NodeInfo D) :
    (∃ source, ends = some (source,n)) ↔ PreferredDestination m.nodes n := by
  simp only [LoadManager.migrationEnds] at h
  cases hns : m.nodes with
  | nil => simp [hns] at h
  | cons x ns =>
    simp only [hns, scanLoads_eq, Option.some.injEq] at h
    have hmin : First NodeInfo.lighter (x :: ns) (scan NodeInfo.lighter 1 (0,x) ns).1 (scan NodeInfo.lighter 1 (0,x) ns).2 :=
      (scan_eq_iff scanOrder_lighter).mp rfl
    have hne : (scan (fun a b => NodeInfo.lighter b a) 1 (0,x) ns).1 ≠ (scan NodeInfo.lighter 1 (0,x) ns).1 ↔
        ∃ y ∈ x :: ns, NodeInfo.lighter (scan NodeInfo.lighter 1 (0,x) ns).2 y = true := scan_ne_iff scanOrder_lighter
    constructor
    · rintro ⟨source,rfl⟩
      by_cases hd : (scan (fun a b => NodeInfo.lighter b a) 1 (0,x) ns).1 ≠ (scan NodeInfo.lighter 1 (0,x) ns).1
      · rw [if_pos hd, Option.some.injEq, Prod.mk.injEq] at h
        rw [← h.2]
        exact ⟨⟨_,hmin⟩,hne.mp hd⟩
      · rw [if_neg hd] at h
        cases h
    · rintro ⟨⟨i,hi⟩,hm⟩
      have heq : (scan NodeInfo.lighter 1 (0,x) ns).2 = n := (hmin.unique hi).2
      have hd := hne.mpr (by rw [heq]; exact hm)
      rw [if_pos hd, heq] at h
      exact ⟨_,h.symm⟩

theorem preferred_mem {ns : List (NodeInfo D)} {n : NodeInfo D} (h : PreferredDestination ns n) : n ∈ ns := by
  obtain ⟨⟨i,hi⟩,-⟩ := h
  exact List.mem_of_getElem? hi.at_position

theorem migrationEnds_isSome {m : LoadManager D} (h : m.nodes ≠ []) : ∃ ends, m.migrationEnds = some ends := by
  unfold LoadManager.migrationEnds
  cases hns : m.nodes with
  | nil => exact absurd hns h
  | cons n ns => exact ⟨_,rfl⟩

end AqsiosCoordinator.Coordinator
