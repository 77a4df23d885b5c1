import AqsiosCoordinator.Coordinator.Redistribution

/-! # Which node gives its queries to which

Over exact loads every two nodes compare, and the scan of `redistributeLoad` ends at the
first of the most and at the first of the least loaded nodes.
-/
namespace AqsiosCoordinator.Coordinator
open Foundation

/-- The node at position `i` is the first of those with the greatest load. -/
structure FirstHeaviest (ns : List (NodeInfo ℚ)) (i : ℕ) (n : NodeInfo ℚ) : Prop where
  at_position : ns[i]? = some n
  greatest : ∀ y ∈ ns, y.getTotalCapacityUsage ≤ n.getTotalCapacityUsage
  first : ∀ j < i, ∀ y, ns[j]? = some y → y.getTotalCapacityUsage < n.getTotalCapacityUsage

/-- The node at position `i` is the first of those with the least load. -/
structure FirstLightest (ns : List (NodeInfo ℚ)) (i : ℕ) (n : NodeInfo ℚ) : Prop where
  at_position : ns[i]? = some n
  least : ∀ y ∈ ns, n.getTotalCapacityUsage ≤ y.getTotalCapacityUsage
  first : ∀ j < i, ∀ y, ns[j]? = some y → n.getTotalCapacityUsage < y.getTotalCapacityUsage

theorem firstLightest_scan (x : NodeInfo ℚ) (ns : List (NodeInfo ℚ)) :
    FirstLightest (x :: ns) (scan NodeInfo.lighter 1 (0,x) ns).1 (scan NodeInfo.lighter 1 (0,x) ns).2 := by
  have h : First NodeInfo.lighter (x :: ns) (scan NodeInfo.lighter 1 (0,x) ns).1 (scan NodeInfo.lighter 1 (0,x) ns).2 :=
    (scan_eq_iff scanOrder_lighter).mp rfl
  obtain ⟨h1,h2,h3⟩ := (@first_iff_least (NodeInfo ℚ) ℚ _ NodeInfo.getTotalCapacityUsage _ _ _).mp h
  exact ⟨h1,h2,h3⟩

theorem firstHeaviest_scan (x : NodeInfo ℚ) (ns : List (NodeInfo ℚ)) :
    FirstHeaviest (x :: ns) (scan (fun a b => NodeInfo.lighter b a) 1 (0,x) ns).1
      (scan (fun a b => NodeInfo.lighter b a) 1 (0,x) ns).2 := by
  have h : First (fun a b => NodeInfo.lighter b a) (x :: ns) (scan (fun a b => NodeInfo.lighter b a) 1 (0,x) ns).1
      (scan (fun a b => NodeInfo.lighter b a) 1 (0,x) ns).2 := (scan_eq_iff scanOrder_lighter.flip).mp rfl
  obtain ⟨h1,h2,h3⟩ := (@first_iff_least (NodeInfo ℚ) ℚᵒᵈ _ (fun n => OrderDual.toDual n.getTotalCapacityUsage) _ _ _).mp h
  exact ⟨h1,h2,h3⟩

theorem comma_not_mem_decimal (i : ℤ) : ',' ∉ decimal i := by
  have hdigits (n : ℕ) : ',' ∉ Nat.toDigits 10 n := by
    intro h
    have := Nat.isDigit_of_mem_toDigits (by decide) (by decide) h
    exact absurd this (by decide)
  unfold decimal
  split
  · rw [List.mem_cons]
    rintro (h | h)
    · exact absurd h (by decide)
    · exact hdigits _ h
  · exact hdigits _

theorem splitOn_listed (queryIDs : List ℤ) :
    (queryIDs.flatMap (fun q => decimal q ++ [',']) ++ ['E']).splitOn ',' = queryIDs.map decimal ++ [['E']] := by
  induction queryIDs with
  | nil => rfl
  | cons q queryIDs ih =>
    have htext : (q :: queryIDs).flatMap (fun q => decimal q ++ [',']) ++ ['E'] =
        decimal q ++ ',' :: (queryIDs.flatMap (fun q => decimal q ++ [',']) ++ ['E']) := by
      simp
    rw [htext, List.splitOn_append_cons_self_of_not_mem (comma_not_mem_decimal q), ih]
    rfl

/-- The fields of a message. -/
theorem splitOn_migrationMessage {address : List Char} (haddress : ',' ∉ address) (port : ℤ) (queryIDs : List ℤ) :
    (migrationMessage address port queryIDs).splitOn ',' =
      ['Q','M'] :: address :: decimal port :: (queryIDs.map decimal ++ [['E']]) := by
  have htext : migrationMessage address port queryIDs = ['Q','M'] ++ ',' :: (address ++ ',' :: (decimal port ++
      ',' :: (queryIDs.flatMap (fun q => decimal q ++ [',']) ++ ['E']))) := by
    simp [migrationMessage]
  rw [htext, List.splitOn_append_cons_self_of_not_mem (by decide), List.splitOn_append_cons_self_of_not_mem haddress,
    List.splitOn_append_cons_self_of_not_mem (comma_not_mem_decimal port), splitOn_listed]

/-- The entry that moves the queries of `source` to `destination`. -/
structure Moves (getNodeAddress : ℕ → List Char) (source destination : NodeInfo ℚ) (entry : ℕ × List Char) : Prop where
  key : entry.1 = source.nodeID
  message : entry.2 = migrationMessage (getNodeAddress destination.nodeID) destination.listeningPort
    (source.activeQueries.map QueryInfo.queryID)
  /-- What stands between the port and the final `E`, as an address has no commas. -/
  fields : ',' ∉ getNodeAddress destination.nodeID → entry.2.splitOn ',' = ['Q','M'] ::
    getNodeAddress destination.nodeID :: decimal destination.listeningPort ::
      (source.activeQueries.map (fun q => decimal q.queryID) ++ [['E']])

/-- The two ends of the scan stand at one position exactly if all loads are equal. -/
theorem ends_differ_iff {ns : List (NodeInfo ℚ)} {i j : ℕ} {source destination : NodeInfo ℚ}
    (hsource : FirstHeaviest ns i source) (hdestination : FirstLightest ns j destination) :
    i ≠ j ↔ destination.getTotalCapacityUsage < source.getTotalCapacityUsage := by
  have hle := hdestination.least source (List.mem_of_getElem? hsource.at_position)
  constructor
  · intro hij
    obtain h | h := Nat.lt_or_gt_of_ne hij
    · exact hdestination.first i h source hsource.at_position
    · exact hsource.first j h destination hdestination.at_position
  · rintro hlt rfl
    have hsame := hsource.at_position.symm.trans hdestination.at_position
    rw [Option.some.inj hsame] at hlt
    exact lt_irrefl _ hlt

theorem loads_differ_iff {ns : List (NodeInfo ℚ)} {i j : ℕ} {source destination : NodeInfo ℚ}
    (hsource : FirstHeaviest ns i source) (hdestination : FirstLightest ns j destination) :
    destination.getTotalCapacityUsage < source.getTotalCapacityUsage ↔
      ¬ ∀ a ∈ ns, ∀ b ∈ ns, a.getTotalCapacityUsage = b.getTotalCapacityUsage := by
  have hs := List.mem_of_getElem? hsource.at_position
  have hd := List.mem_of_getElem? hdestination.at_position
  constructor
  · intro hlt hall
    exact hlt.ne (hall destination hd source hs)
  · intro hall
    apply lt_of_not_ge
    intro hge
    apply hall
    intro a ha b hb
    apply le_antisymm
    · exact (hsource.greatest a ha).trans (hge.trans (hdestination.least b hb))
    · exact (hsource.greatest b hb).trans (hge.trans (hdestination.least a ha))

/-- At most one migration is decided, and one exactly if the nodes are not all loaded alike. It goes from the
first of the most loaded nodes to the first of the least loaded ones. -/
theorem redistributeLoad_decision (getNodeAddress : ℕ → List Char) {m : LoadManager ℚ} (hnodes : m.nodes ≠ []) :
    ∃ migrationDecision, m.redistributeLoad getNodeAddress = some migrationDecision ∧ migrationDecision.length ≤ 1 ∧
      (migrationDecision.length = 1 ↔
        ¬ ∀ a ∈ m.nodes, ∀ b ∈ m.nodes, a.getTotalCapacityUsage = b.getTotalCapacityUsage) ∧
      ∀ entry ∈ migrationDecision, ∃ i j source destination, FirstHeaviest m.nodes i source ∧
        FirstLightest m.nodes j destination ∧ i ≠ j ∧
        destination.getTotalCapacityUsage < source.getTotalCapacityUsage ∧
        Moves getNodeAddress source destination entry := by
  obtain ⟨n,ns,hns⟩ := List.exists_cons_of_ne_nil hnodes
  have hsource := firstHeaviest_scan n ns
  have hdestination := firstLightest_scan n ns
  have hends := ends_differ_iff hsource hdestination
  have hloads := loads_differ_iff hsource hdestination
  rw [LoadManager.redistributeLoad, LoadManager.migrationEnds, hns]
  simp only [scanLoads_eq, Option.map_some]
  refine ⟨_,rfl,?_⟩
  by_cases hij : (scan (fun a b => NodeInfo.lighter b a) 1 (0,n) ns).1 = (scan NodeInfo.lighter 1 (0,n) ns).1
  · have hall := (not_congr (hends.trans hloads)).mp (not_not.mpr hij)
    simp only [hij, ne_eq, not_true_eq_false, if_false, Option.toList_none, List.map_nil]
    refine ⟨Nat.zero_le _,?_,?_⟩
    · exact iff_of_false (by decide) hall
    · simp
  · rw [if_pos hij]
    refine ⟨le_refl _,?_,?_⟩
    · exact iff_of_true rfl (hloads.mp (hends.mp hij))
    · intro entry hentry
      obtain rfl := List.mem_singleton.mp hentry
      refine ⟨_,_,_,_,hsource,hdestination,hij,hends.mp hij,?_⟩
      constructor
      · rfl
      · rfl
      · intro haddress
        rw [splitOn_migrationMessage haddress, List.map_map]
        rfl

def loadedNode (nodeID : ℕ) (load : ℚ) (queryIDs : List ℤ) : NodeInfo ℚ :=
  { NodeInfo.new 1 with
    nodeID := nodeID, capacityUsages := [load], activeQueries := queryIDs.map fun q => ⟨q,load⟩, listeningPort := 80 }

/-- Of two equally loaded nodes in front the first one takes the queries. -/
theorem threeNodes_decision :
    ∃ migrationDecision, (LoadManager.mk [loadedNode 4 0 [1], loadedNode 5 0 [], loadedNode 6 1 [3,2]] 1).redistributeLoad
      (fun _ => ['1']) = some migrationDecision ∧ migrationDecision.length = 1 := by
  obtain ⟨migrationDecision,h1,-,h2,-⟩ := redistributeLoad_decision (fun _ => ['1'])
    (m := LoadManager.mk [loadedNode 4 0 [1], loadedNode 5 0 [], loadedNode 6 1 [3,2]] 1) (by simp)
  refine ⟨migrationDecision,h1,h2.mpr ?_⟩
  intro hall
  have h := hall (loadedNode 4 0 [1]) (by simp) (loadedNode 6 1 [3,2]) (by simp)
  simp [loadedNode,NodeInfo.getTotalCapacityUsage,NodeInfo.new] at h

end AqsiosCoordinator.Coordinator
