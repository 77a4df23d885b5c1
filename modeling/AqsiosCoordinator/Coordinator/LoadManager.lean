import AqsiosCoordinator.Coordinator.NodeInfo

/-! # The load manager's list of nodes -/
namespace AqsiosCoordinator.Coordinator
open Foundation Foundation.Reader
variable {D : Type} [Double D]

structure LoadManager (D : Type) where
  nodes : List (NodeInfo D)
  numOfClasses : ℕ

namespace LoadManager

def addNode (m : LoadManager D) (nodeId : ℕ) : ℤ × LoadManager D :=
  if m.nodes.any (fun n => n.nodeID == nodeId) then (-1,m)
  else (0,{ m with nodes := m.nodes ++ [{ NodeInfo.new m.numOfClasses with nodeID := nodeId }] })

/-- Lets the first node of `nodeID` read the message; absent when it reads past the buffer. -/
def updateFirst (nodeID : ℕ) (msg : List Char) : List (NodeInfo D) → Option (ℤ × List (NodeInfo D))
  | [] => some (-1,[])
  | n :: ns =>
    if n.nodeID = nodeID then
      (n.update msg).map (fun r => (if r.1.1 = 0 then 0 else -1, r.1.2 :: ns))
    else (updateFirst nodeID msg ns).map (fun r => (r.1,n :: r.2))

def updateNodeInfo (m : LoadManager D) (nodeID : ℕ) (msg : List Char) : Option (ℤ × LoadManager D) :=
  (updateFirst nodeID msg m.nodes).map (fun r => (r.1,{ m with nodes := r.2 }))

def nodeIDs (m : LoadManager D) : List ℕ := m.nodes.map NodeInfo.nodeID

def node? (m : LoadManager D) (nodeID : ℕ) : Option (NodeInfo D) :=
  m.nodes.find? (fun n => n.nodeID == nodeID)

theorem addNode_nodeIDs (m : LoadManager D) (nodeId : ℕ) :
    (m.addNode nodeId).2.nodeIDs = if nodeId ∈ m.nodeIDs then m.nodeIDs else m.nodeIDs ++ [nodeId] := by
  have hany : (m.nodes.any (fun n => n.nodeID == nodeId)) = true ↔ nodeId ∈ m.nodeIDs := by
    simp [nodeIDs]
  unfold addNode
  by_cases h : nodeId ∈ m.nodeIDs
  · simp [hany.mpr h, h]
  · simp only [Bool.not_eq_true _ ▸ mt hany.mp h, Bool.false_eq_true, if_false, h]
    simp [nodeIDs]

/-- A node that is not known yet starts from the constructor's values. -/
theorem addNode_node? {m : LoadManager D} {nodeId : ℕ} (h : nodeId ∉ m.nodeIDs) :
    (m.addNode nodeId).2.node? nodeId = some { NodeInfo.new m.numOfClasses with nodeID := nodeId } := by
  have hall : ∀ n ∈ m.nodes, ¬ (n.nodeID == nodeId) = true := by
    intro n hn he
    exact h (List.mem_map.mpr ⟨n,hn,by simpa using he⟩)
  have hany : (m.nodes.any (fun n => n.nodeID == nodeId)) = false := by
    simpa [List.any_eq_false] using hall
  simp only [addNode, hany, Bool.false_eq_true, if_false, node?, List.find?_append]
  rw [List.find?_eq_none.mpr hall]
  simp

@[simp] theorem addNode_numOfClasses (m : LoadManager D) (nodeId : ℕ) :
    (m.addNode nodeId).2.numOfClasses = m.numOfClasses := by
  unfold addNode
  split <;> rfl

theorem updateFirst_nodeIDs {nodeID : ℕ} {msg : List Char} {ns ns' : List (NodeInfo D)} {rc : ℤ}
    (h : updateFirst nodeID msg ns = some (rc,ns')) :
    ns'.map NodeInfo.nodeID = ns.map NodeInfo.nodeID := by
  induction ns generalizing rc ns' with
  | nil =>
    simp only [updateFirst, Option.some.injEq, Prod.mk.injEq] at h
    rw [← h.2]
  | cons n ns ih =>
    simp only [updateFirst] at h
    by_cases hn : n.nodeID = nodeID
    · simp only [hn, if_true, Option.map_eq_some_iff, Prod.mk.injEq] at h
      obtain ⟨⟨⟨rc',n'⟩,rest⟩,hu,-,rfl⟩ := h
      have hid : n'.nodeID = n.nodeID := n.update_nodeID msg _ rest hu
      simp [hid]
    · simp only [hn, if_false, Option.map_eq_some_iff, Prod.mk.injEq] at h
      obtain ⟨⟨rc',ns''⟩,hu,-,rfl⟩ := h
      simp [ih hu]

theorem updateNodeInfo_nodeIDs {m m' : LoadManager D} {nodeID : ℕ} {msg : List Char} {rc : ℤ}
    (h : m.updateNodeInfo nodeID msg = some (rc,m')) : m'.nodeIDs = m.nodeIDs := by
  simp only [updateNodeInfo, Option.map_eq_some_iff, Prod.mk.injEq] at h
  obtain ⟨⟨rc',ns⟩,hu,-,rfl⟩ := h
  exact updateFirst_nodeIDs hu

/-- Only the node the message came from changes. -/
theorem updateFirst_find?_of_ne {nodeID other : ℕ} {msg : List Char} {ns ns' : List (NodeInfo D)} {rc : ℤ}
    (h : updateFirst nodeID msg ns = some (rc,ns')) (hne : other ≠ nodeID) :
    ns'.find? (fun n => n.nodeID == other) = ns.find? (fun n => n.nodeID == other) := by
  induction ns generalizing rc ns' with
  | nil =>
    simp only [updateFirst, Option.some.injEq, Prod.mk.injEq] at h
    rw [← h.2]
  | cons n ns ih =>
    simp only [updateFirst] at h
    by_cases hn : n.nodeID = nodeID
    · simp only [hn, if_true, Option.map_eq_some_iff, Prod.mk.injEq] at h
      obtain ⟨⟨⟨rc',n'⟩,rest⟩,hu,-,rfl⟩ := h
      have hid : n'.nodeID = n.nodeID := n.update_nodeID msg _ rest hu
      have h1 : (n'.nodeID == other) = false := by simp [hid,hn,hne.symm]
      have h2 : (n.nodeID == other) = false := by simp [hn,hne.symm]
      simp [h1,h2]
    · simp only [hn, if_false, Option.map_eq_some_iff, Prod.mk.injEq] at h
      obtain ⟨⟨rc',ns''⟩,hu,-,rfl⟩ := h
      simp only [List.find?_cons, ih hu]

/-- The node the message came from is updated by what its `update` reads. -/
theorem updateFirst_of_find? {nodeID : ℕ} {msg rest : List Char} {ns : List (NodeInfo D)}
    {info info' : NodeInfo D} {rc : ℤ} (hf : ns.find? (fun n => n.nodeID == nodeID) = some info)
    (hu : info.update msg = some ((rc,info'),rest)) :
    ∃ rc' ns', updateFirst nodeID msg ns = some (rc',ns') ∧
      ns'.find? (fun n => n.nodeID == nodeID) = some info' := by
  induction ns with
  | nil => simp at hf
  | cons n ns ih =>
    by_cases hn : n.nodeID = nodeID
    · simp only [List.find?_cons, hn, beq_self_eq_true, Option.some.injEq] at hf
      subst hf
      have hid : info'.nodeID = n.nodeID := n.update_nodeID msg _ rest hu
      refine ⟨if rc = 0 then 0 else -1,info' :: ns,?_,?_⟩
      · simp [updateFirst,hn,hu]
      · simp [hid,hn]
    · have hn' : (n.nodeID == nodeID) = false := by simpa using hn
      simp only [List.find?_cons, hn'] at hf
      obtain ⟨rc',ns',h1,h2⟩ := ih hf
      refine ⟨rc',n :: ns',?_,?_⟩
      · simp [updateFirst,hn,h1]
      · simp [hn',h2]

theorem updateFirst_of_find?_eq_none {nodeID : ℕ} (msg : List Char) {ns : List (NodeInfo D)}
    (hf : ns.find? (fun n => n.nodeID == nodeID) = none) : updateFirst nodeID msg ns = some (-1,ns) := by
  induction ns with
  | nil => rfl
  | cons n ns ih =>
    rw [List.find?_cons] at hf
    by_cases hn : n.nodeID = nodeID
    · simp [hn] at hf
    · have hn' : (n.nodeID == nodeID) = false := by simpa using hn
      simp only [hn'] at hf
      simp [updateFirst,hn,ih hf]

end LoadManager
end AqsiosCoordinator.Coordinator
