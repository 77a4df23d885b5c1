import AqsiosCoordinator.Coordinator.NodeInfo
import AqsiosCoordinator.Foundation.Arena
import AqsiosCoordinator.Server.ServerImpl

/-! # The buffer of the query manager

The strings of all registered queries lie in one buffer, one behind the other, each with its
terminator. Pointers into the buffer are positions.
-/
namespace AqsiosCoordinator.Metadata
open Common Foundation Foundation.Outcome
open Coordinator (NUL)
open Server (QRY_BUF_LEN)

structure QueryManager where
  queryBuffer : ℕ → Char
  queries : ℕ → Option ℕ
  numQueries : ℕ
  next : ℕ

namespace QueryManager

def new (memory : ℕ → Char) : QueryManager where
  queryBuffer := memory
  queries := fun _ => none
  numQueries := 0
  next := 0

def write (start : ℕ) (text : List Char) : EStateM Failure QueryManager Unit := do
  failIf (start + text.length > QRY_BUF_LEN) .outOfBounds
  modify (fun m => { m with queryBuffer := store m.queryBuffer start text })

def registerQuery (qryStr : List Char) (qryStrLen : ℕ) : EStateM Failure QueryManager ℕ := do
  let m ← get
  failIf (m.next + qryStrLen ≥ QRY_BUF_LEN) (.code (-1))
  failIf (m.numQueries ≥ MAX_QUERIES) (.code (-1))
  let qryId := m.numQueries
  modify (fun m => { m with numQueries := qryId + 1, queries := Function.update m.queries qryId (some m.next) })
  write m.next (strncpy NUL qryStr (qryStrLen + 1))
  modify (fun m => { m with next := m.next + (qryStrLen + 1) })
  return qryId

def registered (m : QueryManager) (qryStr : List Char) : QueryManager where
  queryBuffer := store m.queryBuffer m.next (qryStr ++ [NUL])
  queries := Function.update m.queries m.numQueries (some m.next)
  numQueries := m.numQueries + 1
  next := m.next + (qryStr.length + 1)

def HasRoom (m : QueryManager) (qryStr : List Char) : Prop := m.next + qryStr.length < QRY_BUF_LEN ∧ m.numQueries < MAX_QUERIES

variable {m : QueryManager} {qryStr : List Char}

theorem registerQuery_full (h : ¬ m.HasRoom qryStr) : registerQuery qryStr qryStr.length m = .error (.code (-1)) m := by
  unfold registerQuery
  rw [bind_of_ok (get_apply m)]
  by_cases hlen : m.next + qryStr.length ≥ QRY_BUF_LEN
  · exact bind_of_error (failIf_pos hlen)
  · have hnum : m.numQueries ≥ MAX_QUERIES := by
      unfold HasRoom at h
      omega
    rw [bind_of_ok (failIf_neg hlen)]
    exact bind_of_error (failIf_pos hnum)

theorem registerQuery_room (h : m.HasRoom qryStr) :
    registerQuery qryStr qryStr.length m = .ok m.numQueries (m.registered qryStr) := by
  obtain ⟨hlen,hnum⟩ := h
  have hfits : ¬ m.next + (strncpy NUL qryStr (qryStr.length + 1)).length > QRY_BUF_LEN := by
    rw [length_strncpy]
    omega
  unfold registerQuery write
  rw [bind_of_ok (get_apply m), bind_of_ok (failIf_neg (Nat.not_le.mpr hlen)), bind_of_ok (failIf_neg (Nat.not_le.mpr hnum)),
    bind_of_ok (modify_apply _ _), bind_of_ok (by rw [bind_of_ok (failIf_neg hfits)]; exact modify_apply _ _),
    bind_of_ok (modify_apply _ _), strncpy_terminated]
  rfl

/-- A call that does not return an id changes nothing. -/
theorem registerQuery_error {e : Failure} {m' : QueryManager} (h : registerQuery qryStr qryStr.length m = .error e m') :
    e = .code (-1) ∧ m' = m := by
  by_cases hroom : m.HasRoom qryStr
  · rw [registerQuery_room hroom] at h
    cases h
  · rw [registerQuery_full hroom] at h
    cases h
    exact ⟨rfl,rfl⟩

/-- The calls one after the other, with the id that each returns; absent when one of them leaves the buffer. -/
def registerQueries : List (List Char) → QueryManager → Option (List (Option ℕ) × QueryManager)
  | [], m => some ([],m)
  | qryStr :: rest, m =>
    match registerQuery qryStr qryStr.length m with
    | .ok qryId m => (registerQueries rest m).map fun r => (some qryId :: r.1,r.2)
    | .error (.code _) m => (registerQueries rest m).map fun r => (none :: r.1,r.2)
    | .error _ _ => none

/-- The strings registered so far, in the order of their ids, lie in the buffer. -/
structure Stores (m : QueryManager) (strs : List (List Char)) : Prop where
  count : m.numQueries = strs.length
  room : m.next ≤ QRY_BUF_LEN
  packed : ∃ blocks, Packed m.queryBuffer m.next blocks ∧ blocks.map Prod.snd = strs.map (fun s => s ++ [NUL]) ∧
    ∀ id, m.queries id = blocks[id]?.map Prod.fst

theorem new_stores (memory : ℕ → Char) : (new memory).Stores [] := by
  refine ⟨rfl,Nat.zero_le _,[],packed_nil _ _,rfl,?_⟩
  intro id
  rfl

/-- One more string. -/
theorem Stores.registered {strs : List (List Char)} (h : m.Stores strs) (hroom : m.HasRoom qryStr) :
    (m.registered qryStr).Stores (strs ++ [qryStr]) := by
  obtain ⟨hcount,-,blocks,hpacked,hblocks,hqueries⟩ := h
  have hlen : blocks.length = m.numQueries := by
    have := congrArg List.length hblocks
    rw [List.length_map, List.length_map] at this
    omega
  have hnext := hpacked.store (qryStr ++ [NUL])
  rw [List.length_append, List.length_singleton] at hnext
  refine ⟨?_,?_,blocks ++ [(m.next,qryStr ++ [NUL])],hnext,?_,?_⟩
  · rw [List.length_append, ← hcount]
    rfl
  · have hlt := hroom.1
    show m.next + (qryStr.length + 1) ≤ QRY_BUF_LEN
    omega
  · rw [List.map_append, List.map_append, hblocks]
    rfl
  · intro id
    by_cases hid : id = m.numQueries
    · subst hid
      rw [← hlen, List.getElem?_concat_length, hlen]
      exact Function.update_self ..
    · have hother : (m.registered qryStr).queries id = m.queries id := Function.update_of_ne hid ..
      rw [hother, hqueries]
      obtain hlt | hgt := Nat.lt_or_gt_of_ne hid
      · rw [List.getElem?_append_left (by omega)]
      · rw [List.getElem?_eq_none (by omega), List.getElem?_eq_none (by simp; omega)]

/-- The ids that a run hands out from the state with the strings `strs` on. -/
structure Handed (strs accepted : List (List Char)) (calls : List (List Char)) (ids : List (Option ℕ)) : Prop where
  length : ids.length = calls.length
  inOrder : ids.filterMap id = List.range' strs.length accepted.length
  registered : ∀ (i : ℕ) (qryStr : List Char) (qryId : ℕ), calls[i]? = some qryStr → ids[i]? = some (some qryId) → (strs ++ accepted)[qryId]? = some qryStr

theorem registerQueries_ok {strs : List (List Char)} (h : m.Stores strs) (calls : List (List Char)) :
    ∃ ids m' accepted, registerQueries calls m = some (ids,m') ∧ m'.Stores (strs ++ accepted) ∧ Handed strs accepted calls ids := by
  induction calls generalizing m strs with
  | nil =>
    refine ⟨[],m,[],rfl,by simpa using h,rfl,rfl,?_⟩
    intro i qryStr qryId hi
    simp at hi
  | cons qryStr calls ih =>
    by_cases hroom : m.HasRoom qryStr
    · obtain ⟨ids,m',accepted,hrun,hstores,hlen,horder,hreg⟩ := ih (h.registered hroom)
      refine ⟨some m.numQueries :: ids,m',qryStr :: accepted,?_,?_,?_,?_,?_⟩
      · simp [registerQueries,registerQuery_room hroom,hrun]
      · rwa [List.append_assoc] at hstores
      · simp [hlen]
      · rw [List.length_append, List.length_singleton] at horder
        show m.numQueries :: ids.filterMap id = _
        rw [horder, List.length_cons, List.range'_succ, h.count]
      · intro i s qryId hs hid
        cases i with
        | zero =>
          obtain rfl : qryStr = s := by simpa using hs
          obtain rfl : m.numQueries = qryId := by simpa using hid
          rw [h.count]
          simp
        | succ i =>
          have := hreg i s qryId (by simpa using hs) (by simpa using hid)
          rwa [List.append_assoc] at this
    · obtain ⟨ids,m',accepted,hrun,hstores,hlen,horder,hreg⟩ := ih h
      refine ⟨none :: ids,m',accepted,?_,hstores,?_,?_,?_⟩
      · simp [registerQueries,registerQuery_full hroom,hrun]
      · simp [hlen]
      · rw [List.filterMap_cons_none rfl, horder]
      · intro i s qryId hs hid
        cases i with
        | zero => simp at hid
        | succ i => exact hreg i s qryId (by simpa using hs) (by simpa using hid)

def HoldsString (m : QueryManager) (start : ℕ) (text : List Char) : Prop :=
  NUL ∉ text ∧ Reads m.queryBuffer start (text ++ [NUL]) ∧ start + text.length < m.next

/-- In every run no byte outside the buffer is written, the ids are handed out in order, every query
still has its string, and a call without success changes nothing. -/
theorem registerQueries_stored (memory : ℕ → Char) {calls : List (List Char)} (hcalls : ∀ qryStr ∈ calls, NUL ∉ qryStr) :
    ∃ ids m, registerQueries calls (new memory) = some (ids,m) ∧ ids.length = calls.length ∧
      ids.filterMap id = List.range m.numQueries ∧ m.next ≤ QRY_BUF_LEN ∧
      (∀ (i : ℕ) (qryStr : List Char) (qryId : ℕ), calls[i]? = some qryStr → ids[i]? = some (some qryId) →
        ∃ start, m.queries qryId = some start ∧ m.HoldsString start qryStr) ∧
      ∀ qryStr e m', registerQuery qryStr qryStr.length m = .error e m' → m' = m := by
  obtain ⟨ids,m,accepted,hrun,hstores,hlen,horder,hreg⟩ := registerQueries_ok (new_stores memory) calls
  obtain ⟨hcount,hroom,blocks,hpacked,hblocks,hqueries⟩ := hstores
  refine ⟨ids,m,hrun,hlen,?_,hroom,?_,?_⟩
  · rw [horder, hcount, List.range_eq_range']
    rfl
  · intro i qryStr qryId hi hid
    have hstr := hreg i qryStr qryId hi hid
    have hblock : (blocks.map Prod.snd)[qryId]? = some (qryStr ++ [NUL]) := by
      rw [hblocks, List.getElem?_map, hstr]
      rfl
    rw [List.getElem?_map, Option.map_eq_some_iff] at hblock
    obtain ⟨⟨start,text⟩,hb,rfl⟩ := hblock
    have hmem := List.mem_of_getElem? hb
    have hbelow := hpacked.below _ hmem
    rw [List.length_append, List.length_singleton] at hbelow
    refine ⟨start,?_,hcalls qryStr (List.mem_of_getElem? hi),hpacked.reads _ hmem,by omega⟩
    rw [hqueries, hb]
    rfl
  · exact fun qryStr e m' h => (registerQuery_error h).2

/-- Two queries of one letter. -/
theorem twoQueries_stored : ∃ ids m, registerQueries [['x'],['y']] (new fun _ => 'z') = some (ids,m) ∧ ids.length = 2 ∧
    ids.filterMap id = List.range m.numQueries := by
  obtain ⟨ids,m,h1,h2,h3,-⟩ := @registerQueries_stored (fun _ => 'z') [['x'],['y']] (by simp [NUL])
  exact ⟨ids,m,h1,h2,h3⟩

def handedOut (m : QueryManager) : Server.QueryManager := ⟨m.numQueries,m.next⟩

/-- The server's manager hands out the same ids and the same space. -/
theorem registerQuery_handedOut (m : QueryManager) (qryStr : List Char) :
    (m.HasRoom qryStr → m.handedOut.registerQuery qryStr = .ok (m.numQueries,(m.registered qryStr).handedOut)) ∧
      (¬ m.HasRoom qryStr → m.handedOut.registerQuery qryStr = .error (-1)) := by
  unfold Server.QueryManager.registerQuery HasRoom handedOut
  constructor
  · rintro ⟨hlen,hnum⟩
    rw [if_neg (Nat.not_le.mpr hlen), if_neg (Nat.not_le.mpr hnum)]
    rfl
  · intro h
    split_ifs with hlen hnum
    · rfl
    · rfl
    · exact absurd ⟨Nat.not_le.mp hlen,Nat.not_le.mp hnum⟩ h

end QueryManager
end AqsiosCoordinator.Metadata
