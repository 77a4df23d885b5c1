import AqsiosCoordinator.Coordinator.EventLoop
import Mathlib.Data.List.Nodup

/-! # The clients in `sockfds` and the nodes of the load manager

Accepting fills a slot and adds a node; reading changes neither set; closing
empties the slot and leaves the node where it is. The node ids are the clients
exactly as long as nobody has left and every accepted connection found a slot.
-/
namespace AqsiosCoordinator.Coordinator
variable {D : Type} [Double D]

def heldFds (slots : List ℕ) : List ℕ := slots.filter (fun fd => fd ≠ 0)

def CoordState.clients (c : CoordState D) : List ℕ := (heldFds c.sockfds).filter (fun fd => fd ≠ c.serverfd)

/-- The node ids are pairwise distinct and are exactly the clients. -/
def NodesMatch (c : CoordState D) : Prop :=
  c.loadMgr.nodeIDs.Nodup ∧ ∀ fd, fd ∈ c.loadMgr.nodeIDs ↔ fd ∈ c.clients

def AcceptedFresh (e : Event) (c : CoordState D) : Prop :=
  ∀ fd, e = .accept (some fd) →
    c.loadMgr.node? fd = some { NodeInfo.new c.loadMgr.numOfClasses with nodeID := fd }

/-- The law of the two registries holds after each event of the run. -/
def LawfulRun : CoordState D → List Event → Prop
  | _, [] => True
  | c, e :: es => ∀ d, c.handle e = some d → (NodesMatch d ∧ AcceptedFresh e d) ∧ LawfulRun d es

/-- The event is no disconnect, and no connection accepted into a full table. -/
def KeepsRegistry (c : CoordState D) : Event → Prop
  | .accept none => True
  | .accept (some _) => 0 ∈ c.sockfds
  | .read r => r.result ≠ .bytes []

instance (c : CoordState D) : DecidablePred (KeepsRegistry c)
  | .accept none => inferInstanceAs (Decidable True)
  | .accept (some _) => inferInstanceAs (Decidable (0 ∈ c.sockfds))
  | .read r => inferInstanceAs (Decidable (r.result ≠ .bytes []))

/-- No client leaves during the run and no connection finds the table full. -/
def QuietRun : CoordState D → List Event → Prop
  | _, [] => True
  | c, e :: es => ∀ d, c.handle e = some d → KeepsRegistry c e ∧ QuietRun d es

/-- What holds of the slots in every run: distinct open descriptors, the listening socket among them. -/
structure SlotsOpen (c : CoordState D) : Prop where
  nodup : (heldFds c.sockfds).Nodup
  opened : ∀ fd ∈ heldFds c.sockfds, fd ∈ c.opened
  zero : 0 ∈ c.opened
  server : c.serverfd ∈ heldFds c.sockfds

theorem heldFds_fillSlot {fd : ℕ} {slots : List ℕ} (hfd : fd ≠ 0) (hfree : 0 ∈ slots) :
    (heldFds (fillSlot fd slots)).Perm (fd :: heldFds slots) := by
  induction slots with
  | nil => simp at hfree
  | cons s slots ih =>
    by_cases hs : s = 0
    · subst hs
      simp [fillSlot,heldFds,hfd]
    · have hfree' : 0 ∈ slots := by simpa [Ne.symm hs] using hfree
      have h := ih hfree'
      simp only [fillSlot, hs, if_false, heldFds, ne_eq, not_false_eq_true, decide_true,
        List.filter_cons_of_pos] at h ⊢
      exact (h.cons s).trans (List.Perm.swap _ _ _)

theorem fillSlot_full {fd : ℕ} {slots : List ℕ} (hfull : 0 ∉ slots) : fillSlot fd slots = slots := by
  induction slots with
  | nil => rfl
  | cons s slots ih =>
    simp only [List.mem_cons, not_or] at hfull
    simp only [fillSlot, Ne.symm hfull.1, if_false, ih hfull.2]

theorem heldFds_clear {slots : List ℕ} {i fd : ℕ} (hi : slots[i]? = some fd) (hfd : fd ≠ 0) :
    (fd :: heldFds (slots.set i 0)).Perm (heldFds slots) := by
  induction slots generalizing i with
  | nil => simp at hi
  | cons s slots ih =>
    cases i with
    | zero =>
      simp only [List.getElem?_cons_zero, Option.some.injEq] at hi
      subst hi
      simp [heldFds,hfd]
    | succ i =>
      have h := ih (i := i) (by simpa using hi)
      by_cases hs : s = 0
      · simpa [heldFds,hs] using h
      · simp only [heldFds, List.set_cons_succ, ne_eq, hs, not_false_eq_true, decide_true,
          List.filter_cons_of_pos] at h ⊢
        exact (List.Perm.swap _ _ _).trans (h.cons s)

omit [Double D] in
theorem mem_clients {c : CoordState D} {fd : ℕ} :
    fd ∈ c.clients ↔ fd ∈ heldFds c.sockfds ∧ fd ≠ c.serverfd := by
  simp [CoordState.clients]

theorem mem_heldFds_of_getElem? {slots : List ℕ} {i fd : ℕ} (hi : slots[i]? = some fd) (hfd : fd ≠ 0) :
    fd ∈ heldFds slots := by
  simp only [heldFds, List.mem_filter, decide_eq_true_eq]
  exact ⟨List.mem_of_getElem? hi,hfd⟩

section Steps
variable {c d : CoordState D}

/-- Everything an accepted connection does to the state. -/
theorem handle_accept {fd : ℕ} (h : c.handle (.accept (some fd)) = some d) :
    fd ∉ c.opened ∧ d = acceptingConn (some fd) c := by
  simp only [CoordState.handle] at h
  by_cases hfd : fd ∈ c.opened
  · simp [hfd] at h
  · simp only [hfd, if_false, Option.some.injEq] at h
    exact ⟨hfd,h.symm⟩

/-- Everything a read does to the state: on the end of the stream the slot and
the descriptor are given up, otherwise only the values of a node change. -/
theorem handle_read {r : Readable} (h : c.handle (.read r) = some d) :
    ∃ fd, c.sockfds[r.slot]? = some fd ∧ fd ≠ 0 ∧ fd ≠ c.serverfd ∧
      ((r.result = .bytes [] ∧
          d = { c with sockfds := c.sockfds.set r.slot 0, opened := c.opened.erase fd }) ∨
        (r.result ≠ .bytes [] ∧ d.loadMgr.nodeIDs = c.loadMgr.nodeIDs ∧
          d = { c with loadMgr := d.loadMgr })) := by
  simp only [CoordState.handle, readSlot] at h
  cases hslot : c.sockfds[r.slot]? with
  | none => simp [hslot] at h
  | some fd =>
    simp only [hslot] at h
    by_cases hfd : fd = 0 ∨ fd = c.serverfd
    · simp [hfd] at h
    simp only [hfd, if_false] at h
    push Not at hfd
    refine ⟨fd,rfl,hfd.1,hfd.2,?_⟩
    simp only [handleReadable, Option.map_eq_some_iff] at h
    obtain ⟨⟨rc,m⟩,hr,rfl⟩ := h
    cases hres : r.result with
    | error =>
      simp only [handleClientReport, hres, Option.map_eq_some_iff, Prod.mk.injEq] at hr
      obtain ⟨⟨rc',m'⟩,hu,rfl,rfl⟩ := hr
      exact .inr ⟨by simp,by simpa using LoadManager.updateNodeInfo_nodeIDs hu,by simp⟩
    | bytes bs =>
      cases bs with
      | nil =>
        simp only [handleClientReport, hres, Option.some.injEq, Prod.mk.injEq] at hr
        obtain ⟨rfl,rfl⟩ := hr
        exact .inl ⟨rfl,by simp [hslot]⟩
      | cons b bs =>
        simp only [handleClientReport, hres, Option.map_eq_some_iff, Prod.mk.injEq] at hr
        obtain ⟨⟨rc',m'⟩,hu,rfl,rfl⟩ := hr
        exact .inr ⟨by simp,by simpa using LoadManager.updateNodeInfo_nodeIDs hu,by simp⟩

/-- A read of slot `i` leaves what the other slots hold. -/
theorem handleReadable_slot {i j fd : ℕ} {stale : List Char} {result : ReadResult}
    (h : handleReadable i fd stale result c = some d) (hij : i ≠ j) : d.sockfds[j]? = c.sockfds[j]? := by
  simp only [handleReadable, Option.map_eq_some_iff] at h
  obtain ⟨r,-,rfl⟩ := h
  split
  · exact List.getElem?_set_ne hij
  · rfl

/-- The loop over the copied slots reads what the slots still hold. -/
theorem readAll_events {temp : List ℕ} {rs : List Readable} (hnodup : (rs.map Readable.slot).Nodup)
    (hcopy : ∀ r ∈ rs, ∀ fd, temp[r.slot]? = some fd → fd ≠ 0 → c.sockfds[r.slot]? = some fd)
    (h : readAll temp rs c = some d) : c.handleAll (rs.map Event.read) = some d := by
  induction rs generalizing c with
  | nil => exact h
  | cons r rs ih =>
    simp only [List.map_cons, List.nodup_cons] at hnodup
    simp only [readAll, Option.bind_eq_some_iff] at h
    obtain ⟨c',hc',h⟩ := h
    cases htemp : temp[r.slot]? with
    | none => simp [readSlot,htemp] at hc'
    | some fd =>
      simp only [readSlot, htemp] at hc'
      by_cases hfd : fd = 0 ∨ fd = c.serverfd
      · simp [hfd] at hc'
      simp only [hfd, if_false] at hc'
      push Not at hfd
      have hslot := hcopy r List.mem_cons_self fd htemp hfd.1
      have hread : c.handle (.read r) = some c' := by
        simp only [CoordState.handle, readSlot, hslot, hfd.1, hfd.2, or_self, if_false, hc']
      have hrest := ih hnodup.2 (c := c') (fun x hx y hy h0 => by
        have hne : r.slot ≠ x.slot := fun he => hnodup.1 (he ▸ List.mem_map_of_mem hx)
        rw [handleReadable_slot hc' hne]
        exact hcopy x (List.mem_cons_of_mem _ hx) y hy h0) h
      simpa [CoordState.handleAll,hread] using hrest

theorem fillSlot_slot {fd i x : ℕ} {slots : List ℕ} (h : slots[i]? = some x) (hx : x ≠ 0) :
    (fillSlot fd slots)[i]? = some x := by
  induction slots generalizing i with
  | nil => simp at h
  | cons s slots ih =>
    cases i with
    | zero =>
      simp only [List.getElem?_cons_zero, Option.some.injEq] at h
      subst h
      simp [fillSlot,hx]
    | succ i =>
      by_cases hs : s = 0
      · simpa [fillSlot,hs] using h
      · simpa [fillSlot,hs] using ih (by simpa using h)

/-- A round of the loop is a run of events: the accepted connection, then the reads. -/
theorem receivingClientReport_events {accepted : Option (Option ℕ)} {rs : List Readable}
    (hnodup : (rs.map Readable.slot).Nodup) (hfree : ∀ fd, accepted = some (some fd) → fd ∉ c.opened)
    (h : receivingClientReport accepted rs c = some d) :
    c.handleAll (accepted.toList.map Event.accept ++ rs.map Event.read) = some d := by
  cases accepted with
  | none => exact readAll_events hnodup (fun _ _ _ hy _ => hy) h
  | some a =>
    cases a with
    | none => exact readAll_events hnodup (fun _ _ _ hy _ => hy) h
    | some fd =>
      have hrest := readAll_events (c := acceptingConn (some fd) c) hnodup
        (fun r _ x hx h0 => fillSlot_slot hx h0) h
      simpa [CoordState.handleAll,CoordState.handle,hfree fd rfl] using hrest

theorem SlotsOpen.handle {e : Event} (hs : SlotsOpen c) (h : c.handle e = some d) : SlotsOpen d := by
  cases e with
  | accept a =>
    cases a with
    | none => simp only [CoordState.handle, Option.some.injEq] at h; exact h ▸ hs
    | some fd =>
      obtain ⟨hfd,rfl⟩ := handle_accept h
      have hne : fd ≠ 0 := fun h0 => hfd (h0 ▸ hs.zero)
      by_cases hfree : 0 ∈ c.sockfds
      · have hp := heldFds_fillSlot hne hfree
        have hnew : fd ∉ heldFds c.sockfds := fun hm => hfd (hs.opened fd hm)
        refine ⟨hp.nodup_iff.mpr (List.nodup_cons.mpr ⟨hnew,hs.nodup⟩),?_,?_,?_⟩
        · intro x hx
          rcases List.mem_cons.mp (hp.mem_iff.mp hx) with rfl | hx
          · simp [acceptingConn]
          · simp [acceptingConn,hs.opened x hx]
        · simp [acceptingConn,hs.zero]
        · exact hp.mem_iff.mpr (List.mem_cons_of_mem _ hs.server)
      · refine ⟨?_,?_,?_,?_⟩
        · simpa [acceptingConn,fillSlot_full hfree] using hs.nodup
        · intro x hx
          have hx' : x ∈ heldFds c.sockfds := by simpa [acceptingConn,fillSlot_full hfree] using hx
          simp [acceptingConn,hs.opened x hx']
        · simp [acceptingConn,hs.zero]
        · simpa [acceptingConn,fillSlot_full hfree] using hs.server
  | read r =>
    obtain ⟨fd,hslot,h0,hsrv,⟨-,rfl⟩ | ⟨-,-,he⟩⟩ := handle_read h
    · have hp := heldFds_clear hslot h0
      have hnd := hp.nodup_iff.mpr hs.nodup
      refine ⟨(List.nodup_cons.mp hnd).2,?_,?_,?_⟩
      · intro x hx
        have hxne : x ≠ fd := fun hxe => (List.nodup_cons.mp hnd).1 (hxe ▸ hx)
        exact (List.mem_erase_of_ne hxne).mpr (hs.opened x (hp.mem_iff.mp (List.mem_cons_of_mem _ hx)))
      · exact (List.mem_erase_of_ne h0.symm).mpr hs.zero
      · rcases List.mem_cons.mp (hp.mem_iff.mpr hs.server) with hx | hx
        · exact absurd hx.symm hsrv
        · exact hx
    · rw [he]
      exact ⟨hs.nodup,hs.opened,hs.zero,hs.server⟩

theorem mem_heldFds_fillSlot {fd x : ℕ} {slots : List ℕ} (h : x ∈ heldFds (fillSlot fd slots)) :
    x = fd ∨ x ∈ heldFds slots := by
  simp only [heldFds, List.mem_filter, decide_eq_true_eq] at h ⊢
  obtain ⟨hx,h0⟩ := h
  induction slots with
  | nil => simp [fillSlot] at hx
  | cons s slots ih =>
    simp only [fillSlot] at hx
    split at hx
    · exact (List.mem_cons.mp hx).imp_right (fun hm => ⟨List.mem_cons_of_mem s hm,h0⟩)
    · obtain rfl | hm := List.mem_cons.mp hx
      · exact .inr ⟨List.mem_cons_self,h0⟩
      · exact (ih hm).imp_right (fun hs => ⟨List.mem_cons_of_mem s hs.1,h0⟩)

/-- What holds of the nodes in every run: one entry for an id, and one for every client. -/
structure ClientsListed (c : CoordState D) : Prop where
  nodup : c.loadMgr.nodeIDs.Nodup
  listed : ∀ fd ∈ c.clients, fd ∈ c.loadMgr.nodeIDs

theorem ClientsListed.handle {e : Event} (hc : ClientsListed c) (h : c.handle e = some d) : ClientsListed d := by
  cases e with
  | accept a =>
    cases a with
    | none =>
      simp only [CoordState.handle, Option.some.injEq] at h
      exact h ▸ hc
    | some fd =>
      obtain ⟨-,rfl⟩ := handle_accept h
      have hids : (acceptingConn (some fd) c).loadMgr.nodeIDs = _ := LoadManager.addNode_nodeIDs c.loadMgr fd
      constructor
      · rw [hids]
        split
        · exact hc.nodup
        · apply List.nodup_append'.mpr
          exact ⟨hc.nodup,List.nodup_singleton fd,by simpa⟩
      · intro x hx
        obtain ⟨hx,hsrv⟩ := mem_clients.mp hx
        rw [hids]
        obtain rfl | hold := mem_heldFds_fillSlot hx
        · split
          · assumption
          · simp
        · have hin := hc.listed x (mem_clients.mpr ⟨hold,hsrv⟩)
          split
          · exact hin
          · exact List.mem_append_left [fd] hin
  | read r =>
    obtain ⟨fd,hslot,h0,-,⟨-,rfl⟩ | ⟨-,hids,he⟩⟩ := handle_read h
    · refine ⟨hc.nodup,fun x hx => ?_⟩
      obtain ⟨hx,hsrv⟩ := mem_clients.mp hx
      apply hc.listed x
      exact mem_clients.mpr ⟨(heldFds_clear hslot h0).mem_iff.mp (List.mem_cons_of_mem fd hx),hsrv⟩
    · refine ⟨hids ▸ hc.nodup,fun x hx => ?_⟩
      rw [he] at hx
      exact hids ▸ hc.listed x hx

/-- An event that neither closes a client nor finds the table full keeps the law. -/
theorem NodesMatch.handle {e : Event} (hm : NodesMatch c) (hs : SlotsOpen c) (hk : KeepsRegistry c e)
    (h : c.handle e = some d) : NodesMatch d ∧ AcceptedFresh e d := by
  cases e with
  | accept a =>
    cases a with
    | none =>
      simp only [CoordState.handle, Option.some.injEq] at h
      exact ⟨h ▸ hm,fun fd he => by simp at he⟩
    | some fd =>
      obtain ⟨hfd,rfl⟩ := handle_accept h
      have hne : fd ≠ 0 := fun h0 => hfd (h0 ▸ hs.zero)
      have hnew : fd ∉ heldFds c.sockfds := fun hx => hfd (hs.opened fd hx)
      have hnode : fd ∉ c.loadMgr.nodeIDs := fun hx => hnew (mem_clients.mp ((hm.2 fd).mp hx)).1
      have hsrv : fd ≠ c.serverfd := fun he => hnew (he ▸ hs.server)
      have hids : (acceptingConn (some fd) c).loadMgr.nodeIDs = c.loadMgr.nodeIDs ++ [fd] := by
        simp [acceptingConn,LoadManager.addNode_nodeIDs,hnode]
      refine ⟨⟨?_,fun x => ?_⟩,?_⟩
      · rw [hids]
        exact List.nodup_append'.mpr ⟨hm.1,List.nodup_singleton fd,by simpa using hnode⟩
      · rw [hids, mem_clients, List.mem_append, hm.2 x, mem_clients, List.mem_singleton]
        have hp := (heldFds_fillSlot hne hk).mem_iff (a := x)
        simp only [acceptingConn] at hp ⊢
        rw [hp, List.mem_cons]
        constructor
        · rintro (⟨h1,h2⟩ | rfl)
          · exact ⟨.inr h1,h2⟩
          · exact ⟨.inl rfl,hsrv⟩
        · rintro ⟨rfl | h1,h2⟩
          · exact .inr rfl
          · exact .inl ⟨h1,h2⟩
      · intro x hx
        simp only [Event.accept.injEq, Option.some.injEq] at hx
        subst hx
        simpa [acceptingConn] using LoadManager.addNode_node? hnode
  | read r =>
    obtain ⟨fd,-,-,-,⟨hr,-⟩ | ⟨-,hids,he⟩⟩ := handle_read h
    · exact absurd hr hk
    · refine ⟨⟨hids ▸ hm.1,fun x => ?_⟩,fun x hx => by simp at hx⟩
      rw [hids, hm.2 x, mem_clients, mem_clients, he]

/-- A disconnect leaves the node behind, and a full table the descriptor. -/
theorem NodesMatch.broken {e : Event} (hm : NodesMatch c) (hs : SlotsOpen c) (hk : ¬ KeepsRegistry c e)
    (h : c.handle e = some d) : ¬ NodesMatch d := by
  intro hd
  cases e with
  | accept a =>
    cases a with
    | none => exact hk trivial
    | some fd =>
      obtain ⟨hfd,rfl⟩ := handle_accept h
      have hnew : fd ∉ heldFds c.sockfds := fun hx => hfd (hs.opened fd hx)
      have hin : fd ∈ (acceptingConn (some fd) c).loadMgr.nodeIDs := by
        simp only [acceptingConn, LoadManager.addNode_nodeIDs]
        split
        · assumption
        · simp
      have hcl := (mem_clients.mp ((hd.2 fd).mp hin)).1
      rw [acceptingConn, fillSlot_full hk] at hcl
      exact hnew hcl
  | read r =>
    obtain ⟨fd,hslot,h0,hsrv,⟨-,rfl⟩ | ⟨hr,-,-⟩⟩ := handle_read h
    · have hin : fd ∈ c.loadMgr.nodeIDs := (hm.2 fd).mpr (mem_clients.mpr ⟨mem_heldFds_of_getElem? hslot h0,hsrv⟩)
      have hgone := (List.nodup_cons.mp ((heldFds_clear hslot h0).nodup_iff.mpr hs.nodup)).1
      exact hgone (mem_clients.mp ((hd.2 fd).mp hin)).1
    · exact hk hr

end Steps

theorem lawfulRun_iff_quietRun {c : CoordState D} (hm : NodesMatch c) (hs : SlotsOpen c) (es : List Event) :
    LawfulRun c es ↔ QuietRun c es := by
  induction es generalizing c with
  | nil => exact Iff.rfl
  | cons e es ih =>
    simp only [LawfulRun, QuietRun]
    refine forall_congr' fun d => forall_congr' fun hd => ?_
    by_cases hk : KeepsRegistry c e
    · have hlaw := hm.handle hs hk hd
      rw [ih hlaw.1 (hs.handle hd)]
      exact and_congr_left fun _ => ⟨fun _ => hk,fun _ => hlaw⟩
    · have hbad := hm.broken hs hk hd
      exact ⟨fun h => absurd h.1.1 hbad,fun h => absurd h.1 hk⟩

omit [Double D] in
theorem start_heldFds {numOfClasses serverfd : ℕ} {files : List ℕ} (hserver : serverfd ≠ 0) :
    heldFds (CoordState.start numOfClasses serverfd files : CoordState D).sockfds = [serverfd] := by
  simp [CoordState.start,heldFds,hserver]

omit [Double D] in
theorem start_slotsOpen {numOfClasses serverfd : ℕ} {files : List ℕ} (hserver : serverfd ≠ 0) :
    SlotsOpen (CoordState.start numOfClasses serverfd files : CoordState D) := by
  refine ⟨?_,?_,by simp [CoordState.start],?_⟩ <;> rw [start_heldFds hserver]
  · exact List.nodup_singleton serverfd
  · intro fd hfd
    simp [CoordState.start,List.mem_singleton.mp hfd]
  · exact List.mem_singleton_self serverfd

omit [Double D] in
theorem start_nodesMatch {numOfClasses serverfd : ℕ} {files : List ℕ} (hserver : serverfd ≠ 0) :
    NodesMatch (CoordState.start numOfClasses serverfd files : CoordState D) := by
  refine ⟨List.nodup_nil,fun fd => ?_⟩
  rw [mem_clients, start_heldFds hserver, List.mem_singleton]
  constructor
  · intro h
    simp [CoordState.start,LoadManager.nodeIDs] at h
  · rintro ⟨h1,h2⟩
    exact absurd h1 h2

omit [Double D] in
theorem start_clientsListed {numOfClasses serverfd : ℕ} {files : List ℕ} (hserver : serverfd ≠ 0) :
    ClientsListed (CoordState.start numOfClasses serverfd files : CoordState D) := by
  refine ⟨List.nodup_nil,fun fd hfd => ?_⟩
  rw [mem_clients, start_heldFds hserver, List.mem_singleton] at hfd
  exact absurd hfd.1 hfd.2

/-- From the start of the coordinator, the nodes are the clients after every event
exactly when no client leaves and no connection is accepted into a full table. -/
theorem registry_lawful_iff {serverfd : ℕ} (numOfClasses : ℕ) (files : List ℕ) (hserver : serverfd ≠ 0)
    (es : List Event) :
    LawfulRun (CoordState.start numOfClasses serverfd files : CoordState D) es ↔
      QuietRun (CoordState.start numOfClasses serverfd files : CoordState D) es :=
  lawfulRun_iff_quietRun (start_nodesMatch hserver) (start_slotsOpen hserver) es

/-- Descriptor 4 is accepted and its client leaves: its node stays. -/
theorem registry_not_lawful : ¬ LawfulRun (CoordState.start 1 3 [] : CoordState ℚ)
    [.accept (some 4), .read ⟨1,[],.bytes []⟩] := by
  intro h
  have h1 := (h _ rfl).2 _ rfl
  exact absurd ((h1.1.1.2 4).mp (List.mem_singleton_self 4)) (by decide)

/-- The condition is met by a run that accepts two clients and hears from one. -/
theorem registry_lawful_two :
    LawfulRun (CoordState.start 1 3 [] : CoordState ℚ)
      [.accept (some 4), .accept (some 5), .read ⟨2,[],.bytes ['X',NUL]⟩] := by
  refine (registry_lawful_iff 1 [] (by decide) _).mpr ?_
  intro d1 h1
  cases h1
  refine ⟨by decide,?_⟩
  intro d2 h2
  cases h2
  refine ⟨by decide,?_⟩
  intro d3 _
  exact ⟨by simp [KeepsRegistry],trivial⟩

end AqsiosCoordinator.Coordinator
