import AqsiosCoordinator.Coordinator.MigrationThread

/-! # The ports the destinations listen to

A node enters the list with port 0 and carries the port of its latest port
message from then on.
-/
namespace AqsiosCoordinator.Coordinator
open Foundation Foundation.Reader
variable {D : Type} [Double D]

def portNumber : Msg ℤ := do
  skipHeader
  let p ← (strtod : Msg D)
  assignInt (Double.toInt p)

/-- The port that a message to `update` carries, if it is a port message. -/
def announcedPort (msg : List Char) : Option ℤ :=
  match (startsWith ['N','I'] : Msg Bool) msg, (startsWith ['P'] : Msg Bool) msg with
  | some (false,_), some (true,_) => (portNumber (D := D) msg).map Prod.fst
  | _, _ => none

/-- The port message, if it is one, that the action hands to the load manager. -/
def announcement (c : Process D) : Action → Option (ℕ × ℤ)
  | .socket (.read r) =>
    if r.result = .bytes [] then none
    else match c.sockets.sockfds[r.slot]?, announcedPort (D := D) (receiveInto r.stale r.result) with
      | some fd, some port => some (fd,port)
      | _, _ => none
  | _ => none

/-- The ports the nodes have sent during the run, the latest first. -/
def portsSent (getNodeAddress : ℕ → List Char) (c : Process D) : List Action → List (ℕ × ℤ)
  | [] => []
  | a :: as => match c.perform getNodeAddress a with
    | none => []
    | some d => portsSent getNodeAddress d as ++ (announcement c a).toList

theorem startsWith_eq_some {word msg rest : List Char} {b : Bool}
    (h : (startsWith word : Msg Bool) msg = some (b,rest)) : rest = msg := by
  simp only [startsWith, Option.map_eq_some_iff, Prod.mk.injEq] at h
  obtain ⟨_,-,-,h⟩ := h
  exact h.symm

/-- Only a port message moves the port of a node, to the number it carries. -/
theorem update_listeningPort {info info' : NodeInfo D} {msg rest : List Char} {rc : ℤ}
    (h : info.update msg = some ((rc,info'),rest)) :
    info'.listeningPort = (announcedPort (D := D) msg).getD info.listeningPort := by
  have hload : Yields info.updateLoadInfo (fun r => r.2.listeningPort = info.listeningPort) := by
    have hclasses (t : ℤ) (i : NodeInfo D) :
        Yields (i.updateClasses t) (fun r => r.listeningPort = i.listeningPort) :=
      Yields.ite (yields_bind fun _ => yields_bind fun _ => yields_bind fun _ => yields_pure rfl) (yields_pure rfl)
    have hqueries (t : ℤ) (i : NodeInfo D) :
        Yields (i.updateQueries t) (fun r => r.listeningPort = i.listeningPort) :=
      Yields.ite (yields_bind fun _ => yields_bind fun _ => yields_pure rfl) (yields_pure rfl)
    exact yields_bind fun _ => yields_bind fun _ => yields_bind fun t => yields_bind fun _ =>
      (hclasses t info).bind fun i hi => (hqueries t i).bind fun _ hj => yields_pure (hj.trans hi)
  obtain ⟨ni,mid,hni,h⟩ := bind_eq_some h
  obtain rfl := startsWith_eq_some hni
  cases ni with
  | true =>
    rw [if_pos rfl] at h
    have hport : info'.listeningPort = info.listeningPort := hload _ _ _ h
    simp [announcedPort,hni,hport]
  | false =>
    rw [if_neg (by decide)] at h
    obtain ⟨p,mid',hp,h⟩ := bind_eq_some h
    obtain rfl := startsWith_eq_some hp
    cases p with
    | true =>
      rw [if_pos rfl] at h
      have hport : info.updateListeningPortNo =
          (portNumber (D := D) >>= fun port => pure (0,{ info with listeningPort := port })) := by
        simp [NodeInfo.updateListeningPortNo,portNumber]
      rw [hport] at h
      obtain ⟨port,mid'',hn,h⟩ := bind_eq_some h
      simp only [pure_apply, Option.some.injEq, Prod.mk.injEq] at h
      simp [announcedPort,hni,hp,hn,← h.1.2]
    | false =>
      rw [if_neg (by decide)] at h
      simp only [pure_apply, Option.some.injEq, Prod.mk.injEq] at h
      simp [announcedPort,hni,hp,h.1.2]

theorem updateFirst_mem {nodeID : ℕ} {msg : List Char} {ns ns' : List (NodeInfo D)} {rc : ℤ}
    (h : LoadManager.updateFirst nodeID msg ns = some (rc,ns')) (hnodup : (ns.map NodeInfo.nodeID).Nodup)
    {n : NodeInfo D} (hn : n ∈ ns') :
    (n ∈ ns ∧ n.nodeID ≠ nodeID) ∨
      (n.nodeID = nodeID ∧ ∃ old ∈ ns, old.nodeID = nodeID ∧
        n.listeningPort = (announcedPort (D := D) msg).getD old.listeningPort) := by
  induction ns generalizing rc ns' with
  | nil =>
    simp only [LoadManager.updateFirst, Option.some.injEq, Prod.mk.injEq] at h
    simp [← h.2] at hn
  | cons x ns ih =>
    simp only [LoadManager.updateFirst] at h
    simp only [List.map_cons, List.nodup_cons, List.mem_map, not_exists, not_and] at hnodup
    by_cases hx : x.nodeID = nodeID
    · simp only [hx, if_true, Option.map_eq_some_iff, Prod.mk.injEq] at h
      obtain ⟨⟨⟨rc',x'⟩,rest⟩,hu,-,rfl⟩ := h
      have hid : x'.nodeID = x.nodeID := x.update_nodeID msg _ rest hu
      obtain rfl | hn := List.mem_cons.mp hn
      · exact .inr ⟨hid.trans hx,x,List.mem_cons_self,hx,update_listeningPort hu⟩
      · exact .inl ⟨List.mem_cons_of_mem x hn,fun he => hnodup.1 n hn (he.trans hx.symm)⟩
    · simp only [hx, if_false, Option.map_eq_some_iff, Prod.mk.injEq] at h
      obtain ⟨⟨rc',ns''⟩,hu,-,rfl⟩ := h
      obtain rfl | hn := List.mem_cons.mp hn
      · exact .inl ⟨List.mem_cons_self,hx⟩
      · obtain ⟨h1,h2⟩ | ⟨h1,old,h2,h3⟩ := ih hu hnodup.2 hn
        · exact .inl ⟨List.mem_cons_of_mem x h1,h2⟩
        · exact .inr ⟨h1,old,List.mem_cons_of_mem x h2,h3⟩

/-- The ports of the nodes are the latest that were sent, and 0 before that. -/
structure PortsCurrent (c : Process D) (sent : List (ℕ × ℤ)) : Prop where
  current : ∀ n ∈ c.sockets.loadMgr.nodes, n.listeningPort = (sent.lookup n.nodeID).getD 0
  listed : ∀ p ∈ sent, p.1 ∈ c.sockets.loadMgr.nodeIDs

/-- What a handled read that is no end of the stream does to the nodes. -/
theorem handle_report {s t : CoordState D} {r : Readable} (h : s.handle (.read r) = some t)
    (hr : r.result ≠ .bytes []) :
    ∃ fd rc, s.sockfds[r.slot]? = some fd ∧ fd ∈ s.clients ∧
      LoadManager.updateFirst fd (receiveInto r.stale r.result) s.loadMgr.nodes = some (rc,t.loadMgr.nodes) := by
  obtain ⟨fd,hslot,h0,hsrv,-⟩ := handle_read h
  simp only [CoordState.handle, readSlot, hslot, h0, hsrv, or_self, if_false, handleReadable,
    Option.map_eq_some_iff] at h
  obtain ⟨⟨rc,m⟩,hm,rfl⟩ := h
  have hup : (s.loadMgr.updateNodeInfo fd (receiveInto r.stale r.result)).map (fun u => (0,u.2)) = some (rc,m) := by
    revert hm
    unfold handleClientReport
    split
    · rename_i he
      exact absurd he hr
    · exact id
  simp only [Option.map_eq_some_iff, LoadManager.updateNodeInfo, Prod.mk.injEq] at hup
  obtain ⟨_,⟨⟨rc',ns⟩,hu,rfl⟩,rfl,rfl⟩ := hup
  refine ⟨fd,rc',hslot,mem_clients.mpr ⟨mem_heldFds_of_getElem? hslot h0,hsrv⟩,?_⟩
  simpa using hu

theorem PortsCurrent.report {c d : Process D} {sent : List (ℕ × ℤ)} {r : Readable}
    (h : PortsCurrent c sent) (hc : ClientsListed c.sockets) (hs : c.sockets.handle (.read r) = some d.sockets)
    (hr : r.result ≠ .bytes []) : PortsCurrent d ((announcement c (.socket (.read r))).toList ++ sent) := by
  obtain ⟨fd,rc,hslot,hfd,hu⟩ := handle_report hs hr
  have hann : announcement c (.socket (.read r)) =
      (announcedPort (D := D) (receiveInto r.stale r.result)).map (fun port => (fd,port)) := by
    simp only [announcement, if_neg hr, hslot]
    cases announcedPort (D := D) (receiveInto r.stale r.result) <;> rfl
  have hids : d.sockets.loadMgr.nodeIDs = c.sockets.loadMgr.nodeIDs := LoadManager.updateFirst_nodeIDs hu
  rw [hann]
  constructor
  · intro n hn
    obtain ⟨hmem,hne⟩ | ⟨hid,old,hold,hoid,hport⟩ := updateFirst_mem hu hc.nodup hn
    · rw [h.current n hmem]
      cases announcedPort (D := D) (receiveInto r.stale r.result) with
      | none => rfl
      | some port => simp [List.lookup_cons,beq_eq_false_iff_ne.mpr hne]
    · rw [hport]
      cases announcedPort (D := D) (receiveInto r.stale r.result) with
      | none => simpa [hid,hoid] using h.current old hold
      | some port => simp [hid]
  · intro p hp
    rw [hids]
    obtain hp | hp := List.mem_append.mp hp
    · obtain ⟨port,-,rfl⟩ := Option.map_eq_some_iff.mp (Option.mem_toList.mp hp)
      exact hc.listed fd hfd
    · exact h.listed p hp

/-- Accepting leaves what is known of the ports, or adds a node with port 0. -/
theorem PortsCurrent.accept {c d : Process D} {sent : List (ℕ × ℤ)} {a : Option ℕ}
    (h : PortsCurrent c sent) (hs : c.sockets.handle (.accept a) = some d.sockets) : PortsCurrent d sent := by
  cases a with
  | none =>
    simp only [CoordState.handle, Option.some.injEq] at hs
    exact ⟨hs ▸ h.current,hs ▸ h.listed⟩
  | some fd =>
    obtain ⟨-,he⟩ := handle_accept hs
    constructor
    · intro n hn
      simp only [he, acceptingConn, LoadManager.addNode] at hn
      split at hn
      · exact h.current n hn
      · rename_i hnew
        obtain hn | hn := List.mem_append.mp hn
        · exact h.current n hn
        · rw [List.mem_singleton.mp hn]
          have hnone : sent.lookup fd = none := by
            apply List.lookup_eq_none_iff.mpr
            intro p hp
            have hin := h.listed p hp
            simp only [LoadManager.nodeIDs, List.mem_map] at hin
            obtain ⟨m,hm,hid⟩ := hin
            rw [bne_iff_ne]
            intro he
            exact hnew (List.any_eq_true.mpr ⟨m,hm,by simp [hid,he]⟩)
          simp [NodeInfo.new,hnone]
    · intro p hp
      exact handle_nodeIDs_subset hs (h.listed p hp)

theorem PortsCurrent.perform {getNodeAddress : ℕ → List Char} {c d : Process D} {sent : List (ℕ × ℤ)} {a : Action}
    (h : PortsCurrent c sent) (hc : ClientsListed c.sockets) (hd : c.perform getNodeAddress a = some d) :
    PortsCurrent d ((announcement c a).toList ++ sent) := by
  have hkeep : ∀ b : Process D, b.sockets = c.sockets → PortsCurrent b sent :=
    fun b hb => ⟨hb ▸ h.current,hb ▸ h.listed⟩
  cases a with
  | socket e =>
    obtain ⟨s,hs,rfl⟩ := Process.perform_socket hd
    cases e with
    | accept a => exact h.accept hs
    | read r =>
      by_cases hr : r.result = .bytes []
      · have hann : announcement c (.socket (.read r)) = none := by simp [announcement,hr]
        obtain ⟨fd,-,-,-,⟨-,rfl⟩ | ⟨hne,-⟩⟩ := handle_read hs
        · rw [if_neg (by simpa [Event.reports] using hr), hann]
          exact ⟨h.current,h.listed⟩
        · exact absurd hr hne
      · rw [if_pos (by simpa [Event.reports] using hr)]
        exact h.report hc hs hr
  | stop =>
    simp only [Process.perform, Option.some.injEq] at hd
    exact hkeep d (hd ▸ rfl)
  | lock =>
    obtain ⟨-,rfl⟩ := Process.perform_lock hd
    exact hkeep _ rfl
  | wakeSpuriously =>
    obtain ⟨-,rfl⟩ := Process.perform_wakeSpuriously hd
    exact hkeep _ rfl
  | wake =>
    obtain ⟨-,rfl⟩ := Process.perform_wake hd
    apply hkeep
    split <;> rfl
  | redistribute =>
    obtain ⟨-,decision,-,rfl⟩ := Process.perform_redistribute hd
    exact hkeep _ (by simp)
  | relock =>
    obtain ⟨-,rfl⟩ := Process.perform_relock hd
    exact hkeep _ rfl

theorem PortsCurrent.run {getNodeAddress : ℕ → List Char} {c d : Process D} {sent : List (ℕ × ℤ)} {as : List Action}
    (h : PortsCurrent c sent) (hc : Regular c) (hrun : runAll (Process.perform getNodeAddress) c as = some d) :
    PortsCurrent d (portsSent getNodeAddress c as ++ sent) ∧ Regular d := by
  induction as generalizing c sent with
  | nil =>
    simp only [runAll, Option.some.injEq] at hrun
    subst hrun
    exact ⟨h,hc⟩
  | cons a as ih =>
    obtain ⟨u,hu,hrest⟩ := runAll_cons.mp hrun
    have hnext := ih (h.perform hc.sockets hu) (hc.perform hu) hrest
    simpa [portsSent,hu] using hnext

/-- The destination of the migration that `redistributeLoad` decides on has sent its
port, and that is the port of the message. -/
def DestinationKnown (getNodeAddress : ℕ → List Char) (sent : List (ℕ × ℤ)) (m : LoadManager D) : Prop :=
  ∀ decision, m.redistributeLoad getNodeAddress = some decision → ∀ entry ∈ decision,
    ∃ source destination port, m.migrationEnds = some (some (source,destination)) ∧
      sent.lookup destination.nodeID = some port ∧
      entry = (source.nodeID,migrationMessage (getNodeAddress destination.nodeID) port
        (source.activeQueries.map QueryInfo.queryID))

theorem destinationKnown_iff [LawfulDouble D] {getNodeAddress : ℕ → List Char} {c : Process D}
    {sent : List (ℕ × ℤ)} (h : PortsCurrent c sent) :
    DestinationKnown getNodeAddress sent c.sockets.loadMgr ↔
      ∀ n, PreferredDestination c.sockets.loadMgr.nodes n → (sent.lookup n.nodeID).isSome = true := by
  constructor
  · intro hk n hn
    have hne : c.sockets.loadMgr.nodes ≠ [] := List.ne_nil_of_mem (preferred_mem hn)
    obtain ⟨ends,hends⟩ := migrationEnds_isSome hne
    obtain ⟨source,rfl⟩ := (destination_iff hends n).mpr hn
    obtain ⟨s,t,port,hst,hport,-⟩ := hk _ (by rw [LoadManager.redistributeLoad, hends]; rfl) _ List.mem_cons_self
    rw [hends, Option.some.injEq, Option.some.injEq, Prod.mk.injEq] at hst
    rw [hst.2, hport]
    rfl
  · intro hall decision hd entry hentry
    obtain ⟨ends,hends,rfl⟩ := Option.map_eq_some_iff.mp hd
    cases ends with
    | none => cases hentry
    | some e =>
      obtain ⟨source,n⟩ := e
      have hn := (destination_iff hends n).mp ⟨source,rfl⟩
      obtain ⟨port,hport⟩ := Option.isSome_iff_exists.mp (hall n hn)
      refine ⟨source,n,port,hends,hport,?_⟩
      have hcur := h.current n (preferred_mem hn)
      rw [hport, Option.getD_some] at hcur
      rw [← hcur]
      simpa using hentry

/-- In a run from the start of the process every decision names a node whose port has
been received exactly when the first of the least loaded nodes has sent its port
whenever a decision is made and some node carries more load. -/
theorem decisions_known_iff [LawfulDouble D] {getNodeAddress : ℕ → List Char} {numOfClasses serverfd : ℕ}
    {files : List ℕ} (hserver : serverfd ≠ 0) (as : List Action) :
    (∀ pre c, pre ++ [.redistribute] <+: as →
      runAll (Process.perform getNodeAddress) (Process.start numOfClasses serverfd files : Process D) pre = some c →
      c.migration = .redistributing →
      DestinationKnown getNodeAddress (portsSent getNodeAddress (Process.start numOfClasses serverfd files : Process D) pre)
        c.sockets.loadMgr) ↔
    ∀ pre c, pre ++ [.redistribute] <+: as →
      runAll (Process.perform getNodeAddress) (Process.start numOfClasses serverfd files : Process D) pre = some c →
      c.migration = .redistributing → ∀ n, PreferredDestination c.sockets.loadMgr.nodes n →
        ((portsSent getNodeAddress (Process.start numOfClasses serverfd files : Process D) pre).lookup n.nodeID).isSome = true := by
  refine forall_congr' fun pre => forall_congr' fun c => forall_congr' fun _ => forall_congr' fun hrun =>
    forall_congr' fun _ => ?_
  have hstart : PortsCurrent (Process.start numOfClasses serverfd files : Process D) [] := by
    constructor
    · intro n hn
      cases hn
    · intro p hp
      cases hp
  have hcur := (hstart.run (Regular.start hserver) hrun).1
  rw [List.append_nil] at hcur
  exact destinationKnown_iff hcur

def secondSilent : List Action :=
  [.lock, .socket (.accept (some 4)), .socket (.accept (some 5)),
    .socket (.read ⟨1,[],.bytes ['P',',','7',NUL]⟩),
    .socket (.read ⟨1,[],.bytes ['N','I',',','1',',','1',',','1',',','1',',','E',NUL]⟩), .wake]

/-- The node that has sent nothing is the destination, with port 0 in the message. -/
theorem silent_node_is_destination :
    ∃ c : Process ℚ, runAll (Process.perform fun _ => ['A']) (Process.start 1 3 []) secondSilent = some c ∧
      c.migration = .redistributing ∧
      c.sockets.loadMgr.redistributeLoad (fun _ => ['A']) = some [(4,['Q','M',',','A',',','0',',','E'])] ∧
      ¬ DestinationKnown (fun _ => ['A']) (portsSent (fun _ => ['A']) (Process.start 1 3 [] : Process ℚ) secondSilent)
        c.sockets.loadMgr := by
  have hsent : portsSent (fun _ => ['A']) (Process.start 1 3 [] : Process ℚ) secondSilent = [(4,7)] := by
    decide +kernel
  have hrun : (runAll (Process.perform fun _ => ['A']) (Process.start 1 3 [] : Process ℚ) secondSilent).any
      (fun c => c.migration = .redistributing ∧
        c.sockets.loadMgr.redistributeLoad (fun _ => ['A']) = some [(4,['Q','M',',','A',',','0',',','E'])] ∧
        c.sockets.loadMgr.migrationEnds.any (fun ends => ends.any (fun e => e.2.nodeID = 5))) = true := by
    decide +kernel
  simp only [Option.any_eq_true, decide_eq_true_eq] at hrun
  obtain ⟨c,hc,hm,hd,ends,hends,⟨source,destination⟩,rfl,hid⟩ := hrun
  refine ⟨c,hc,hm,hd,fun hk => ?_⟩
  obtain ⟨s,t,port,hst,hport,-⟩ := hk _ hd _ List.mem_cons_self
  rw [hends, Option.some.injEq, Option.some.injEq, Prod.mk.injEq] at hst
  rw [hsent, ← hst.2, hid] at hport
  simp [List.lookup_cons] at hport

def bothPorts : List Action :=
  [.lock, .socket (.accept (some 4)), .socket (.accept (some 5)),
    .socket (.read ⟨1,[],.bytes ['P',',','7',NUL]⟩), .socket (.read ⟨2,[],.bytes ['P',',','8',NUL]⟩),
    .socket (.read ⟨1,[],.bytes ['N','I',',','1',',','1',',','1',',','1',',','E',NUL]⟩), .wake]

theorem both_ports_known :
    ∃ c : Process ℚ, runAll (Process.perform fun _ => ['A']) (Process.start 1 3 []) bothPorts = some c ∧
      c.sockets.loadMgr.redistributeLoad (fun _ => ['A']) = some [(4,['Q','M',',','A',',','8',',','E'])] ∧
      DestinationKnown (fun _ => ['A']) (portsSent (fun _ => ['A']) (Process.start 1 3 [] : Process ℚ) bothPorts)
        c.sockets.loadMgr := by
  have hrun : (runAll (Process.perform fun _ => ['A']) (Process.start 1 3 [] : Process ℚ) bothPorts).any
      (fun c => c.migration = .redistributing ∧
        c.sockets.loadMgr.redistributeLoad (fun _ => ['A']) = some [(4,['Q','M',',','A',',','8',',','E'])] ∧
        c.sockets.loadMgr.nodes.all (fun n =>
          ((portsSent (fun _ => ['A']) (Process.start 1 3 [] : Process ℚ) bothPorts).lookup n.nodeID).isSome)) = true := by
    decide +kernel
  simp only [Option.any_eq_true, decide_eq_true_eq, List.all_eq_true] at hrun
  obtain ⟨c,hc,hm,hd,hall⟩ := hrun
  refine ⟨c,hc,hd,?_⟩
  apply (decisions_known_iff (by decide) (bothPorts ++ [.redistribute])).mpr _ bothPorts c (List.prefix_refl _) hc hm
  intro pre c' hpre hc' _ n hn
  have hboth : pre = bothPorts := by
    obtain ⟨rest,hrest⟩ := hpre
    rcases List.eq_nil_or_concat rest with rfl | ⟨rest,a,rfl⟩
    · rw [List.append_nil] at hrest
      exact List.append_cancel_right hrest
    · rw [List.concat_eq_append, ← List.append_assoc] at hrest
      have h1 := (List.append_inj' hrest rfl).1
      have h2 : Action.redistribute ∈ bothPorts := by simp [← h1]
      simp [bothPorts] at h2
  subst hboth
  rw [hc, Option.some.injEq] at hc'
  exact hall n (hc' ▸ preferred_mem hn)

end AqsiosCoordinator.Coordinator
