import AqsiosCoordinator.Coordinator.EventLoop
import AqsiosCoordinator.Foundation.Framing

/-! # Reports and reads

`handleClientReport` takes what one `read` delivers for one report. The bytes of
a node may be cut differently: a read can bring a part of a report or several
reports at once. Every report reaches its node when each read brings exactly one.
-/
namespace AqsiosCoordinator.Coordinator
open Foundation Foundation.Reader Foundation.Framing LoadManager
variable {D : Type} [Double D]

/-- One `read` of a client socket that delivers bytes, over the old content of the buffer. -/
structure Read where
  clientfd : ℕ
  stale : List Char
  received : List Char

/-- The load manager after a run of reads; absent when a report is read past the buffer. -/
def handleReads : LoadManager D → List Read → Option (LoadManager D)
  | m, [] => some m
  | m, r :: rs => (handleClientReport r.clientfd r.stale (.bytes r.received) m).bind (fun u => handleReads u.2 rs)

def applyReports : NodeInfo D → List (List Char) → Option (NodeInfo D)
  | info, [] => some info
  | info, w :: ws => (info.update (w ++ [NUL])).bind (fun u => applyReports u.1.2 ws)

/-- The reports a node sends: without NUL, at most 511 characters, and each is one
that `update` reads to its end. -/
def WellFormedReports (info : NodeInfo D) (reports : List (List Char)) : Prop :=
  (∀ w ∈ reports, NUL ∉ w ∧ w.length < msgSize) ∧ (applyReports info reports).isSome

def receivedFrom (fd : ℕ) (rs : List Read) : List Char :=
  (rs.filter (fun r => r.clientfd = fd)).flatMap Read.received

/-- TCP delivers what every node has sent, in reads of 1 to 512 bytes. -/
def Delivers (rs : List Read) (sent : ℕ → List (List Char)) : Prop :=
  (∀ r ∈ rs, r.stale.length = msgSize ∧ r.received ≠ [] ∧ r.received.length ≤ msgSize) ∧
  ∀ fd, receivedFrom fd rs = frame NUL (sent fd)

def ReportsApplied (m m' : LoadManager D) (sent : ℕ → List (List Char)) : Prop :=
  ∀ fd info, m.node? fd = some info →
    ∃ info', applyReports info (sent fd) = some info' ∧ m'.node? fd = some info'

def WholeReport (r : Read) : Prop := ∃ w, NUL ∉ w ∧ r.received = w ++ [NUL]

def reportsOf (rs : List Read) (fd : ℕ) : List (List Char) :=
  (rs.filter (fun r => r.clientfd = fd)).map (fun r => r.received.dropLast)

omit [Double D] in
theorem reportsOf_cons_self {r : Read} {rs : List Read} :
    reportsOf (r :: rs) r.clientfd = r.received.dropLast :: reportsOf rs r.clientfd := by
  simp [reportsOf]

theorem reportsOf_cons_of_ne {r : Read} {rs : List Read} {fd : ℕ} (h : fd ≠ r.clientfd) :
    reportsOf (r :: rs) fd = reportsOf rs fd := by
  simp [reportsOf,Ne.symm h]

theorem reportsOf_isPrefix {pre rs : List Read} (h : pre <+: rs) (fd : ℕ) : reportsOf pre fd <+: reportsOf rs fd :=
  (h.filter _).map _

/-- The reads of whole reports deliver these reports. -/
theorem receivedFrom_of_whole {rs : List Read} (h : ∀ r ∈ rs, WholeReport r) (fd : ℕ) :
    receivedFrom fd rs = frame NUL (reportsOf rs fd) ∧ ∀ w ∈ reportsOf rs fd, NUL ∉ w := by
  induction rs with
  | nil => exact ⟨rfl,by simp [reportsOf]⟩
  | cons r rs ih =>
    obtain ⟨ih1,ih2⟩ := ih fun x hx => h x (List.mem_cons_of_mem _ hx)
    by_cases hfd : r.clientfd = fd
    · subst hfd
      obtain ⟨w,hw,hr⟩ := h r List.mem_cons_self
      rw [reportsOf_cons_self]
      refine ⟨?_,?_⟩
      · simpa [receivedFrom,frame,hr] using ih1
      · intro x hx
        rcases List.mem_cons.mp hx with rfl | hx
        · simpa [hr] using hw
        · exact ih2 x hx
    · rw [reportsOf_cons_of_ne (Ne.symm hfd)]
      exact ⟨by simpa [receivedFrom,hfd] using ih1,ih2⟩

/-- What has been applied of a list of reports is defined for each of its prefixes. -/
theorem applyReports_isPrefix {info : NodeInfo D} {ws ws' : List (List Char)} (hp : ws <+: ws')
    (h : (applyReports info ws').isSome) : (applyReports info ws).isSome := by
  induction ws generalizing info ws' with
  | nil => rfl
  | cons w ws ih =>
    cases ws' with
    | nil => simp at hp
    | cons w' ws' =>
      obtain ⟨rfl,hp'⟩ := List.cons_prefix_cons.mp hp
      simp only [applyReports, Option.isSome_bind] at h ⊢
      cases hu : info.update (w ++ [NUL]) with
      | none => simp [hu] at h
      | some u =>
        simp only [hu, Option.any_some] at h ⊢
        exact ih hp' h

/-- A read of a whole report updates its node with this report and no other node. -/
theorem handleClientReport_whole {m : LoadManager D} {r : Read} {w : List Char}
    (hr : r.received = w ++ [NUL]) (hu : ∀ info, m.node? r.clientfd = some info → (info.update (w ++ [NUL])).isSome) :
    ∃ rc m', handleClientReport r.clientfd r.stale (.bytes r.received) m = some (rc,m') ∧
      (∀ fd, fd ≠ r.clientfd ∨ m.node? fd = none → m'.node? fd = m.node? fd) ∧
      ∀ info, m.node? r.clientfd = some info →
        ∃ u, info.update (w ++ [NUL]) = some u ∧ m'.node? r.clientfd = some u.1.2 := by
  have hreport (rc : ℤ) (ns : List (NodeInfo D))
      (h : updateFirst r.clientfd (receiveInto r.stale (.bytes r.received)) m.nodes = some (rc,ns)) :
      handleClientReport r.clientfd r.stale (.bytes r.received) m = some (0,{ m with nodes := ns }) := by
    cases hb : r.received with
    | nil => simp [hb] at hr
    | cons b bs =>
      rw [hb] at h
      simp only [handleClientReport, updateNodeInfo, h, Option.map_some]
  cases hf : m.node? r.clientfd with
  | none =>
    have h := updateFirst_of_find?_eq_none (receiveInto r.stale (.bytes r.received)) hf
    exact ⟨0,m,hreport _ _ h,fun fd _ => rfl,fun info hi => by simp at hi⟩
  | some info =>
    obtain ⟨⟨⟨rc,info'⟩,rest⟩,hi⟩ := Option.isSome_iff_exists.mp (hu info hf)
    have hlocal := info.local_update _ _ _ (r.stale.drop r.received.length) hi
    have hmsg : info.update (receiveInto r.stale (.bytes r.received)) =
        some ((rc,info'),rest ++ r.stale.drop r.received.length) := by simpa [receiveInto,hr] using hlocal
    obtain ⟨rc',ns,h1,h2⟩ := updateFirst_of_find? hf hmsg
    refine ⟨0,{ m with nodes := ns },hreport _ _ h1,fun fd hfd => ?_,fun i hi' => ?_⟩
    · rcases hfd with hfd | hfd
      · exact updateFirst_find?_of_ne h1 hfd
      · exact updateFirst_find?_of_ne h1 (fun he => by rw [he, hf] at hfd; simp at hfd)
    · obtain rfl := Option.some.inj hi'
      exact ⟨_,hi,h2⟩

theorem handleReads_whole {m : LoadManager D} {rs : List Read} (hwhole : ∀ r ∈ rs, WholeReport r)
    (happ : ∀ fd info, m.node? fd = some info → (applyReports info (reportsOf rs fd)).isSome) :
    ∃ m', handleReads m rs = some m' ∧ ReportsApplied m m' (reportsOf rs) := by
  induction rs generalizing m with
  | nil => exact ⟨m,rfl,fun fd info h => ⟨info,rfl,h⟩⟩
  | cons r rs ih =>
    obtain ⟨w,-,hr⟩ := hwhole r List.mem_cons_self
    have hself (info : NodeInfo D) (hi : m.node? r.clientfd = some info) :
        (applyReports info (w :: reportsOf rs r.clientfd)).isSome := by
      have h := happ _ info hi
      rwa [reportsOf_cons_self, hr, List.dropLast_concat] at h
    have hupd (info : NodeInfo D) (hi : m.node? r.clientfd = some info) : (info.update (w ++ [NUL])).isSome := by
      have h := hself info hi
      simp only [applyReports, Option.isSome_bind] at h
      cases hu : info.update (w ++ [NUL]) with
      | none => simp [hu] at h
      | some u => rfl
    obtain ⟨rc,m1,h1,hother,hown⟩ := handleClientReport_whole hr hupd
    have hrest (fd : ℕ) (info : NodeInfo D) (hi : m1.node? fd = some info) :
        (applyReports info (reportsOf rs fd)).isSome := by
      by_cases hfd : fd = r.clientfd
      · subst hfd
        cases hm : m.node? r.clientfd with
        | none =>
          rw [hother _ (.inr hm), hm] at hi
          simp at hi
        | some info0 =>
          obtain ⟨u,hu,hm1⟩ := hown info0 hm
          have h := hself info0 hm
          simp only [applyReports, hu, Option.bind_some] at h
          rw [hm1] at hi
          cases hi
          exact h
      · rw [hother fd (.inl hfd)] at hi
        have h := happ fd info hi
        rwa [reportsOf_cons_of_ne hfd] at h
    obtain ⟨m',h2,happlied⟩ := ih (fun x hx => hwhole x (List.mem_cons_of_mem _ hx)) hrest
    refine ⟨m',by simp [handleReads,h1,h2],fun fd info hi => ?_⟩
    by_cases hfd : fd = r.clientfd
    · subst hfd
      obtain ⟨u,hu,hm1⟩ := hown info hi
      obtain ⟨info',ha,hm'⟩ := happlied _ _ hm1
      refine ⟨info',?_,hm'⟩
      rw [reportsOf_cons_self, hr, List.dropLast_concat]
      simp [applyReports,hu,ha]
    · rw [reportsOf_cons_of_ne hfd]
      exact happlied fd info ((hother fd (.inl hfd)).trans hi)

/-- When every read delivers exactly one whole report, each state of the run holds what
`Node_Info::update` makes of the reports received so far, and the last state of all reports. -/
theorem reports_applied_of_whole {m : LoadManager D} {rs : List Read} {sent : ℕ → List (List Char)}
    (hsent : Delivers rs sent) (hwf : ∀ fd, (∀ w ∈ sent fd, NUL ∉ w) ∧
      ∀ info, m.node? fd = some info → WellFormedReports info (sent fd))
    (hwhole : ∀ r ∈ rs, WholeReport r) :
    (∃ m', handleReads m rs = some m' ∧ ReportsApplied m m' sent) ∧
    ∀ pre, pre <+: rs → ∃ m' done, handleReads m pre = some m' ∧ (∀ fd, done fd <+: sent fd) ∧
      ReportsApplied m m' done := by
  have heq : reportsOf rs = sent := by
    funext fd
    obtain ⟨h1,h2⟩ := receivedFrom_of_whole hwhole fd
    exact frame_inj h2 (hwf fd).1 (h1.symm.trans (hsent.2 fd))
  have happ (fd : ℕ) (info : NodeInfo D) (hi : m.node? fd = some info) :
      (applyReports info (reportsOf rs fd)).isSome := heq ▸ ((hwf fd).2 info hi).2
  refine ⟨heq ▸ handleReads_whole hwhole happ,fun pre hpre => ?_⟩
  obtain ⟨m',h1,h2⟩ := handleReads_whole (fun r hr => hwhole r (hpre.subset hr))
    fun fd info hi => applyReports_isPrefix (reportsOf_isPrefix hpre fd) (happ fd info hi)
  exact ⟨m',reportsOf pre,h1,fun fd => heq ▸ reportsOf_isPrefix hpre fd,h2⟩

/-- A manager that knows the node of descriptor 4, and the node's two port reports. -/
def portManager : LoadManager ℚ := (LoadManager.addNode ⟨[],1⟩ 4).2
def portReports (fd : ℕ) : List (List Char) := if fd = 4 then [['P',',','1'], ['P',',','2']] else []
def emptyBuffer : List Char := List.replicate msgSize NUL

theorem portReports_wellFormed (fd : ℕ) : (∀ w ∈ portReports fd, NUL ∉ w) ∧
    ∀ info, portManager.node? fd = some info → WellFormedReports info (portReports fd) := by
  by_cases hfd : fd = 4
  · subst hfd
    refine ⟨by decide,fun info hi => ⟨by decide,?_⟩⟩
    obtain rfl := Option.some.inj hi
    decide +kernel
  · refine ⟨by simp [portReports,hfd],fun info hi => ?_⟩
    have hnone : portManager.node? fd = none := by
      simp [portManager,node?,addNode,Ne.symm hfd]
    rw [hnone] at hi
    simp at hi

/-- The two port reports of a node in one read: the second is lost. -/
theorem reports_lost_when_coalesced : ∃ (m : LoadManager ℚ) (rs : List Read) (sent : ℕ → List (List Char)),
    Delivers rs sent ∧
    (∀ fd, (∀ w ∈ sent fd, NUL ∉ w) ∧ ∀ info, m.node? fd = some info → WellFormedReports info (sent fd)) ∧
    ¬ ∃ m', handleReads m rs = some m' ∧ ReportsApplied m m' sent := by
  refine ⟨portManager,[⟨4,emptyBuffer,['P',',','1',NUL,'P',',','2',NUL]⟩],portReports,⟨?_,fun fd => ?_⟩,
    portReports_wellFormed,?_⟩
  · intro r hr
    rw [List.mem_singleton.mp hr]
    exact ⟨List.length_replicate,by simp,by simp [msgSize]⟩
  · by_cases hfd : fd = 4
    · subst hfd
      rfl
    · simp [receivedFrom,portReports,frame,hfd,Ne.symm hfd]
  · rintro ⟨m',hm',happ⟩
    obtain ⟨info',h1,h2⟩ := happ 4 { NodeInfo.new 1 with nodeID := 4 } rfl
    have hport : (applyReports ({ NodeInfo.new 1 with nodeID := 4 } : NodeInfo ℚ) (portReports 4)).map
        NodeInfo.listeningPort = some 2 := by decide +kernel
    have hrun : ((handleReads portManager [⟨4,emptyBuffer,['P',',','1',NUL,'P',',','2',NUL]⟩]).bind
        (fun m => m.node? 4)).map NodeInfo.listeningPort = some 1 := by decide +kernel
    rw [h1] at hport
    rw [hm', Option.bind_some, h2, hport] at hrun
    simp at hrun

/-- The same two reports in two reads reach the node. -/
theorem reports_applied_one_by_one :
    (∃ m', handleReads portManager [⟨4,emptyBuffer,['P',',','1',NUL]⟩, ⟨4,emptyBuffer,['P',',','2',NUL]⟩] = some m' ∧
      ReportsApplied portManager m' portReports) := by
  refine (reports_applied_of_whole ⟨?_,fun fd => ?_⟩ portReports_wellFormed ?_).1
  · intro r hr
    rcases List.mem_cons.mp hr with rfl | hr
    · exact ⟨List.length_replicate,by simp,by simp [msgSize]⟩
    · rw [List.mem_singleton.mp hr]
      exact ⟨List.length_replicate,by simp,by simp [msgSize]⟩
  · by_cases hfd : fd = 4
    · subst hfd
      rfl
    · simp [receivedFrom,portReports,frame,hfd,Ne.symm hfd]
  · intro r hr
    rcases List.mem_cons.mp hr with rfl | hr
    · exact ⟨['P',',','1'],by decide,rfl⟩
    · rw [List.mem_singleton.mp hr]
      exact ⟨['P',',','2'],by decide,rfl⟩

end AqsiosCoordinator.Coordinator
