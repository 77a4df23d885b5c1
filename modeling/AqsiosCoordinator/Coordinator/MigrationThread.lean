import AqsiosCoordinator.Coordinator.ClientRegistry
import AqsiosCoordinator.Coordinator.Redistribution
import AqsiosCoordinator.Foundation.Runs

/-! # The migration thread beside the socket loop

The sections under `mutexUpdateReady` are single actions. The migration thread
gives the mutex up while it waits and while it redistributes the load, so the
socket loop's actions fall between its own.
-/
namespace AqsiosCoordinator.Coordinator
open Foundation
variable {D : Type}

inductive Stage where
  /-- It has not taken the mutex yet. -/
  | created
  /-- Blocked in `pthread_cond_wait`, with no wake-up pending. -/
  | waiting
  /-- Woken, to take the mutex again. -/
  | woken
  /-- It has cleared the flag and released the mutex. -/
  | redistributing
  /-- The decision is sent; it is to take the mutex again. -/
  | returning
  | exited
  deriving DecidableEq

structure Process (D : Type) where
  sockets : CoordState D
  isUpdateReady : Bool
  bStop : Bool
  migration : Stage
  count : ℕ
  /-- The messages written to the nodes so far. -/
  sent : List (ℕ × List Char)

def Process.start (numOfClasses serverfd : ℕ) (files : List ℕ) : Process D where
  sockets := CoordState.start numOfClasses serverfd files
  isUpdateReady := false
  bStop := false
  migration := .created
  count := 0
  sent := []

inductive Action where
  | socket (e : Event)
  /-- The section of `stopServer`. -/
  | stop
  /-- `manageMigration` takes the mutex for the first time. -/
  | lock
  /-- `pthread_cond_wait` may return without a signal. -/
  | wakeSpuriously
  /-- `pthread_cond_wait` returns with the mutex. -/
  | wake
  | redistribute
  /-- The mutex is taken again after the decision. -/
  | relock

def Stage.signal : Stage → Stage
  | .waiting => .woken
  | s => s

/-- The event runs the section of `handleClientReport`: what it reads is not the end of the stream. -/
def Event.reports : Event → Prop
  | .accept _ => False
  | .read r => r.result ≠ .bytes []

instance : DecidablePred Event.reports
  | .accept _ => inferInstanceAs (Decidable False)
  | .read r => inferInstanceAs (Decidable (r.result ≠ .bytes []))

namespace Process

def loop (c : Process D) : Process D :=
  { c with migration := if c.bStop then .exited else .waiting }

/-- The loop over the decision: only the first message of the thread is written. -/
def sendDecision (c : Process D) (decision : List (ℕ × List Char)) : Process D :=
  if c.count = 0 then { c with count := c.count + (decision.take 1).length, sent := c.sent ++ decision.take 1 }
  else c

@[simp] theorem sendDecision_isUpdateReady (c : Process D) (decision : List (ℕ × List Char)) :
    (c.sendDecision decision).isUpdateReady = c.isUpdateReady := by
  unfold sendDecision
  split <;> rfl

@[simp] theorem sendDecision_bStop (c : Process D) (decision : List (ℕ × List Char)) :
    (c.sendDecision decision).bStop = c.bStop := by
  unfold sendDecision
  split <;> rfl

@[simp] theorem sendDecision_sockets (c : Process D) (decision : List (ℕ × List Char)) :
    (c.sendDecision decision).sockets = c.sockets := by
  unfold sendDecision
  split <;> rfl

@[simp] theorem loop_isUpdateReady (c : Process D) : c.loop.isUpdateReady = c.isUpdateReady := rfl
@[simp] theorem loop_bStop (c : Process D) : c.loop.bStop = c.bStop := rfl

variable [Double D] (getNodeAddress : ℕ → List Char)

/-- The coordinator takes one action. Absent when the action cannot happen. -/
def perform (c : Process D) : Action → Option (Process D)
  | .socket e => (c.sockets.handle e).map (fun s =>
      if e.reports then
        { c with sockets := s, isUpdateReady := true, migration := c.migration.signal }
      else { c with sockets := s })
  | .stop => some { c with bStop := true, migration := c.migration.signal }
  | .lock => if c.migration = .created then some c.loop else none
  | .wakeSpuriously => if c.migration = .waiting then some { c with migration := .woken } else none
  | .wake =>
    if c.migration = .woken then
      some (if c.isUpdateReady then { c with isUpdateReady := false, migration := .redistributing } else c.loop)
    else none
  | .redistribute =>
    if c.migration = .redistributing then
      (c.sockets.loadMgr.redistributeLoad getNodeAddress).map (fun decision =>
        { c.sendDecision decision with migration := .returning })
    else none
  | .relock => if c.migration = .returning then some c.loop else none

end Process

/-- The thread is blocked with no wake-up pending although an update is ready. -/
def Process.Unprocessed (c : Process D) : Prop :=
  c.migration = .waiting ∧ c.isUpdateReady = true

/-- A report comes only when the thread waits or has just been woken, or is not to
wait again. -/
def Attended (c : Process D) : Action → Prop
  | .socket e => e.reports → c.migration = .waiting ∨ c.migration = .woken ∨ c.bStop = true
  | _ => True

def Action.ofMigration : Action → Prop
  | .socket _ => False
  | .stop => False
  | _ => True

namespace Process
variable [Double D] {getNodeAddress : ℕ → List Char} {c d : Process D}

/-- Everything an action of the socket loop does to the process. -/
theorem perform_socket {e : Event} (h : c.perform getNodeAddress (.socket e) = some d) :
    ∃ s, c.sockets.handle e = some s ∧
      d = if e.reports then { c with sockets := s, isUpdateReady := true, migration := c.migration.signal }
        else { c with sockets := s } := by
  obtain ⟨s,hs,rfl⟩ := Option.map_eq_some_iff.mp h
  exact ⟨s,hs,rfl⟩

theorem perform_lock (h : c.perform getNodeAddress .lock = some d) : c.migration = .created ∧ d = c.loop := by
  simp only [perform] at h
  split at h
  · exact ⟨‹_›,(Option.some.inj h).symm⟩
  · cases h

theorem perform_wakeSpuriously (h : c.perform getNodeAddress .wakeSpuriously = some d) :
    c.migration = .waiting ∧ d = { c with migration := .woken } := by
  simp only [perform] at h
  split at h
  · exact ⟨‹_›,(Option.some.inj h).symm⟩
  · cases h

theorem perform_wake (h : c.perform getNodeAddress .wake = some d) :
    c.migration = .woken ∧
      d = if c.isUpdateReady then { c with isUpdateReady := false, migration := .redistributing } else c.loop := by
  simp only [perform] at h
  split at h
  · exact ⟨‹_›,(Option.some.inj h).symm⟩
  · cases h

theorem perform_redistribute (h : c.perform getNodeAddress .redistribute = some d) :
    c.migration = .redistributing ∧ ∃ decision, c.sockets.loadMgr.redistributeLoad getNodeAddress = some decision ∧
      d = { c.sendDecision decision with migration := .returning } := by
  simp only [perform] at h
  split at h
  · obtain ⟨decision,hd,rfl⟩ := Option.map_eq_some_iff.mp h
    exact ⟨‹_›,decision,hd,rfl⟩
  · cases h

theorem perform_relock (h : c.perform getNodeAddress .relock = some d) : c.migration = .returning ∧ d = c.loop := by
  simp only [perform] at h
  split at h
  · exact ⟨‹_›,(Option.some.inj h).symm⟩
  · cases h

end Process

/-- The flag is down while the thread waits, and while it is away unless it is to stop. -/
structure FlagSeen (c : Process D) : Prop where
  waiting : c.migration = .waiting → c.isUpdateReady = false
  away : c.migration = .created ∨ c.migration = .redistributing ∨ c.migration = .returning →
    c.isUpdateReady = true → c.bStop = true

theorem FlagSeen.loop {c : Process D} (h : c.isUpdateReady = true → c.bStop = true) : FlagSeen c.loop := by
  by_cases hb : c.bStop = true
  · constructor <;> intro h1 <;> simp [Process.loop,hb] at h1
  · constructor
    · intro _
      simpa using mt h hb
    · intro h1
      simp [Process.loop,hb] at h1

section FlagSeen
variable [Double D] {getNodeAddress : ℕ → List Char} {c d : Process D} {a : Action}

theorem FlagSeen.perform (h : FlagSeen c) (ha : Attended c a) (hd : c.perform getNodeAddress a = some d) :
    FlagSeen d := by
  cases a with
  | socket e =>
    obtain ⟨s,-,rfl⟩ := Process.perform_socket hd
    by_cases he : e.reports
    · simp only [if_pos he]
      obtain hw | hw | hb := ha he
      · constructor <;> intro h1 <;> simp [Stage.signal,hw] at h1
      · constructor <;> intro h1 <;> simp [Stage.signal,hw] at h1
      · constructor
        · intro h1
          revert h1
          cases c.migration <;> simp [Stage.signal]
        · intro _ _
          exact hb
    · simpa only [if_neg he] using ⟨h.waiting,h.away⟩
  | stop =>
    simp only [Process.perform, Option.some.injEq] at hd
    subst hd
    constructor
    · intro h1
      revert h1
      cases c.migration <;> simp [Stage.signal]
    · intro _ _
      rfl
  | lock =>
    obtain ⟨hm,rfl⟩ := Process.perform_lock hd
    exact FlagSeen.loop (h.away (.inl hm))
  | wakeSpuriously =>
    obtain ⟨-,rfl⟩ := Process.perform_wakeSpuriously hd
    constructor <;> intro h1 <;> simp at h1
  | wake =>
    obtain ⟨-,rfl⟩ := Process.perform_wake hd
    by_cases hf : c.isUpdateReady = true
    · simp only [hf, if_true]
      constructor <;> intro _
      · rfl
      · intro h1
        cases h1
    · rw [if_neg hf]
      exact FlagSeen.loop fun h1 => absurd h1 hf
  | redistribute =>
    obtain ⟨hm,decision,-,rfl⟩ := Process.perform_redistribute hd
    constructor
    · intro h1
      cases h1
    · intro _ h1
      simp only [Process.sendDecision_isUpdateReady, Process.sendDecision_bStop] at h1 ⊢
      exact h.away (.inr (.inl hm)) h1
  | relock =>
    obtain ⟨hm,rfl⟩ := Process.perform_relock hd
    exact FlagSeen.loop (h.away (.inr (.inr hm)))

end FlagSeen

theorem FlagSeen.start (numOfClasses serverfd : ℕ) (files : List ℕ) :
    FlagSeen (Process.start numOfClasses serverfd files : Process D) := by
  constructor
  · intro h
    cases h
  · intro _ h
    cases h

theorem FlagSeen.processed {c : Process D} (h : FlagSeen c) : ¬ c.Unprocessed := by
  rintro ⟨hw,hf⟩
  rw [h.waiting hw] at hf
  cases hf

structure Regular (c : Process D) : Prop where
  sockets : ClientsListed c.sockets
  ready : c.isUpdateReady = true ∨ c.migration = .redistributing → c.sockets.loadMgr.nodes ≠ []
  exited : c.migration = .exited → c.bStop = true

section Regular
variable [Double D] {getNodeAddress : ℕ → List Char} {c d : Process D} {a : Action}

theorem handle_nodeIDs_subset {s t : CoordState D} {e : Event} (h : s.handle e = some t) :
    s.loadMgr.nodeIDs ⊆ t.loadMgr.nodeIDs := by
  cases e with
  | accept a =>
    cases a with
    | none =>
      simp only [CoordState.handle, Option.some.injEq] at h
      rw [h]
      exact List.Subset.refl _
    | some fd =>
      obtain ⟨-,rfl⟩ := handle_accept h
      have hids : (acceptingConn (some fd) s).loadMgr.nodeIDs = _ := LoadManager.addNode_nodeIDs s.loadMgr fd
      rw [hids]
      split
      · exact List.Subset.refl _
      · exact List.subset_append_left _ _
  | read r =>
    obtain ⟨fd,-,-,-,⟨-,rfl⟩ | ⟨-,hids,-⟩⟩ := handle_read h
    · exact List.Subset.refl _
    · rw [hids]
      exact List.Subset.refl _

omit [Double D] in
theorem nodes_ne_nil {m : LoadManager D} {fd : ℕ} (h : fd ∈ m.nodeIDs) : m.nodes ≠ [] := by
  intro h0
  simp [LoadManager.nodeIDs,h0] at h

theorem handle_nodes_ne_nil {s t : CoordState D} {e : Event} (h : s.handle e = some t)
    (hs : s.loadMgr.nodes ≠ []) : t.loadMgr.nodes ≠ [] := by
  obtain ⟨n,ns,hns⟩ := List.exists_cons_of_ne_nil hs
  have hn : n.nodeID ∈ s.loadMgr.nodeIDs := by simp [LoadManager.nodeIDs,hns]
  exact nodes_ne_nil (handle_nodeIDs_subset h hn)

/-- A report comes from a client, which has its node. -/
theorem Event.reports.nodes_ne_nil {s t : CoordState D} {e : Event} (he : e.reports) (hs : ClientsListed s)
    (h : s.handle e = some t) : t.loadMgr.nodes ≠ [] := by
  cases e with
  | accept a => exact absurd he id
  | read r =>
    obtain ⟨fd,hslot,h0,hsrv,-⟩ := handle_read h
    have hfd := hs.listed fd (mem_clients.mpr ⟨mem_heldFds_of_getElem? hslot h0,hsrv⟩)
    exact Coordinator.nodes_ne_nil (handle_nodeIDs_subset h hfd)

theorem Stage.signal_eq_iff {s t : Stage} (h1 : t ≠ .waiting) (h2 : t ≠ .woken) : s.signal = t ↔ s = t := by
  cases s <;> simp [Stage.signal,h1.symm,h2.symm]

omit [Double D] in
theorem Regular.loop (h : ClientsListed c.sockets) (hr : c.isUpdateReady = true → c.sockets.loadMgr.nodes ≠ []) :
    Regular c.loop := by
  refine ⟨h,?_,?_⟩
  · rintro (h1 | h1)
    · exact hr h1
    · simp only [Process.loop] at h1
      split at h1 <;> cases h1
  · intro h1
    by_contra hb
    rw [Process.loop_bStop] at hb
    simp [Process.loop,hb] at h1

theorem Regular.perform (h : Regular c) (hd : c.perform getNodeAddress a = some d) : Regular d := by
  cases a with
  | socket e =>
    obtain ⟨s,hs,rfl⟩ := Process.perform_socket hd
    by_cases he : e.reports
    · simp only [if_pos he]
      refine ⟨h.sockets.handle hs,fun _ => he.nodes_ne_nil h.sockets hs,fun h1 => ?_⟩
      exact h.exited ((Stage.signal_eq_iff (by decide) (by decide)).mp h1)
    · simp only [if_neg he]
      exact ⟨h.sockets.handle hs,fun h1 => handle_nodes_ne_nil hs (h.ready h1),h.exited⟩
  | stop =>
    simp only [Process.perform, Option.some.injEq] at hd
    subst hd
    refine ⟨h.sockets,fun h1 => h.ready (h1.imp_right fun h2 => ?_),fun _ => rfl⟩
    exact (Stage.signal_eq_iff (by decide) (by decide)).mp h2
  | lock =>
    obtain ⟨-,rfl⟩ := Process.perform_lock hd
    exact Regular.loop h.sockets fun h1 => h.ready (.inl h1)
  | wakeSpuriously =>
    obtain ⟨-,rfl⟩ := Process.perform_wakeSpuriously hd
    exact ⟨h.sockets,fun h1 => h.ready (.inl (h1.resolve_right (by simp))),fun h1 => by cases h1⟩
  | wake =>
    obtain ⟨-,rfl⟩ := Process.perform_wake hd
    by_cases hf : c.isUpdateReady = true
    · simp only [hf, if_true]
      exact ⟨h.sockets,fun _ => h.ready (.inl hf),fun h1 => by cases h1⟩
    · rw [if_neg hf]
      exact Regular.loop h.sockets fun h1 => absurd h1 hf
  | redistribute =>
    obtain ⟨hm,decision,-,rfl⟩ := Process.perform_redistribute hd
    refine ⟨?_,fun _ => ?_,fun h1 => by cases h1⟩
    · simpa using h.sockets
    · simpa using h.ready (.inr hm)
  | relock =>
    obtain ⟨-,rfl⟩ := Process.perform_relock hd
    exact Regular.loop h.sockets fun h1 => h.ready (.inl h1)

omit [Double D] in
theorem Regular.start {numOfClasses serverfd : ℕ} {files : List ℕ} (hserver : serverfd ≠ 0) :
    Regular (Process.start numOfClasses serverfd files : Process D) := by
  refine ⟨start_clientsListed hserver,?_,fun h => by cases h⟩
  rintro (h | h) <;> cases h

omit [Double D] in
theorem loop_unprocessed (hb : c.bStop = false) (hf : c.isUpdateReady = true) : c.loop.Unprocessed := by
  refine ⟨?_,hf⟩
  simp [Process.loop,hb]

variable (getNodeAddress) in
theorem redistribute_relock {ends : Option (NodeInfo D × NodeInfo D)} (hm : c.migration = .redistributing)
    (hends : c.sockets.loadMgr.migrationEnds = some ends) :
    ∃ decision, c.sockets.loadMgr.redistributeLoad getNodeAddress = some decision ∧
      runAll (Process.perform getNodeAddress) c [.redistribute, .relock] =
        some (Process.loop { c.sendDecision decision with migration := .returning }) := by
  simp [runAll,Process.perform,hm,LoadManager.redistributeLoad,hends]

/-- After a report that nobody attends to, the thread goes on to wait with the flag up. -/
theorem unattended_unprocessed (h : Regular c) (ha : ¬ Attended c a) (hd : c.perform getNodeAddress a = some d) :
    ∃ bs e, (∀ b ∈ bs, b.ofMigration) ∧ runAll (Process.perform getNodeAddress) d bs = some e ∧ e.Unprocessed := by
  cases a with
  | socket ev =>
    simp only [Attended, not_forall, not_or, Bool.not_eq_true] at ha
    obtain ⟨he,hw,hk,hb⟩ := ha
    obtain ⟨s,hs,rfl⟩ := Process.perform_socket hd
    simp only [if_pos he]
    cases hm : c.migration with
    | created =>
      refine ⟨[.lock],_,by simp [Action.ofMigration],rfl,?_⟩
      exact loop_unprocessed hb rfl
    | waiting => exact absurd hm hw
    | woken => exact absurd hm hk
    | redistributing =>
      obtain ⟨ends,hends⟩ := migrationEnds_isSome (he.nodes_ne_nil h.sockets hs)
      obtain ⟨decision,-,hrun⟩ := redistribute_relock getNodeAddress (c := { c with
        sockets := s, isUpdateReady := true, migration := .redistributing }) rfl hends
      refine ⟨[.redistribute, .relock],_,by simp [Action.ofMigration],hrun,?_⟩
      apply loop_unprocessed
      · simpa using hb
      · simp
    | returning =>
      refine ⟨[.relock],_,by simp [Action.ofMigration],rfl,?_⟩
      exact loop_unprocessed hb rfl
    | exited => simp [h.exited hm] at hb
  | _ => exact absurd trivial ha

end Regular

theorem attended_of_migration [Double D] (c : Process D) {a : Action} (h : a.ofMigration) : Attended c a := by
  cases a with
  | socket e => exact absurd h id
  | _ => exact trivial

/-- In a run from the start of the process no schedule of the migration thread, after
any part of the run, leaves an update unprocessed exactly when every report of the run
is attended. -/
theorem updates_processed_iff [Double D] {getNodeAddress : ℕ → List Char} {numOfClasses serverfd : ℕ}
    {files : List ℕ} {as : List Action} {z : Process D} (hserver : serverfd ≠ 0)
    (hrun : runAll (Process.perform getNodeAddress) (Process.start numOfClasses serverfd files) as = some z) :
    (∀ pre bs (c : Process D), pre <+: as → (∀ b ∈ bs, b.ofMigration) →
      runAll (Process.perform getNodeAddress) (Process.start numOfClasses serverfd files) (pre ++ bs) = some c →
      ¬ c.Unprocessed) ↔
    RunsWithin (Process.perform getNodeAddress) Attended
      (Process.start numOfClasses serverfd files : Process D) as := by
  constructor
  · intro hproc
    by_contra hbad
    obtain ⟨pre,a,u,hpre,hu,-,ha⟩ := exists_of_not_runsWithin hbad
    obtain ⟨d,hd⟩ : ∃ d, u.perform getNodeAddress a = some d := by
      obtain ⟨rest,rfl⟩ := hpre
      obtain ⟨d,hd,-⟩ := runAll_append.mp hrun
      obtain ⟨u',hu',hd⟩ := runAll_concat.mp hd
      rw [hu, Option.some.injEq] at hu'
      exact ⟨d,hu' ▸ hd⟩
    have hreg : Regular u := runAll_invariant (fun _ _ _ h hs => h.perform hs) (Regular.start hserver) hu
    obtain ⟨bs,e,hbs,he,hne⟩ := unattended_unprocessed hreg ha hd
    apply hproc (pre ++ [a]) bs e hpre hbs _ hne
    exact runAll_append.mpr ⟨d,runAll_concat.mpr ⟨u,hu,hd⟩,he⟩
  · intro hw pre bs c hpre hbs hc
    obtain ⟨u,hu,hrest⟩ := runAll_append.mp hc
    have hbs' : RunsWithin (Process.perform getNodeAddress) Attended u bs :=
      RunsWithin.of_forall fun s b hb => attended_of_migration s (hbs b hb)
    have hall := (RunsWithin.append hu).mpr ⟨hw.of_prefix hpre,hbs'⟩
    apply FlagSeen.processed
    exact hall.invariant (fun _ _ _ h ha hs => h.perform ha hs) (FlagSeen.start _ _ _) hc

/-- A client sends its port before the thread has taken the mutex for the first time. -/
theorem early_report_unprocessed :
    ∃ c : Process ℚ, runAll (Process.perform fun _ => []) (Process.start 1 3 [])
        [.socket (.accept (some 4)), .socket (.read ⟨1,[],.bytes ['P',',','7',NUL]⟩), .lock] = some c ∧
      c.Unprocessed := by
  have hrun : (runAll (Process.perform fun _ => []) (Process.start 1 3 [] : Process ℚ)
      [.socket (.accept (some 4)), .socket (.read ⟨1,[],.bytes ['P',',','7',NUL]⟩), .lock]).any
      (fun c => c.migration = .waiting ∧ c.isUpdateReady = true) = true := by decide +kernel
  simpa [Option.any_eq_true, Process.Unprocessed] using hrun

/-- A report to the waiting thread and one more while it is woken are both seen. -/
theorem attended_reports_processed :
    ∃ z : Process ℚ, runAll (Process.perform fun _ => []) (Process.start 1 3 [])
        [.lock, .socket (.accept (some 4)), .socket (.read ⟨1,[],.bytes ['X',NUL]⟩),
          .socket (.read ⟨1,[],.bytes ['X',NUL]⟩), .wake] = some z ∧
      ∀ bs (c : Process ℚ), (∀ b ∈ bs, b.ofMigration) →
        runAll (Process.perform fun _ => []) z bs = some c → ¬ c.Unprocessed := by
  obtain ⟨z,hz⟩ : ∃ z : Process ℚ, runAll (Process.perform fun _ => []) (Process.start 1 3 [])
      [.lock, .socket (.accept (some 4)), .socket (.read ⟨1,[],.bytes ['X',NUL]⟩),
        .socket (.read ⟨1,[],.bytes ['X',NUL]⟩), .wake] = some z := ⟨_,rfl⟩
  refine ⟨z,hz,fun bs c hbs hrun => ?_⟩
  apply (updates_processed_iff (by decide) hz).mpr _ _ bs c (List.prefix_refl _) hbs
  · exact runAll_append.mpr ⟨z,hz,hrun⟩
  · refine ⟨trivial,?_⟩
    rintro _ ⟨⟩
    refine ⟨fun h => absurd h id,?_⟩
    rintro _ ⟨⟩
    refine ⟨fun _ => .inl rfl,?_⟩
    rintro _ ⟨⟩
    refine ⟨fun _ => .inr (.inl rfl),?_⟩
    rintro _ ⟨⟩
    exact ⟨trivial,fun _ _ => trivial⟩

end AqsiosCoordinator.Coordinator
