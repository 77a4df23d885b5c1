import AqsiosCoordinator.Coordinator.LoadManager

/-! # The coordinator's socket loop

The client sockets are kept in the slots of `sockfds`, the listening socket in
one of them. A round copies the slots, waits in `select`, accepts a connection
if one is pending and then reads the readable client sockets slot by slot. The
descriptors open in the process are part of the state: `accept` returns one that
is not open, and `close` makes one free again.
-/
namespace AqsiosCoordinator.Coordinator
open Foundation Foundation.Reader
variable {D : Type} [Double D]

def MAX_NUM_CLIENTS : ℕ := 10

structure CoordState (D : Type) where
  sockfds : List ℕ
  serverfd : ℕ
  loadMgr : LoadManager D
  /-- Descriptors open in the process, as the operating system keeps them. -/
  opened : List ℕ

/-- What `read` delivers: an error, or bytes; no bytes at the end of the stream. -/
inductive ReadResult where
  | error
  | bytes (received : List Char)
  deriving DecidableEq

/-- The state `main` reaches before its loop: the listening socket takes the first
slot, and the standard streams, that socket and some `files` are open. -/
def CoordState.start (numOfClasses serverfd : ℕ) (files : List ℕ) : CoordState D where
  sockfds := serverfd :: List.replicate (MAX_NUM_CLIENTS - 1) 0
  serverfd := serverfd
  loadMgr := { nodes := [], numOfClasses := numOfClasses }
  opened := 0 :: 1 :: 2 :: serverfd :: files

def fillSlot (fd : ℕ) : List ℕ → List ℕ
  | [] => []
  | s :: slots => if s = 0 then fd :: slots else s :: fillSlot fd slots

/-- `acceptingConn` with the result of `accept`, absent on an error. -/
def acceptingConn (newsockfd : Option ℕ) (c : CoordState D) : CoordState D :=
  match newsockfd with
  | none => c
  | some fd =>
    { c with
      sockfds := fillSlot fd c.sockfds
      loadMgr := (c.loadMgr.addNode fd).2
      opened := fd :: c.opened }

/-- The receive buffer after `read`: the bytes received, then what lay there before. -/
def receiveInto (stale : List Char) : ReadResult → List Char
  | .error => stale
  | .bytes received => received ++ stale.drop received.length

/-- `handleClientReport` for what `read` delivers over the old content of the
buffer; the returned code is negative when the client has closed. -/
def handleClientReport (clientfd : ℕ) (stale : List Char) (result : ReadResult) (m : LoadManager D) :
    Option (ℤ × LoadManager D) :=
  match result with
  | .bytes [] => some (-1,m)
  | r => (m.updateNodeInfo clientfd (receiveInto stale r)).map (fun u => (0,u.2))

/-- One turn of the loop over the readable sockets, for slot `i` that held `fd`
when the round began. -/
def handleReadable (i fd : ℕ) (stale : List Char) (result : ReadResult) (c : CoordState D) :
    Option (CoordState D) :=
  (handleClientReport fd stale result c.loadMgr).map (fun r =>
    if r.1 < 0 ∧ c.sockfds[i]? = some fd then
      { c with sockfds := c.sockfds.set i 0, loadMgr := r.2, opened := c.opened.erase fd }
    else { c with loadMgr := r.2 })

/-- What `select` reports for one client socket, and what its read delivers. -/
structure Readable where
  slot : ℕ
  stale : List Char
  result : ReadResult

/-- Reads the client socket that the slot of `r` holds in `slots`, if there is one. -/
def readSlot (slots : List ℕ) (r : Readable) (c : CoordState D) : Option (CoordState D) :=
  match slots[r.slot]? with
  | none => none
  | some fd => if fd = 0 ∨ fd = c.serverfd then none else handleReadable r.slot fd r.stale r.result c

def readAll (temp : List ℕ) : List Readable → CoordState D → Option (CoordState D)
  | [], c => some c
  | r :: rs, c => (readSlot temp r c).bind (readAll temp rs)

def receivingClientReport (accepted : Option (Option ℕ)) (readable : List Readable) (c : CoordState D) :
    Option (CoordState D) :=
  readAll c.sockfds readable (match accepted with | none => c | some a => acceptingConn a c)

inductive Event where
  | accept (newsockfd : Option ℕ)
  | read (r : Readable)

/-- The coordinator handles one event. Absent when the event cannot happen: an
accepted descriptor is not open yet, and only a client socket held in a slot is read. -/
def CoordState.handle (c : CoordState D) : Event → Option (CoordState D)
  | .accept none => some c
  | .accept (some fd) => if fd ∈ c.opened then none else some (acceptingConn (some fd) c)
  | .read r => readSlot c.sockfds r c

def CoordState.handleAll (c : CoordState D) : List Event → Option (CoordState D)
  | [] => some c
  | e :: es => (c.handle e).bind (fun d => d.handleAll es)

end AqsiosCoordinator.Coordinator
