import AqsiosCoordinator.Coordinator.TupleEncoding
import AqsiosCoordinator.Foundation.TimedQueue

/-! # The timed readers of a file

The lines behind the schema are read from the file, one at a call, or from a queue they have been
loaded into before. A line is not delivered before the time in its first field.
-/
namespace AqsiosCoordinator.Coordinator
open Common Foundation Foundation.Outcome

structure IStream where
  rest : List Char
  eofbit : Bool
  failbit : Bool
  deriving DecidableEq

namespace IStream

def good (input : IStream) : Bool := !input.eofbit && !input.failbit

def reading (rest : List Char) : IStream := ⟨rest,false,false⟩

/-- `getline` on a good stream, with a buffer of `MAX_LINE_SIZE`. -/
def getline (input : IStream) : List Char × IStream :=
  let line := input.rest.takeWhile fun c => c != '\n'
  if line.length < MAX_LINE_SIZE then
    match input.rest.drop line.length with
    | [] => (line,⟨[],true,line.isEmpty⟩)
    | _ :: rest => (line,reading rest)
  else (line.take (MAX_LINE_SIZE - 1),⟨input.rest.drop (MAX_LINE_SIZE - 1),false,true⟩)

/-- `seekg` to the position where `rest` begins; a stream that has failed stays where it is. -/
def seekg (input : IStream) (rest : List Char) : IStream :=
  if input.failbit then { input with eofbit := false } else reading rest

end IStream

/-- What the string functions see of a line buffer. -/
def cString (line : List Char) : List Char := line.takeWhile fun c => c != NUL

def emptyLine (line : List Char) : Bool := (line.dropWhile isSpace).isEmpty

structure FileSource where
  schema : Schema
  tupleBuf : ℕ → Byte
  input : IStream
  rawDataBuf : List (List Char)

/-- The source when the schema line has been read, with what stands behind that line in the file. -/
def FileSource.started (schema : Schema) (tupleBuf : ℕ → Byte) (content : List Char) : FileSource :=
  ⟨schema,tupleBuf,.reading content,[]⟩

def Schema.len (s : Schema) : ℕ := (s.tupleLen % 2^32).toNat

abbrev SourceM := EStateM Failure FileSource

def TS_LEN : ℕ := 15

/-- The number in the first field, as far as the characters are copied to `tsstr`. -/
def readTs (line : List Char) (len : ℕ) : SourceM ℕ := do
  let tsstr := (line.takeWhile fun c => c != ',').take len
  failIf (TS_LEN < tsstr.length + 1) .outOfBounds
  return (atoi tsstr % 2^64).toNat

section Float
variable (atof : List Char → BitVec 32)

def parseLineBuffer (line : List Char) : SourceM Unit := fun s =>
  match parseTuple atof s.schema line s.tupleBuf with
  | .ok a t => .ok a { s with tupleBuf := t }
  | .error e t => .error e { s with tupleBuf := t }

def tupleBytes (s : FileSource) : List Byte := (List.range s.schema.len).map s.tupleBuf

def notYet (line : List Char) (cursysTime : ℕ) : SourceM Bool := do
  if line.head? = some 'i' then return false
  else return cursysTime < (← readTs line (← get).schema.len)

/-- The timed `getNext` from the file; the tuple is absent when nothing is delivered. -/
def getNext (cursysTime : ℕ) : SourceM (Option (List Byte)) := do
  let s ← get
  if s.input.good then
    let (line,input) := s.input.getline
    set { s with input := input }
    if emptyLine (cString line) then return none
    else do
      parseLineBuffer atof (cString line)
      if ← notYet (cString line) cursysTime then do
        modify fun t => { t with input := t.input.seekg s.input.rest }
        return none
      else return some (tupleBytes (← get))
  else if s.input.eofbit then return none
  else throw (.code (-1))

def getNextBuffered (cursysTime : ℕ) : SourceM (Option (List Byte)) := do
  let s ← get
  match s.rawDataBuf with
  | [] => return none
  | line :: _ =>
    if emptyLine line then return none
    else do
      parseLineBuffer atof line
      if line.head? = some 'i' then return some (tupleBytes (← get))
      else if ← notYet line cursysTime then return none
      else do
        modify fun t => { t with rawDataBuf := t.rawDataBuf.tail }
        return some (tupleBytes (← get))

end Float

def IStream.left (input : IStream) : ℕ := if input.good then input.rest.length + 1 else 0

theorem IStream.left_getline {input : IStream} (h : input.good = true) : input.getline.2.left < input.left := by
  have hleft : input.left = input.rest.length + 1 := if_pos h
  rw [hleft]
  unfold getline
  by_cases hlen : (input.rest.takeWhile fun c => c != '\n').length < MAX_LINE_SIZE
  · simp only [hlen, if_true]
    cases hd : input.rest.drop (input.rest.takeWhile fun c => c != '\n').length with
    | nil => simp [left,good]
    | cons c rest =>
      have hsize := congrArg List.length hd
      rw [List.length_drop, List.length_cons] at hsize
      simp only [left, reading, good]
      simp
      omega
  · simp [hlen,left,good]

/-- The loop of `loadSourceData`: the lines that are kept and the stream behind them. -/
def loadLines (input : IStream) : List (List Char) × IStream :=
  if _h : input.good = true then
    let r := loadLines input.getline.2
    (if emptyLine (cString input.getline.1) then r.1 else cString input.getline.1 :: r.1,r.2)
  else ([],input)
  termination_by input.left
  decreasing_by exact IStream.left_getline _h

def loadSourceData : SourceM Unit := do
  let s ← get
  let r := loadLines s.input
  set { s with rawDataBuf := s.rawDataBuf ++ r.1, input := r.2 }
  failIf (r.2.eofbit = false) (.code (-1))

inductive Delivery where
  | tuple (bytes : List Byte)
  | error (rc : ℤ)

/-- What the first `n` calls deliver, each with the time of the call; absent when a call has no defined
behaviour. -/
def deliveries (next : ℕ → SourceM (Option (List Byte))) (times : ℕ → ℕ) (s : FileSource) :
    ℕ → Option (List (Delivery × ℕ) × FileSource)
  | 0 => some ([],s)
  | n+1 =>
    match deliveries next times s n with
    | none => none
    | some (delivered,s) =>
      match next (times n) s with
      | .ok (some bytes) s => some (delivered ++ [(.tuple bytes,times n)],s)
      | .ok none s => some (delivered,s)
      | .error (.code rc) s => some (delivered ++ [(.error rc,times n)],s)
      | .error _ _ => none

def timestamp (line : List Char) : ℤ := atoi (line.takeWhile fun c => c != ',')

structure Schema.IsResult (atof : List Char → BitVec 32) (s : Schema) (line : List Char) (d : Delivery) : Prop where
  tuple : HasFields s.attrs.length line → d = .tuple (s.tuple atof line)
  error : ¬ HasFields s.attrs.length line → d = .error (-1)

def linesOf (content : List Char) : List (List Char) := content.splitOn '\n'

def nonblank (content : List Char) : List (List Char) := ((linesOf content).map cString).filter fun line => !emptyLine line

/-- A sequence of calls delivers the lines once each, in order, and none before its time. -/
structure ReadsOnce (atof : List Char → BitVec 32) (schema : Schema) (lines : List (List Char)) (times : ℕ → ℕ)
    (calls : ℕ → Option (List (Delivery × ℕ) × FileSource)) : Prop where
  defined : ∀ n, (calls n).isSome = true
  inOrder : ∀ n d s, calls n = some (d,s) → ∃ front, front <+: lines ∧
    List.Forall₂ (fun line e => schema.IsResult atof line e.1 ∧ timestamp line ≤ e.2) front d
  everyDue : ∀ front, front <+: lines → (∀ line ∈ front, ∃ k, timestamp line ≤ times k) →
    ∃ n d s, calls n = some (d,s) ∧ front.length ≤ d.length

/-- What is delivered in the one sequence is delivered in the other. -/
def Covers (calls calls' : ℕ → Option (List (Delivery × ℕ) × FileSource)) : Prop :=
  ∀ n d s, calls n = some (d,s) → ∃ n' d' s', calls' n' = some (d',s') ∧ d.map Prod.fst <+: d'.map Prod.fst

structure ReadersAgree (atof : List Char → BitVec 32) (schema : Schema) (tupleBuf : ℕ → Byte) (content : List Char) (times : ℕ → ℕ) : Prop where
  file : ReadsOnce atof schema (nonblank content) times (deliveries (getNext atof) times (.started schema tupleBuf content))
  buffer : ReadsOnce atof schema (nonblank content) times
    (deliveries (getNextBuffered atof) times (finalState (loadSourceData (.started schema tupleBuf content))))
  buffered : Covers (deliveries (getNext atof) times (.started schema tupleBuf content))
    (deliveries (getNextBuffered atof) times (finalState (loadSourceData (.started schema tupleBuf content))))
  unbuffered : Covers (deliveries (getNextBuffered atof) times (finalState (loadSourceData (.started schema tupleBuf content))))
    (deliveries (getNext atof) times (.started schema tupleBuf content))

structure Schema.Timed (s : Schema) (line : List Char) : Prop where
  sizes : totalSize s.attrs ≤ MAX_TUPLE_SIZE
  fields : HasFields s.attrs.length line
  letter : line.head? ≠ some 'i'
  short : ((line.takeWhile fun c => c != ',').take s.len).length < TS_LEN
  nonneg : 0 ≤ timestamp line
  stamp : atoi ((line.takeWhile fun c => c != ',').take s.len) = timestamp line

structure Schema.Readable (s : Schema) (line : List Char) : Prop where
  short : line.length < MAX_LINE_SIZE
  timed : emptyLine (cString line) = false → s.Timed (cString line)

def Schema.ReadsReadable (s : Schema) (content : List Char) (times : ℕ → ℕ) : Prop :=
  ∀ before line behind, linesOf content = before ++ line :: behind →
    (∀ l ∈ before, emptyLine (cString l) = true ∨ ∃ k, timestamp (cString l) ≤ times k) → s.Readable line

variable {atof : List Char → BitVec 32} {schemaLine : Line} {schema : Schema} {content : List Char} {times : ℕ → ℕ}

def skips (line : List Char) : Bool := emptyLine (cString line)

def stampOf (line : List Char) : ℕ := (timestamp (cString line)).toNat

def At (input : IStream) (lines : List (List Char)) : Prop :=
  (input = .reading input.rest ∧ linesOf input.rest = lines) ∨ (input.good = false ∧ input.eofbit = true ∧ lines = [])

theorem at_reading (rest : List Char) : At (.reading rest) (linesOf rest) := .inl ⟨rfl,rfl⟩

theorem getline_short {rest line : List Char} {lines : List (List Char)} (h : linesOf rest = line :: lines) (hlen : line.length < MAX_LINE_SIZE) :
    (IStream.reading rest).getline.1 = line ∧ At (IStream.reading rest).getline.2 lines ∧
      (line ≠ [] → (IStream.reading rest).getline.2.failbit = false) := by
  unfold linesOf at h
  obtain ⟨hline,hsplit⟩ | ⟨field,behind,rfl,hline,hsplit⟩ := split_first '\n' rest
  · rw [hsplit] at h
    cases h
    have hget : (IStream.reading rest).getline = (rest,⟨[],true,rest.isEmpty⟩) := by
      simp [IStream.getline,IStream.reading,hline,hlen]
    rw [hget]
    refine ⟨rfl,.inr ⟨rfl,rfl,rfl⟩,?_⟩
    intro hne
    exact List.isEmpty_eq_false_iff.mpr hne
  · rw [hsplit] at h
    cases h
    have hget : (IStream.reading (line ++ '\n' :: behind)).getline = (line,.reading behind) := by
      simp [IStream.getline,IStream.reading,hline,hlen]
    rw [hget]
    exact ⟨rfl,at_reading behind,fun _ => rfl⟩

theorem getline_long {rest line : List Char} {lines : List (List Char)} (h : linesOf rest = line :: lines) (hlen : MAX_LINE_SIZE ≤ line.length) :
    (IStream.reading rest).getline = (line.take (MAX_LINE_SIZE - 1),⟨rest.drop (MAX_LINE_SIZE - 1),false,true⟩) := by
  unfold linesOf at h
  have hline : rest.takeWhile (fun c => c != '\n') = line := by
    obtain ⟨hline,hsplit⟩ | ⟨field,behind,rfl,hline,hsplit⟩ := split_first '\n' rest
    · rw [hsplit] at h
      cases h
      exact hline
    · rw [hsplit] at h
      cases h
      exact hline
  have hover : ¬ line.length < MAX_LINE_SIZE := not_lt.mpr hlen
  simp [IStream.getline,IStream.reading,hline,hover]

theorem atoi_lt (text : List Char) : atoi text < 2^64 := by
  unfold atoi
  cases Coordinator.strtol (text ++ [NUL]) with
  | none => decide
  | some r =>
    have hlt := Int.bmod_lt (m := 2^32) (x := r.1) (by decide)
    show r.1.bmod (2^32) < 2^64
    omega

section Parsed
variable {s : FileSource} {text : List Char}

theorem parseLineBuffer_timed (hstart : start schemaLine = some schema) (hs : s.schema = schema) (h : schema.Timed text) :
    ∃ t, parseLineBuffer atof text s = .ok ⟨⟩ t ∧ t.schema = schema ∧ t.input = s.input ∧ t.rawDataBuf = s.rawDataBuf ∧
      tupleBytes t = schema.tuple atof text := by
  subst hs
  obtain ⟨hparse,hlen⟩ := @parseTuple_tuple atof _ _ hstart h.sizes _ h.fields s.tupleBuf
  obtain ⟨-,-,hmax,-⟩ := start_places hstart h.sizes
  refine ⟨{ s with tupleBuf := store s.tupleBuf 0 (s.schema.tuple atof text) },?_,rfl,rfl,rfl,?_⟩
  · unfold parseLineBuffer
    rw [hparse]
  · have hsize : s.schema.len = (s.schema.tuple atof text).length := by
      have hbuf : (MAX_TUPLE_SIZE : ℤ) = 256 := rfl
      unfold Schema.len
      omega
    unfold tupleBytes
    rw [hsize]
    exact map_store _ _

theorem readTs_timed (h : schema.Timed text) : readTs text schema.len s = .ok (timestamp text).toNat s := by
  have hin : ¬ TS_LEN < ((text.takeWhile fun c => c != ',').take schema.len).length + 1 := by
    have hshort := h.short
    omega
  have hmod : (timestamp text % 2^64).toNat = (timestamp text).toNat := by
    rw [Int.emod_eq_of_lt h.nonneg (atoi_lt _)]
  unfold readTs
  rw [bind_of_ok (failIf_neg hin), h.stamp, hmod]
  rfl

theorem notYet_timed (hs : s.schema = schema) (h : schema.Timed text) (now : ℕ) :
    notYet text now s = .ok (decide (now < (timestamp text).toNat)) s := by
  unfold notYet
  rw [if_neg h.letter, bind_of_ok (get_apply s), hs, bind_of_ok (readTs_timed h)]
  rfl

end Parsed

/-- A call of `m` takes from the lines that `R` finds in the source what a request takes from a queue. -/
def Takes (atof : List Char → BitVec 32) (schema : Schema) (m : ℕ → SourceM (Option (List Byte)))
    (R : FileSource → List (List Char) → Prop) : Prop :=
  ∀ now s queue, R s queue → (∀ line lines, queue = line :: lines → schema.Readable line) → ∃ t,
    m now s = .ok ((TimedQueue.next skips stampOf now queue).1.map fun line => schema.tuple atof (cString line)) t ∧
      R t (TimedQueue.next skips stampOf now queue).2

def Unread (schema : Schema) (s : FileSource) (lines : List (List Char)) : Prop := s.schema = schema ∧ At s.input lines

theorem getNext_takes (hstart : start schemaLine = some schema) : Takes atof schema (getNext atof) (Unread schema) := by
  rintro now s queue ⟨hs,⟨hgood,hlines⟩ | ⟨hbad,heof,rfl⟩⟩ hline
  · cases queue with
    | nil => exact absurd hlines (List.splitOn_ne_nil _ _)
    | cons line lines =>
      obtain ⟨hshort,htimed⟩ := hline line lines rfl
      obtain ⟨hget,hat,hfail⟩ := getline_short hlines hshort
      rw [← hgood] at hget hat hfail
      have hisgood : s.input.good = true := by
        rw [hgood]
        rfl
      unfold getNext
      rw [bind_of_ok (get_apply s), if_pos hisgood]
      simp only [hget]
      rw [bind_of_ok (set_apply _ _)]
      cases hempty : emptyLine (cString line) with
      | true =>
        refine ⟨{ s with input := s.input.getline.2 },?_,hs,?_⟩
        · simp [TimedQueue.next,skips,hempty]
        · simpa [TimedQueue.next,skips,hempty] using hat
      | false =>
        have ht := htimed hempty
        have hne : line ≠ [] := by
          rintro rfl
          cases hempty
        obtain ⟨t,hparse,htschema,htinput,-,hbytes⟩ :=
          @parseLineBuffer_timed atof _ _ { s with input := s.input.getline.2 } _ hstart hs ht
        rw [if_neg Bool.false_ne_true, bind_of_ok hparse, bind_of_ok (notYet_timed htschema ht now)]
        by_cases hnow : now < (timestamp (cString line)).toNat
        · have hwait : ¬ stampOf line ≤ now := not_le.mpr hnow
          have hback : t.input.seekg s.input.rest = s.input := by
            have htfail : t.input.failbit = false := htinput ▸ hfail hne
            rw [IStream.seekg, htfail, if_neg Bool.false_ne_true, ← hgood]
          refine ⟨{ t with input := s.input },?_,htschema,?_⟩
          · rw [if_pos (decide_eq_true hnow), bind_of_ok (modify_apply _ _), hback]
            simp [TimedQueue.next,skips,hempty,hwait]
          · have hnext : (TimedQueue.next skips stampOf now (line :: lines)).2 = line :: lines := by
              simp [TimedQueue.next,skips,hempty,hwait]
            rw [hnext]
            exact .inl ⟨hgood,hlines⟩
        · have hdue : stampOf line ≤ now := not_lt.mp hnow
          refine ⟨t,?_,htschema,?_⟩
          · rw [if_neg (by simpa using hnow), bind_of_ok (get_apply t), hbytes]
            simp [TimedQueue.next,skips,hempty,hdue]
          · rw [htinput]
            simpa [TimedQueue.next,skips,hempty,hdue] using hat
  · refine ⟨s,?_,hs,.inr ⟨hbad,heof,rfl⟩⟩
    unfold getNext
    rw [bind_of_ok (get_apply s), hbad, if_neg Bool.false_ne_true, if_pos heof]
    rfl

def Queued (schema : Schema) (s : FileSource) (lines : List (List Char)) : Prop :=
  s.schema = schema ∧ s.rawDataBuf = lines.map cString ∧ ∀ line ∈ lines, skips line = false

theorem getNextBuffered_takes (hstart : start schemaLine = some schema) : Takes atof schema (getNextBuffered atof) (Queued schema) := by
  rintro now s queue ⟨hs,hbuf,hkept⟩ hline
  unfold getNextBuffered
  rw [bind_of_ok (get_apply s), hbuf]
  cases queue with
  | nil => exact ⟨s,rfl,hs,hbuf,hkept⟩
  | cons line lines =>
    obtain ⟨hempty,hrest⟩ := List.forall_mem_cons.mp hkept
    have ht := (hline line lines rfl).timed hempty
    obtain ⟨t,hparse,htschema,-,htbuf,hbytes⟩ := @parseLineBuffer_timed atof _ _ _ _ hstart hs ht
    have hfull : ¬ emptyLine (cString line) = true := by
      rw [Bool.not_eq_true]
      exact hempty
    simp only [List.map_cons]
    rw [if_neg hfull, bind_of_ok hparse, if_neg ht.letter, bind_of_ok (notYet_timed htschema ht now)]
    by_cases hnow : now < (timestamp (cString line)).toNat
    · have hwait : ¬ stampOf line ≤ now := not_le.mpr hnow
      have hnext : TimedQueue.next skips stampOf now (line :: lines) = (none,line :: lines) := by
        simp [TimedQueue.next,hempty,hwait]
      rw [if_pos (decide_eq_true hnow), hnext]
      exact ⟨t,rfl,htschema,htbuf.trans hbuf,hkept⟩
    · have hdue : stampOf line ≤ now := not_lt.mp hnow
      have hnext : TimedQueue.next skips stampOf now (line :: lines) = (some line,lines) := by
        simp [TimedQueue.next,hempty,hdue]
      rw [if_neg (by simpa using hnow), bind_of_ok (modify_apply _ _), bind_of_ok (get_apply _), hnext]
      refine ⟨{ t with rawDataBuf := t.rawDataBuf.tail },?_,htschema,?_,hrest⟩
      · rw [Option.map_some, ← hbytes]
        rfl
      · rw [htbuf, hbuf]
        rfl

def ReadsQueue (schema : Schema) (times : ℕ → ℕ) (queue : List (List Char)) : Prop :=
  ∀ before line behind, queue = before ++ line :: behind →
    (∀ l ∈ TimedQueue.items skips before, TimedQueue.Due stampOf times l) → schema.Readable line

def delivered (atof : List Char → BitVec 32) (schema : Schema) (d : List Char × ℕ) : Delivery × ℕ :=
  (.tuple (schema.tuple atof (cString d.1)),d.2)

section Run
variable {m : ℕ → SourceM (Option (List Byte))} {R : FileSource → List (List Char) → Prop} {queue : List (List Char)} {s : FileSource}

/-- The calls deliver what the requests take. -/
theorem Takes.deliveries (h : Takes atof schema m R) (hs : R s queue) (hq : ReadsQueue schema times queue) (n : ℕ) : ∃ t,
    deliveries m times s n = some ((TimedQueue.run skips stampOf times queue n).1.map (delivered atof schema),t) ∧
      R t (TimedQueue.run skips stampOf times queue n).2 := by
  induction n with
  | zero => exact ⟨s,rfl,hs⟩
  | succ n ih =>
    obtain ⟨t,ht,hR⟩ := ih
    obtain ⟨taken,hqueue,-,hdue⟩ := @TimedQueue.run_split _ skips stampOf times queue n
    have hfirst : ∀ line lines, (TimedQueue.run skips stampOf times queue n).2 = line :: lines → schema.Readable line := by
      intro line lines hrest
      rw [hrest] at hqueue
      exact hq taken line lines hqueue hdue
    obtain ⟨u,hu,hRu⟩ := h (times n) t _ hR hfirst
    refine ⟨u,?_,hRu⟩
    rw [Coordinator.deliveries, ht, TimedQueue.run, List.map_append]
    cases hnext : (TimedQueue.next skips stampOf (times n) (TimedQueue.run skips stampOf times queue n).2).1 with
    | none =>
      rw [hnext] at hu
      simp [hu]
    | some line =>
      rw [hnext] at hu
      simp [hu,delivered]

theorem readable_of_taken {taken rest : List (List Char)} (hq : ReadsQueue schema times queue) (hqueue : queue = taken ++ rest)
    (hdue : ∀ l ∈ TimedQueue.items skips taken, TimedQueue.Due stampOf times l) : ∀ line ∈ TimedQueue.items skips taken, schema.Timed (cString line) := by
  intro line hline
  obtain ⟨hmem,hskip⟩ := List.mem_filter.mp hline
  obtain ⟨before,behind,rfl⟩ := List.append_of_mem hmem
  have hread := hq before line (behind ++ rest) (by rw [hqueue, List.append_assoc]; rfl) (by
    intro l hl
    apply hdue
    rw [TimedQueue.items_append]
    exact List.mem_append_left _ hl)
  apply hread.timed
  simpa [skips] using hskip

open Classical in
/-- An order in which the lines are taken delivers every line once, if it stops with the file. -/
theorem Takes.readsOnce (h : Takes atof schema m R) (hs : R s queue) (hq : ReadsQueue schema times queue) (hmono : Monotone times)
    {lines : List (List Char)} (hfront : TimedQueue.dueFront skips stampOf times queue = TimedQueue.dueFront skips stampOf times lines) :
    ReadsOnce atof schema ((TimedQueue.items skips lines).map cString) times (Coordinator.deliveries m times s) := by
  constructor
  · intro n
    obtain ⟨t,ht,-⟩ := h.deliveries hs hq n
    rw [ht]
    rfl
  · intro n d t hd
    obtain ⟨t',ht',-⟩ := h.deliveries hs hq n
    obtain ⟨rfl,rfl⟩ := Prod.mk.inj (Option.some.inj (ht'.symm.trans hd))
    refine ⟨((TimedQueue.run skips stampOf times queue n).1.map Prod.fst).map cString,?_,?_⟩
    · apply List.IsPrefix.map
      apply (TimedQueue.run_dueFront queue n).trans
      rw [hfront]
      exact List.takeWhile_prefix _
    · obtain ⟨taken,hqueue,hmap,hdue⟩ := @TimedQueue.run_split _ skips stampOf times queue n
      rw [List.map_map, List.forall₂_map_left_iff, List.forall₂_map_right_iff, List.forall₂_same]
      intro e he
      have htaken : e.1 ∈ TimedQueue.items skips taken := by
        rw [← hmap]
        exact List.mem_map_of_mem he
      have htimed := readable_of_taken hq hqueue hdue e.1 htaken
      refine ⟨⟨fun _ => rfl,fun hno => absurd htimed.fields hno⟩,?_⟩
      exact Int.toNat_le.mp (TimedQueue.run_stamps queue n e he)
  · intro front hin hdue
    obtain ⟨n,hn⟩ := @TimedQueue.run_reaches _ skips stampOf _ hmono queue
    obtain ⟨t,ht,-⟩ := h.deliveries hs hq n
    refine ⟨n,_,t,ht,?_⟩
    have hlen := congrArg List.length (hn.trans hfront)
    rw [List.length_map] at hlen ⊢
    rw [hlen]
    obtain ⟨items,hitems,rfl⟩ := List.prefix_map_iff.mp hin
    obtain ⟨rest,hrest⟩ := hitems
    have hall : ∀ l ∈ items, decide (TimedQueue.Due stampOf times l) = true := by
      intro l hl
      obtain ⟨k,hk⟩ := hdue (cString l) (List.mem_map_of_mem hl)
      exact decide_eq_true ⟨k,Int.toNat_le.mpr hk⟩
    rw [TimedQueue.dueFront, ← hrest, List.takeWhile_append_of_pos hall, List.length_map, List.length_append]
    exact Nat.le_add_right _ _

/-- What is delivered from one queue is delivered from another one that ends with the same line. -/
theorem Takes.covers {m' : ℕ → SourceM (Option (List Byte))} {R' : FileSource → List (List Char) → Prop} {queue' : List (List Char)}
    {s' : FileSource} (h : Takes atof schema m R) (hs : R s queue) (hq : ReadsQueue schema times queue) (h' : Takes atof schema m' R')
    (hs' : R' s' queue') (hq' : ReadsQueue schema times queue') (hmono : Monotone times)
    (hfront : TimedQueue.dueFront skips stampOf times queue = TimedQueue.dueFront skips stampOf times queue') :
    Covers (Coordinator.deliveries m times s) (Coordinator.deliveries m' times s') := by
  intro n d t hd
  obtain ⟨t',ht',-⟩ := h.deliveries hs hq n
  obtain ⟨rfl,rfl⟩ := Prod.mk.inj (Option.some.inj (ht'.symm.trans hd))
  obtain ⟨n',hn'⟩ := @TimedQueue.run_reaches _ skips stampOf _ hmono queue'
  obtain ⟨u,hu,-⟩ := h'.deliveries hs' hq' n'
  refine ⟨n',_,u,hu,?_⟩
  have hbytes : ∀ r : List (List Char × ℕ), (r.map (delivered atof schema)).map Prod.fst =
      (r.map Prod.fst).map fun line => .tuple (schema.tuple atof (cString line)) := by
    intro r
    rw [List.map_map, List.map_map]
    rfl
  rw [hbytes, hbytes, hn', ← hfront]
  exact (TimedQueue.run_dueFront queue n).map _

end Run

/-- What the loop keeps: the lines that are not blank, up to the first one that is too long, and the part of
that line which has been read. -/
theorem loadLines_lines : ∀ lines rest : List _, linesOf rest = lines → ∃ short more last : List (List Char), lines = short ++ more ∧
    (loadLines (.reading rest)).1 = (TimedQueue.items skips short ++ last).map cString ∧ (∀ line ∈ last, skips line = false) ∧
    (more = [] ∧ last = [] ∨ ∃ long behind, more = long :: behind ∧ MAX_LINE_SIZE ≤ long.length) := by
  intro lines
  induction lines with
  | nil =>
    intro rest h
    exact absurd h (List.splitOn_ne_nil _ _)
  | cons line lines ih =>
    intro rest h
    have hgood : (IStream.reading rest).good = true := rfl
    rw [loadLines, dif_pos hgood]
    by_cases hlen : line.length < MAX_LINE_SIZE
    · obtain ⟨hget,hat,-⟩ := getline_short h hlen
      have hload : ∃ short more last : List (List Char), lines = short ++ more ∧
          (loadLines (IStream.reading rest).getline.2).1 = (TimedQueue.items skips short ++ last).map cString ∧ (∀ line ∈ last, skips line = false) ∧
          (more = [] ∧ last = [] ∨ ∃ long behind, more = long :: behind ∧ MAX_LINE_SIZE ≤ long.length) := by
        obtain ⟨hread,hlines⟩ | ⟨hbad,-,rfl⟩ := hat
        · rw [hread]
          exact ih _ hlines
        · refine ⟨[],[],[],rfl,?_,by simp,.inl ⟨rfl,rfl⟩⟩
          rw [loadLines, dif_neg (by simp [hbad])]
          rfl
      obtain ⟨short,more,last,rfl,hkept,hlast,hend⟩ := hload
      refine ⟨line :: short,more,last,rfl,?_,hlast,hend⟩
      simp only [hget, hkept]
      cases hempty : emptyLine (cString line) with
      | true => simp [TimedQueue.items,skips,hempty]
      | false => simp [TimedQueue.items,skips,hempty]
    · have hover : MAX_LINE_SIZE ≤ line.length := not_lt.mp hlen
      rw [getline_long h hover]
      refine ⟨[],line :: lines,[line.take (MAX_LINE_SIZE - 1)].filter fun l => !skips l,rfl,?_,?_,.inr ⟨line,lines,rfl,hover⟩⟩
      · rw [loadLines, dif_neg (by simp [IStream.good])]
        cases hempty : emptyLine (cString (line.take (MAX_LINE_SIZE - 1))) with
        | true => simp [TimedQueue.items,skips,hempty]
        | false => simp [TimedQueue.items,skips,hempty]
      · intro l hl
        simpa using (List.mem_filter.mp hl).2

theorem readsQueue_lines (h : schema.ReadsReadable content times) : ReadsQueue schema times (linesOf content) := by
  intro before line behind hsplit hdue
  apply h before line behind hsplit
  intro l hl
  cases hempty : emptyLine (cString l) with
  | true => exact .inl rfl
  | false =>
    obtain ⟨k,hk⟩ := hdue l (List.mem_filter.mpr ⟨hl,by simp [skips,hempty]⟩)
    exact .inr ⟨k,Int.toNat_le.mp hk⟩

section Loaded
variable {short more last : List (List Char)} (h : ReadsQueue schema times (short ++ more))
  (hend : more = [] ∧ last = [] ∨ ∃ long behind, more = long :: behind ∧ MAX_LINE_SIZE ≤ long.length)
include h hend

/-- A line that is too long stands behind one whose time never comes. -/
theorem notDue_of_long (hlong : last ≠ [] ∨ more ≠ []) : ∃ l ∈ TimedQueue.items skips short, ¬ TimedQueue.Due stampOf times l := by
  obtain ⟨rfl,rfl⟩ | ⟨long,behind,rfl,hlen⟩ := hend
  · rcases hlong with hne | hne <;> exact absurd rfl hne
  · by_contra hall
    push Not at hall
    exact absurd (h short long behind rfl hall).short (not_lt.mpr hlen)

theorem readsQueue_loaded : ReadsQueue schema times (TimedQueue.items skips short ++ last) := by
  intro before line behind hsplit hdue
  obtain ⟨mid,hbefore,htail⟩ | ⟨mid,hshort,htail⟩ := List.append_eq_append_iff.mp hsplit
  · -- the line lies behind all of `short`
    have hne : last ≠ [] := by
      rw [htail]
      exact List.append_ne_nil_of_right_ne_nil _ (List.cons_ne_nil _ _)
    obtain ⟨l,hl,hnot⟩ := notDue_of_long h hend (.inl hne)
    apply absurd _ hnot
    apply hdue
    rw [hbefore, TimedQueue.items_append, TimedQueue.items_items]
    exact List.mem_append_left _ hl
  · cases mid with
    | nil =>
      rw [List.nil_append] at htail
      obtain ⟨l,hl,hnot⟩ := notDue_of_long h hend (.inl (htail ▸ List.cons_ne_nil _ _))
      apply absurd _ hnot
      apply hdue
      rw [List.append_nil] at hshort
      rw [← hshort, TimedQueue.items_items]
      exact hl
    | cons x mid =>
      obtain ⟨rfl,-⟩ := List.cons.inj htail
      obtain ⟨front,rest,rfl,hfront⟩ := TimedQueue.items_split hshort
      apply h front line (rest ++ more)
      · rw [List.append_assoc]
        rfl
      · intro l hl
        apply hdue
        rw [← hfront, TimedQueue.items_items]
        exact hl

theorem dueFront_loaded : TimedQueue.dueFront skips stampOf times (TimedQueue.items skips short ++ last) =
    TimedQueue.dueFront skips stampOf times (short ++ more) := by
  by_cases hlong : last ≠ [] ∨ more ≠ []
  · have hnot := notDue_of_long h hend hlong
    rw [TimedQueue.dueFront_append hnot, TimedQueue.dueFront_append (by rw [TimedQueue.items_items]; exact hnot), TimedQueue.dueFront_items]
  · push Not at hlong
    rw [hlong.1, hlong.2, List.append_nil, List.append_nil, TimedQueue.dueFront_items]

end Loaded

/-- When every line that comes to be read is readable, the two readers deliver the same lines, each of
them once and in order, at any times that never decrease. -/
theorem readers_agree (hstart : start schemaLine = some schema) (hmono : Monotone times) (h : schema.ReadsReadable content times)
    (tupleBuf : ℕ → Byte) : ReadersAgree atof schema tupleBuf content times := by
  have hlines := readsQueue_lines h
  obtain ⟨short,more,last,hsplit,hload,hlast,hend⟩ := loadLines_lines (linesOf content) content rfl
  have hloaded : finalState (loadSourceData (.started schema tupleBuf content)) =
      ⟨schema,tupleBuf,(loadLines (.reading content)).2,(TimedQueue.items skips short ++ last).map cString⟩ := by
    unfold loadSourceData
    rw [bind_of_ok (get_apply _), bind_of_ok (set_apply _ _), ← hload]
    by_cases heof : (loadLines (.reading content)).2.eofbit = false
    · rw [show (FileSource.started schema tupleBuf content).input = .reading content from rfl, failIf_pos heof]
      rfl
    · rw [show (FileSource.started schema tupleBuf content).input = .reading content from rfl, failIf_neg heof]
      rfl
  have hfile : Unread schema (.started schema tupleBuf content) (linesOf content) := ⟨rfl,at_reading content⟩
  have hbuffer : Queued schema (finalState (loadSourceData (.started schema tupleBuf content))) (TimedQueue.items skips short ++ last) := by
    rw [hloaded]
    refine ⟨rfl,rfl,?_⟩
    intro line hline
    rcases List.mem_append.mp hline with hline | hline
    · simpa using (List.mem_filter.mp hline).2
    · exact hlast line hline
  have hnonblank : nonblank content = (TimedQueue.items skips (linesOf content)).map cString := List.filter_map ..
  have hsplitted : ReadsQueue schema times (short ++ more) := hsplit ▸ hlines
  have hqueued := readsQueue_loaded hsplitted hend
  have hfront := dueFront_loaded hsplitted hend
  rw [← hsplit] at hfront
  have htakes := @getNext_takes atof _ _ hstart
  have htakesBuffered := @getNextBuffered_takes atof _ _ hstart
  constructor
  · rw [hnonblank]
    exact htakes.readsOnce hfile hlines hmono rfl
  · rw [hnonblank]
    exact htakesBuffered.readsOnce hbuffer hqueued hmono hfront
  · exact htakes.covers hfile hlines htakesBuffered hbuffer hqueued hmono hfront.symm
  · exact htakesBuffered.covers hbuffer hqueued htakes hfile hlines hmono hfront

def integerSchema : Line := ⟨['i'],by decide,by decide⟩

/-- Three lines that come due at different times, with a blank line between the first two. -/
theorem integer_agree : ∃ schema, start integerSchema = some schema ∧
    ReadersAgree (fun _ => 0) schema (fun _ => 0) ['2','\n','\n','5','\n','9','\n'] fun k => 2 * k := by
  have hstart : start integerSchema = some ⟨[.INT],[0],4⟩ := rfl
  have hmono : Monotone fun k => 2 * k := fun _ _ h => Nat.mul_le_mul_left 2 h
  have hdigit : ∀ c ∈ ['2','5','9'], Schema.Timed ⟨[.INT],[0],4⟩ [c] := by
    intro c hc
    have hfields {c : Char} (hsplit : (List.splitOn ',' [c])[0]? = some [c]) : HasFields 1 [c] := by
      intro i hi
      obtain rfl : i = 0 := Nat.lt_one_iff.mp hi
      exact ⟨[c],hsplit,List.cons_ne_nil _ _⟩
    simp only [List.mem_cons, List.not_mem_nil, or_false] at hc
    rcases hc with rfl | rfl | rfl <;>
      exact ⟨by decide,hfields (by decide),by decide,by decide,by decide,by decide⟩
  refine ⟨_,hstart,readers_agree hstart hmono ?_ _⟩
  intro before line behind hsplit _
  have hmem : line ∈ [['2'],[],['5'],['9'],[]] := by
    have hlines : linesOf ['2','\n','\n','5','\n','9','\n'] = [['2'],[],['5'],['9'],[]] := by decide
    rw [← hlines, hsplit]
    exact List.mem_append_right _ List.mem_cons_self
  simp only [List.mem_cons, List.not_mem_nil, or_false] at hmem
  rcases hmem with rfl | rfl | rfl | rfl | rfl
  · exact ⟨by decide,fun _ => hdigit '2' (by decide)⟩
  · exact ⟨by decide,fun hempty => nomatch hempty⟩
  · exact ⟨by decide,fun _ => hdigit '5' (by decide)⟩
  · exact ⟨by decide,fun _ => hdigit '9' (by decide)⟩
  · exact ⟨by decide,fun hempty => nomatch hempty⟩

def stringSchema : Line := ⟨['c','2'],by decide,by decide⟩

/-- A line that begins with the letter `i` is never taken from the queue. -/
theorem letter_disagree : ∃ schema, start stringSchema = some schema ∧
    ¬ ReadersAgree (fun _ => 0) schema (fun _ => 0) ['i'] fun _ => 0 := by
  refine ⟨⟨[.CHAR 2],[0],2⟩,rfl,?_⟩
  intro h
  have hload : loadLines (.reading ['i']) = ([['i']],⟨[],true,false⟩) := by
    have hgood : (IStream.reading ['i']).good = true := rfl
    have hget : (IStream.reading ['i']).getline = (['i'],⟨[],true,false⟩) := rfl
    have hend : loadLines ⟨[],true,false⟩ = ([],⟨[],true,false⟩) := by rw [loadLines, dif_neg (by decide)]
    rw [loadLines, dif_pos hgood, hget]
    simp only [hend]
    rfl
  have hqueue : finalState (loadSourceData (.started ⟨[.CHAR 2],[0],2⟩ (fun _ => 0) ['i'])) =
      ⟨⟨[.CHAR 2],[0],2⟩,fun _ => 0,⟨[],true,false⟩,[['i']]⟩ := by
    unfold loadSourceData
    rw [bind_of_ok (get_apply _), bind_of_ok (set_apply _ _)]
    simp only [FileSource.started, hload]
    rfl
  obtain ⟨d,s,hd,hlen⟩ : ∃ d s, deliveries (getNextBuffered fun _ => 0) (fun _ => 0)
      ⟨⟨[.CHAR 2],[0],2⟩,fun _ => 0,⟨[],true,false⟩,[['i']]⟩ 2 = some (d,s) ∧ d.length = 2 := ⟨_,_,rfl,rfl⟩
  have hbuffer := h.buffer
  rw [hqueue] at hbuffer
  obtain ⟨front,hin,hall⟩ := hbuffer.inOrder 2 d s hd
  have hshort := hin.length_le
  rw [hall.length_eq, hlen] at hshort
  exact absurd hshort (by decide)

end AqsiosCoordinator.Coordinator
