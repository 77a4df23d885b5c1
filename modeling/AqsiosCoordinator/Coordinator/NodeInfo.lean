import AqsiosCoordinator.Foundation.Reader
import Mathlib.Data.Rat.Floor

/-! # Load reports of one node

`Node_Info` keeps the moving averages a node reports. A report is read where it
lies in the receive buffer by `strtod` and `strtol`; these are modelled by the
text they accept, over any type of doubles. A reader without a result is a read
past the buffer or a null pointer.
-/
namespace AqsiosCoordinator.Coordinator
open Foundation Foundation.Reader

abbrev Msg := Reader Char

/-- The text of a floating point numeral as `strtod` accepts it. -/
inductive Numeral where
  | finite (base : ℕ) (intDigits fracDigits : List Char) (exponent : ℤ)
  | infinity
  | nan

class Double (D : Type) extends Zero D, Add D, Sub D, Mul D, OfScientific D where
  lt : D → D → Bool
  ofNumeral : Bool → Numeral → D
  /-- Conversion to `int`; none when the value is out of range. -/
  toInt : D → Option ℤ

def digitValue (c : Char) : ℕ :=
  if '0' ≤ c ∧ c ≤ '9' then c.toNat - '0'.toNat
  else if 'a' ≤ c then c.toNat - 'a'.toNat + 10 else c.toNat - 'A'.toNat + 10

def digitsValue (base : ℕ) (ds : List Char) : ℕ := ds.foldl (fun v d => v*base + digitValue d) 0

/-- Doubles without rounding, to run the model on; there are no infinities among them. -/
instance : Double ℚ where
  lt x y := decide (x < y)
  ofNumeral neg n := match n with
    | .finite base ds fs e =>
      let v := (digitsValue base (ds ++ fs) : ℚ) / (base : ℚ)^fs.length * (if base = 10 then 10 else 2)^e
      if neg then -v else v
    | .infinity => 0
    | .nan => 0
  toInt x :=
    let i := if x < 0 then ⌈x⌉ else ⌊x⌋
    if -2^31 ≤ i ∧ i < 2^31 then some i else none

def NUL : Char := Char.ofNat 0

def isSpace (c : Char) : Bool := c = ' ' || (9 ≤ c.toNat && c.toNat ≤ 13)
def isDigit (c : Char) : Bool := '0' ≤ c && c ≤ '9'
def isHexDigit (c : Char) : Bool := isDigit c || ('a' ≤ c && c ≤ 'f') || ('A' ≤ c && c ≤ 'F')
def isNanChar (c : Char) : Bool := isDigit c || ('a' ≤ c && c ≤ 'z') || ('A' ≤ c && c ≤ 'Z') || c = '_'

def sign : Msg Bool := do
  let c ← peek
  if c = '-' then do skip; pure true
  else if c = '+' then do skip; pure false
  else pure false

/-- An exponent part counts only with at least one digit. -/
def exponentPart (mark : Char → Bool) : Msg (Option ℤ) := do
  let c ← peek
  if mark c then do
    skip
    let neg ← sign
    let ds ← span isDigit
    if ds = [] then pure none
    else pure (some (if neg then -(digitsValue 10 ds : ℤ) else digitsValue 10 ds))
  else pure none

def fraction (digit : Char → Bool) : Msg (List Char) := do
  let c ← peek
  if c = '.' then do skip; span digit else pure []

/-- Digits with an optional point, at least one digit in all. -/
def mantissa (base : ℕ) (digit mark : Char → Bool) : Msg (Option Numeral) := do
  let ds ← span digit
  let fs ← fraction digit
  if ds = [] ∧ fs = [] then pure none
  else do
    let e ← attempt (exponentPart mark)
    pure (some (.finite base ds fs (e.getD 0)))

def keyword : List Char → Msg (Option Unit)
  | [] => pure (some ())
  | w :: word => do
    let c ← peek
    if c.toLower = w then do skip; keyword word else pure none

def hexNumeral : Msg (Option Numeral) := do
  match ← keyword ['0','x'] with
  | none => pure none
  | some _ => mantissa 16 isHexDigit (fun c => c = 'p' || c = 'P')

def decimalNumeral : Msg (Option Numeral) := mantissa 10 isDigit (fun c => c = 'e' || c = 'E')

def infinityNumeral : Msg (Option Numeral) := do
  match ← keyword ['i','n','f'] with
  | none => pure none
  | some _ => do
    let _ ← attempt (keyword ['i','n','i','t','y'])
    pure (some .infinity)

def nanPayload : Msg (Option Unit) := do
  let c ← peek
  if c = '(' then do
    skip
    let _ ← span isNanChar
    let d ← peek
    if d = ')' then do skip; pure (some ()) else pure none
  else pure none

def nanNumeral : Msg (Option Numeral) := do
  match ← keyword ['n','a','n'] with
  | none => pure none
  | some _ => do
    let _ ← attempt nanPayload
    pure (some .nan)

def orElse (m n : Msg (Option Numeral)) : Msg (Option Numeral) := do
  match ← attempt m with
  | some v => pure (some v)
  | none => attempt n

def signedNumeral : Msg (Option (Bool × Numeral)) := do
  let _ ← span isSpace
  let neg ← sign
  let v ← orElse hexNumeral (orElse decimalNumeral (orElse infinityNumeral nanNumeral))
  pure (v.map (fun n => (neg,n)))

/-- `strtod (msg, &msg)`: zero, and the cursor stays, when no numeral stands there. -/
def strtod {D : Type} [Double D] : Msg D := do
  match ← attempt signedNumeral with
  | some (neg,n) => pure (Double.ofNumeral neg n)
  | none => pure 0

def signedDigits : Msg (Option ℤ) := do
  let _ ← span isSpace
  let neg ← sign
  let ds ← span isDigit
  if ds = [] then pure none
  else pure (some (if neg then -(digitsValue 10 ds : ℤ) else digitsValue 10 ds))

/-- `strtol (msg, &msg, 10)`, clamped to the range of a 64 bit `long`. -/
def strtol : Msg ℤ := do
  match ← attempt signedDigits with
  | some v => pure (max (-2^63) (min v (2^63 - 1)))
  | none => pure 0

def assignInt (v : Option ℤ) : Msg ℤ := match v with | some i => pure i | none => undefined

/-- Moves `msg` behind the comma that `strchr (msg, ',')` finds; a null result is dereferenced. -/
def skipHeader : Msg Unit := do
  let _ ← span (fun c => c != ',' && c != NUL)
  let c ← peek
  if c = ',' then skip else undefined

structure QueryInfo (D : Type) where
  queryID : ℤ
  queryLoad : D

structure NodeInfo (D : Type) where
  numberOfClasses : ℕ
  capacities : List D
  capacityUsages : List D
  localPriorities : List D
  activeQueries : List (QueryInfo D)
  isReady : Bool
  nodeID : ℕ
  listeningPort : ℤ

variable {D : Type} [Double D]

def NodeInfo.new (numberOfClasses : ℕ) : NodeInfo D where
  numberOfClasses := numberOfClasses
  capacities := List.replicate numberOfClasses 0.0
  capacityUsages := List.replicate numberOfClasses 0.0
  localPriorities := List.replicate numberOfClasses 0.0
  activeQueries := []
  isReady := false
  nodeID := 0
  listeningPort := 0

def agingFactor : D := 0.2

/-- The moving average, started by the first value that is not near zero. -/
def aged (old new : D) : D :=
  if Double.lt old 0.01 then new else old*(1.0 - agingFactor) + agingFactor*new

def readClasses (store : D → D → D) : ℕ → List D → Msg (List D)
  | 0, old => pure old
  | _+1, [] => undefined
  | k+1, x :: old => do
    let v ← strtod
    skip
    let rest ← readClasses store k old
    pure (store x v :: rest)

def recordQuery (queryID : ℤ) (queryLoad : D) : List (QueryInfo D) → List (QueryInfo D)
  | [] => [⟨queryID,queryLoad⟩]
  | q :: qs =>
    if q.queryID = queryID then { q with queryLoad := aged q.queryLoad queryLoad } :: qs
    else q :: recordQuery queryID queryLoad qs

def msgSize : ℕ := 512

/-- The loop `while (strcmp (msg, "E") != 0)`. Every turn moves the cursor by two
commas, so the buffer ends before as many turns as it has bytes do. -/
def readQueries : ℕ → List (QueryInfo D) → Msg (List (QueryInfo D))
  | 0, _ => undefined
  | turns+1, qs => do
    if ← startsWith ['E',NUL] then pure qs
    else do
      let queryID ← strtol
      skip
      let queryLoad ← strtod
      skip
      readQueries turns (recordQuery (queryID.bmod (2^32)) queryLoad qs)

namespace NodeInfo

/-- The class level part of a load report, sent with types 0 and 1. -/
def updateClasses (msgType : ℤ) (info : NodeInfo D) : Msg (NodeInfo D) :=
  if msgType = 0 ∨ msgType = 1 then do
    let capacities ← readClasses aged info.numberOfClasses info.capacities
    let capacityUsages ← readClasses aged info.numberOfClasses info.capacityUsages
    let localPriorities ← readClasses (fun _ v => v) info.numberOfClasses info.localPriorities
    pure { info with capacities := capacities, capacityUsages := capacityUsages, localPriorities := localPriorities }
  else pure info

/-- The active queries of a load report, sent with types 0 and 2. -/
def updateQueries (msgType : ℤ) (info : NodeInfo D) : Msg (NodeInfo D) :=
  if msgType = 0 ∨ msgType = 2 then do
    let turns ← remaining
    let activeQueries ← readQueries (turns + 1) info.activeQueries
    pure { info with activeQueries := activeQueries }
  else pure info

def updateLoadInfo (info : NodeInfo D) : Msg (ℤ × NodeInfo D) := do
  skipHeader
  let t ← (strtod : Msg D)
  let msgType ← assignInt (Double.toInt t)
  skip
  let info ← updateClasses msgType info
  let info ← updateQueries msgType info
  pure (0,info)

def updateListeningPortNo (info : NodeInfo D) : Msg (ℤ × NodeInfo D) := do
  skipHeader
  let p ← (strtod : Msg D)
  let port ← assignInt (Double.toInt p)
  pure (0,{ info with listeningPort := port })

def update (info : NodeInfo D) : Msg (ℤ × NodeInfo D) := do
  if ← startsWith ['N','I'] then updateLoadInfo info
  else if ← startsWith ['P'] then updateListeningPortNo info
  else pure (-1,info)

def getTotalCapacityUsage (info : NodeInfo D) : D :=
  (info.capacityUsages.take info.numberOfClasses).foldl (fun total usage => total + usage) 0

end NodeInfo

theorem local_sign : Local sign := by
  refine local_peek.bind fun c => Local.ite ?_ (Local.ite ?_ (local_pure _))
  · exact local_skip.bind fun _ => local_pure _
  · exact local_skip.bind fun _ => local_pure _

theorem local_exponentPart (mark : Char → Bool) : Local (exponentPart mark) := by
  refine local_peek.bind fun c => Local.ite ?_ (local_pure _)
  refine local_skip.bind fun _ => local_sign.bind fun neg => (local_span _).bind fun ds => ?_
  exact Local.ite (local_pure _) (local_pure _)

theorem local_mantissa (base : ℕ) (digit mark : Char → Bool) : Local (mantissa base digit mark) := by
  have hf : Local (fraction digit) :=
    local_peek.bind fun c => Local.ite (local_skip.bind fun _ => local_span _) (local_pure _)
  refine (local_span _).bind fun ds => hf.bind fun fs => Local.ite (local_pure _) ?_
  exact (local_exponentPart mark).attempt.bind fun e => local_pure _

theorem local_keyword (word : List Char) : Local (keyword word) := by
  induction word with
  | nil => exact local_pure _
  | cons w word ih =>
    exact local_peek.bind fun c => Local.ite (local_skip.bind fun _ => ih) (local_pure _)

theorem local_hexNumeral : Local hexNumeral := by
  refine (local_keyword _).bind fun r => ?_
  cases r with
  | none => exact local_pure _
  | some _ => exact local_mantissa _ _ _

theorem local_infinityNumeral : Local infinityNumeral := by
  refine (local_keyword _).bind fun r => ?_
  cases r with
  | none => exact local_pure _
  | some _ => exact (local_keyword _).attempt.bind fun _ => local_pure _

theorem local_nanPayload : Local nanPayload := by
  refine local_peek.bind fun c => Local.ite ?_ (local_pure _)
  refine local_skip.bind fun _ => (local_span _).bind fun _ => local_peek.bind fun d => ?_
  exact Local.ite (local_skip.bind fun _ => local_pure _) (local_pure _)

theorem local_nanNumeral : Local nanNumeral := by
  refine (local_keyword _).bind fun r => ?_
  cases r with
  | none => exact local_pure _
  | some _ => exact local_nanPayload.attempt.bind fun _ => local_pure _

theorem local_orElse {m n : Msg (Option Numeral)} (hm : Local m) (hn : Local n) : Local (orElse m n) := by
  refine hm.attempt.bind fun r => ?_
  cases r with
  | none => exact hn.attempt
  | some _ => exact local_pure _

theorem local_signedNumeral : Local signedNumeral := by
  refine (local_span _).bind fun _ => local_sign.bind fun neg => ?_
  have hn : Local (orElse hexNumeral (orElse decimalNumeral (orElse infinityNumeral nanNumeral))) :=
    local_orElse local_hexNumeral
      (local_orElse (local_mantissa _ _ _) (local_orElse local_infinityNumeral local_nanNumeral))
  exact hn.bind fun v => local_pure _

theorem local_strtod : Local (strtod : Msg D) := by
  refine local_signedNumeral.attempt.bind fun r => ?_
  cases r with
  | none => exact local_pure _
  | some v => exact local_pure _

theorem local_strtol : Local strtol := by
  have hd : Local signedDigits := by
    refine (local_span _).bind fun _ => local_sign.bind fun neg => (local_span _).bind fun ds => ?_
    exact Local.ite (local_pure _) (local_pure _)
  refine hd.attempt.bind fun r => ?_
  cases r with
  | none => exact local_pure _
  | some v => exact local_pure _

theorem local_assignInt (v : Option ℤ) : Local (assignInt v) := by
  cases v with
  | none => exact local_undefined
  | some i => exact local_pure _

theorem local_skipHeader : Local skipHeader :=
  (local_span _).bind fun _ => local_peek.bind fun _ => Local.ite local_skip local_undefined

theorem local_readClasses (store : D → D → D) (k : ℕ) (old : List D) : Local (readClasses store k old) := by
  induction k generalizing old with
  | zero => exact local_pure _
  | succ k ih =>
    cases old with
    | nil => exact local_undefined
    | cons x old =>
      exact local_strtod.bind fun v => local_skip.bind fun _ => (ih old).bind fun rest => local_pure _

theorem local_readQueries (turns : ℕ) (qs : List (QueryInfo D)) : Local (readQueries turns qs) := by
  induction turns generalizing qs with
  | zero => exact local_undefined
  | succ turns ih =>
    refine (local_startsWith _).bind fun b => Local.ite (local_pure _) ?_
    exact local_strtol.bind fun q => local_skip.bind fun _ => local_strtod.bind fun l =>
      local_skip.bind fun _ => ih _

/-- More turns do not change what is read. -/
theorem readQueries_mono {turns turns' : ℕ} (h : turns ≤ turns') {qs qs' : List (QueryInfo D)} {buffer rest : List Char}
    (hr : readQueries turns qs buffer = some (qs',rest)) : readQueries turns' qs buffer = some (qs',rest) := by
  induction turns generalizing turns' qs buffer with
  | zero => simp [readQueries,undefined] at hr
  | succ turns ih =>
    obtain ⟨turns',rfl⟩ := Nat.exists_eq_succ_of_ne_zero (by omega : turns' ≠ 0)
    unfold readQueries at hr ⊢
    obtain ⟨b,mid,h1,hr⟩ := bind_eq_some hr
    rw [bind_of_eq h1]
    cases b with
    | true => exact hr
    | false =>
      obtain ⟨q,mid,h2,hr⟩ := bind_eq_some hr
      obtain ⟨_,mid,h3,hr⟩ := bind_eq_some hr
      obtain ⟨l,mid,h4,hr⟩ := bind_eq_some hr
      obtain ⟨_,mid,h5,hr⟩ := bind_eq_some hr
      simp only [Bool.false_eq_true, if_false]
      rw [bind_of_eq h2, bind_of_eq h3, bind_of_eq h4, bind_of_eq h5]
      exact ih (by omega) hr

theorem NodeInfo.local_updateQueries (msgType : ℤ) (info : NodeInfo D) : Local (updateQueries msgType info) := by
  apply Local.ite
  · intro buffer b rest tail h
    obtain ⟨turns,_,h1,h⟩ := bind_eq_some h
    obtain ⟨rfl,rfl⟩ : buffer.length = turns ∧ buffer = _ := by simpa [remaining] using h1
    obtain ⟨qs,mid,h2,h⟩ := bind_eq_some h
    obtain ⟨rfl,rfl⟩ : _ = b ∧ mid = rest := by simpa [pure_apply] using h
    have hlong := local_readQueries _ _ _ _ _ tail h2
    have hmore := readQueries_mono (show buffer.length + 1 ≤ (buffer ++ tail).length + 1 by simp) hlong
    rw [bind_of_eq (show remaining (buffer ++ tail) = some ((buffer ++ tail).length,buffer ++ tail) from rfl), bind_of_eq hmore]
    rfl
  · exact local_pure _

/-- A report that `update` reads to its end is read in the same way whatever lies behind it. -/
theorem NodeInfo.local_update (info : NodeInfo D) : Local info.update := by
  have hclasses (t : ℤ) (i : NodeInfo D) : Local (updateClasses t i) :=
    Local.ite ((local_readClasses _ _ _).bind fun _ => (local_readClasses _ _ _).bind fun _ =>
      (local_readClasses _ _ _).bind fun _ => local_pure _) (local_pure _)
  have hload : Local info.updateLoadInfo :=
    local_skipHeader.bind fun _ => local_strtod.bind fun _ => (local_assignInt _).bind fun t =>
      local_skip.bind fun _ => (hclasses t _).bind fun i => (local_updateQueries t i).bind fun _ => local_pure _
  have hport : Local info.updateListeningPortNo :=
    local_skipHeader.bind fun _ => local_strtod.bind fun _ => (local_assignInt _).bind fun _ => local_pure _
  exact (local_startsWith _).bind fun _ => Local.ite hload
    ((local_startsWith _).bind fun _ => Local.ite hport (local_pure _))

/-- A report never moves a node to another connection. -/
theorem NodeInfo.update_nodeID (info : NodeInfo D) :
    Yields info.update (fun r => r.2.nodeID = info.nodeID) := by
  have hclasses (t : ℤ) (i : NodeInfo D) : Yields (updateClasses t i) (fun r => r.nodeID = i.nodeID) :=
    Yields.ite (yields_bind fun _ => yields_bind fun _ => yields_bind fun _ => yields_pure rfl) (yields_pure rfl)
  have hqueries (t : ℤ) (i : NodeInfo D) : Yields (updateQueries t i) (fun r => r.nodeID = i.nodeID) :=
    Yields.ite (yields_bind fun _ => yields_bind fun _ => yields_pure rfl) (yields_pure rfl)
  have hload : Yields info.updateLoadInfo (fun r => r.2.nodeID = info.nodeID) :=
    yields_bind fun _ => yields_bind fun _ => yields_bind fun t => yields_bind fun _ =>
      (hclasses t info).bind fun i hi => (hqueries t i).bind fun _ hj => yields_pure (hj.trans hi)
  have hport : Yields info.updateListeningPortNo (fun r => r.2.nodeID = info.nodeID) :=
    yields_bind fun _ => yields_bind fun _ => yields_bind fun _ => yields_pure rfl
  exact yields_bind fun _ => Yields.ite hload (yields_bind fun _ => Yields.ite hport (yields_pure rfl))

end AqsiosCoordinator.Coordinator
