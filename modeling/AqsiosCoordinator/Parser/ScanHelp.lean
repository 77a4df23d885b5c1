import AqsiosCoordinator.Coordinator.NodeInfo
import AqsiosCoordinator.Foundation.Arena
import AqsiosCoordinator.Foundation.Outcome

/-! # Identifiers and strings in the scanner

Identifiers are compared with the reserved words in a buffer of lower case letters. The text of
the others, and of quoted strings, is kept in a pool until the command has been parsed.
-/
namespace AqsiosCoordinator.Parser
open Foundation Foundation.Outcome
open Coordinator (NUL)

def MAXCHAR : ℕ := 5000
def MAXSTRINGLEN : ℕ := 256

inductive Stop where
  | exit
  | outOfBounds
  deriving DecidableEq

structure ScanState where
  charpool : ℕ → Char
  charptr : ℕ
  /-- The buffer of `get_id`. -/
  string : ℕ → Char

abbrev ScanM := EStateM Stop ScanState

inductive ReservedWord where
  | RW_REGISTER
  | RW_STREAM
  | RW_RELATION
  | RW_INTEGER
  | RW_FLOAT
  | RW_CHAR
  | RW_BYTE
  | RW_ISTREAM
  | RW_DSTREAM
  | RW_RSTREAM
  | RW_SELECT
  | RW_DISTINCT
  | RW_FROM
  | RW_WHERE
  | RW_GROUP
  | RW_BY
  | RW_AND
  | RW_AS
  | RW_UNION
  | RW_EXCEPT
  | RW_AVG
  | RW_MIN
  | RW_MAX
  | RW_COUNT
  | RW_SUM
  | RW_ROWS
  | RW_RANGE
  | RW_NOW
  | RW_PARTITION
  | RW_UNBOUNDED
  | RW_SECOND
  | RW_MINUTE
  | RW_HOUR
  | RW_DAY
  deriving DecidableEq

def reservedWords : List (List Char × ReservedWord) := [
  (['r','e','g','i','s','t','e','r'],.RW_REGISTER),
  (['s','t','r','e','a','m'],.RW_STREAM),
  (['r','e','l','a','t','i','o','n'],.RW_RELATION),
  (['i','n','t','e','g','e','r'],.RW_INTEGER),
  (['i','n','t'],.RW_INTEGER),
  (['f','l','o','a','t'],.RW_FLOAT),
  (['r','e','a','l'],.RW_FLOAT),
  (['c','h','a','r'],.RW_CHAR),
  (['b','y','t','e'],.RW_BYTE),
  (['i','s','t','r','e','a','m'],.RW_ISTREAM),
  (['d','s','t','r','e','a','m'],.RW_DSTREAM),
  (['r','s','t','r','e','a','m'],.RW_RSTREAM),
  (['s','e','l','e','c','t'],.RW_SELECT),
  (['d','i','s','t','i','n','c','t'],.RW_DISTINCT),
  (['f','r','o','m'],.RW_FROM),
  (['w','h','e','r','e'],.RW_WHERE),
  (['g','r','o','u','p'],.RW_GROUP),
  (['b','y'],.RW_BY),
  (['a','n','d'],.RW_AND),
  (['a','s'],.RW_AS),
  (['u','n','i','o','n'],.RW_UNION),
  (['e','x','c','e','p','t'],.RW_EXCEPT),
  (['a','v','g'],.RW_AVG),
  (['m','i','n'],.RW_MIN),
  (['m','a','x'],.RW_MAX),
  (['c','o','u','n','t'],.RW_COUNT),
  (['s','u','m'],.RW_SUM),
  (['r','o','w','s'],.RW_ROWS),
  (['r','a','n','g','e'],.RW_RANGE),
  (['n','o','w'],.RW_NOW),
  (['p','a','r','t','i','t','i','o','n'],.RW_PARTITION),
  (['u','n','b','o','u','n','d','e','d'],.RW_UNBOUNDED),
  (['s','e','c','o','n','d'],.RW_SECOND),
  (['s','e','c','o','n','d','s'],.RW_SECOND),
  (['m','i','n','u','t','e'],.RW_MINUTE),
  (['m','i','n','u','t','e','s'],.RW_MINUTE),
  (['h','o','u','r'],.RW_HOUR),
  (['h','o','u','r','s'],.RW_HOUR),
  (['d','a','y'],.RW_DAY),
  (['d','a','y','s'],.RW_DAY)]

inductive Token where
  | NOTOKEN
  | T_STRING
  | T_QSTRING
  | reserved (word : ReservedWord)
  deriving DecidableEq

def stringAlloc (len : ℕ) : ScanM ℕ := do
  let s ← get
  failIf (s.charptr + len > MAXCHAR) .exit
  set { s with charptr := s.charptr + len }
  return s.charptr

def writePool (start : ℕ) (text : List Char) : ScanM Unit := do
  failIf (start + text.length > MAXCHAR) .outOfBounds
  modify fun s => { s with charpool := store s.charpool start text }

def mkString (s : List Char) (len : ℕ) : ScanM ℕ := do
  let copy ← stringAlloc (len + 1)
  writePool copy (strncpy NUL s (len + 1))
  return copy

/-- Copies at most `max` characters to the buffer, and the terminator behind them. -/
def lower (src : List Char) (max : ℕ) : ScanM (List Char) := do
  let dst := (src.take max).map Char.toLower
  failIf ((dst ++ [NUL]).length > MAXSTRINGLEN) .outOfBounds
  modify fun s => { s with string := store s.string 0 (dst ++ [NUL]) }
  return dst

/-- The token of an identifier, and for strings a pointer to the text. -/
def getId (s : List Char) : ScanM (Token × Option ℕ) := do
  let string ← lower s MAXSTRINGLEN
  if string.length = MAXSTRINGLEN then return (.NOTOKEN,none)
  match reservedWords.lookup string with
  | some word => return (.reserved word,none)
  | none => do
    let sval ← mkString s string.length
    return (.T_STRING,some sval)

def getQstring (text : List Char) : ScanM (Token × Option ℕ) := do
  let sval ← mkString text text.length
  return (.T_QSTRING,some sval)

inductive LexemeKind where
  | identifier
  | qstring
  deriving DecidableEq

/-- What the patterns of the scanner ask of a lexeme; a quoted string is given without its quotes. The text
of a command has no terminator in it. -/
def IsLexeme : LexemeKind → List Char → Prop
  | .identifier, text => (text.head?.any Char.isAlpha) = true ∧ ∀ c ∈ text, (c.isAlphanum || c == '_') = true
  | .qstring, text => NUL ∉ text

structure Lexeme where
  kind : LexemeKind
  text : List Char
  lexed : IsLexeme kind text

def Lexeme.scan (l : Lexeme) : ScanM (Token × Option ℕ) :=
  match l.kind with
  | .identifier => getId l.text
  | .qstring => getQstring l.text

def scanAll : List Lexeme → ScanM (List (Token × Option ℕ))
  | [] => pure []
  | l :: rest => do
    let token ← l.scan
    let tokens ← scanAll rest
    return token :: tokens

def ScanState.init (charpool string : ℕ → Char) : ScanState := ⟨charpool,0,string⟩

def Reserved (text : List Char) : Prop := text.map Char.toLower ∈ reservedWords.map Prod.fst

instance (text : List Char) : Decidable (Reserved text) := inferInstanceAs (Decidable (_ ∈ _))

def Lexeme.space (l : Lexeme) : ℕ := if l.kind = .identifier ∧ Reserved l.text then 0 else l.text.length + 1

def space : List Lexeme → ℕ
  | [] => 0
  | l :: rest => l.space + space rest

def Lexeme.IsLong (l : Lexeme) : Prop := l.kind = .identifier ∧ MAXSTRINGLEN ≤ l.text.length

/-- In front of every identifier that is too long the pool has been filled. -/
def LongUnreached (lexemes : List Lexeme) : Prop :=
  ∀ (before : List Lexeme) (l : Lexeme) (behind : List Lexeme), lexemes = before ++ l :: behind → l.IsLong → MAXCHAR < space before

def strings (lexemes : List Lexeme) (tokens : List (Token × Option ℕ)) : List (ℕ × List Char) :=
  (lexemes.zip tokens).filterMap fun p => p.2.2.map fun sval => (sval,p.1.text ++ [NUL])

structure Lexeme.HasToken (l : Lexeme) (token : Token × Option ℕ) : Prop where
  identifier : l.kind = .identifier → (token.1 = .T_STRING ↔ l.text.length < MAXSTRINGLEN ∧ ¬ Reserved l.text)
  pointer : token.2.isSome = true ↔ token.1 = .T_STRING ∨ token.1 = .T_QSTRING

/-- Nothing is written outside the buffer and the pool, and if the program is not stopped every string
is still there at the end, in a place of its own. -/
structure ScansSafely (lexemes : List Lexeme) (charpool string : ℕ → Char) : Prop where
  inBounds : ∀ t, scanAll lexemes (.init charpool string) ≠ .error .outOfBounds t
  kept : ∀ tokens t, scanAll lexemes (.init charpool string) = .ok tokens t →
    t.charptr ≤ MAXCHAR ∧ Packed t.charpool t.charptr (strings lexemes tokens)
  tokens : ∀ tokens t, scanAll lexemes (.init charpool string) = .ok tokens t → List.Forall₂ Lexeme.HasToken lexemes tokens

variable {l : Lexeme} {lexemes : List Lexeme} {s : ScanState}

theorem lookup_eq_none_iff (text : List Char) : reservedWords.lookup (text.map Char.toLower) = none ↔ ¬ Reserved text := by
  unfold Reserved
  rw [List.lookup_eq_none_iff, List.mem_map]
  constructor
  · rintro h ⟨w,hw,he⟩
    have hne := h w hw
    rw [he] at hne
    simp at hne
  · intro h w hw
    rw [bne_iff_ne]
    exact fun he => h ⟨w,hw,he.symm⟩

def ScanState.lowered (s : ScanState) (text : List Char) : ScanState :=
  { s with string := store s.string 0 (text.map Char.toLower ++ [NUL]) }

@[simp] theorem ScanState.lowered_charpool (text : List Char) : (s.lowered text).charpool = s.charpool := rfl
@[simp] theorem ScanState.lowered_charptr (text : List Char) : (s.lowered text).charptr = s.charptr := rfl

theorem lower_short {text : List Char} (h : text.length < MAXSTRINGLEN) :
    lower text MAXSTRINGLEN s = .ok (text.map Char.toLower) (s.lowered text) := by
  have htake : text.take MAXSTRINGLEN = text := List.take_of_length_le h.le
  have hfits : ¬ (text.map Char.toLower ++ [NUL]).length > MAXSTRINGLEN := by
    rw [List.length_append, List.length_map, List.length_singleton]
    omega
  unfold lower
  rw [htake, bind_of_ok (failIf_neg hfits), bind_of_ok (modify_apply _ _)]
  rfl

theorem lower_long {text : List Char} (h : MAXSTRINGLEN ≤ text.length) : lower text MAXSTRINGLEN s = .error .outOfBounds s := by
  have hover : ((text.take MAXSTRINGLEN).map Char.toLower ++ [NUL]).length > MAXSTRINGLEN := by
    rw [List.length_append, List.length_map, List.length_take, List.length_singleton]
    omega
  unfold lower
  exact bind_of_error (failIf_pos hover)

theorem mkString_full {text : List Char} (h : MAXCHAR < s.charptr + (text.length + 1)) :
    mkString text text.length s = .error .exit s := by
  unfold mkString stringAlloc
  apply bind_of_error
  rw [bind_of_ok (get_apply s)]
  exact bind_of_error (failIf_pos h)

theorem mkString_room {text : List Char} (h : s.charptr + (text.length + 1) ≤ MAXCHAR) : mkString text text.length s =
    .ok s.charptr ⟨store s.charpool s.charptr (text ++ [NUL]),s.charptr + (text.length + 1),s.string⟩ := by
  have halloc : stringAlloc (text.length + 1) s = .ok s.charptr { s with charptr := s.charptr + (text.length + 1) } := by
    unfold stringAlloc
    rw [bind_of_ok (get_apply s), bind_of_ok (failIf_neg (Nat.not_lt.mpr h)), bind_of_ok (set_apply _ _)]
    rfl
  have hfits : ¬ s.charptr + (strncpy NUL text (text.length + 1)).length > MAXCHAR := by
    rw [length_strncpy]
    omega
  unfold mkString writePool
  rw [bind_of_ok halloc, bind_of_ok (by rw [bind_of_ok (failIf_neg hfits)]; exact modify_apply _ _), strncpy_terminated]
  rfl

theorem getId_long {text : List Char} (h : MAXSTRINGLEN ≤ text.length) : getId text s = .error .outOfBounds s := by
  unfold getId
  exact bind_of_error (lower_long h)

theorem getId_reserved {text : List Char} (h : text.length < MAXSTRINGLEN) (hr : Reserved text) :
    ∃ word, getId text s = .ok (.reserved word,none) (s.lowered text) := by
  have hlen : ¬ (text.map Char.toLower).length = MAXSTRINGLEN := by
    rw [List.length_map]
    omega
  cases hw : reservedWords.lookup (text.map Char.toLower) with
  | none => exact absurd hr (lookup_eq_none_iff text |>.mp hw)
  | some word =>
    use word
    unfold getId
    rw [bind_of_ok (lower_short h), if_neg hlen, hw]
    rfl

theorem getId_string {text : List Char} (h : text.length < MAXSTRINGLEN) (hr : ¬ Reserved text) :
    getId text s = (do return (.T_STRING,some (← mkString text text.length)) : ScanM (Token × Option ℕ)) (s.lowered text) := by
  have hlen : ¬ (text.map Char.toLower).length = MAXSTRINGLEN := by
    rw [List.length_map]
    omega
  unfold getId
  rw [bind_of_ok (lower_short h), if_neg hlen, (lookup_eq_none_iff text).mpr hr, List.length_map]

theorem scan_long (h : l.IsLong) : l.scan s = .error .outOfBounds s := by
  obtain ⟨hkind,hlen⟩ := h
  unfold Lexeme.scan
  rw [hkind]
  exact getId_long hlen

structure Lexeme.Scanned (l : Lexeme) (s : ScanState) (token : Token × Option ℕ) (t : ScanState) : Prop where
  charptr : t.charptr = s.charptr + l.space
  hasToken : l.HasToken token
  packed : ∀ blocks, Packed s.charpool s.charptr blocks → Packed t.charpool t.charptr (blocks ++ strings [l] [token])

theorem Lexeme.Scanned.of_string {token : Token} {string : ℕ → Char} (hspace : l.space = l.text.length + 1) (htoken : l.HasToken (token,some s.charptr)) :
    l.Scanned s (token,some s.charptr) ⟨store s.charpool s.charptr (l.text ++ [NUL]),s.charptr + (l.text.length + 1),string⟩ := by
  constructor
  · rw [hspace]
  · exact htoken
  · intro blocks hblocks
    have hstore := hblocks.store (l.text ++ [NUL])
    rw [List.length_append, List.length_singleton] at hstore
    exact hstore

/-- A lexeme that is not too long is scanned when the pool has room for it, and stops the program otherwise. -/
theorem scan_cases (hs : s.charptr ≤ MAXCHAR) (h : ¬ l.IsLong) :
    (s.charptr + l.space ≤ MAXCHAR ∧ ∃ token t, l.scan s = .ok token t ∧ l.Scanned s token t) ∨
    (MAXCHAR < s.charptr + l.space ∧ ∃ t, l.scan s = .error .exit t) := by
  obtain ⟨kind,text,hlexed⟩ := l
  cases kind with
  | identifier =>
    have hlen : text.length < MAXSTRINGLEN := by
      apply Nat.lt_of_not_le
      exact fun hlong => h ⟨rfl,hlong⟩
    by_cases hr : Reserved text
    · have hspace : Lexeme.space ⟨.identifier,text,hlexed⟩ = 0 := if_pos ⟨rfl,hr⟩
      obtain ⟨word,hword⟩ := getId_reserved (s := s) hlen hr
      left
      refine ⟨by omega,_,_,hword,hspace ▸ rfl,⟨?_,?_⟩,?_⟩
      · intro _
        simp [hr]
      · simp
      · intro blocks hblocks
        simpa [strings] using hblocks
    · have hspace : Lexeme.space ⟨.identifier,text,hlexed⟩ = text.length + 1 := if_neg fun hres => hr hres.2
      have hscan : Lexeme.scan ⟨.identifier,text,hlexed⟩ s = _ := getId_string (s := s) hlen hr
      rw [hspace, hscan]
      obtain hfull | hroom := Nat.lt_or_ge MAXCHAR (s.charptr + (text.length + 1))
      · right
        exact ⟨hfull,_,bind_of_error (mkString_full (s := s.lowered text) hfull)⟩
      · left
        refine ⟨hroom,_,_,bind_of_ok (mkString_room (s := s.lowered text) hroom),Lexeme.Scanned.of_string hspace ⟨?_,?_⟩⟩
        · intro _
          simp [hr,hlen]
        · simp
  | qstring =>
    have hspace : Lexeme.space ⟨.qstring,text,hlexed⟩ = text.length + 1 := if_neg (fun hres => nomatch hres.1)
    have hscan : Lexeme.scan ⟨.qstring,text,hlexed⟩ s = getQstring text s := rfl
    rw [hspace, hscan]
    unfold getQstring
    obtain hfull | hroom := Nat.lt_or_ge MAXCHAR (s.charptr + (text.length + 1))
    · right
      exact ⟨hfull,_,bind_of_error (mkString_full hfull)⟩
    · left
      refine ⟨hroom,_,_,bind_of_ok (mkString_room hroom),Lexeme.Scanned.of_string hspace ⟨?_,?_⟩⟩
      · intro hkind
        cases hkind
      · simp

theorem strings_cons (l : Lexeme) (lexemes : List Lexeme) (token : Token × Option ℕ) (tokens : List (Token × Option ℕ)) :
    strings (l :: lexemes) (token :: tokens) = strings [l] [token] ++ strings lexemes tokens := by
  unfold strings
  rw [← List.filterMap_append]
  rfl

theorem scanAll_ok {tokens : List (Token × Option ℕ)} {t : ScanState} (hs : s.charptr ≤ MAXCHAR)
    (h : scanAll lexemes s = .ok tokens t) : t.charptr ≤ MAXCHAR ∧ List.Forall₂ Lexeme.HasToken lexemes tokens ∧
      ∀ blocks, Packed s.charpool s.charptr blocks → Packed t.charpool t.charptr (blocks ++ strings lexemes tokens) := by
  induction lexemes generalizing s tokens with
  | nil =>
    obtain ⟨rfl,rfl⟩ := pure_eq_ok.mp h
    refine ⟨hs,List.Forall₂.nil,?_⟩
    intro blocks hblocks
    simpa [strings] using hblocks
  | cons l rest ih =>
    obtain ⟨token,u,hl,h⟩ := bind_eq_ok.mp h
    obtain ⟨tail,v,hrest,h⟩ := bind_eq_ok.mp h
    obtain ⟨rfl,rfl⟩ := pure_eq_ok.mp h
    have hlong : ¬ l.IsLong := by
      intro hlong
      rw [scan_long hlong] at hl
      cases hl
    obtain ⟨hroom,token',u',hl',hscanned⟩ | ⟨-,u',hl'⟩ := scan_cases hs hlong
    · rw [hl] at hl'
      cases hl'
      have hu : u.charptr ≤ MAXCHAR := hscanned.charptr ▸ hroom
      obtain ⟨hv,htokens,hpacked⟩ := ih hu hrest
      refine ⟨hv,List.Forall₂.cons hscanned.hasToken htokens,?_⟩
      intro blocks hblocks
      rw [strings_cons, ← List.append_assoc]
      exact hpacked _ (hscanned.packed blocks hblocks)
    · rw [hl] at hl'
      cases hl'

theorem scanAll_outOfBounds (hs : s.charptr ≤ MAXCHAR) : (∃ t, scanAll lexemes s = .error .outOfBounds t) ↔
    ∃ before l behind, lexemes = before ++ l :: behind ∧ l.IsLong ∧ s.charptr + space before ≤ MAXCHAR := by
  induction lexemes generalizing s with
  | nil =>
    constructor
    · rintro ⟨t,h⟩
      cases h
    · rintro ⟨before,l,behind,h,-⟩
      cases before <;> cases h
  | cons l rest ih =>
    by_cases hlong : l.IsLong
    · constructor
      · intro _
        exact ⟨[],l,rest,rfl,hlong,hs⟩
      · intro _
        exact ⟨s,bind_of_error (scan_long hlong)⟩
    · -- the long identifier is not the first lexeme
      have hsplit : (∃ before l' behind, l :: rest = before ++ l' :: behind ∧ l'.IsLong ∧ s.charptr + space before ≤ MAXCHAR) ↔
          ∃ before l' behind, rest = before ++ l' :: behind ∧ l'.IsLong ∧ s.charptr + l.space + space before ≤ MAXCHAR := by
        constructor
        · rintro ⟨before,l',behind,h,hl',hroom⟩
          cases before with
          | nil =>
            cases h
            exact absurd hl' hlong
          | cons b before =>
            cases h
            refine ⟨before,l',behind,rfl,hl',?_⟩
            rw [Nat.add_assoc]
            exact hroom
        · rintro ⟨before,l',behind,rfl,hl',hroom⟩
          rw [Nat.add_assoc] at hroom
          exact ⟨l :: before,l',behind,rfl,hl',hroom⟩
      rw [hsplit]
      obtain ⟨hroom,token,u,hl,hscanned⟩ | ⟨hfull,u,hl⟩ := scan_cases hs hlong
      · rw [← hscanned.charptr] at hroom ⊢
        rw [← ih hroom]
        have hrest : scanAll (l :: rest) s = (do return token :: (← scanAll rest) : ScanM (List (Token × Option ℕ))) u := bind_of_ok hl
        rw [hrest]
        constructor
        · rintro ⟨t,h⟩
          cases hr : scanAll rest u with
          | ok tokens v =>
            rw [bind_of_ok hr] at h
            cases h
          | error e v =>
            rw [bind_of_error hr] at h
            cases h
            exact ⟨t,rfl⟩
        · rintro ⟨t,h⟩
          exact ⟨t,bind_of_error h⟩
      · have hstop : scanAll (l :: rest) s = .error .exit u := bind_of_error hl
        rw [hstop]
        constructor
        · rintro ⟨t,h⟩
          cases h
        · rintro ⟨before,l',behind,-,-,hroom⟩
          omega

/-- The scanner stays within the buffer and the pool exactly when the pool is full in front of every
identifier of 256 characters or more. -/
theorem scansSafely_iff (lexemes : List Lexeme) (charpool string : ℕ → Char) :
    ScansSafely lexemes charpool string ↔ LongUnreached lexemes := by
  have hinit : (ScanState.init charpool string).charptr ≤ MAXCHAR := Nat.zero_le _
  have hout := @scanAll_outOfBounds lexemes _ hinit
  constructor
  · intro h before l behind hsplit hl
    apply Nat.lt_of_not_le
    intro hroom
    rw [← Nat.zero_add (space before)] at hroom
    obtain ⟨t,ht⟩ := hout.mpr ⟨before,l,behind,hsplit,hl,hroom⟩
    exact h.inBounds t ht
  · intro h
    constructor
    · intro t ht
      obtain ⟨before,l,behind,hsplit,hl,hroom⟩ := hout.mp ⟨t,ht⟩
      have hroom : 0 + space before ≤ MAXCHAR := hroom
      have hfull := h before l behind hsplit hl
      omega
    · intro tokens t ht
      obtain ⟨hcharptr,-,hpacked⟩ := scanAll_ok hinit ht
      exact ⟨hcharptr,hpacked [] (packed_nil _ _)⟩
    · intro tokens t ht
      exact (scanAll_ok hinit ht).2.1

def longIdentifier : Lexeme where
  kind := .identifier
  text := List.replicate 256 'a'
  lexed := by
    constructor
    · rfl
    · intro c hc
      rw [List.eq_of_mem_replicate hc]
      rfl

theorem longIdentifier_unsafe : ¬ ScansSafely [longIdentifier] (fun _ => NUL) (fun _ => NUL) := by
  intro h
  have hlong : longIdentifier.IsLong := ⟨rfl,List.length_replicate.ge⟩
  exact h.inBounds _ (bind_of_error (scan_long hlong))

end AqsiosCoordinator.Parser
