import AqsiosCoordinator.Coordinator.Script
import AqsiosCoordinator.Common.Types
import AqsiosCoordinator.Foundation.Arena
import Mathlib.Data.List.TakeWhile

/-! # Tuples from the lines of a file

The first line of a source file is the schema. Every other line is turned into a tuple in a buffer of
fixed size. Text is given by its characters in front of the terminator.
-/
namespace AqsiosCoordinator.Coordinator
open Common Foundation Foundation.Reader Foundation.Outcome

def MAX_LINE_SIZE : ℕ := 1024
def MAX_TUPLE_SIZE : ℕ := 256

abbrev Byte := BitVec 8

structure Line where
  text : List Char
  terminated : NUL ∉ text
  fits : text.length < MAX_LINE_SIZE

/-- The type of an attribute, with its length if it is a string. -/
inductive Attr where
  | INT
  | FLOAT
  | CHAR (attrLen : ℤ)
  | BYTE
  deriving DecidableEq

structure Schema where
  attrs : List Attr
  offsets : List ℤ
  tupleLen : ℤ

def parseAttr (c : Char) : Msg (Option Attr) :=
  if c = 'i' then pure (some .INT)
  else if c = 'f' then pure (some .FLOAT)
  else if c = 'b' then pure (some .BYTE)
  else if c = 'c' then do
    let attrLen := (← strtol).bmod (2^32)
    if attrLen ≤ 0 then pure none else pure (some (.CHAR attrLen))
  else pure none

/-- The loop over the schema line while there is room for `n` attributes. -/
def parseSchema : ℕ → List Attr → Msg (Option (List Attr))
  | 0, attrs => pure (some attrs)
  | n+1, attrs => do
    let c ← peek
    if c = NUL then pure (some attrs)
    else do
      skip
      match ← parseAttr c with
      | none => pure none
      | some a => do
        let c ← peek
        if c ≠ NUL ∧ c ≠ ',' then pure none
        else do
          if c = ',' then skip
          parseSchema n (attrs ++ [a])

def Attr.size : Attr → ℤ
  | .INT => 4
  | .FLOAT => 4
  | .CHAR attrLen => attrLen
  | .BYTE => 1

/-- The offsets of the attributes and the length of the tuple, as sums in `int` variables. -/
def computeOffsets : ℤ → List Attr → List ℤ × ℤ
  | offset, [] => ([],offset)
  | offset, a :: attrs =>
    let r := computeOffsets ((offset + a.size).bmod (2^32)) attrs
    (offset :: r.1,r.2)

def start (line : Line) : Option Schema :=
  match parseSchema MAX_ATTRS [] (line.text ++ [NUL]) with
  | some (some attrs,_) => some ⟨attrs,(computeOffsets 0 attrs).1,(computeOffsets 0 attrs).2⟩
  | _ => none

def wordBytes (w : BitVec 32) : List Byte :=
  [w.extractLsb' 0 8, w.extractLsb' 8 8, w.extractLsb' 16 8, w.extractLsb' 24 8]

def charByte (c : Char) : Byte := BitVec.ofNat 8 c.toNat

abbrev TupleM := EStateM Failure (ℕ → Byte)

/-- Writes one block to `tupleBuf`. -/
def writeTuple (w : ℤ × List Byte) : TupleM Unit := do
  failIf (w.1 < 0 ∨ MAX_TUPLE_SIZE < w.1 + w.2.length) .outOfBounds
  modify fun mem => store mem w.1.toNat w.2

def writeBlocks : List (ℤ × List Byte) → TupleM Unit
  | [] => pure ()
  | w :: rest => do
    writeTuple w
    writeBlocks rest

section Float
-- the word that `atof` yields when it is stored in a `float`
variable (atof : List Char → BitVec 32)

def Attr.blocks (a : Attr) (offset : ℤ) (field : List Char) : List (ℤ × List Byte) :=
  match a with
  | .INT => [(offset,wordBytes (BitVec.ofInt 32 (atoi field)))]
  | .FLOAT => [(offset,wordBytes (atof field))]
  | .CHAR attrLen => [(offset,strncpy 0 (field.map charByte) attrLen.toNat),(offset + attrLen - 1,[0])]
  | .BYTE => [(offset,(field.take 1).map charByte)]

def parseFields : List (Attr × ℤ) → List Char → TupleM Unit
  | [], _ => pure ()
  | p :: rest, begin => do
    let field := begin.takeWhile (fun c => c != ',')
    -- empty attribute
    failIf (field = []) (.code (-1))
    -- the line ends here, but not the tuple
    failIf (begin.length = field.length ∧ rest ≠ []) (.code (-1))
    writeBlocks (p.1.blocks atof p.2 field)
    parseFields rest (begin.drop (field.length + 1))

def Schema.places (s : Schema) : List (Attr × ℤ) := s.attrs.zip s.offsets

def parseTuple (s : Schema) (lineBuffer : List Char) : TupleM Unit := parseFields atof s.places lineBuffer

end Float

def Consecutive : ℤ → List (Attr × ℤ) → ℤ → Prop
  | lower, [], upper => lower = upper
  | lower, p :: rest, upper => p.2 = lower ∧ Consecutive (p.2 + p.1.size) rest upper

/-- Every attribute has a range, and the ranges make up the tuple. -/
structure Schema.LaidOut (s : Schema) : Prop where
  length : s.offsets.length = s.attrs.length
  consecutive : Consecutive 0 s.places s.tupleLen
  disjoint : s.places.Pairwise fun p q => p.2 + p.1.size ≤ q.2
  covers : ∀ i, 0 ≤ i ∧ i < s.tupleLen ↔ ∃ p ∈ s.places, p.2 ≤ i ∧ i < p.2 + p.1.size

/-- The text has a field that is not empty for each of `n` attributes. -/
def HasFields (n : ℕ) (text : List Char) : Prop := ∀ i < n, ∃ field, (text.splitOn ',')[i]? = some field ∧ field ≠ []

/-- What data lines do to the buffer, whatever it contains before. -/
structure Schema.ParsesSafely (atof : List Char → BitVec 32) (s : Schema) : Prop where
  inRange : ∀ p ∈ s.places, ∀ field ≠ [], ∀ w ∈ p.1.blocks atof p.2 field,
    p.2 ≤ w.1 ∧ w.1 + w.2.length ≤ p.2 + p.1.size ∧ w.1 + w.2.length ≤ MAX_TUPLE_SIZE
  inBounds : ∀ (line : Line) mem t, parseTuple atof s line.text mem ≠ .error .outOfBounds t
  accepts : ∀ (line : Line) mem, HasFields s.attrs.length line.text → ∃ t, parseTuple atof s line.text mem = .ok ⟨⟩ t
  rejects : ∀ (line : Line) mem, ¬ HasFields s.attrs.length line.text → ∃ t, parseTuple atof s line.text mem = .error (.code (-1)) t

def totalSize : List Attr → ℤ
  | [] => 0
  | a :: attrs => a.size + totalSize attrs

variable {atof : List Char → BitVec 32} {attrs : List Attr} {lower upper : ℤ} {places : List (Attr × ℤ)}

theorem parseAttr_positive (c : Char) : Yields (parseAttr c) fun a => ∀ b, a = some b → 0 < b.size := by
  unfold parseAttr
  apply Yields.ite
  · apply yields_pure
    rintro b ⟨⟩
    decide
  apply Yields.ite
  · apply yields_pure
    rintro b ⟨⟩
    decide
  apply Yields.ite
  · apply yields_pure
    rintro b ⟨⟩
    decide
  apply Yields.ite
  · apply yields_bind
    intro v
    by_cases hv : v.bmod (2^32) ≤ 0
    · simp only [hv, if_true]
      apply yields_pure
      rintro b ⟨⟩
    · simp only [hv, if_false]
      apply yields_pure
      rintro b ⟨⟩
      exact not_le.mp hv
  · apply yields_pure
    rintro b ⟨⟩

/-- An accepted schema has at most the given number of further attributes, and none is empty. -/
theorem parseSchema_yields (n : ℕ) : ∀ attrs : List Attr, (∀ a ∈ attrs, 0 < a.size) → Yields (parseSchema n attrs) fun r =>
    ∀ attrs', r = some attrs' → attrs'.length ≤ attrs.length + n ∧ ∀ a ∈ attrs', 0 < a.size := by
  induction n with
  | zero =>
    intro attrs hattrs
    apply yields_pure
    rintro attrs' ⟨⟩
    exact ⟨le_rfl,hattrs⟩
  | succ n ih =>
    intro attrs hattrs
    apply yields_bind
    intro c
    apply Yields.ite
    · apply yields_pure
      rintro attrs' ⟨⟩
      exact ⟨Nat.le_add_right _ _,hattrs⟩
    apply yields_bind
    intro _
    refine Yields.bind (parseAttr_positive c) fun a ha => ?_
    cases a with
    | none =>
      apply yields_pure
      rintro attrs' ⟨⟩
    | some a =>
      apply yields_bind
      intro d
      apply Yields.ite
      · apply yields_pure
        rintro attrs' ⟨⟩
      have hnext : ∀ b ∈ attrs ++ [a], 0 < b.size := by
        intro b hb
        rcases List.mem_append.mp hb with hb | hb
        · exact hattrs b hb
        · exact ha b (congrArg some (List.mem_singleton.mp hb).symm)
      have hrec : Yields (parseSchema n (attrs ++ [a])) fun r =>
          ∀ attrs', r = some attrs' → attrs'.length ≤ attrs.length + (n + 1) ∧ ∀ a ∈ attrs', 0 < a.size := by
        intro buffer r rest hr attrs' he
        obtain ⟨hlen,hpos⟩ := ih (attrs ++ [a]) hnext buffer r rest hr attrs' he
        rw [List.length_append, List.length_singleton] at hlen
        exact ⟨by omega,hpos⟩
      split
      · apply yields_bind
        intro _
        exact hrec
      · exact hrec

theorem start_attrs {line : Line} {s : Schema} (h : start line = some s) : s.attrs.length ≤ MAX_ATTRS ∧ (∀ a ∈ s.attrs, 0 < a.size) ∧
    s.offsets = (computeOffsets 0 s.attrs).1 ∧ s.tupleLen = (computeOffsets 0 s.attrs).2 := by
  unfold start at h
  cases hp : parseSchema MAX_ATTRS [] (line.text ++ [NUL]) with
  | none =>
    rw [hp] at h
    cases h
  | some r =>
    obtain ⟨r,rest⟩ := r
    cases r with
    | none =>
      rw [hp] at h
      cases h
    | some attrs =>
      rw [hp] at h
      cases h
      obtain ⟨hlen,hpos⟩ := parseSchema_yields MAX_ATTRS [] (by simp) _ _ _ hp attrs rfl
      rw [List.length_nil, Nat.zero_add] at hlen
      exact ⟨hlen,hpos,rfl,rfl⟩

theorem totalSize_nonneg (h : ∀ a ∈ attrs, 0 < a.size) : 0 ≤ totalSize attrs := by
  induction attrs with
  | nil => exact le_rfl
  | cons a attrs ih =>
    obtain ⟨ha,hrest⟩ := List.forall_mem_cons.mp h
    have hsum := ih hrest
    rw [totalSize]
    omega

theorem length_computeOffsets (offset : ℤ) : (computeOffsets offset attrs).1.length = attrs.length := by
  induction attrs generalizing offset with
  | nil => rfl
  | cons a attrs ih =>
    rw [computeOffsets, List.length_cons, ih, List.length_cons]

/-- Sums that stay below the size of the buffer do not overflow. -/
theorem add_bmod {offset size : ℤ} (h0 : 0 ≤ offset + size) (h : offset + size ≤ MAX_TUPLE_SIZE) :
    (offset + size).bmod (2^32) = offset + size := by
  have hmax : (MAX_TUPLE_SIZE : ℤ) = 256 := rfl
  apply Int.bmod_eq_of_le <;> omega

theorem computeOffsets_consecutive (hpos : ∀ a ∈ attrs, 0 < a.size) (hlower : 0 ≤ lower) (h : lower + totalSize attrs ≤ MAX_TUPLE_SIZE) :
    (computeOffsets lower attrs).2 = lower + totalSize attrs ∧
      Consecutive lower (attrs.zip (computeOffsets lower attrs).1) (lower + totalSize attrs) := by
  induction attrs generalizing lower with
  | nil =>
    rw [totalSize, Int.add_zero]
    exact ⟨rfl,rfl⟩
  | cons a attrs ih =>
    obtain ⟨ha,hrest⟩ := List.forall_mem_cons.mp hpos
    have hsum := totalSize_nonneg hrest
    rw [totalSize, ← Int.add_assoc] at h ⊢
    have hnext : (lower + a.size).bmod (2^32) = lower + a.size := add_bmod (by omega) (by omega)
    obtain ⟨hlen,hcons⟩ := @ih (lower + a.size) hrest (by omega) h
    rw [computeOffsets, hnext]
    exact ⟨hlen,rfl,hcons⟩

namespace Consecutive

theorem le (h : Consecutive lower places upper) (hpos : ∀ p ∈ places, 0 < p.1.size) : lower ≤ upper := by
  induction places generalizing lower with
  | nil => exact le_of_eq h
  | cons p places ih =>
    obtain ⟨rfl,hrest⟩ := h
    obtain ⟨hp,hpos⟩ := List.forall_mem_cons.mp hpos
    have hle := ih hrest hpos
    omega

theorem between (h : Consecutive lower places upper) (hpos : ∀ p ∈ places, 0 < p.1.size) :
    ∀ p ∈ places, lower ≤ p.2 ∧ p.2 + p.1.size ≤ upper := by
  induction places generalizing lower with
  | nil =>
    intro p hp
    cases hp
  | cons q places ih =>
    obtain ⟨rfl,hrest⟩ := h
    obtain ⟨hq,hbehind⟩ := List.forall_mem_cons.mp hpos
    intro p hp
    rcases List.mem_cons.mp hp with rfl | hp
    · exact ⟨le_rfl,hrest.le hbehind⟩
    · obtain ⟨hlow,hup⟩ := ih hrest hbehind p hp
      exact ⟨by omega,hup⟩

theorem disjoint (h : Consecutive lower places upper) (hpos : ∀ p ∈ places, 0 < p.1.size) :
    places.Pairwise fun p q => p.2 + p.1.size ≤ q.2 := by
  induction places generalizing lower with
  | nil => exact List.Pairwise.nil
  | cons p places ih =>
    obtain ⟨-,hrest⟩ := h
    obtain ⟨-,hpos⟩ := List.forall_mem_cons.mp hpos
    apply List.Pairwise.cons
    · intro q hq
      exact (hrest.between hpos q hq).1
    · exact ih hrest hpos

theorem covers (h : Consecutive lower places upper) (hpos : ∀ p ∈ places, 0 < p.1.size) (i : ℤ) :
    lower ≤ i ∧ i < upper ↔ ∃ p ∈ places, p.2 ≤ i ∧ i < p.2 + p.1.size := by
  constructor
  · intro hi
    induction places generalizing lower with
    | nil =>
      have he : lower = upper := h
      omega
    | cons p places ih =>
      obtain ⟨rfl,hrest⟩ := h
      by_cases hin : i < p.2 + p.1.size
      · exact ⟨p,List.mem_cons_self,hi.1,hin⟩
      · obtain ⟨q,hq,hin⟩ := ih hrest (List.forall_mem_cons.mp hpos).2 ⟨by omega,hi.2⟩
        exact ⟨q,List.mem_cons_of_mem _ hq,hin⟩
  · rintro ⟨p,hp,hin⟩
    have hbetween := h.between hpos p hp
    omega

end Consecutive

theorem length_first_block (atof : List Char → BitVec 32) {a : Attr} (ha : 0 < a.size) (offset : ℤ) {field : List Char} (hf : field ≠ []) :
    ∃ bytes more, a.blocks atof offset field = (offset,bytes) :: more ∧ (bytes.length : ℤ) = a.size := by
  cases a with
  | INT => exact ⟨_,_,rfl,rfl⟩
  | FLOAT => exact ⟨_,_,rfl,rfl⟩
  | CHAR attrLen =>
    refine ⟨_,_,rfl,?_⟩
    rw [length_strncpy]
    exact Int.toNat_of_nonneg ha.le
  | BYTE =>
    refine ⟨_,_,rfl,?_⟩
    obtain ⟨c,field,rfl⟩ := List.exists_cons_of_ne_nil hf
    rfl

/-- What is written for an attribute lies in its range. -/
theorem blocks_inRange {a : Attr} (ha : 0 < a.size) (offset : ℤ) {field : List Char} (hf : field ≠ []) :
    ∀ w ∈ a.blocks atof offset field, offset ≤ w.1 ∧ w.1 + w.2.length ≤ offset + a.size := by
  obtain ⟨bytes,more,hblocks,hlen⟩ := length_first_block atof ha offset hf
  intro w hw
  rw [hblocks] at hw
  rcases List.mem_cons.mp hw with rfl | hmore
  · exact ⟨le_rfl,by simp only; omega⟩
  · cases a with
    | CHAR attrLen =>
      cases hblocks
      obtain rfl := List.mem_singleton.mp hmore
      have hsize : (0 : ℤ) < attrLen := ha
      simp only [Attr.size, List.length_singleton, Nat.cast_one]
      omega
    | INT =>
      cases hblocks
      cases hmore
    | FLOAT =>
      cases hblocks
      cases hmore
    | BYTE =>
      cases hblocks
      cases hmore

theorem writeTuple_ok {w : ℤ × List Byte} (h0 : 0 ≤ w.1) (h : w.1 + w.2.length ≤ MAX_TUPLE_SIZE) (mem : ℕ → Byte) :
    writeTuple w mem = .ok ⟨⟩ (store mem w.1.toNat w.2) := by
  have hin : ¬ (w.1 < 0 ∨ (MAX_TUPLE_SIZE : ℤ) < w.1 + w.2.length) := by omega
  unfold writeTuple
  rw [bind_of_ok (failIf_neg hin)]
  exact modify_apply _ _

theorem writeBlocks_ok {blocks : List (ℤ × List Byte)} (h : ∀ w ∈ blocks, 0 ≤ w.1 ∧ w.1 + w.2.length ≤ MAX_TUPLE_SIZE) (mem : ℕ → Byte) :
    ∃ t, writeBlocks blocks mem = .ok ⟨⟩ t := by
  induction blocks generalizing mem with
  | nil => exact ⟨mem,rfl⟩
  | cons w rest ih =>
    obtain ⟨⟨h0,hmax⟩,hrest⟩ := List.forall_mem_cons.mp h
    obtain ⟨t,ht⟩ := ih hrest (store mem w.1.toNat w.2)
    use t
    rw [writeBlocks, bind_of_ok (writeTuple_ok h0 hmax mem)]
    exact ht

/-- The first part of a text is all of it, or ends at a separator. -/
theorem split_first (sep : Char) (text : List Char) :
    (text.takeWhile (fun c => c != sep) = text ∧ text.splitOn sep = [text]) ∨
    ∃ field rest, text = field ++ sep :: rest ∧ text.takeWhile (fun c => c != sep) = field ∧
      text.splitOn sep = field :: rest.splitOn sep := by
  have hfield : sep ∉ text.takeWhile (fun c => c != sep) := by
    intro hmem
    have hp : (sep != sep) = true := List.mem_takeWhile_imp (p := fun c => c != sep) hmem
    exact bne_iff_ne.mp hp rfl
  have hsplit := List.takeWhile_append_dropWhile (p := fun c => c != sep) (l := text)
  cases hd : text.dropWhile (fun c => c != sep) with
  | nil =>
    rw [hd, List.append_nil] at hsplit
    rw [hsplit] at hfield
    exact .inl ⟨hsplit,List.splitOn_eq_singleton hfield⟩
  | cons c rest =>
    have hc : c = sep := by
      have hhead := List.head?_dropWhile_not (fun c => c != sep) text
      rw [hd] at hhead
      simpa using hhead
    subst hc
    rw [hd] at hsplit
    have happend := List.splitOn_append_cons_self (a := c) (text.takeWhile (fun x => x != c)) rest
    rw [hsplit, List.splitOn_eq_singleton hfield] at happend
    exact .inr ⟨_,rest,hsplit.symm,rfl,happend⟩

theorem hasFields_cons {n : ℕ} {text field : List Char} {fields : List (List Char)} (h : text.splitOn ',' = field :: fields) :
    HasFields (n + 1) text ↔ field ≠ [] ∧ ∀ i < n, ∃ field, fields[i]? = some field ∧ field ≠ [] := by
  unfold HasFields
  rw [h]
  constructor
  · intro hall
    constructor
    · obtain ⟨field',he,hne⟩ := hall 0 (Nat.succ_pos n)
      cases he
      exact hne
    · intro i hi
      obtain ⟨field',he,hne⟩ := hall (i + 1) (by omega)
      exact ⟨field',he,hne⟩
  · rintro ⟨hne,hall⟩ i hi
    cases i with
    | zero => exact ⟨field,rfl,hne⟩
    | succ i =>
      obtain ⟨field',he,hne'⟩ := hall i (by omega)
      exact ⟨field',he,hne'⟩

/-- With all ranges inside the buffer a line is accepted or rejected by its fields. -/
theorem parseFields_cases (h : Consecutive lower places upper) (hpos : ∀ p ∈ places, 0 < p.1.size) (hlower : 0 ≤ lower)
    (hupper : upper ≤ MAX_TUPLE_SIZE) (text : List Char) (mem : ℕ → Byte) :
    (HasFields places.length text ∧ ∃ t, parseFields atof places text mem = .ok ⟨⟩ t) ∨
    (¬ HasFields places.length text ∧ ∃ t, parseFields atof places text mem = .error (.code (-1)) t) := by
  induction places generalizing lower text mem with
  | nil =>
    left
    exact ⟨fun i hi => absurd hi (Nat.not_lt_zero i),mem,rfl⟩
  | cons p rest ih =>
    obtain ⟨rfl,hcons⟩ := h
    obtain ⟨hp,hrest⟩ := List.forall_mem_cons.mp hpos
    have hle := hcons.le hrest
    rw [List.length_cons]
    have hwrite : ∀ field ≠ [], ∃ t, writeBlocks (p.1.blocks atof p.2 field) mem = .ok ⟨⟩ t := by
      intro field hf
      apply writeBlocks_ok
      intro w hw
      have hin := blocks_inRange hp p.2 hf w hw
      omega
    obtain ⟨hfield,hsplit⟩ | ⟨field,behind,rfl,hfield,hsplit⟩ := split_first ',' text
    · -- there is no comma behind this field
      rw [hasFields_cons hsplit]
      by_cases hempty : text = []
      · right
        refine ⟨fun hall => hall.1 hempty,mem,?_⟩
        rw [parseFields, hfield]
        exact bind_of_error (failIf_pos hempty)
      · by_cases hlast : rest = []
        · subst hlast
          left
          obtain ⟨t,ht⟩ := hwrite text hempty
          refine ⟨⟨hempty,fun i hi => absurd hi (Nat.not_lt_zero i)⟩,t,?_⟩
          rw [parseFields, hfield, bind_of_ok (failIf_neg hempty), bind_of_ok (failIf_neg fun hend => hend.2 rfl), bind_of_ok ht]
          rfl
        · right
          constructor
          · rintro ⟨-,hall⟩
            obtain ⟨field,he,-⟩ := hall 0 (List.length_pos_iff.mpr hlast)
            cases he
          · use mem
            rw [parseFields, hfield, bind_of_ok (failIf_neg hempty)]
            exact bind_of_error (failIf_pos ⟨rfl,hlast⟩)
    · rw [hasFields_cons hsplit]
      have hend : ¬ ((field ++ ',' :: behind).length = field.length ∧ rest ≠ []) := by
        rw [List.length_append, List.length_cons]
        omega
      have hdrop : (field ++ ',' :: behind).drop (field.length + 1) = behind := by
        rw [← List.drop_drop, List.drop_left]
        rfl
      by_cases hempty : field = []
      · right
        refine ⟨fun hall => hall.1 hempty,mem,?_⟩
        rw [parseFields, hfield]
        exact bind_of_error (failIf_pos hempty)
      · obtain ⟨t,ht⟩ := hwrite field hempty
        have hstep : parseFields atof (p :: rest) (field ++ ',' :: behind) mem = parseFields atof rest behind t := by
          rw [parseFields, hfield, bind_of_ok (failIf_neg hempty), bind_of_ok (failIf_neg hend), bind_of_ok ht, hdrop]
        rw [hstep]
        obtain ⟨hall,hok⟩ | ⟨hall,herror⟩ := ih hcons hrest (by omega) behind t
        · exact .inl ⟨⟨hempty,hall⟩,hok⟩
        · exact .inr ⟨fun h => hall h.2,herror⟩

def ones : ℕ → List Char
  | 0 => ['1']
  | n+1 => '1' :: ',' :: ones n

theorem length_ones (n : ℕ) : (ones n).length = 2*n + 1 := by
  induction n with
  | zero => rfl
  | succ n ih =>
    rw [ones, List.length_cons, List.length_cons, ih]
    omega

theorem mem_ones {c : Char} (n : ℕ) (h : c ∈ ones n) : c = '1' ∨ c = ',' := by
  induction n with
  | zero => exact .inl (List.mem_singleton.mp h)
  | succ n ih =>
    rcases List.mem_cons.mp h with rfl | h
    · exact .inl rfl
    rcases List.mem_cons.mp h with rfl | h
    · exact .inr rfl
    · exact ih h

/-- The line of ones leaves the buffer with the first attribute that does not fit. -/
theorem parseFields_ones (hpos : ∀ a ∈ attrs, 0 < a.size) (hlower : 0 ≤ lower) (hfits : lower ≤ MAX_TUPLE_SIZE)
    (h : MAX_TUPLE_SIZE < lower + totalSize attrs) (mem : ℕ → Byte) :
    ∃ t, parseFields atof (attrs.zip (computeOffsets lower attrs).1) (ones (attrs.length - 1)) mem = .error .outOfBounds t := by
  induction attrs generalizing lower mem with
  | nil =>
    rw [totalSize] at h
    omega
  | cons a rest ih =>
    obtain ⟨ha,hrest⟩ := List.forall_mem_cons.mp hpos
    have hne : ['1'] ≠ [] := List.cons_ne_nil _ _
    have hfield : (ones ((a :: rest).length - 1)).takeWhile (fun c => c != ',') = ['1'] := by
      cases rest <;> rfl
    have hend : ¬ ((ones ((a :: rest).length - 1)).length = ['1'].length ∧ rest.zip (computeOffsets ((lower + a.size).bmod (2^32)) rest).1 ≠ []) := by
      rintro ⟨hlen,hzip⟩
      rw [length_ones, List.length_cons, List.length_singleton] at hlen
      have hnil : rest = [] := List.length_eq_zero_iff.mp (by omega)
      subst hnil
      exact hzip rfl
    rw [computeOffsets, List.zip_cons_cons, parseFields, hfield, bind_of_ok (failIf_neg hne), bind_of_ok (failIf_neg hend)]
    by_cases hover : lower + a.size ≤ MAX_TUPLE_SIZE
    · obtain ⟨t,ht⟩ : ∃ t, writeBlocks (a.blocks atof lower ['1']) mem = .ok ⟨⟩ t := by
        apply writeBlocks_ok
        intro w hw
        have hin := blocks_inRange ha lower hne w hw
        omega
      have hbmod : (lower + a.size).bmod (2^32) = lower + a.size := add_bmod (by omega) hover
      rw [totalSize, ← Int.add_assoc] at h
      rw [bind_of_ok ht, hbmod]
      cases rest with
      | nil =>
        rw [totalSize] at h
        omega
      | cons b rest => exact ih hrest (by omega) hover h t
    · obtain ⟨bytes,more,hblocks,hlen⟩ := length_first_block atof ha lower hne
      use mem
      rw [hblocks, writeBlocks]
      apply bind_of_error
      apply bind_of_error
      exact bind_of_error (failIf_pos (.inr (by simp only; omega)))

/-- The places of an accepted schema whose attributes fit into the buffer together. -/
theorem start_places {line : Line} {s : Schema} (h : start line = some s) (hfits : totalSize s.attrs ≤ MAX_TUPLE_SIZE) :
    Consecutive 0 s.places s.tupleLen ∧ (∀ p ∈ s.places, 0 < p.1.size) ∧ s.tupleLen ≤ MAX_TUPLE_SIZE ∧ s.places.map Prod.fst = s.attrs := by
  obtain ⟨-,hpos,hoffsets,htupleLen⟩ := start_attrs h
  have hlength : s.offsets.length = s.attrs.length := by rw [hoffsets, length_computeOffsets]
  obtain ⟨hsum,hcons⟩ := @computeOffsets_consecutive _ 0 hpos le_rfl (by omega)
  rw [← hsum, ← htupleLen, ← hoffsets, ← Schema.places] at hcons
  exact ⟨hcons,fun p hp => hpos p.1 (List.of_mem_zip hp).1,by omega,List.map_fst_zip hlength.ge⟩

/-- An accepted schema keeps every data line within the buffer exactly if its attributes fit there
together. -/
theorem start_safe_iff {line : Line} {s : Schema} (h : start line = some s) :
    s.LaidOut ∧ s.ParsesSafely atof ↔ totalSize s.attrs ≤ MAX_TUPLE_SIZE := by
  obtain ⟨hlen,hpos,hoffsets,htupleLen⟩ := start_attrs h
  have hlength : s.offsets.length = s.attrs.length := by rw [hoffsets, length_computeOffsets]
  constructor
  · rintro ⟨-,hsafe⟩
    apply not_lt.mp
    intro hover
    have hfits : (ones (s.attrs.length - 1)).length < MAX_LINE_SIZE := by
      have hmax : MAX_ATTRS = 10 := rfl
      have hline : MAX_LINE_SIZE = 1024 := rfl
      rw [length_ones]
      omega
    have hterminated : NUL ∉ ones (s.attrs.length - 1) := by
      intro hmem
      rcases mem_ones _ hmem with h | h <;> cases h
    obtain ⟨t,ht⟩ := @parseFields_ones atof _ 0 hpos le_rfl (by decide) (by omega) (fun _ => 0)
    rw [← hoffsets] at ht
    exact hsafe.inBounds ⟨_,hterminated,hfits⟩ _ t ht
  · intro hfits
    obtain ⟨hcons,hplaces,hupper,hattrs⟩ := start_places h hfits
    have hcount : s.places.length = s.attrs.length := by rw [← hattrs, List.length_map]
    have hcases := @parseFields_cases atof _ _ _ hcons hplaces le_rfl hupper
    rw [hcount] at hcases
    constructor
    · exact ⟨hlength,hcons,hcons.disjoint hplaces,hcons.covers hplaces⟩
    · constructor
      · intro p hp field hf w hw
        have hin := blocks_inRange (hplaces p hp) p.2 hf w hw
        have hbetween := hcons.between hplaces p hp
        omega
      · intro data mem t ht
        obtain ⟨-,u,hu⟩ | ⟨-,u,hu⟩ := hcases data.text mem
        · exact absurd (ht.symm.trans hu) (by simp)
        · exact absurd (ht.symm.trans hu) (by simp)
      · intro data mem hfields
        obtain ⟨-,hok⟩ | ⟨hno,-⟩ := hcases data.text mem
        · exact hok
        · exact absurd hfields hno
      · intro data mem hfields
        obtain ⟨hyes,-⟩ | ⟨-,herror⟩ := hcases data.text mem
        · exact absurd hyes hfields
        · exact herror

def smallTuple : Line := ⟨['i',',','c','8'],by decide,by decide⟩

def longTuple : Line := ⟨['c','3','0','0'],by decide,by decide⟩

theorem smallTuple_safe : ∃ s, start smallTuple = some s ∧ s.LaidOut ∧ s.ParsesSafely fun _ => 0 := by
  have hstart : start smallTuple = some ⟨[.INT,.CHAR 8],[0,4],12⟩ := rfl
  exact ⟨_,hstart,(start_safe_iff hstart).mpr (by decide)⟩

theorem longTuple_unsafe : ∃ s, start longTuple = some s ∧ ¬ (s.LaidOut ∧ s.ParsesSafely fun _ => 0) := by
  refine ⟨⟨[.CHAR 300],[0],300⟩,rfl,?_⟩
  rintro ⟨-,hsafe⟩
  obtain ⟨t,ht⟩ := @parseFields_ones (fun _ => 0) [.CHAR 300] 0 (by decide) le_rfl (by decide) (by decide) (fun _ => 0)
  exact hsafe.inBounds ⟨ones 0,by decide,by decide⟩ _ t ht

end AqsiosCoordinator.Coordinator
