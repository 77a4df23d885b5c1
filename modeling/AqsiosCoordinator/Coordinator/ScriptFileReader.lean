import AqsiosCoordinator.Coordinator.Script

/-! # The lines of a script

`parseLine` splits a command of the script into its type and its description. A line is
given by its characters in front of the terminator.
-/
namespace AqsiosCoordinator.Coordinator

/-- Whether `strncmp (s, t, n) == 0`, for strings without their terminators. -/
def strncmp : ℕ → List Char → List Char → Bool
  | 0, _, _ => true
  | _+1, [], [] => true
  | n+1, a :: s, b :: t => a == b && strncmp n s t
  | _+1, _, _ => false

def TABLE_COMMAND : List Char := ['t','a','b','l','e']
def SOURCE_COMMAND : List Char := ['s','o','u','r','c','e']
def QUERY_COMMAND : List Char := ['q','u','e','r','y']
def DEST_COMMAND : List Char := ['d','e','s','t']
def VQUERY_COMMAND : List Char := ['v','q','u','e','r','y']
def VTABLE_COMMAND : List Char := ['v','t','a','b','l','e']
def Q_CLASSES_COMMAND : List Char := ['q','c','l','a','s','s']

structure ScriptCommand extends Command where
  lineNo : ℕ
  len : ℕ

def commandType (word : List Char) (len : ℕ) : Option CommandType :=
  if strncmp len word TABLE_COMMAND then some .table
  else if strncmp len word SOURCE_COMMAND then some .source
  else if strncmp len word QUERY_COMMAND then some .query
  else if strncmp len word VQUERY_COMMAND then some .vquery
  else if strncmp len word VTABLE_COMMAND then some .vtable
  else if strncmp len word DEST_COMMAND then some .dest
  else if strncmp len word Q_CLASSES_COMMAND then some .qclass
  else none

def parseDesc (lineNo : ℕ) (type : CommandType) (ptr : List Char) : Except ℤ ScriptCommand :=
  match ptr.dropWhile isSpace with
  | [] => .error (-1)
  | c :: ptr =>
    if c ≠ ':' then .error (-1)
    else
      let desc := ptr.dropWhile isSpace
      .ok ⟨⟨type,desc⟩,lineNo,desc.length⟩

def parseLine (lineNo : ℕ) (lineBuffer : List Char) : Except ℤ ScriptCommand :=
  let word := lineBuffer.dropWhile isSpace
  let ptr := word.dropWhile Char.isAlpha
  -- no command indicator
  if ptr.length = word.length then .error (-1)
  else
    match commandType word (word.length - ptr.length) with
    | none => .error (-1)
    | some type => parseDesc lineNo type ptr

def CommandType.command : CommandType → List Char
  | .table => TABLE_COMMAND
  | .source => SOURCE_COMMAND
  | .query => QUERY_COMMAND
  | .dest => DEST_COMMAND
  | .vquery => VQUERY_COMMAND
  | .vtable => VTABLE_COMMAND
  | .qclass => Q_CLASSES_COMMAND

def Spells (lineBuffer word text : List Char) : Prop :=
  ∃ before behind : List Char, (∀ c ∈ before, isSpace c = true) ∧ (∀ c ∈ behind, isSpace c = true) ∧
    lineBuffer = before ++ (word ++ (behind ++ ':' :: text))

/-- The line is a command of the script grammar. -/
def IsCommand (lineBuffer : List Char) (type : CommandType) (desc : List Char) : Prop :=
  ∃ text, Spells lineBuffer type.command text ∧ desc = text.dropWhile isSpace

/-- The line has a word in front of its colon that is the beginning of a keyword, but no keyword. -/
def Abbreviates (lineBuffer : List Char) : Prop :=
  ∃ (type : CommandType) (word text : List Char), Spells lineBuffer word text ∧ word ≠ [] ∧ word <+: type.command ∧
    word ≠ type.command

/-- The line is accepted exactly if it is a command, and then as that command. -/
structure ParsesGrammar (lineNo : ℕ) (lineBuffer : List Char) : Prop where
  accepts : (∃ command, parseLine lineNo lineBuffer = .ok command) ↔ ∃ type desc, IsCommand lineBuffer type desc
  command : ∀ type desc command, IsCommand lineBuffer type desc → parseLine lineNo lineBuffer = .ok command →
    command.type = type ∧ command.desc = desc

theorem strncmp_iff (word rest command : List Char) : strncmp word.length (word ++ rest) command = true ↔ word <+: command := by
  induction word generalizing command with
  | nil => simp [strncmp]
  | cons a word ih =>
    cases command with
    | nil => simp [strncmp]
    | cons b command =>
      rw [List.length_cons, List.cons_append, strncmp, Bool.and_eq_true, beq_iff_eq, ih, List.cons_prefix_cons]

theorem commandType_some {word rest : List Char} {type : CommandType} (h : commandType (word ++ rest) word.length = some type) :
    word <+: type.command := by
  unfold commandType at h
  simp only [strncmp_iff] at h
  split_ifs at h <;> cases h <;> assumption

theorem commandType_isSome {word rest : List Char} {type : CommandType} (h : word <+: type.command) :
    ∃ type', commandType (word ++ rest) word.length = some type' := by
  unfold commandType
  simp only [strncmp_iff]
  split_ifs with h1 h2 h3 h4 h5 h6 h7
  all_goals first
    | exact ⟨_,rfl⟩
    | cases type <;> contradiction

/-- A keyword spelled in full is the beginning of no other one. -/
theorem command_unique : ∀ {type type' : CommandType}, type.command <+: type'.command → type' = type := by
  intro type type' h
  cases type <;> cases type' <;> first | rfl | exact absurd h (by decide)

theorem command_ne_nil (type : CommandType) : type.command ≠ [] := by
  cases type <;> decide

theorem command_alpha (type : CommandType) : ∀ c ∈ type.command, c.isAlpha = true := by
  apply List.all_eq_true.mp
  cases type <;> rfl

theorem isAlpha_not_space {c : Char} (h : c.isAlpha = true) : isSpace c = false := by
  have hnat : 65 ≤ c.toNat := by
    obtain hupper | hlower : c.isUpper = true ∨ c.isLower = true := by rwa [← Bool.or_eq_true]
    · have hletter : 'A' ≤ c ∧ c ≤ 'Z' := of_decide_eq_true hupper
      exact hletter.1
    · have hletter : (decide ('a' ≤ c) && decide (c ≤ 'z')) = true := hlower
      rw [Bool.and_eq_true, decide_eq_true_eq] at hletter
      exact le_trans (by decide) hletter.1
  have hne : c ≠ ' ' := by
    rintro rfl
    exact absurd hnat (by decide)
  simp only [isSpace, hne, decide_false, Bool.false_or, Bool.and_eq_false_iff, decide_eq_false_iff_not]
  omega

theorem isSpace_not_alpha {c : Char} (h : isSpace c = true) : c.isAlpha = false := by
  cases hc : c.isAlpha with
  | false => rfl
  | true =>
    rw [isAlpha_not_space hc] at h
    cases h

variable {lineNo : ℕ} {lineBuffer word text : List Char}

/-- What the three loops over a line with this word leave. -/
theorem Spells.loops (h : Spells lineBuffer word text) (hne : word ≠ []) (halpha : ∀ c ∈ word, c.isAlpha = true) :
    ∃ behind, (∀ c ∈ behind, isSpace c = true) ∧ lineBuffer.dropWhile isSpace = word ++ (behind ++ ':' :: text) ∧
      (word ++ (behind ++ ':' :: text)).dropWhile Char.isAlpha = behind ++ ':' :: text ∧
      (word ++ (behind ++ ':' :: text)).takeWhile Char.isAlpha = word ∧
      (behind ++ ':' :: text).dropWhile isSpace = ':' :: text := by
  obtain ⟨before,behind,hbefore,hbehind,rfl⟩ := h
  refine ⟨behind,hbehind,?_,?_,?_,?_⟩
  · rw [List.dropWhile_append_of_pos hbefore]
    obtain ⟨c,word,rfl⟩ := List.exists_cons_of_ne_nil hne
    rw [List.cons_append, List.dropWhile_cons_of_neg]
    simp [isAlpha_not_space (halpha c List.mem_cons_self)]
  · rw [List.dropWhile_append_of_pos halpha]
    cases behind with
    | nil => rfl
    | cons c behind =>
      rw [List.cons_append, List.dropWhile_cons_of_neg]
      simp [isSpace_not_alpha (hbehind c List.mem_cons_self)]
  · rw [List.takeWhile_append_of_pos halpha]
    cases behind with
    | nil => simp
    | cons c behind => simp [isSpace_not_alpha (hbehind c List.mem_cons_self)]
  · rw [List.dropWhile_append_of_pos hbehind]
    rfl

/-- The word and the text of a line are determined. -/
theorem Spells.unique {word' text' : List Char} (h : Spells lineBuffer word text) (hne : word ≠ [])
    (halpha : ∀ c ∈ word, c.isAlpha = true) (h' : Spells lineBuffer word' text') (hne' : word' ≠ [])
    (halpha' : ∀ c ∈ word', c.isAlpha = true) : word = word' ∧ text = text' := by
  obtain ⟨behind,-,h1,h2,h3,h4⟩ := h.loops hne halpha
  obtain ⟨behind',-,h1',h2',h3',h4'⟩ := h'.loops hne' halpha'
  have hsame := h1.symm.trans h1'
  have hword : word = word' := by rw [← h3, hsame, h3']
  rw [hword, List.append_cancel_left_eq] at hsame
  rw [hsame, h4'] at h4
  exact ⟨hword,(List.cons.inj h4).2.symm⟩

/-- A line whose word the comparisons take for a command of some type. -/
theorem parseLine_spells (h : Spells lineBuffer word text) (hne : word ≠ []) (halpha : ∀ c ∈ word, c.isAlpha = true)
    {type : CommandType} (hfront : word <+: type.command) :
    ∃ command, parseLine lineNo lineBuffer = .ok command ∧ command.desc = text.dropWhile isSpace := by
  obtain ⟨behind,-,h1,h2,-,h4⟩ := h.loops hne halpha
  have hlen : (behind ++ ':' :: text).length ≠ (word ++ (behind ++ ':' :: text)).length := by
    have hpos := List.length_pos_of_ne_nil hne
    simp only [List.length_append]
    omega
  have hdiff : (word ++ (behind ++ ':' :: text)).length - (behind ++ ':' :: text).length = word.length := by
    simp only [List.length_append]
    omega
  obtain ⟨type',htype⟩ := @commandType_isSome word (behind ++ ':' :: text) type hfront
  simp only [parseLine, h1, h2, hdiff]
  rw [if_neg hlen]
  simp only [htype, parseDesc, h4]
  exact ⟨_,rfl,rfl⟩

theorem parseLine_ok {command : ScriptCommand} (h : parseLine lineNo lineBuffer = .ok command) :
    ∃ word text, Spells lineBuffer word text ∧ word ≠ [] ∧ word <+: command.type.command ∧
      command.desc = text.dropWhile isSpace := by
  have hline : lineBuffer.takeWhile isSpace ++ lineBuffer.dropWhile isSpace = lineBuffer := List.takeWhile_append_dropWhile
  have hword := @List.takeWhile_append_dropWhile _ Char.isAlpha (lineBuffer.dropWhile isSpace)
  have hbefore : ∀ c ∈ lineBuffer.takeWhile isSpace, isSpace c = true := fun c hc => List.all_eq_true.mp List.all_takeWhile c hc
  simp only [parseLine] at h
  generalize hw : (lineBuffer.dropWhile isSpace).takeWhile Char.isAlpha = word at hword
  generalize hp : (lineBuffer.dropWhile isSpace).dropWhile Char.isAlpha = ptr at h hword
  rw [← hword] at h hline
  split_ifs at h with hlen
  have hdiff : (word ++ ptr).length - ptr.length = word.length := by
    rw [List.length_append]
    omega
  rw [hdiff] at h
  cases htype : commandType (word ++ ptr) word.length with
  | none => simp [htype] at h
  | some type =>
    simp only [htype, parseDesc] at h
    have hptr : ptr.takeWhile isSpace ++ ptr.dropWhile isSpace = ptr := List.takeWhile_append_dropWhile
    cases hcolon : ptr.dropWhile isSpace with
    | nil => simp [hcolon] at h
    | cons c text =>
      simp only [hcolon] at h
      split_ifs at h with hc
      rw [Except.ok.injEq] at h
      subst h
      obtain rfl : c = ':' := not_not.mp hc
      rw [hcolon] at hptr
      refine ⟨word,text,⟨_,ptr.takeWhile isSpace,hbefore,fun c hc => List.all_eq_true.mp List.all_takeWhile c hc,?_⟩,?_,
        commandType_some htype,rfl⟩
      · rw [hptr]
        exact hline.symm
      · rintro rfl
        exact hlen rfl

/-- A line is read as the grammar says exactly if it does not abbreviate a keyword. -/
theorem parseLine_grammar_iff (lineNo : ℕ) (lineBuffer : List Char) :
    ParsesGrammar lineNo lineBuffer ↔ ¬ Abbreviates lineBuffer := by
  constructor
  · rintro h ⟨type,word,text,hspells,hne,hfront,hshort⟩
    have halpha : ∀ c ∈ word, c.isAlpha = true := fun c hc => command_alpha type c (hfront.subset hc)
    obtain ⟨command,hok,-⟩ := @parseLine_spells lineNo _ _ _ hspells hne halpha _ hfront
    obtain ⟨type',desc,text',hspells',-⟩ := h.accepts.mp ⟨command,hok⟩
    obtain ⟨rfl,-⟩ := hspells.unique hne halpha hspells' (command_ne_nil type') (command_alpha type')
    exact hshort (congrArg CommandType.command (command_unique hfront).symm)
  · intro hfull
    have hok : ∀ command, parseLine lineNo lineBuffer = .ok command → IsCommand lineBuffer command.type command.desc := by
      intro command hok
      obtain ⟨word,text,hspells,hne,hfront,hdesc⟩ := parseLine_ok hok
      by_cases hword : word = command.type.command
      · exact ⟨text,hword ▸ hspells,hdesc⟩
      · exact absurd ⟨command.type,word,text,hspells,hne,hfront,hword⟩ hfull
    constructor
    · constructor
      · rintro ⟨command,h⟩
        exact ⟨_,_,hok command h⟩
      · rintro ⟨type,desc,text,hspells,-⟩
        obtain ⟨command,h,-⟩ := @parseLine_spells lineNo _ _ _ hspells (command_ne_nil type) (command_alpha type) type
          (List.prefix_refl _)
        exact ⟨command,h⟩
    · rintro type desc command ⟨text,hspells,rfl⟩ h
      obtain ⟨text',hspells',hdesc⟩ := hok command h
      obtain ⟨hword,rfl⟩ := hspells'.unique (command_ne_nil _) (command_alpha _) hspells (command_ne_nil type) (command_alpha type)
      have hfront : command.type.command <+: type.command := ⟨[],by rw [hword, List.append_nil]⟩
      exact ⟨(command_unique hfront).symm,hdesc⟩

/-- A single letter passes for a keyword. -/
theorem letter_accepted : ¬ ParsesGrammar 1 ['t',':','x'] := by
  intro h
  obtain ⟨type,desc,text,hspells,-⟩ := h.accepts.mp ⟨⟨⟨.table,['x']⟩,1,1⟩,rfl⟩
  have hword : Spells ['t',':','x'] ['t'] ['x'] := ⟨[],[],by simp,by simp,rfl⟩
  obtain ⟨hsame,-⟩ := hword.unique (by simp) (List.all_eq_true.mp rfl) hspells (command_ne_nil type) (command_alpha type)
  revert hsame
  cases type <;> decide

end AqsiosCoordinator.Coordinator
