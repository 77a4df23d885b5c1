import AqsiosCoordinator.Parser.CommandTokens

/-! # The nodes of a command

The parser takes the nodes of a tree from a pool of fixed size. A tree has hardly more nodes
than its command has tokens: every node has a token of its own but those of the query, of its
block and of its SELECT clause.
-/
namespace AqsiosCoordinator.Parser
open Common Foundation Metadata

namespace Grammar
variable {ts : List Terminal}

/-- A list node stands for the separator in front of its thing. -/
theorem listNodes_le {α : Type} {sep : Terminal} {D : List Terminal → α → Prop} {nodes : α → ℕ} {l : List α} (h : Separated sep D ts l)
    (hD : ∀ ts a, D ts a → nodes a ≤ ts.length) : listNodes nodes l ≤ ts.length + 1 := by
  induction h with
  | @single ts a ha =>
    have hone := hD ts a ha
    rw [listNodes, listNodes]
    omega
  | @prepend ts us a l ha _ ih =>
    have hone := hD ts a ha
    rw [listNodes, List.length_append, List.length_cons]
    omega

theorem Attr.one_le {a : AttrRef} (h : Attr ts a) : 1 ≤ ts.length := by
  cases h <;> simp

theorem NonMtAttrList.two_mul_le {l : List AttrRef} (h : NonMtAttrList ts l) : 2 * l.length ≤ ts.length + 1 := by
  rw [← listNodes_one]
  exact listNodes_le h fun _ _ ha => ha.one_le

theorem arithDerives_nodes_le {n : ℕ} {e : Expr} (h : arithOperators.Derives ArithAtom n ts e) : e.nodes ≤ ts.length := by
  induction h with
  | atom hatom =>
    cases hatom with
    | attr ha => exact ha.one_le
    | constValue hc => cases hc <;> exact Nat.le_refl 1
  | paren _ ih =>
    rw [List.length_cons, List.length_append]
    omega
  | @binary n ts us t o a b _ _ _ _ ihl ihr =>
    have hnodes : (arithOperators.node o a b).nodes = 1 + a.nodes + b.nodes := rfl
    rw [hnodes, List.length_append, List.length_cons]
    omega

theorem ArithExpr.nodes_le {e : Expr} (h : ArithExpr ts e) : e.nodes ≤ ts.length := arithDerives_nodes_le h

theorem Projterm.nodes_le {e : Expr} (h : Projterm ts e) : e.nodes ≤ ts.length := by
  cases h with
  | arith h => exact h.nodes_le
  | aggr h =>
    cases h with
    | fn _ ha =>
      rw [Expr.nodes, List.length_cons, List.length_cons]
      omega
    | countStar => decide

theorem Condition.nodes_le {c : Condn} (h : Condition ts c) : c.nodes ≤ ts.length := by
  cases h with
  | mk hl _ hr =>
    have hleft := hl.nodes_le
    have hright := hr.nodes_le
    rw [Condn.nodes, List.length_append, List.length_cons]
    dsimp only
    omega

theorem WindowType.nodes_le {w : WindowSpec} (h : WindowType ts w) : w.nodes ≤ ts.length := by
  cases h with
  | range h => cases h <;> simp [WindowSpec.nodes]
  | now => exact Nat.le_refl 1
  | rows _ => exact Nat.le_succ 1
  | unbounded => exact Nat.le_succ 1
  | partition _ hattrs =>
    have hlist := hattrs.two_mul_le
    simp only [WindowSpec.nodes, List.length_cons, List.length_append, List.length_nil]
    omega

theorem RelationVariable.nodes_le {r : RelVar} (h : RelationVariable ts r) : r.nodes ≤ ts.length := by
  have hwindow {ts : List Terminal} {w : WindowSpec} (relName : List Char) (varName : Option (List Char)) (h : WindowType ts w) :
      (RelVar.mk relName varName (some w)).nodes ≤ ts.length + 1 := by
    have hw := h.nodes_le
    simp only [RelVar.nodes, Option.map_some, Option.getD_some]
    omega
  cases h with
  | window relName h =>
    have hw := hwindow relName none h
    simp only [List.length_cons, List.length_append]
    omega
  | windowAs relName varName h =>
    have hw := hwindow relName (some varName) h
    simp only [List.length_cons, List.length_append]
    omega
  | plain _ => exact Nat.le_refl 1
  | as _ _ => exact Nat.le_add_left 1 2

theorem SelectClauseN.nodes_le {c : SelectClause} (h : SelectClauseN ts c) : listNodes Expr.nodes c.projTermList ≤ ts.length := by
  have hterms {ts : List Terminal} {l : List Expr} (h : NonMtProjtermList ts l) : listNodes Expr.nodes l ≤ ts.length + 1 :=
    listNodes_le h fun _ _ he => he.nodes_le
  cases h with
  | distinct h => exact Nat.le_succ_of_le (hterms h)
  | all h => exact hterms h
  | distinctStar => exact Nat.zero_le _
  | star => exact Nat.zero_le _

/-- Two nodes have no token: that of the block and that of its SELECT clause. -/
theorem SfwBlockN.nodes_le {block : SfwBlock} (h : SfwBlockN ts block) : block.nodes ≤ ts.length + 2 := by
  cases h with
  | @mk ts us vs ws selectClause relList conditionList groupList hselect hfrom hwhere hgroup =>
    have hterms := hselect.nodes_le
    have htables : listNodes RelVar.nodes relList ≤ us.length := by
      cases hfrom with
      | mk h => exact listNodes_le h fun _ _ hr => hr.nodes_le
    have hconditions : listNodes Condn.nodes conditionList ≤ vs.length := by
      cases hwhere with
      | mk h => exact listNodes_le h fun _ _ hc => hc.nodes_le
      | nothing => exact Nat.le_refl 0
    have hattrs : 2 * groupList.length ≤ ws.length := by
      cases hgroup with
      | mk h => exact Nat.le_succ_of_le h.two_mul_le
      | nothing => exact Nat.le_refl 0
    simp only [SfwBlock.nodes, List.length_append]
    omega

theorem Query.nodes_le {q : ContQuery} (h : Query ts q) : q.nodes ≤ ts.length + 3 := by
  cases h with
  | sfw h =>
    have hblock := h.nodes_le
    simp only [ContQuery.nodes, Option.toList_none, List.length_nil]
    omega
  | xstreamSfw _ h =>
    have hblock := h.nodes_le
    simp only [ContQuery.nodes, Option.toList_some, List.length_cons, List.length_append, List.length_nil]
    omega
  | binOp _ => exact Nat.le_add_left_of_le (Nat.le_succ 2)
  | xstreamBinOp _ _ => exact Nat.le_add_left 3 _

theorem RegisterTable.nodes_le {spec : TableSpec} (h : RegisterTable ts spec) : 1 + 2 * spec.attrList.length ≤ ts.length := by
  have hattrs {ts : List Terminal} {l : List AttrSpec} (h : NonMtAttrspecList ts l) : 2 * l.length ≤ ts.length + 1 := by
    rw [← listNodes_one]
    exact listNodes_le h fun _ _ ha => by cases ha <;> simp
  cases h with
  | stream _ h =>
    have hlist := hattrs h
    simp only [List.length_cons, List.length_append]
    omega
  | relation _ h =>
    have hlist := hattrs h
    simp only [List.length_cons, List.length_append]
    omega

end Grammar

/-- The nodes of a command; a specification has one, and two for each attribute. -/
def Command.nodes : Command → ℕ
  | .inl spec => 1 + 2 * spec.attrList.length
  | .inr q => q.nodes

def Command.tree : Command → Option (TableSpec ⊕ ParseTree)
  | .inl spec => if Command.nodes (.inl spec) ≤ MAXNODE then some (.inl spec) else none
  | .inr q => if h : q.nodes ≤ MAXNODE ∧ q.hasTable = true then some (.inr ⟨q,h.1,h.2⟩) else none

/-- The tree of the command that the tokens of the text begin with. There is none when the process
ends because there are no more nodes. -/
def parseCommand (scan : List Char → List Terminal) (queryBuffer : List Char) : Option (TableSpec ⊕ ParseTree) :=
  (Grammar.readStart (scan queryBuffer)).bind fun r => r.1.tree

namespace Grammar

theorem Start.nodes_le {c : Command} (h : Start ts c) : c.nodes ≤ ts.length + 2 := by
  cases h with
  | query h =>
    rw [List.length_append, List.length_singleton]
    exact h.nodes_le
  | registerTable h =>
    have hspec := h.nodes_le
    rw [List.length_append, Command.nodes]
    omega

/-- Of a command that is read there is a tree exactly when it has its nodes in the pool. -/
theorem Start.tree_isSome_iff {c : Command} (h : Start ts c) : c.tree.isSome = true ↔ c.nodes ≤ MAXNODE := by
  cases c with
  | inl spec => rw [Command.tree, Option.isSome_ite]
  | inr q =>
    rw [Command.tree, Option.isSome_dite]
    exact and_iff_left h.hasTable

theorem parseCommand_query {scan : List Char → List Terminal} {queryBuffer : List Char} {parseTree : ParseTree} :
    parseCommand scan queryBuffer = some (.inr parseTree) ↔
      ∃ used rest, scan queryBuffer = used ++ rest ∧ Start used (.inr parseTree.query) := by
  constructor
  · intro h
    obtain ⟨⟨c,rest⟩,hread,htree⟩ := Option.bind_eq_some_iff.mp h
    obtain ⟨used,hscan,hD⟩ := readStart_recognizes.sound _ _ _ hread
    cases c with
    | inl spec =>
      dsimp only [Command.tree] at htree
      split at htree <;> cases htree
    | inr q =>
      dsimp only [Command.tree] at htree
      split at htree
      · cases htree
        exact ⟨used,rest,hscan,hD⟩
      · cases htree
  · rintro ⟨used,rest,hscan,hD⟩
    rw [parseCommand, hscan, readStart_recognizes.complete _ _ _ hD trivial, Option.bind_some]
    exact dif_pos ⟨parseTree.fits,parseTree.table⟩

def manyAttrs : Command :=
  .inr (.sfwBlock ⟨⟨false,List.replicate 48 (.attrRef ⟨none,['a']⟩)⟩,[⟨['R'],none,none⟩],[],[]⟩ none)

theorem manyAttrs_grammatical : manyAttrs.Grammatical where
  terms e he := by
    rw [List.eq_of_mem_replicate he]
    trivial
  tables := List.cons_ne_nil _ _
  windows := by simp
  conditions := by simp

/-- Every command of so many tokens has its nodes in the pool exactly when there are two more in the pool. -/
theorem nodes_le_maxnode_iff (n : ℕ) : (∀ used c, Start used c → used.length ≤ n → c.nodes ≤ MAXNODE) ↔ n + 2 ≤ MAXNODE := by
  constructor
  · intro h
    by_contra hlt
    have hlen : manyAttrs.tokens.length ≤ n := by
      have htokens : manyAttrs.tokens.length = 99 := by decide
      unfold MAXNODE at hlt
      omega
    have hnodes : ¬ manyAttrs.nodes ≤ MAXNODE := by decide
    exact hnodes (h _ _ (start_tokens manyAttrs_grammatical) hlen)
  · intro hn used c h hlen
    have hnodes := h.nodes_le
    omega

end Grammar
end AqsiosCoordinator.Parser
