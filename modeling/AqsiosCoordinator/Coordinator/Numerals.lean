import AqsiosCoordinator.Coordinator.NodeInfo
import Mathlib.Tactic.IntervalCases

/-! # The numbers in messages

Decimal numerals and integers as they stand in a message, up to the comma or the NUL
behind them.
-/
namespace AqsiosCoordinator.Coordinator
open Foundation Foundation.Reader

inductive Sign where
  | none
  | plus
  | minus

def Sign.text : Sign → List Char
  | none => []
  | plus => ['+']
  | minus => ['-']

def Sign.negative : Sign → Bool
  | minus => true
  | _ => false

structure Exponent where
  mark : Char
  sign : Sign
  digits : List Char
  mark_eq : mark = 'e' ∨ mark = 'E'
  digits_ne : digits ≠ []
  digits_all : ∀ c ∈ digits, isDigit c = true

def Exponent.text (e : Exponent) : List Char := e.mark :: (e.sign.text ++ e.digits)

def Exponent.value (e : Exponent) : ℤ :=
  if e.sign.negative then -(digitsValue 10 e.digits : ℤ) else digitsValue 10 e.digits

/-- A decimal numeral. The digits behind the point are absent when there is no point. -/
structure Decimal where
  sign : Sign
  intDigits : List Char
  fracDigits : Option (List Char)
  exponent : Option Exponent
  intDigits_all : ∀ c ∈ intDigits, isDigit c = true
  fracDigits_all : ∀ c ∈ fracDigits.getD [], isDigit c = true
  some_digit : intDigits ≠ [] ∨ fracDigits.getD [] ≠ []

namespace Decimal

def fracText (d : Decimal) : List Char :=
  match d.fracDigits with
  | none => []
  | some ds => '.' :: ds

def exponentText (d : Decimal) : List Char :=
  match d.exponent with
  | none => []
  | some e => e.text

def text (d : Decimal) : List Char := d.sign.text ++ (d.intDigits ++ (d.fracText ++ d.exponentText))

def numeral (d : Decimal) : Numeral :=
  .finite 10 d.intDigits (d.fracDigits.getD []) ((d.exponent.map Exponent.value).getD 0)

def value {D : Type} [Double D] (d : Decimal) : D := Double.ofNumeral d.sign.negative d.numeral

end Decimal

def Ends (c : Char) : Prop := c = ',' ∨ c = NUL

theorem Ends.not_mem {c : Char} (h : Ends c) :
    isDigit c = false ∧ c ≠ '.' ∧ c ≠ 'e' ∧ c ≠ 'E' ∧ c.toLower ≠ 'x' ∧ c.toLower ≠ '0' := by
  rcases h with rfl | rfl
  · decide
  · decide

section Parts
variable {c : Char} {ds rest : List Char}

theorem span_append {α : Type} {p : α → Bool} {xs : List α} {x : α} {rest : List α} (hxs : ∀ y ∈ xs, p y = true) (hx : p x = false) :
    span p (xs ++ x :: rest) = some (xs,x :: rest) := by
  induction xs with
  | nil => simp [span,spanList,hx]
  | cons y xs ih =>
    obtain ⟨hy,hxs⟩ := List.forall_mem_cons.mp hxs
    have h := ih hxs
    unfold span at h ⊢
    rw [List.cons_append, spanList, if_pos hy, h]
    rfl

theorem peek_cons {α : Type} {x : α} {rest : List α} : peek (x :: rest) = some (x,x :: rest) := rfl

theorem skip_cons {α : Type} {x : α} {rest : List α} : skip (x :: rest) = some ((),rest) := rfl

theorem isDigit_mem (h : isDigit c = true) : c ∈ ['0', '1', '2', '3', '4', '5', '6', '7', '8', '9'] := by
  simp only [isDigit, Bool.and_eq_true, decide_eq_true_eq] at h
  obtain ⟨h1,h2⟩ := h
  have hlow : 48 ≤ c.toNat := h1
  have hhigh : c.toNat ≤ 57 := h2
  have hc : c = Char.ofNat c.toNat := (Char.ofNat_toNat c).symm
  obtain ⟨n,hn⟩ : ∃ n, c.toNat = n := ⟨_,rfl⟩
  rw [hn] at hc hlow hhigh
  interval_cases n <;> subst hc <;> decide

/-- A digit is not a space and is no sign. -/
theorem isDigit_not (h : isDigit c = true) : isSpace c = false ∧ c ≠ '-' ∧ c ≠ '+' ∧ c ≠ '.' ∧ c.toLower ≠ 'x' := by
  have hmem := isDigit_mem h
  simp only [List.mem_cons, List.not_mem_nil, or_false] at hmem
  rcases hmem with rfl | rfl | rfl | rfl | rfl | rfl | rfl | rfl | rfl | rfl <;> decide

theorem sign_append {sgn : Sign} (h : c ≠ '-' ∧ c ≠ '+') : sign (sgn.text ++ c :: rest) = some (sgn.negative,c :: rest) := by
  cases sgn with
  | none =>
    unfold sign
    rw [Sign.text, List.nil_append, bind_of_eq peek_cons, if_neg h.1, if_neg h.2]
    rfl
  | plus => rfl
  | minus => rfl

/-- What stands behind a mantissa or a sign is no space. -/
theorem span_spaces (sgn : Sign) (h : isSpace c = false) :
    span isSpace (sgn.text ++ c :: rest) = some ([],sgn.text ++ c :: rest) := by
  cases sgn with
  | none => simp [Sign.text,span,spanList,h]
  | plus => rfl
  | minus => rfl

theorem exponentPart_text (e : Exponent) (hc : isDigit c = false) :
    exponentPart (fun c => c = 'e' || c = 'E') (e.text ++ c :: rest) = some (some e.value,c :: rest) := by
  obtain ⟨mark,sgn,digits,hmark,hne,hall⟩ := e
  obtain ⟨d,ds,rfl⟩ := List.exists_cons_of_ne_nil hne
  have hd := isDigit_not (hall d List.mem_cons_self)
  unfold exponentPart
  rw [Exponent.text, List.cons_append, bind_of_eq peek_cons, if_pos (by simpa using hmark), bind_of_eq skip_cons,
    List.append_assoc, List.cons_append, bind_of_eq (sign_append ⟨hd.2.1,hd.2.2.1⟩), ← List.cons_append,
    bind_of_eq (span_append hall hc), if_neg (List.cons_ne_nil d ds)]
  rfl

theorem fraction_text {d : Decimal} (h : c ≠ '.' ∧ isDigit c = false) :
    fraction isDigit (d.fracText ++ c :: rest) = some (d.fracDigits.getD [],c :: rest) := by
  obtain ⟨sgn,ids,fs,e,hint,hfrac,hsome⟩ := d
  unfold fraction Decimal.fracText
  cases fs with
  | none =>
    simp only [List.nil_append]
    rw [bind_of_eq peek_cons, if_neg h.1]
    rfl
  | some fs =>
    simp only [List.cons_append]
    rw [bind_of_eq peek_cons, if_pos rfl, bind_of_eq skip_cons]
    exact span_append hfrac h.2

end Parts

section Reading
variable {c : Char} {rest : List Char}

/-- What stands behind the digits in front of the point. -/
theorem Decimal.behind_digits (d : Decimal) (hc : Ends c) : ∃ x tail, d.fracText ++ (d.exponentText ++ c :: rest) = x :: tail ∧
    isDigit x = false ∧ x.toLower ≠ 'x' ∧ x.toLower ≠ '0' := by
  obtain ⟨h1,h2,h3,h4,h5,h6⟩ := hc.not_mem
  unfold Decimal.fracText Decimal.exponentText
  cases d.fracDigits with
  | some fs => exact ⟨'.',_,rfl,by decide⟩
  | none =>
    cases d.exponent with
    | none => exact ⟨c,rest,rfl,h1,h5,h6⟩
    | some e =>
      refine ⟨e.mark,_,rfl,?_⟩
      rcases e.mark_eq with h | h
      · rw [h]
        decide
      · rw [h]
        decide

theorem Decimal.mantissa_text (d : Decimal) (hc : Ends c) :
    decimalNumeral (d.intDigits ++ (d.fracText ++ (d.exponentText ++ c :: rest))) = some (some d.numeral,c :: rest) := by
  obtain ⟨h1,h2,h3,h4,-⟩ := hc.not_mem
  obtain ⟨x,tail,hx,hdigit,-⟩ := @Decimal.behind_digits c rest d hc
  have hspan : span isDigit (d.intDigits ++ (d.fracText ++ (d.exponentText ++ c :: rest))) =
      some (d.intDigits,d.fracText ++ (d.exponentText ++ c :: rest)) := by
    rw [hx]
    exact span_append d.intDigits_all hdigit
  have hfrac : fraction isDigit (d.fracText ++ (d.exponentText ++ c :: rest)) =
      some (d.fracDigits.getD [],d.exponentText ++ c :: rest) := by
    unfold Decimal.exponentText
    cases d.exponent with
    | none => exact fraction_text ⟨h2,h1⟩
    | some e =>
      have hmark : e.mark ≠ '.' ∧ isDigit e.mark = false := by
        rcases e.mark_eq with h | h
        · rw [h]
          decide
        · rw [h]
          decide
      exact fraction_text hmark
  have hexp : attempt (exponentPart fun c => c = 'e' || c = 'E') (d.exponentText ++ c :: rest) =
      some (d.exponent.map Exponent.value,c :: rest) := by
    unfold Decimal.exponentText attempt
    cases d.exponent with
    | none =>
      have hnone : exponentPart (fun c => c = 'e' || c = 'E') (c :: rest) = some (none,c :: rest) := by
        unfold exponentPart
        rw [bind_of_eq peek_cons, if_neg (by simp [h3,h4])]
        rfl
      rw [List.nil_append, hnone]
      rfl
    | some e =>
      rw [exponentPart_text e h1]
      rfl
  unfold decimalNumeral mantissa
  rw [bind_of_eq hspan, bind_of_eq hfrac, if_neg, bind_of_eq hexp]
  · rfl
  · rintro ⟨hi,hf⟩
    exact d.some_digit.elim (fun h => h hi) fun h => h hf

theorem attempt_some {β : Type} {m : Msg (Option β)} {v : β} {buffer rest : List Char} (h : m buffer = some (some v,rest)) :
    attempt m buffer = some (some v,rest) := by
  unfold attempt
  rw [h]
  rfl

theorem attempt_none {β : Type} {m : Msg (Option β)} {buffer rest : List Char} (h : m buffer = some (none,rest)) :
    attempt m buffer = some (none,buffer) := by
  unfold attempt
  rw [h]
  rfl

theorem orElse_left {m n : Msg (Option Numeral)} {v : Numeral} {buffer rest : List Char}
    (h : m buffer = some (some v,rest)) : orElse m n buffer = some (some v,rest) := by
  unfold orElse
  rw [bind_of_eq (attempt_some h)]
  rfl

theorem orElse_right {m n : Msg (Option Numeral)} {v : Numeral} {buffer mid rest : List Char}
    (h : m buffer = some (none,mid)) (hn : n buffer = some (some v,rest)) : orElse m n buffer = some (some v,rest) := by
  unfold orElse
  rw [bind_of_eq (attempt_none h)]
  exact attempt_some hn

/-- A decimal numeral is no hexadecimal one, not even behind a zero. -/
theorem Decimal.no_hex (d : Decimal) (hc : Ends c) :
    ∃ mid, hexNumeral (d.intDigits ++ (d.fracText ++ (d.exponentText ++ c :: rest))) = some (none,mid) := by
  obtain ⟨x,tail,hx,-,hlow,hzero⟩ := @Decimal.behind_digits c rest d hc
  rw [hx]
  have hkeyword : ∃ mid, keyword ['0','x'] (d.intDigits ++ x :: tail) = some (none,mid) := by
    unfold keyword
    cases hds : d.intDigits with
    | nil =>
      rw [List.nil_append, bind_of_eq peek_cons, if_neg hzero]
      exact ⟨_,rfl⟩
    | cons y ds =>
      rw [List.cons_append, bind_of_eq peek_cons]
      split
      · rw [bind_of_eq skip_cons]
        unfold keyword
        cases ds with
        | nil =>
          rw [List.nil_append, bind_of_eq peek_cons, if_neg hlow]
          exact ⟨_,rfl⟩
        | cons z ds =>
          have hz := isDigit_not (d.intDigits_all z (by simp [hds]))
          rw [List.cons_append, bind_of_eq peek_cons, if_neg hz.2.2.2.2]
          exact ⟨_,rfl⟩
      · exact ⟨_,rfl⟩
  obtain ⟨mid,hmid⟩ := hkeyword
  refine ⟨mid,?_⟩
  unfold hexNumeral
  rw [bind_of_eq hmid]
  rfl

theorem Decimal.head (d : Decimal) : ∃ y tail, d.intDigits ++ (d.fracText ++ (d.exponentText ++ c :: rest)) = y :: tail ∧
    isSpace y = false ∧ y ≠ '-' ∧ y ≠ '+' := by
  cases hds : d.intDigits with
  | cons y ds =>
    have hy := isDigit_not (d.intDigits_all y (by simp [hds]))
    exact ⟨y,_,rfl,hy.1,hy.2.1,hy.2.2.1⟩
  | nil =>
    have hfrac := d.some_digit.resolve_left (fun h => h hds)
    unfold Decimal.fracText
    cases hfs : d.fracDigits with
    | none => simp [hfs] at hfrac
    | some fs => exact ⟨'.',_,rfl,by decide⟩

theorem Decimal.signedNumeral_text (d : Decimal) (hc : Ends c) :
    signedNumeral (d.text ++ c :: rest) = some (some (d.sign.negative,d.numeral),c :: rest) := by
  obtain ⟨mid,hhex⟩ := @Decimal.no_hex c rest d hc
  have hvalue : orElse hexNumeral (orElse decimalNumeral (orElse infinityNumeral nanNumeral))
      (d.intDigits ++ (d.fracText ++ (d.exponentText ++ c :: rest))) = some (some d.numeral,c :: rest) :=
    orElse_right hhex (orElse_left (d.mantissa_text hc))
  obtain ⟨y,tail,hy,hspace,hminus,hplus⟩ := @Decimal.head c rest d
  have htext : d.text ++ c :: rest = d.sign.text ++ (d.intDigits ++ (d.fracText ++ (d.exponentText ++ c :: rest))) := by
    simp [Decimal.text]
  rw [hy] at htext hvalue
  unfold signedNumeral
  rw [htext, bind_of_eq (span_spaces d.sign hspace), bind_of_eq (sign_append ⟨hminus,hplus⟩), bind_of_eq hvalue]
  rfl

/-- `strtod` reads a decimal numeral up to what stands behind it. -/
theorem Decimal.strtod_text {D : Type} [Double D] (d : Decimal) (hc : Ends c) :
    (strtod : Msg D) (d.text ++ c :: rest) = some (d.value,c :: rest) := by
  unfold strtod
  rw [bind_of_eq (attempt_some (d.signedNumeral_text hc))]
  rfl

structure Integer where
  sign : Sign
  digits : List Char
  digits_ne : digits ≠ []
  digits_all : ∀ c ∈ digits, isDigit c = true
  fits : -2^31 ≤ (if sign.negative then -(digitsValue 10 digits : ℤ) else digitsValue 10 digits) ∧
    (if sign.negative then -(digitsValue 10 digits : ℤ) else digitsValue 10 digits) < 2^31

namespace Integer

def text (i : Integer) : List Char := i.sign.text ++ i.digits

def value (i : Integer) : ℤ := if i.sign.negative then -(digitsValue 10 i.digits : ℤ) else digitsValue 10 i.digits

def decimal (i : Integer) : Decimal where
  sign := i.sign
  intDigits := i.digits
  fracDigits := none
  exponent := none
  intDigits_all := i.digits_all
  fracDigits_all := by simp
  some_digit := .inl i.digits_ne

theorem decimal_text (i : Integer) : i.decimal.text = i.text := by
  simp [Decimal.text,Decimal.fracText,Decimal.exponentText,decimal,text]

theorem strtol_text (i : Integer) (hc : Ends c) : strtol (i.text ++ c :: rest) = some (i.value,c :: rest) := by
  obtain ⟨d,ds,hds⟩ := List.exists_cons_of_ne_nil i.digits_ne
  have hd := isDigit_not (i.digits_all d (by simp [hds]))
  have hall := i.digits_all
  rw [hds] at hall
  have hdigits : signedDigits (i.text ++ c :: rest) = some (some i.value,c :: rest) := by
    unfold signedDigits text
    rw [hds, List.append_assoc, List.cons_append, bind_of_eq (span_spaces i.sign hd.1),
      bind_of_eq (sign_append ⟨hd.2.1,hd.2.2.1⟩), ← List.cons_append, bind_of_eq (span_append hall hc.not_mem.1),
      if_neg (List.cons_ne_nil d ds), ← hds]
    rfl
  have hfits : -2^31 ≤ i.value ∧ i.value < 2^31 := i.fits
  have hclamp : max (-2^63) (min i.value (2^63 - 1)) = i.value := by omega
  unfold strtol
  rw [bind_of_eq (attempt_some hdigits)]
  simp only [hclamp]
  rfl

/-- An `int` keeps the value of the `long`. -/
theorem bmod_value (i : Integer) : i.value.bmod (2^32) = i.value := by
  have hfits : -2^31 ≤ i.value ∧ i.value < 2^31 := i.fits
  apply Int.bmod_eq_of_le
  · omega
  · omega

end Integer

end Reading

end AqsiosCoordinator.Coordinator
