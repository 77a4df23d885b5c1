import AqsiosCoordinator.Common.Types
import AqsiosCoordinator.Foundation.ContinuousQuery
import Mathlib.Data.List.Lex
import Mathlib.Data.Multiset.Sort
import Mathlib.Data.Rat.Floor

/-! # Interpretations of expressions

The values of constants and what the arithmetic operations, the comparisons and the
aggregations make of values are parameters.
-/
namespace AqsiosCoordinator.Common
open Foundation

structure Interp (α : Type) where
  const : Const → α
  arith : ArithOp → DataType → α → α → α
  comp : CompOp → DataType → DataType → α → α → Bool
  aggr : AggrFn → Multiset α → α
  /-- The value of a column that a row does not have. -/
  null : α

/-- What the tables hold, and the order of the rows that come at the same instant. -/
structure Sources (α : Type) where
  table : ℕ → TimeVarying α
  order : Multiset (Row α) → List (Row α)
  listed : ∀ rows, (order rows : Multiset (Row α)) = rows

namespace Interp
variable {α A B : Type} (I : Interp α)

def value (lookup : A → α) : Expr A → α
  | .constVal c => I.const c
  | .attrRef _ attr => lookup attr
  | .compExpr type op left right => I.arith op type (value lookup left) (value lookup right)

def compare (lookup : A → α) (b : BExpr A) : Bool :=
  I.comp b.op b.left.type b.right.type (I.value lookup b.left) (I.value lookup b.right)

def holds (lookup : A → α) (pred : List (BExpr A)) : Bool := pred.all (I.compare lookup)

variable {I} {lookup lookup' : A → α}

theorem value_congr {e : Expr A} (h : ∀ a ∈ e.attrs, lookup a = lookup' a) : I.value lookup e = I.value lookup' e := by
  induction e with
  | constVal c => rfl
  | attrRef type a => exact h a (by simp [Expr.attrs])
  | compExpr type op left right hl hr =>
    simp only [Expr.attrs, List.mem_append] at h
    simp only [value]
    rw [hl fun a ha => h a (.inl ha), hr fun a ha => h a (.inr ha)]

theorem value_map (f : B → A) (e : Expr B) : I.value lookup (e.map f) = I.value (fun b => lookup (f b)) e := by
  induction e with
  | constVal c => rfl
  | attrRef type a => rfl
  | compExpr type op left right hl hr => simp only [Expr.map, value, hl, hr]

theorem compare_congr {b : BExpr A} (h : ∀ a ∈ b.attrs, lookup a = lookup' a) :
    I.compare lookup b = I.compare lookup' b := by
  simp only [BExpr.attrs, List.mem_append] at h
  unfold compare
  rw [value_congr fun a ha => h a (.inl ha), value_congr fun a ha => h a (.inr ha)]

theorem holds_append (p q : List (BExpr A)) : I.holds lookup (p ++ q) = (I.holds lookup p && I.holds lookup q) :=
  List.all_append

end Interp

def intInterp : Interp ℤ where
  const
    | .int ival => ival
    | .float fval => fval.floor
    | .byte bval => bval.toNat
    | .char sval => sval.length
  arith
    | .add, _, x, y => x + y
    | .sub, _, x, y => x - y
    | .mul, _, x, y => x * y
    | .div, _, x, y => x / y
  comp
    | .lt, _, _, x, y => x < y
    | .le, _, _, x, y => x ≤ y
    | .gt, _, _, x, y => x > y
    | .ge, _, _, x, y => x ≥ y
    | .eq, _, _, x, y => x = y
    | .ne, _, _, x, y => x ≠ y
  aggr
    | .count, xs => xs.card
    | .sum, xs => xs.sum
    | .avg, xs => xs.sum / xs.card
    | .max, xs => xs.fold max 0
    | .min, xs => xs.fold min 0
  null := 0

def oneRow (r : Row ℤ) : Sources ℤ := ⟨fun _ _ => {r},fun rows => rows.sort,fun rows => rows.sort_eq _⟩

@[simp] theorem Expr.type_map {A B : Type} (f : A → B) (e : Expr A) : (e.map f).type = e.type := by
  cases e <;> rfl

end AqsiosCoordinator.Common
