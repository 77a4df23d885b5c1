import AqsiosCoordinator.Metadata.TableManager
import Mathlib.Data.List.Nodup

/-! # Registering a table with its attributes

The server enters a table first and its attributes one after the other; the first
attribute that fails takes the table back.
-/
namespace AqsiosCoordinator.Metadata
open Common

structure AttrSpec where
  attrName : List Char
  type : DataType
  len : ℕ
  deriving DecidableEq

/-- The length `registerStream` and `registerRelation` give the attribute. -/
def AttrSpec.attrLen (a : AttrSpec) : ℕ :=
  match a.type with
  | .int => INT_SIZE
  | .float => FLOAT_SIZE
  | .char => a.len
  | .byte => BYTE_SIZE

def AttrSpec.attribute (a : AttrSpec) : Attribute where
  attrName := a.attrName
  attrType := a.type
  attrLen := a.attrLen

structure TableSpec where
  name : List Char
  isStream : Bool
  attrList : List AttrSpec

def TableSpec.table (spec : TableSpec) : Table where
  tableName := spec.name
  isStream := spec.isStream
  attrList := spec.attrList.map AttrSpec.attribute

namespace TableManager

/-- The loop over the attribute list; a failure takes the table back. -/
def addAttributes (tableId : ℕ) : List AttrSpec → TableManager → Option ℤ × TableManager
  | [], m => (none,m)
  | a :: attrs, m => match m.addTableAttribute tableId a.attribute with
    | .error rc => (some rc,m.unregisterTable tableId)
    | .ok m' => addAttributes tableId attrs m'

/-- `registerRelation` and `registerStream` of the server, by the kind of the specification. -/
def registerSpec (m : TableManager) (spec : TableSpec) : Except ℤ ℕ × TableManager :=
  match m.registerTable spec.name spec.isStream with
  | .error rc => (.error rc,m)
  | .ok (tableId,m') => match addAttributes tableId spec.attrList m' with
    | (none,m'') => (.ok tableId,m'')
    | (some rc,m'') => (.error rc,m'')

def AttrsFit (attrList : List Attribute) : Prop :=
  (attrList.map Attribute.attrName).Nodup ∧ attrList.length ≤ MAX_ATTRS

theorem addTableAttribute_last (ts : List Table) (t : Table) (a : Attribute) :
    (∃ rc, rc ≠ 0 ∧ addTableAttribute ⟨ts ++ [t]⟩ ts.length a = .error rc) ∨
      (addTableAttribute ⟨ts ++ [t]⟩ ts.length a = .ok ⟨ts ++ [{ t with attrList := t.attrList ++ [a] }]⟩ ∧
        (AttrsFit t.attrList → AttrsFit (t.attrList ++ [a]))) := by
  simp only [addTableAttribute, List.getElem?_concat_length]
  by_cases hfull : t.attrList.length = MAX_ATTRS
  · exact .inl ⟨-1,by decide,by rw [if_pos hfull]⟩
  rw [if_neg hfull]
  by_cases hdup : t.attrList.any (fun b => b.attrName == a.attrName) = true
  · exact .inl ⟨DUPLICATE_ATTR_ERR,by decide,by rw [if_pos hdup]⟩
  refine .inr ⟨by rw [if_neg hdup]; simp,fun hfit => ⟨?_,?_⟩⟩
  · rw [List.map_append]
    apply List.nodup_append'.mpr
    refine ⟨hfit.1,List.nodup_singleton _,?_⟩
    simpa using hdup
  · have hle := hfit.2
    simp only [List.length_append, List.length_singleton]
    omega

theorem addAttributes_last (ts : List Table) (t : Table) (attrs : List AttrSpec) :
    (∃ rc, rc ≠ 0 ∧ addAttributes ts.length attrs ⟨ts ++ [t]⟩ = (some rc,⟨ts⟩)) ∨
      (addAttributes ts.length attrs ⟨ts ++ [t]⟩ =
          (none,⟨ts ++ [{ t with attrList := t.attrList ++ attrs.map AttrSpec.attribute }]⟩) ∧
        (AttrsFit t.attrList → AttrsFit (t.attrList ++ attrs.map AttrSpec.attribute))) := by
  induction attrs generalizing t with
  | nil => exact .inr ⟨by simp [addAttributes],by simp⟩
  | cons a attrs ih =>
    obtain ⟨rc,hrc,he⟩ | ⟨he,hfit⟩ := addTableAttribute_last ts t a.attribute
    · exact .inl ⟨rc,hrc,by simp [addAttributes,he,unregisterTable]⟩
    · obtain ⟨rc,hrc,hrest⟩ | ⟨hrest,hfit'⟩ := ih { t with attrList := t.attrList ++ [a.attribute] }
      · exact .inl ⟨rc,hrc,by simp [addAttributes,he,hrest]⟩
      · refine .inr ⟨by simp [addAttributes,he,hrest],fun h => ?_⟩
        simpa using hfit' (hfit h)

/-- A registration fails and leaves the tables as they are, or enters the whole
specification as a table of a new name behind them. -/
theorem registerSpec_cases (m : TableManager) (spec : TableSpec) :
    (∃ rc, rc ≠ 0 ∧ m.registerSpec spec = (.error rc,m)) ∨
      (m.registerSpec spec = (.ok m.numTables,⟨m.tableList ++ [spec.table]⟩) ∧ m.numTables ≠ MAX_TABLES ∧
        spec.name ∉ m.tableList.map Table.tableName ∧ AttrsFit spec.table.attrList) := by
  simp only [registerSpec, registerTable]
  by_cases hfull : m.numTables = MAX_TABLES
  · exact .inl ⟨-1,by decide,by rw [if_pos hfull]⟩
  rw [if_neg hfull]
  by_cases hdup : m.tableList.any (fun t => t.tableName == spec.name) = true
  · exact .inl ⟨DUPLICATE_TABLE_ERR,by decide,by rw [if_pos hdup]⟩
  rw [if_neg hdup]
  simp only [numTables]
  obtain ⟨rc,hrc,he⟩ | ⟨he,hfit⟩ := addAttributes_last m.tableList ⟨spec.name,spec.isStream,[]⟩ spec.attrList
  · exact .inl ⟨rc,hrc,by rw [he]⟩
  · refine .inr ⟨by rw [he]; rfl,hfull,?_,?_⟩
    · simpa using hdup
    · simpa [TableSpec.table] using hfit ⟨by simp,by simp [MAX_ATTRS]⟩

end TableManager
end AqsiosCoordinator.Metadata
