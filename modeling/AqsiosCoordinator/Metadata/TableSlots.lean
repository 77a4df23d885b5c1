import AqsiosCoordinator.Metadata.TableRegistration
import AqsiosCoordinator.Foundation.Slots

/-! # The table manager in its fixed arrays

A table is entered into the slot behind the last one and leaves it again when the
counter goes back; what the slot held stays there. The arrays up to their
counters are the lists of the table manager.
-/
namespace AqsiosCoordinator.Metadata
open Common Foundation

structure TableSlot where
  tableName : List Char
  isStream : Bool
  attrList : ℕ → Attribute
  numAttrs : ℕ

structure TableSlots where
  tableList : ℕ → TableSlot
  numTables : ℕ

namespace TableSlots
open TableManager

def registerTable (m : TableSlots) (name : List Char) (isStream : Bool) : Except ℤ (ℕ × TableSlots) :=
  if m.numTables = MAX_TABLES then .error (-1)
  else if (List.range m.numTables).any (fun i => (m.tableList i).tableName == name) then .error DUPLICATE_TABLE_ERR
  else
    let slot := { m.tableList m.numTables with tableName := name, isStream := isStream, numAttrs := 0 }
    .ok (m.numTables,⟨Function.update m.tableList m.numTables slot,m.numTables + 1⟩)

def unregisterTable (m : TableSlots) (_tableId : ℕ) : TableSlots := { m with numTables := m.numTables - 1 }

def addTableAttribute (m : TableSlots) (tableId : ℕ) (a : Attribute) : Except ℤ TableSlots :=
  let table := m.tableList tableId
  if table.numAttrs = MAX_ATTRS then .error (-1)
  else if (List.range table.numAttrs).any (fun i => (table.attrList i).attrName == a.attrName)
  then .error DUPLICATE_ATTR_ERR
  else
    let slot := { table with attrList := Function.update table.attrList table.numAttrs a, numAttrs := table.numAttrs + 1 }
    .ok { m with tableList := Function.update m.tableList tableId slot }

def getTableId (m : TableSlots) (name : List Char) : Option ℕ :=
  (List.range m.numTables).find? (fun i => (m.tableList i).tableName == name)

def getAttrId (m : TableSlots) (tableId : ℕ) (name : List Char) : Option ℕ :=
  (List.range (m.tableList tableId).numAttrs).find? (fun i => ((m.tableList tableId).attrList i).attrName == name)

/-- The loop over the attribute list; a failure takes the table back. -/
def addAttributes (tableId : ℕ) : List AttrSpec → TableSlots → Option ℤ × TableSlots
  | [], m => (none,m)
  | a :: attrs, m => match m.addTableAttribute tableId a.attribute with
    | .error rc => (some rc,m.unregisterTable tableId)
    | .ok m' => addAttributes tableId attrs m'

/-- `registerRelation` and `registerStream` of the server, by the kind of the specification. -/
def registerSpec (m : TableSlots) (spec : TableSpec) : Except ℤ ℕ × TableSlots :=
  match m.registerTable spec.name spec.isStream with
  | .error rc => (.error rc,m)
  | .ok (tableId,m') => match addAttributes tableId spec.attrList m' with
    | (none,m'') => (.ok tableId,m'')
    | (some rc,m'') => (.error rc,m'')

def registerSpecs (m : TableSlots) (specs : List TableSpec) : TableSlots :=
  specs.foldl (fun m spec => (m.registerSpec spec).2) m

/-- The constructor sets the counter; the slots hold anything. -/
def new (tableList : ℕ → TableSlot) : TableSlots := ⟨tableList,0⟩

end TableSlots

def TableSlot.table (s : TableSlot) : Table where
  tableName := s.tableName
  isStream := s.isStream
  attrList := firstSlots s.attrList s.numAttrs

namespace TableSlots
open TableManager

def tables (m : TableSlots) : List Table := firstSlots (fun i => (m.tableList i).table) m.numTables

def manager (m : TableSlots) : TableManager := ⟨m.tables⟩

@[simp] theorem manager_tableList (m : TableSlots) : m.manager.tableList = m.tables := rfl

@[simp] theorem manager_numTables (m : TableSlots) : m.manager.numTables = m.numTables := by
  simp [manager,TableManager.numTables,tables]

theorem table_update (f : ℕ → TableSlot) (i : ℕ) (s : TableSlot) :
    (fun j => (Function.update f i s j).table) = Function.update (fun j => (f j).table) i s.table := by
  funext j
  by_cases h : j = i
  · subst h
    simp
  · simp [h]

theorem registerTable_manager (m : TableSlots) (name : List Char) (isStream : Bool) :
    (m.registerTable name isStream).map (fun r => (r.1,r.2.manager)) = m.manager.registerTable name isStream := by
  have hany : (List.range m.numTables).any (fun i => (m.tableList i).tableName == name) =
      m.tables.any (fun t => t.tableName == name) := by
    rw [tables, ← firstSlots_any]
    rfl
  simp only [registerTable, TableManager.registerTable, manager_numTables, manager_tableList, hany]
  split
  · rfl
  split
  · rfl
  simp only [Except.map, manager, tables, table_update, firstSlots_update_self]
  rfl

theorem unregisterTable_manager (m : TableSlots) (tableId : ℕ) :
    (m.unregisterTable tableId).manager = m.manager.unregisterTable tableId := by
  simp only [manager, tables, unregisterTable, TableManager.unregisterTable]
  rw [firstSlots_pred]

theorem addTableAttribute_manager (m : TableSlots) {tableId : ℕ} (h : tableId < m.numTables) (a : Attribute) :
    (m.addTableAttribute tableId a).map manager = m.manager.addTableAttribute tableId a := by
  have hget : m.tables[tableId]? = some (m.tableList tableId).table := by
    rw [tables, firstSlots_getElem?, if_pos h]
  have hany : (List.range (m.tableList tableId).numAttrs).any
      (fun i => ((m.tableList tableId).attrList i).attrName == a.attrName) =
        (m.tableList tableId).table.attrList.any (fun b => b.attrName == a.attrName) := by
    rw [TableSlot.table, ← firstSlots_any]
  have hlen : (m.tableList tableId).table.attrList.length = (m.tableList tableId).numAttrs := by
    simp [TableSlot.table]
  simp only [addTableAttribute, TableManager.addTableAttribute, manager_tableList, hget, hlen, hany]
  split
  · rfl
  split
  · rfl
  simp only [Except.map, manager, tables, table_update, firstSlots_update_of_lt _ h]
  simp only [TableSlot.table, firstSlots_update_self]

theorem getTableId_manager (m : TableSlots) (name : List Char) : m.getTableId name = m.manager.getTableId name :=
  firstSlots_find (fun i => (m.tableList i).table) m.numTables (fun t => t.tableName == name)

theorem getAttrId_manager (m : TableSlots) {tableId : ℕ} (h : tableId < m.numTables) (name : List Char) :
    m.getAttrId tableId name = m.manager.getAttrId tableId name := by
  have hget : m.tables[tableId]? = some (m.tableList tableId).table := by
    rw [tables, firstSlots_getElem?, if_pos h]
  simp only [getAttrId, TableManager.getAttrId, TableManager.attrs, manager_tableList, hget, Option.map_some,
    Option.getD_some]
  exact firstSlots_find (m.tableList tableId).attrList _ (fun a => a.attrName == name)

theorem addAttributes_manager (attrs : List AttrSpec) (m : TableSlots) {tableId : ℕ} (h : tableId < m.numTables) :
    ((addAttributes tableId attrs m).1,(addAttributes tableId attrs m).2.manager) =
      TableManager.addAttributes tableId attrs m.manager := by
  induction attrs generalizing m with
  | nil => rfl
  | cons a attrs ih =>
    have hadd := addTableAttribute_manager m h a.attribute
    simp only [addAttributes, TableManager.addAttributes, ← hadd]
    cases hx : m.addTableAttribute tableId a.attribute with
    | error rc => simp [Except.map,unregisterTable_manager]
    | ok m' =>
      have hn : m'.numTables = m.numTables := by
        simp only [addTableAttribute] at hx
        split at hx
        · cases hx
        split at hx
        · cases hx
        cases hx
        rfl
      exact ih m' (by omega)

/-- The arrays do what the table manager does. -/
theorem registerSpec_manager (m : TableSlots) (spec : TableSpec) :
    ((m.registerSpec spec).1,(m.registerSpec spec).2.manager) = m.manager.registerSpec spec := by
  have hreg := registerTable_manager m spec.name spec.isStream
  simp only [registerSpec, TableManager.registerSpec, ← hreg]
  cases hx : m.registerTable spec.name spec.isStream with
  | error rc => rfl
  | ok r =>
    obtain ⟨tableId,m'⟩ := r
    have hlt : tableId < m'.numTables := by
      simp only [registerTable] at hx
      split at hx
      · cases hx
      split at hx
      · cases hx
      cases hx
      exact Nat.lt_succ_self _
    simp only [Except.map, ← addAttributes_manager spec.attrList m' hlt]
    obtain ⟨_ | rc,m''⟩ := addAttributes tableId spec.attrList m' <;> rfl

structure Consistent (m : TableSlots) : Prop where
  names : (m.tables.map Table.tableName).Nodup
  attrs : ∀ t ∈ m.tables, AttrsFit t.attrList
  bound : m.numTables ≤ MAX_TABLES

/-- A registration changes nothing, or enters the specification behind the tables. -/
theorem registerSpec_outcome (m : TableSlots) (spec : TableSpec) :
    (∃ rc, rc ≠ 0 ∧ (m.registerSpec spec).1 = .error rc ∧ (m.registerSpec spec).2.tables = m.tables) ∨
      ((m.registerSpec spec).1 = .ok m.numTables ∧ (m.registerSpec spec).2.tables = m.tables ++ [spec.table] ∧
        m.numTables ≠ MAX_TABLES ∧ spec.name ∉ m.tables.map Table.tableName ∧ AttrsFit spec.table.attrList) := by
  have hsim := registerSpec_manager m spec
  obtain ⟨rc,hrc,he⟩ | ⟨he,hfit⟩ := registerSpec_cases m.manager spec
  · rw [he, Prod.mk.injEq] at hsim
    exact .inl ⟨rc,hrc,hsim.1,congrArg TableManager.tableList hsim.2⟩
  · rw [he, Prod.mk.injEq, manager_numTables] at hsim
    rw [manager_numTables] at hfit
    exact .inr ⟨hsim.1,congrArg TableManager.tableList hsim.2,hfit⟩

theorem Consistent.registerSpec {m : TableSlots} (h : Consistent m) (spec : TableSpec) :
    Consistent (m.registerSpec spec).2 := by
  have hlen : ∀ s : TableSlots, s.numTables = s.tables.length := fun s => by simp [tables]
  obtain ⟨rc,-,-,he⟩ | ⟨-,he,hfull,hname,hfit⟩ := registerSpec_outcome m spec
  · exact ⟨he ▸ h.names,he ▸ h.attrs,by rw [hlen, he, ← hlen]; exact h.bound⟩
  · constructor
    · rw [he, List.map_append]
      apply List.nodup_append'.mpr
      exact ⟨h.names,List.nodup_singleton _,by simpa [TableSpec.table] using hname⟩
    · intro t ht
      rw [he] at ht
      obtain ht | ht := List.mem_append.mp ht
      · exact h.attrs t ht
      · rw [List.mem_singleton.mp ht]
        exact hfit
    · have hb := h.bound
      rw [hlen, he, List.length_append, ← hlen, List.length_singleton]
      omega

theorem Consistent.registerSpecs {m : TableSlots} (h : Consistent m) (specs : List TableSpec) :
    Consistent (m.registerSpecs specs) := by
  induction specs generalizing m with
  | nil => exact h
  | cons spec specs ih => exact ih (h.registerSpec spec)

theorem tables_prefix (m : TableSlots) (specs : List TableSpec) : m.tables <+: (m.registerSpecs specs).tables := by
  induction specs generalizing m with
  | nil => exact List.prefix_refl _
  | cons spec specs ih =>
    have hstep : m.tables <+: (m.registerSpec spec).2.tables := by
      obtain ⟨_,-,-,he⟩ | ⟨-,he,-⟩ := registerSpec_outcome m spec
      · exact ⟨[],by rw [he, List.append_nil]⟩
      · exact ⟨_,he.symm⟩
    exact hstep.trans (ih (m.registerSpec spec).2)

theorem Consistent.new (slots : ℕ → TableSlot) : Consistent (TableSlots.new slots) := by
  constructor <;> simp [TableSlots.new,tables]

theorem Consistent.getTableId {m : TableSlots} (h : Consistent m) (name : List Char) (i : ℕ) :
    m.getTableId name = some i ↔ ∃ t, m.tables[i]? = some t ∧ t.tableName = name := by
  rw [getTableId_manager]
  exact findIdx?_eq_some_iff_of_nodup h.names name i

theorem Consistent.getAttrId {m : TableSlots} (h : Consistent m) {i : ℕ} {t : Table} (ht : m.tables[i]? = some t)
    (name : List Char) (a : ℕ) :
    m.getAttrId i name = some a ↔ ∃ b, t.attrList[a]? = some b ∧ b.attrName = name := by
  have hi : i < m.numTables := by simpa [tables] using (List.getElem?_eq_some_iff.mp ht).1
  rw [getAttrId_manager m hi]
  simp only [TableManager.getAttrId, TableManager.attrs, manager_tableList, ht, Option.map_some, Option.getD_some]
  exact findIdx?_eq_some_iff_of_nodup (h.attrs t (List.mem_of_getElem? ht)).1 name a

/-- After any registrations: the names are distinct, the lookups find the position of a
registered name and nothing else, later registrations leave the tables as they are,
and one that fails changes none of them. -/
theorem registrations_consistent (slots : ℕ → TableSlot) (specs : List TableSpec) :
    let m := (new slots).registerSpecs specs
    (m.tables.map Table.tableName).Nodup ∧
    (∀ t ∈ m.tables, (t.attrList.map Attribute.attrName).Nodup) ∧
    (∀ name i, m.getTableId name = some i ↔ ∃ t, m.tables[i]? = some t ∧ t.tableName = name) ∧
    (∀ i t, m.tables[i]? = some t → ∀ name a,
      m.getAttrId i name = some a ↔ ∃ b, t.attrList[a]? = some b ∧ b.attrName = name) ∧
    (∀ later, m.tables <+: (m.registerSpecs later).tables) ∧
    ∀ spec, (∃ rc, rc ≠ 0 ∧ (m.registerSpec spec).1 = .error rc ∧ (m.registerSpec spec).2.tables = m.tables) ∨
      ((m.registerSpec spec).1 = .ok m.tables.length ∧ (m.registerSpec spec).2.tables = m.tables ++ [spec.table]) := by
  intro m
  have h : Consistent m := (Consistent.new slots).registerSpecs specs
  refine ⟨h.names,fun t ht => (h.attrs t ht).1,h.getTableId,fun i t ht => h.getAttrId ht, tables_prefix m,?_⟩
  intro spec
  obtain hfail | ⟨hok,htables,-⟩ := registerSpec_outcome m spec
  · exact .inl hfail
  · exact .inr ⟨by rw [hok]; simp [tables],htables⟩

end TableSlots
end AqsiosCoordinator.Metadata
