import AqsiosCoordinator.Common.Types

/-! # The table manager

Named streams and relations. The identifier of a table is its position in the list.
-/
namespace AqsiosCoordinator.Metadata
open Common

structure Attribute where
  attrName : List Char
  attrType : DataType
  attrLen : ℕ
  deriving DecidableEq

structure Table where
  tableName : List Char
  isStream : Bool
  attrList : List Attribute

structure TableManager where
  tableList : List Table

namespace TableManager

def DUPLICATE_TABLE_ERR : ℤ := 102
def DUPLICATE_ATTR_ERR : ℤ := 103

/-- The constructor; the macro that registers the system stream is not defined in any build. -/
def new : TableManager := ⟨[]⟩

def numTables (m : TableManager) : ℕ := m.tableList.length

/-- `registerStream` and `registerRelation`, which differ in the kind of the table. -/
def registerTable (m : TableManager) (name : List Char) (isStream : Bool) : Except ℤ (ℕ × TableManager) :=
  if m.numTables = MAX_TABLES then .error (-1)
  else if m.tableList.any (fun t => t.tableName == name) then .error DUPLICATE_TABLE_ERR
  else .ok (m.numTables,⟨m.tableList ++ [⟨name,isStream,[]⟩]⟩)

/-- Drops the last table, which is the one the caller registered last. -/
def unregisterTable (m : TableManager) (_tableId : ℕ) : TableManager := ⟨m.tableList.dropLast⟩

def addTableAttribute (m : TableManager) (tableId : ℕ) (a : Attribute) : Except ℤ TableManager :=
  match m.tableList[tableId]? with
  | none => .error (-1)
  | some t =>
    if t.attrList.length = MAX_ATTRS then .error (-1)
    else if t.attrList.any (fun b => b.attrName == a.attrName) then .error DUPLICATE_ATTR_ERR
    else .ok ⟨m.tableList.set tableId { t with attrList := t.attrList ++ [a] }⟩

def getTableId (m : TableManager) (name : List Char) : Option ℕ :=
  m.tableList.findIdx? (fun t => t.tableName == name)

def attrs (m : TableManager) (tableId : ℕ) : List Attribute := ((m.tableList[tableId]?).map Table.attrList).getD []

def getNumAttrs (m : TableManager) (tableId : ℕ) : ℕ := (m.attrs tableId).length

def getAttrId (m : TableManager) (tableId : ℕ) (name : List Char) : Option ℕ :=
  (m.attrs tableId).findIdx? (fun a => a.attrName == name)

def columns (m : TableManager) (tableId : ℕ) : List Column := (m.attrs tableId).map (fun a => (a.attrType,a.attrLen))

def getAttrType (m : TableManager) (tableId attrId : ℕ) : DataType :=
  (((m.attrs tableId)[attrId]?).map Attribute.attrType).getD .int

def isStream (m : TableManager) (tableId : ℕ) : Bool := ((m.tableList[tableId]?).map Table.isStream).getD false

end TableManager
end AqsiosCoordinator.Metadata
