import AqsiosCoordinator.Coordinator.FileSource

/-! # The tuple of a line

When the attributes fit into the buffer, a line that is accepted leaves a tuple there that depends on
the line alone: the encodings of its fields, one behind the other.
-/
namespace AqsiosCoordinator.Coordinator
open Common Foundation Foundation.Outcome

section Float
variable (atof : List Char → BitVec 32)

def Attr.encode (a : Attr) (field : List Char) : List Byte :=
  match a with
  | .INT => wordBytes (BitVec.ofInt 32 (atoi field))
  | .FLOAT => wordBytes (atof field)
  | .CHAR attrLen => strncpy 0 (field.map charByte) (attrLen.toNat - 1) ++ [0]
  | .BYTE => (field.take 1).map charByte

def encodeFields : List Attr → List (List Char) → List Byte
  | [], _ => []
  | _ :: _, [] => []
  | a :: attrs, field :: fields => a.encode atof field ++ encodeFields attrs fields

def Schema.tuple (s : Schema) (text : List Char) : List Byte := encodeFields atof s.attrs (text.splitOn ',')

end Float

variable {atof : List Char → BitVec 32} {lower upper : ℤ} {places : List (Attr × ℤ)}

theorem length_encode (atof : List Char → BitVec 32) {a : Attr} (ha : 0 < a.size) {field : List Char} (hf : field ≠ []) :
    ((a.encode atof field).length : ℤ) = a.size := by
  cases a with
  | INT => rfl
  | FLOAT => rfl
  | CHAR attrLen =>
    have hsize : 0 < attrLen := ha
    rw [Attr.encode, List.length_append, length_strncpy, List.length_singleton, Attr.size]
    omega
  | BYTE =>
    obtain ⟨c,field,rfl⟩ := List.exists_cons_of_ne_nil hf
    rfl

theorem writeBlocks_single {w : ℤ × List Byte} (h0 : 0 ≤ w.1) (h : w.1 + w.2.length ≤ MAX_TUPLE_SIZE) (mem : ℕ → Byte) :
    writeBlocks [w] mem = .ok ⟨⟩ (store mem w.1.toNat w.2) := by
  rw [writeBlocks, bind_of_ok (writeTuple_ok h0 h mem)]
  rfl

/-- The blocks of an attribute make up its encoding. -/
theorem writeBlocks_encode {a : Attr} (ha : 0 < a.size) {offset : ℤ} (h0 : 0 ≤ offset) (h : offset + a.size ≤ MAX_TUPLE_SIZE)
    {field : List Char} (hf : field ≠ []) (mem : ℕ → Byte) :
    writeBlocks (a.blocks atof offset field) mem = .ok ⟨⟩ (store mem offset.toNat (a.encode atof field)) := by
  have hlen := length_encode atof ha hf
  cases a with
  | INT => exact writeBlocks_single h0 h mem
  | FLOAT => exact writeBlocks_single h0 h mem
  | BYTE =>
    rw [Attr.encode] at hlen
    have hblock : offset + (((field.take 1).map charByte).length : ℤ) ≤ MAX_TUPLE_SIZE := by omega
    exact writeBlocks_single h0 hblock mem
  | CHAR attrLen =>
    have hsize : 0 < attrLen := ha
    rw [Attr.size] at h
    have hblock : offset + ((strncpy 0 (field.map charByte) attrLen.toNat).length : ℤ) ≤ MAX_TUPLE_SIZE := by
      rw [length_strncpy]
      omega
    have hnul : offset + attrLen - 1 + (([0] : List Byte).length : ℤ) ≤ MAX_TUPLE_SIZE := by
      rw [List.length_singleton]
      omega
    rw [Attr.blocks, writeBlocks, bind_of_ok (writeTuple_ok h0 hblock mem), writeBlocks_single (by simp only; omega) hnul]
    congr 1
    -- the terminator replaces the last byte of the copy
    have hlast : ∃ z, strncpy 0 (field.map charByte) attrLen.toNat = strncpy 0 (field.map charByte) (attrLen.toNat - 1) ++ [z] := by
      have hsplit := List.take_append_drop (attrLen.toNat - 1) (strncpy 0 (field.map charByte) attrLen.toNat)
      have hdrop : ((strncpy 0 (field.map charByte) attrLen.toNat).drop (attrLen.toNat - 1)).length = 1 := by
        rw [List.length_drop, length_strncpy]
        omega
      obtain ⟨z,hz⟩ := List.length_eq_one_iff.mp hdrop
      rw [hz, take_strncpy _ _ (Nat.sub_le _ _)] at hsplit
      exact ⟨z,hsplit.symm⟩
    obtain ⟨z,hz⟩ := hlast
    have hstart : (offset + attrLen - 1).toNat = offset.toNat + (strncpy 0 (field.map charByte) (attrLen.toNat - 1)).length := by
      rw [length_strncpy]
      omega
    rw [hz, hstart, store_last]
    rfl

/-- An accepted line leaves the encodings of its fields. -/
theorem parseFields_encode (h : Consecutive lower places upper) (hpos : ∀ p ∈ places, 0 < p.1.size) (hlower : 0 ≤ lower)
    (hupper : upper ≤ MAX_TUPLE_SIZE) {text : List Char} (hfields : HasFields places.length text) (mem : ℕ → Byte) :
    parseFields atof places text mem = .ok ⟨⟩ (store mem lower.toNat (encodeFields atof (places.map Prod.fst) (text.splitOn ','))) ∧
      ((encodeFields atof (places.map Prod.fst) (text.splitOn ',')).length : ℤ) = upper - lower := by
  induction places generalizing lower text mem with
  | nil =>
    have he : lower = upper := h
    rw [List.map_nil, encodeFields, store_nil]
    exact ⟨rfl,by simp [he]⟩
  | cons p rest ih =>
    obtain ⟨rfl,hcons⟩ := h
    obtain ⟨hp,hrest⟩ := List.forall_mem_cons.mp hpos
    have hle := hcons.le hrest
    rw [List.length_cons] at hfields
    obtain ⟨hfield,hsplit⟩ | ⟨field,behind,rfl,hfield,hsplit⟩ := split_first ',' text
    · obtain ⟨hempty,hall⟩ := (hasFields_cons hsplit).mp hfields
      have hlast : rest = [] := by
        by_contra hne
        obtain ⟨field,he,-⟩ := hall 0 (List.length_pos_iff.mpr hne)
        cases he
      subst hlast
      have he : p.2 + p.1.size = upper := hcons
      have hlen := length_encode atof hp hempty
      rw [hsplit, List.map_cons, List.map_nil, encodeFields, encodeFields, List.append_nil]
      constructor
      · rw [parseFields, hfield, bind_of_ok (failIf_neg hempty), bind_of_ok (failIf_neg fun hend => hend.2 rfl),
          bind_of_ok (writeBlocks_encode hp hlower (by omega) hempty mem)]
        rfl
      · omega
    · obtain ⟨hempty,hall⟩ := (hasFields_cons hsplit).mp hfields
      have hend : ¬ ((field ++ ',' :: behind).length = field.length ∧ rest ≠ []) := by
        rw [List.length_append, List.length_cons]
        omega
      have hdrop : (field ++ ',' :: behind).drop (field.length + 1) = behind := by
        rw [← List.drop_drop, List.drop_left]
        rfl
      have hlen := length_encode atof hp hempty
      have hstart : (p.2 + p.1.size).toNat = p.2.toNat + (p.1.encode atof field).length := by omega
      obtain ⟨hok,htail⟩ := ih hcons hrest (by omega) hall (store mem p.2.toNat (p.1.encode atof field))
      rw [hstart, store_append] at hok
      rw [hsplit, List.map_cons, encodeFields]
      constructor
      · rw [parseFields, hfield, bind_of_ok (failIf_neg hempty), bind_of_ok (failIf_neg hend),
          bind_of_ok (writeBlocks_encode hp hlower (by omega) hempty mem), hdrop]
        exact hok
      · rw [List.length_append]
        omega

/-- The tuple of an accepted line. -/
theorem parseTuple_tuple {line : Line} {s : Schema} (h : start line = some s) (hfits : totalSize s.attrs ≤ MAX_TUPLE_SIZE)
    {text : List Char} (hfields : HasFields s.attrs.length text) (mem : ℕ → Byte) :
    parseTuple atof s text mem = .ok ⟨⟩ (store mem 0 (s.tuple atof text)) ∧ ((s.tuple atof text).length : ℤ) = s.tupleLen := by
  obtain ⟨hcons,hplaces,hupper,hattrs⟩ := start_places h hfits
  have hcount : s.places.length = s.attrs.length := by rw [← hattrs, List.length_map]
  rw [← hcount] at hfields
  obtain ⟨hok,hlen⟩ := @parseFields_encode atof _ _ _ hcons hplaces le_rfl hupper _ hfields mem
  rw [hattrs] at hok hlen
  refine ⟨hok,?_⟩
  rw [Schema.tuple, hlen]
  omega

end AqsiosCoordinator.Coordinator
