import AqsiosCoordinator.Querygen.PlanDenotation

/-! # Binary crosses

A cross of many inputs becomes a nest of binary crosses, the first two inputs at the bottom.
-/
namespace AqsiosCoordinator.Logical.Plan
open Common Foundation Foundation.Outcome Metadata

def binaryNode (kind : Kind) (left right : Plan) : Plan :=
  .node kind (left.outAttrs ++ right.outAttrs) (kind.streams [left.bStream, right.bStream]) [left, right]

def leftDeep (kind : Kind) (first : Plan) (rest : List Plan) : Plan := rest.foldl (binaryNode kind) first

variable {kind : Kind} {l r : Plan}

@[simp] theorem leftDeep_nil : leftDeep kind l [] = l := rfl
@[simp] theorem leftDeep_cons {rest : List Plan} : leftDeep kind l (r :: rest) = leftDeep kind (binaryNode kind l r) rest := rfl

theorem streams_nest (hk : kind.IsCross) (b c : Bool) (bs : List Bool) :
    kind.streams (kind.streams [b, c] :: bs) = kind.streams (b :: c :: bs) := by
  rcases hk with rfl | rfl
  · simp [Kind.streams,Bool.and_assoc]
  · rfl

theorem leftDeep_outAttrs (kind : Kind) (l : Plan) (rest : List Plan) :
    (leftDeep kind l rest).outAttrs = ((l :: rest).map Plan.outAttrs).flatten := by
  induction rest generalizing l with
  | nil => simp
  | cons r rest ih =>
    rw [leftDeep_cons, ih]
    simp [binaryNode]

/-- A cross whose first two inputs are crossed before the others. -/
theorem Same.nest (hk : kind.IsCross) {outAttrs : List Attr} {bStream : Bool} {rest : List Plan} :
    Same (.node kind outAttrs bStream (l :: r :: rest)) (.node kind outAttrs bStream (binaryNode kind l r :: rest)) := by
  refine ⟨rfl,rfl,fun α _ I S => ?_⟩
  rcases hk with rfl | rfl
  · simp only [denote_node, Kind.denote, List.map_cons, List.map_map, binaryNode, outAttrs_node, List.length_append]
    exact TimeVarying.cross_nest
  · simp only [denote_node, Kind.denote, List.map_cons, List.map_map, binaryNode, outAttrs_node, List.length_append]
    exact TimeVarying.streamCross_nest

/-- The nest of binary crosses has the schema and the flag of the cross and computes the same. -/
theorem leftDeep_same (hk : kind.IsCross) {outAttrs : List Attr} {bStream : Bool} {rest : List Plan}
    (hout : outAttrs = ((l :: r :: rest).map Plan.outAttrs).flatten)
    (hflag : bStream = kind.streams ((l :: r :: rest).map Plan.bStream)) :
    Same (.node kind outAttrs bStream (l :: r :: rest)) (leftDeep kind l (r :: rest)) := by
  induction rest generalizing l r with
  | nil =>
    rw [hout, hflag]
    simp only [List.map_cons, List.map_nil, List.flatten_cons, List.flatten_nil, List.append_nil]
    exact .refl _
  | cons x rest ih =>
    refine (Same.nest hk).trans (ih ?_ ?_)
    · simp [hout,binaryNode]
    · simp only [List.map_cons, binaryNode, bStream_node]
      rw [streams_nest hk, hflag]
      rfl

end AqsiosCoordinator.Logical.Plan
