import PrimitiveShader.Topology

/-!
# Strips

A geometry shader emits vertices in strips. Each emitted vertex carries a byte of flags which says
whether it completes a primitive and whether that primitive is an odd one of its strip. From the
flags and the place of the vertex in the output the vertex indices of the primitive follow.
-/

namespace PrimitiveShader

/-- The flag byte of an emitted vertex. -/
structure PrimitiveFlags where
  /-- The byte itself. -/
  byte : UInt8
deriving DecidableEq, Repr

namespace PrimitiveFlags

/-- Set when the vertex is the last one of a primitive. -/
def completesBit : UInt8 := 1

/-- Set when the vertex is at an odd place of a triangle strip. -/
def oddBit : UInt8 := 2

/-- Set for every emitted vertex. -/
def liveBit : UInt8 := 4

/-- The flags of a vertex with `before` vertices ahead of it in its strip. -/
def ofVertex (topology : Topology) (before : UInt32) : PrimitiveFlags :=
  let completes := if topology.vertexCount - 1 ≤ before.toNat then completesBit else 0
  let odd := if topology = .triangles ∧ before &&& 1 ≠ 0 then oddBit else 0
  ⟨liveBit ||| completes ||| odd⟩

/-- Whether the vertex completes a primitive. -/
def completesPrimitive (flags : PrimitiveFlags) : Bool := flags.byte &&& completesBit != 0

/-- Whether the vertex stands at an odd place. -/
def isOdd (flags : PrimitiveFlags) : Bool := flags.byte &&& oddBit != 0

/-- Whether there is a vertex at all. -/
def isLive (flags : PrimitiveFlags) : Bool := flags.byte &&& liveBit != 0

/-- The text of the flags: a letter for each that is set, a dash for each that is not. -/
def text (flags : PrimitiveFlags) : String :=
  let mark (set : Bool) (letter : String) := if set then letter else "-"
  "PrimitiveFlags(" ++ mark flags.isLive "L" ++ mark flags.completesPrimitive "C" ++
    mark flags.isOdd "O" ++ ")"

end PrimitiveFlags

namespace Strip

/-- The vertex indices of the primitive that the vertex at `rank` completes. Odd triangles swap the
two vertices that do not provoke, which keeps the winding of the strip. -/
def vertexIndices (topology : Topology) (rank : UInt32) (odd : Bool)
    (provoking : ProvokingVertex) : List UInt32 :=
  match topology with
  | .points => [rank]
  | .lines => [rank - 1, rank]
  | .triangles =>
    match odd, provoking with
    | false, _ => [rank - 2, rank - 1, rank]
    | true, .first => [rank - 2, rank, rank - 1]
    | true, .last => [rank - 1, rank - 2, rank]

end Strip

end PrimitiveShader
