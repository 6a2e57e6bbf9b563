import PrimitiveShader.ExportWord
import PrimitiveShader.Program.Emission
import PrimitiveShader.Strip

/-!
# Code for export words and strips

The emitted code computes on every lane what `ExportWord.pack` and `Strip.vertexIndices` compute on
numbers.
-/

namespace PrimitiveShader.Lowering

/-- Joins `flag`, shifted to bit `place`, into the word `word`. -/
def joinFlag (word flag : Value) (place : Nat) : Emit Value := do
  let flag ← Emit.convert flag .u32
  let shifted ← Emit.shlImm flag place
  Emit.binary .or word shifted

/-- Joins the edge flag of vertex `i`, if there is one. -/
def joinEdgeFlag (word : Value) (i : Nat) (edgeFlags : List Value) : Emit Value :=
  match edgeFlags[i]? with
  | some flag => joinFlag word flag (ExportWord.indexBits * i + ExportWord.edgeFlagBit)
  | none => pure word

/-- Joins the vertices from number `i` on. -/
def joinVertices (edgeFlags : List Value) : Nat → List Value → Value → Emit Value
  | _, [], word => pure word
  | i, index :: rest, word => do
    let shifted ← Emit.shlImm index (ExportWord.indexBits * i)
    let word ← Emit.binary .or word shifted
    let word ← joinEdgeFlag word i edgeFlags
    joinVertices edgeFlags (i + 1) rest word

/-- Emits the packing of one to three vertex indices with optional edge flags and an optional null
mark. -/
def packWord (indices : List Value) (edgeFlags : Option (List Value))
    (isNull : Option Value) : Emit Value := do
  match indices with
  | first :: rest =>
    unless indices.length ≤ 3 do Emit.fail .vertexCount
    let flags := edgeFlags.getD []
    let word ← joinEdgeFlag first 0 flags
    let word ← joinVertices flags 1 rest word
    match isNull with
    | some flag => joinFlag word flag ExportWord.nullBit
    | none => return word
  | [] => Emit.fail .vertexCount

/-- Emits the vertex indices of the primitive that the vertex at `rank` completes. In an odd triangle
one index goes up by one and the one behind it goes down, which swaps them. -/
def stripIndices (topology : Topology) (rank flags : Value) (provoking : ProvokingVertex) :
    Emit (List Value) := do
  match topology with
  | .points => return [rank]
  | .lines => return [← Emit.binaryImm .sub rank 1, rank]
  | .triangles =>
    let back2 ← Emit.binaryImm .sub rank 2
    let back1 ← Emit.binaryImm .sub rank 1
    let flags ← Emit.convert flags .u32
    let odd ← Emit.extract flags 1 1
    match provoking with
    | .first =>
      let up ← Emit.binary .add back1 odd
      let down ← Emit.binary .sub rank odd
      return [back2, up, down]
    | .last =>
      let up ← Emit.binary .add back2 odd
      let down ← Emit.binary .sub back1 odd
      return [up, down, rank]

end PrimitiveShader.Lowering
