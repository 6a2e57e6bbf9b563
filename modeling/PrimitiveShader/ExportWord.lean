import PrimitiveShader.Fault
import PrimitiveShader.Radix

/-!
# Export words

A primitive leaves the shader as one 32-bit word: up to three vertex indices of ten bits each from
the lowest bit up, and a null mark in the highest bit. Where edge flags are in use the highest bit
of each index field holds the flag of that vertex, so that only nine bits are left for the index.
-/

namespace PrimitiveShader

/-- A packed primitive. -/
structure ExportWord where
  /-- The word itself. -/
  bits : UInt32
deriving DecidableEq, Repr

namespace ExportWord

/-- Bits per vertex index. -/
def indexBits : Nat := 10

/-- The largest vertex index. -/
def indexMask : UInt32 := 1023

/-- The place of the edge flag within an index field. -/
def edgeFlagBit : Nat := 9

/-- The place of the null mark. -/
def nullBit : Nat := 31

/-- A word with at most bit `place` set. -/
def flagAt (flag : Bool) (place : Nat) : UInt32 := flag.toUInt32 <<< UInt32.ofNat place

/-- The index fields of `indices`, the first of which is number `i` of the word. -/
def packIndices : Nat → List UInt32 → Except Fault UInt32
  | _, [] => .ok 0
  | i, index :: rest =>
    if index ≤ indexMask then do
      let above ← packIndices (i + 1) rest
      return (index <<< UInt32.ofNat (indexBits * i)) ||| above
    else
      .error (.indexTooWide index)

/-- The edge flags `flags`, the first of which belongs to vertex `i` of the word. -/
def packEdgeFlags : Nat → List Bool → UInt32
  | _, [] => 0
  | i, flag :: rest => flagAt flag (indexBits * i + edgeFlagBit) ||| packEdgeFlags (i + 1) rest

/-- Packs one to three vertex indices with optional edge flags. Flags beyond the last index are
dropped, missing ones are unset. -/
def pack (indices : List UInt32) (edgeFlags : Option (List Bool)) (isNull : Bool) :
    Except Fault ExportWord := do
  unless 1 ≤ indices.length ∧ indices.length ≤ 3 do throw .vertexCount
  let fields ← packIndices 0 indices
  let flags := packEdgeFlags 0 ((edgeFlags.getD []).take indices.length)
  return ⟨fields ||| flags ||| flagAt isNull nullBit⟩

/-- Index field `i`. -/
def index (word : ExportWord) (i : Nat) : Except Fault UInt32 :=
  if indexBits * i < 32 then
    .ok ((word.bits >>> UInt32.ofNat (indexBits * i)) &&& indexMask)
  else
    .error .shiftTooWide

/-- Index field `i` without the bit of the edge flag. -/
def indexWithoutEdgeFlag (word : ExportWord) (i : Nat) : Except Fault UInt32 :=
  (word.index i).map (· &&& ~~~flagAt true edgeFlagBit)

/-- The edge flag of vertex `i`. -/
def edgeFlag (word : ExportWord) (i : Nat) : Except Fault Bool :=
  if indexBits * i + edgeFlagBit < 32 then
    .ok (word.bits &&& flagAt true (indexBits * i + edgeFlagBit) != 0)
  else
    .error .shiftTooWide

/-- Whether the word stands for no primitive. -/
def isNull (word : ExportWord) : Bool := word.bits &&& flagAt true nullBit != 0

/-- The three index fields. -/
def unpack (word : ExportWord) : List UInt32 :=
  (List.range 3).map fun i => (word.bits >>> UInt32.ofNat (indexBits * i)) &&& indexMask

/-- The text of a word: its fields, or all of its digits when it is null. -/
def text (word : ExportWord) : String :=
  if word.isNull then
    s!"ExportWord(null, {Radix.hexWord word.bits.toNat})"
  else
    "ExportWord[" ++ ", ".intercalate (word.unpack.map fun i => toString i.toNat) ++ "]"

end ExportWord

end PrimitiveShader
