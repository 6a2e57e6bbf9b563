import PrimitiveShader.Program.Emission
import PrimitiveShader.SharedLayout

/-!
# Access to regions

Code that reads or writes an element of a region. A constant element number is checked against the
region when the code is emitted; any other is a matter of the run.
-/

namespace PrimitiveShader.Region

/-- Emits the place of element `index` within the region, for elements of `stride` bytes. -/
def elementAddress (region : Region) (index : Value) (stride : Nat) : Emit Value := do
  match ← Emit.constant? index with
  | some constant => Emit.imm32 (← region.element constant.toUInt32.toNat stride)
  | none => if stride = 1 then return index else Emit.binaryImm .mul index (UInt64.ofNat stride)

/-- A field of `bytes` bytes must lie inside its element. -/
def checkField (field bytes stride : Nat) : Except Fault Unit := do
  unless (← fits32 (field + bytes)) ≤ stride do throw .fieldOutsideElement

/-- The address of a field of the region's first element. -/
def fieldBase (region : Region) (field : Nat) : Except Fault UInt32 :=
  UInt32.ofNat <$> fits32 (region.offset + field)

/-- Emits a load of the field at `field` of element `index`. -/
def load (region : Region) (index : Value) (stride field : Nat) (type : ScalarType) :
    Emit Value := do
  checkField field type.bytes stride
  let addr ← region.elementAddress index stride
  Emit.intrinsic (.loadShared addr (← region.fieldBase field) type)

/-- Emits a store to the field at `field` of element `index`. -/
def store (region : Region) (value index : Value) (stride field : Nat) : Emit Unit := do
  checkField field (← Emit.typeOf value).bytes stride
  let addr ← region.elementAddress index stride
  Emit.effect (.storeShared value addr (← region.fieldBase field))

end PrimitiveShader.Region
