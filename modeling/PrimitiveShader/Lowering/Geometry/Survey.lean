import PrimitiveShader.Config
import PrimitiveShader.Program

/-!
# A survey of a geometry program

Before anything is changed the body is read once: which outputs are stored on the active streams and
how wide they are, which streams have their vertex count set and whether it is always the declared
maximum, and how many vertices are emitted on streams that nobody looks at.
-/

namespace PrimitiveShader.Lowering

/-- A setting of the vertex count. -/
structure CountCall where
  stream : UInt8
  /-- Whether the count is the declared maximum, as a constant. -/
  isMaximum : Bool
deriving DecidableEq, Repr

/-- What is found in the body of a geometry program. -/
structure Survey where
  /-- The outputs of the active streams with the types they are staged at. -/
  types : SlotTable ScalarType := []
  /-- The settings of vertex counts on active streams, last one first. -/
  counts : List CountCall := []
  /-- The number of vertices emitted on other streams. -/
  droppedEmits : Nat := 0
deriving DecidableEq, Repr

/-- The type that an output is staged at: at least 16 bits wide. -/
def stagedType (type : ScalarType) : ScalarType :=
  if type.bits ≤ 16 then .u16 else if type.bits ≤ 32 then .u32 else .u64

/-- The wider of a type and another that may be missing. -/
def widen (type : ScalarType) : Option ScalarType → ScalarType
  | none => type
  | some present => if present.bits < type.bits then type else present

namespace Survey

/-- Takes one instruction into account. -/
def add (program : Program) (limits : GeometryLimits) (survey : Survey) (instr : Instr) :
    Except Fault Survey :=
  match instr with
  | .intrinsic (.storeOutput slot value) =>
    if limits.usesStream slot.stream then do
      let type := stagedType (← program.typeOf value)
      return { survey with types := survey.types.update slot (widen type) }
    else
      .ok survey
  | .intrinsic (.geometry (.emitVertex stream _ _)) =>
    if limits.usesStream stream then .ok survey
    else .ok { survey with droppedEmits := survey.droppedEmits + 1 }
  | .intrinsic (.geometry (.setCounts stream vertexCount _)) =>
    if limits.usesStream stream then do
      let constant := (← program.instr vertexCount).constant?
      let isMaximum := constant == some (UInt64.ofNat limits.maxVerticesOut)
      return { survey with counts := ⟨stream, isMaximum⟩ :: survey.counts }
    else
      .ok survey
  | _ => .ok survey

/-- Reads the body of a program. -/
def ofProgram (program : Program) (limits : GeometryLimits) : Except Fault Survey := do
  (← program.placed).foldlM (fun survey (_, instr) => survey.add program limits instr) {}

/-- Whether the vertex count of a stream is set at all. -/
def isCounted (survey : Survey) (stream : UInt8) : Bool :=
  survey.counts.any (·.stream = stream)

/-- Whether the vertex count of a stream is always the declared maximum. -/
def isStatic (survey : Survey) (stream : UInt8) : Bool :=
  survey.counts.all fun call => call.stream ≠ stream || call.isMaximum

/-- Whether some active stream may fall short of the declared maximum. -/
def needsCompaction (survey : Survey) (limits : GeometryLimits) : Bool :=
  !limits.streams.all fun stream => survey.isCounted stream && survey.isStatic stream

end Survey

end PrimitiveShader.Lowering
