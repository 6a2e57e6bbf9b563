import PrimitiveShader.Instr

/-!
# The text of instructions

One line per instruction: its name, with operands in parentheses or, where they have names, with
named fields in braces.
-/

namespace PrimitiveShader

/-- The text of a value, as in `%7`. -/
def Value.text (value : Value) : String := "%" ++ toString value.index

/-- The text of a variable. Variables count from one; the greatest 32-bit number is kept as the mark
of no variable. -/
def Var.text (var : Var) : String :=
  if var.index + 1 = 4294967295 then "Var(null)" else s!"Var({var.index + 1}v1)"

/-- A name with operands, as in `Binary(Add, %0, %1)`. -/
def textCall (name : String) (operands : List String) : String :=
  name ++ "(" ++ ", ".intercalate operands ++ ")"

/-- A name with named fields, as in `EndPrimitive { stream: 0 }`. -/
def textFields (name : String) (fields : List (String × String)) : String :=
  name ++ " \x7b " ++ ", ".intercalate (fields.map fun (key, text) => key ++ ": " ++ text) ++ " \x7d"

/-- The text of a lane's input. -/
def LaneInput.text : LaneInput → String
  | subgroupId => "SubgroupId"
  | numSubgroups => "NumSubgroups"
  | subgroupInvocation => "SubgroupInvocation"
  | localInvocationIndex => "LocalInvocationIndex"
  | hasInputVertex => "HasInputVertex"
  | hasInputPrimitive => "HasInputPrimitive"
  | numInputVertices => "WorkgroupNumInputVertices"
  | numInputPrimitives => "WorkgroupNumInputPrimitives"
  | vertexPair base => textFields "GsVertexOffset" [("base", toString base.toNat)]
  | packedPrimitive => "PackedPassthroughPrimitive"
  | edgeFlag vertex => textFields "InitialEdgeFlag" [("vertex", toString vertex.toNat)]
  | primitiveId => "PrimitiveId"
  | queryEnabled => "ShaderQueryEnabled"

/-- The text of a cross-lane operation. -/
def CrossLaneOp.text : CrossLaneOp → String
  | ballot value type => textFields "Ballot" [("value", value.text), ("ty", type.name)]
  | maskedBitCount mask => textCall "MaskedBitCount" [mask.text]
  | readLane value lane => textFields "ReadLane" [("value", value.text), ("lane", lane.text)]
  | readFirstLane value => textCall "ReadFirstLane" [value.text]
  | elect => "Elect"
  | reduceAdd value => textCall "ReduceAdd" [value.text]

/-- The text of an entry point. -/
def GeometryOp.text : GeometryOp → String
  | emitVertex stream vertexCount before =>
    textFields "EmitVertex" [("stream", toString stream.toNat),
      ("vertex_count", vertexCount.text), ("vertices_in_primitive", before.text)]
  | endPrimitive stream => textFields "EndPrimitive" [("stream", toString stream.toNat)]
  | setCounts stream vertexCount primitiveCount =>
    textFields "SetVertexAndPrimitiveCount" [("stream", toString stream.toNat),
      ("vertex_count", vertexCount.text), ("primitive_count", primitiveCount.text)]

/-- The text of an intrinsic. -/
def Intrinsic.text : Intrinsic → String
  | input i => i.text
  | crossLane op => op.text
  | loadShared addr base type =>
    textFields "LoadShared" [("addr", addr.text), ("base", toString base.toNat), ("ty", type.name)]
  | storeShared value addr base =>
    textFields "StoreShared" [("value", value.text), ("addr", addr.text),
      ("base", toString base.toNat)]
  | barrier => "Barrier"
  | queryAdd stream value =>
    textFields "QueryAtomicAdd" [("stream", toString stream.toNat), ("value", value.text)]
  | allocate vertices primitives =>
    textFields "AllocVerticesAndPrimitives" [("vertices", vertices.text),
      ("primitives", primitives.text)]
  | exportPrimitive word => textCall "ExportPrimitive" [word.text]
  | exportVertex => "ExportVertex"
  | storeOutput slot value => textFields "StoreOutput" [("io", slot.text), ("value", value.text)]
  | geometry op => op.text

/-- The text of an instruction. -/
def Instr.text : Instr → String
  | const type value => textCall "Const" [type.name, toString value.toNat]
  | undef type => textCall "Undef" [type.name]
  | unary op a => textCall "Unary" [op.name, a.text]
  | binary op a b => textCall "Binary" [op.name, a.text, b.text]
  | select cond a b => textCall "Select" [cond.text, a.text, b.text]
  | convert a type => textCall "Convert" [a.text, type.name]
  | extract a offset bits =>
    textFields "Ubfe" [("value", a.text), ("offset", toString offset.toNat),
      ("bits", toString bits.toNat)]
  | loadVar var => textCall "LoadVar" [var.text]
  | storeVar var a => textCall "StoreVar" [var.text, a.text]
  | intrinsic op => textCall "Intrinsic" [op.text]

end PrimitiveShader
