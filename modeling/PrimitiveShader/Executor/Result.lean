import PrimitiveShader.ExportWord
import PrimitiveShader.Executor.Error

/-!
# The result of a workgroup

A workgroup asks once for space and then exports primitives and vertices, each from the lane of its
number. Exports are handed on in the order of the lanes; a lane that exports more than once keeps
the order of its exports.
-/

namespace PrimitiveShader

/-- The space for exports. -/
structure Allocation where
  vertices : Nat
  primitives : Nat
deriving DecidableEq, Repr

/-- Everything that a workgroup produces. -/
structure WorkgroupResult where
  allocation : Option Allocation := none
  /-- The exported primitives with their lanes. -/
  primitives : Array (Nat × ExportWord) := #[]
  /-- The exported vertices with their lanes. -/
  vertices : Array (Nat × SlotTable UInt64) := #[]
  /-- The query counters of the four streams. -/
  queryCounters : Vector UInt64 4 := #v[0, 0, 0, 0]
  barriers : Nat := 0
  sharedLoads : Nat := 0
  sharedStores : Nat := 0
deriving DecidableEq, Repr

/-- Sorts exports by their lanes, all of which are below `numLanes`. -/
def inLaneOrder {α : Type} (numLanes : Nat) (exports : Array (Nat × α)) : Array (Nat × α) :=
  ((List.range numLanes).flatMap fun lane =>
    exports.toList.filter fun (l, _) => l = lane).toArray

/-- The text of an allocation that may be missing. -/
def Allocation.optionText : Option Allocation → String
  | none => "None"
  | some a =>
    s!"Some(Allocation \x7b vertices: {a.vertices}, primitives: {a.primitives} \x7d)"

namespace WorkgroupResult

/-- Exports need an allocation. -/
def hasExports (result : WorkgroupResult) : Bool :=
  !result.primitives.isEmpty || !result.vertices.isEmpty

/-- Checks the exports against the allocation and sorts them. -/
def finish (result : WorkgroupResult) (numLanes : Nat) : Except RunError WorkgroupResult := do
  if result.hasExports && result.allocation.isNone then throw (.allocation .missing)
  let space := result.allocation.getD ⟨0, 0⟩
  let primitives := inLaneOrder numLanes result.primitives
  let vertices := inLaneOrder numLanes result.vertices
  match primitives.find? fun (lane, _) => space.primitives ≤ lane with
  | some (lane, _) => throw (.exportOutOfRange lane .primitive)
  | none =>
    match vertices.find? fun (lane, _) => space.vertices ≤ lane with
    | some (lane, _) => throw (.exportOutOfRange lane .vertex)
    | none => return { result with primitives, vertices }

/-- The exported primitives that are not null. -/
def livePrimitives (result : WorkgroupResult) : List ExportWord :=
  (result.primitives.toList.map (·.2)).filter fun word => !word.isNull

/-- The value of one output slot in every exported vertex. -/
def vertexOutputs (result : WorkgroupResult) (slot : OutputSlot) : List (Option UInt64) :=
  result.vertices.toList.map fun (_, outputs) => outputs.find? slot

end WorkgroupResult

end PrimitiveShader
