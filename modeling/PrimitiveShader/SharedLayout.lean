import PrimitiveShader.Fault
import PrimitiveShader.Radix

/-!
# The layout of shared memory

A lowered program divides the shared memory of its workgroup into named regions, one after the
other. `SharedLayout.ofRequests` places a list of requests in order: each region starts at the next
multiple of its alignment, a region without bytes is left out, and the whole is padded to full
32-bit words. A request that repeats an earlier one takes new bytes and its region replaces the
earlier region, whose bytes stay unused.
-/

namespace PrimitiveShader

/-! ## Regions -/

/-- A named range of bytes. -/
structure Region where
  name : String
  offset : Nat
  size : Nat
deriving DecidableEq, Repr

namespace Region

/-- The first byte after the region. -/
def stop (region : Region) : Except Fault Nat := fits32 (region.offset + region.size)

/-- The text of a region: its name and its range of bytes. -/
def text (region : Region) : Except Fault String := do
  let stop ← region.stop
  return region.name ++ "[" ++ Radix.hex region.offset ++ ".." ++ Radix.hex stop ++ "]"

/-- Whether two regions have a byte in common. -/
def overlaps (region other : Region) : Except Fault Bool := do
  if region.offset < (← other.stop) then
    return other.offset < (← region.stop)
  else
    return false

/-- The place of element `index` within the region, for elements of `stride` bytes. -/
def element (region : Region) (index stride : Nat) : Except Fault Nat := do
  let start ← fits32 (index * stride)
  let stop ← fits32 (start + stride)
  if stop ≤ region.size then
    return start
  else
    throw (.elementOutOfBounds (← region.text) index)

end Region

/-! ## Layouts -/

/-- The regions of a workgroup's shared memory. -/
structure SharedLayout where
  /-- One byte per wave for the counts of a compaction. -/
  waveCounts : Option Region := none
  /-- The attributes of the staged vertices. -/
  vertexAttributes : Option Region := none
  /-- For each vertex stream, one byte of flags per staged vertex. -/
  primitiveFlags : Vector (Option Region) 4 := #v[none, none, none, none]
  /-- One byte per output vertex which names the staged vertex. -/
  compactionIndex : Option Region := none
  /-- One primitive number per input vertex. -/
  primitiveIdRelay : Option Region := none
  /-- The number of bytes in use, padding included. -/
  size : Nat := 0
deriving DecidableEq, Repr

/-- No regions. -/
abbrev SharedLayout.empty : SharedLayout := {}

/-- A request for a region. -/
inductive LayoutRequest where
  | waveCounts (waves : Nat)
  | vertexAttributes (vertices stride : Nat)
  | primitiveFlags (stream : UInt8) (vertices : Nat)
  | compactionIndex (vertices : Nat)
  | primitiveIdRelay (vertices : Nat)
deriving DecidableEq, Repr

namespace LayoutRequest

/-- The name of the requested region. -/
def name : LayoutRequest → String
  | waveCounts _ => "repack_scratch"
  | vertexAttributes _ _ => "vertex_attributes"
  | primitiveFlags _ _ => "prim_flags"
  | compactionIndex _ => "compaction_index"
  | primitiveIdRelay _ => "prim_id_relay"

/-- The number of bytes asked for. The counts of a compaction are read back as one word of 32 or
64 bits. -/
def size : LayoutRequest → Nat
  | waveCounts waves => if waves ≤ 4 then 4 else 8
  | vertexAttributes vertices stride => vertices * stride
  | primitiveFlags _ vertices => vertices
  | compactionIndex vertices => vertices
  | primitiveIdRelay vertices => vertices * 4

/-- The region starts at a multiple of this. -/
def alignment : LayoutRequest → Nat
  | waveCounts _ => 8
  | vertexAttributes _ _ => 4
  | primitiveFlags _ _ => 1
  | compactionIndex _ => 1
  | primitiveIdRelay _ => 4

end LayoutRequest

namespace SharedLayout

/-- Takes the bytes of a request behind those in use. -/
def allocate (layout : SharedLayout) (request : LayoutRequest) :
    Except Fault (Option Region × SharedLayout) := do
  let size ← fits32 request.size
  if size = 0 then
    return (none, layout)
  let offset ← fits32 (alignUp layout.size request.alignment)
  let stop ← fits32 (offset + size)
  return (some ⟨request.name, offset, size⟩, { layout with size := stop })

/-- Makes `region` the region that a request asks for. -/
def assign (layout : SharedLayout) (request : LayoutRequest) (region : Option Region) :
    Except Fault SharedLayout :=
  match request with
  | .waveCounts _ => .ok { layout with waveCounts := region }
  | .vertexAttributes _ _ => .ok { layout with vertexAttributes := region }
  | .primitiveFlags stream _ =>
    if h : stream.toNat < 4 then
      .ok { layout with primitiveFlags := layout.primitiveFlags.set stream.toNat region h }
    else
      .error .outOfRange
  | .compactionIndex _ => .ok { layout with compactionIndex := region }
  | .primitiveIdRelay _ => .ok { layout with primitiveIdRelay := region }

/-- Serves one request. -/
def add (layout : SharedLayout) (request : LayoutRequest) : Except Fault SharedLayout := do
  let (region, layout) ← layout.allocate request
  layout.assign request region

/-- Pads the layout to full 32-bit words. -/
def pad (layout : SharedLayout) : Except Fault SharedLayout := do
  let size ← fits32 (alignUp layout.size 4)
  return { layout with size }

/-- The layout that serves a list of requests in order. -/
def ofRequests (requests : List LayoutRequest) : Except Fault SharedLayout := do
  let layout ← requests.foldlM add .empty
  layout.pad

/-- The regions of a layout, in a fixed order of their roles. -/
def regions (layout : SharedLayout) : List Region :=
  ([layout.waveCounts, layout.vertexAttributes] ++ layout.primitiveFlags.toList ++
    [layout.compactionIndex, layout.primitiveIdRelay]).filterMap id

/-- The text of all regions. -/
def text (layout : SharedLayout) : Except Fault String := do
  let regions ← layout.regions.mapM Region.text
  return "[" ++ ", ".intercalate regions ++ "]"

end SharedLayout

end PrimitiveShader
