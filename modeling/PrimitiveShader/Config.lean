import PrimitiveShader.Fault
import PrimitiveShader.Radix
import PrimitiveShader.Topology
import PrimitiveShader.WaveWidth

/-!
# Configurations

What a lowering knows about the draw before any program is seen: the topology, the width of the
waves and the limits of one workgroup. `Config.validate` and `Config.validateGeometry` decide
whether the hardware can launch such a workgroup at all.
-/

namespace PrimitiveShader

namespace Hardware

/-- The largest workgroup that is launched. -/
def maxWorkgroupSize : Nat := 256

/-- The most output vertices of a workgroup: a vertex number takes one byte. -/
def maxOutputVertices : Nat := 256

/-- The number of vertex streams. -/
def maxStreams : Nat := 4

/-- The most waves of a workgroup. -/
def maxWaves : Nat := 8

end Hardware

/-- What geometry programs may emit. -/
structure GeometryLimits where
  /-- The most vertices that one invocation emits on a stream. -/
  maxVerticesOut : Nat := 4
  /-- The most invocations, that is input primitives, of a workgroup. -/
  maxInputPrimitives : Nat := 32
  /-- One bit for each vertex stream in use. -/
  activeStreams : UInt8 := 1
deriving DecidableEq, Repr

/-- The configuration of a lowering. -/
structure Config where
  topology : Topology := .triangles
  provokingVertex : ProvokingVertex := .first
  wave : WaveWidth := .wave64
  /-- The most lanes of a workgroup. -/
  maxWorkgroupSize : Nat := 128
  /-- The most input vertices of a workgroup. -/
  maxInputVertices : Nat := 128
  exportPrimitiveId : Bool := false
  considerPassthrough : Bool := false
  considerCulling : Bool := false
  geometry : GeometryLimits := {}
deriving DecidableEq, Repr

/-- Why a configuration is refused. -/
inductive ConfigError where
  | workgroupSize (size : Nat)
  | tooManyWaves (size waves : Nat)
  | inputVertices (count : Nat)
  | noOutputVertices
  | tooManyOutputVertices (inputPrimitives maxVerticesOut limit : Nat)
  | streamMask (mask : UInt8)
deriving DecidableEq, Repr

/-- The text of a refusal. -/
def ConfigError.message : ConfigError → String
  | workgroupSize size => s!"workgroup size {size} is not in 1..=256"
  | tooManyWaves size waves =>
    s!"workgroup of {size} lanes needs {waves} waves, at most 8 are supported"
  | inputVertices count => s!"{count} ES vertices do not fit the workgroup"
  | noOutputVertices => "max_vertices_out must be at least 1"
  | tooManyOutputVertices prims vertices limit =>
    s!"{prims} invocations x {vertices} vertices exceeds {limit} output vertices"
  | streamMask mask =>
    s!"stream mask {Radix.hex mask.toNat} must enable stream 0 and only streams 0..4"

namespace GeometryLimits

/-- The most vertices that all invocations of a workgroup emit on one stream. -/
def totalVertices (limits : GeometryLimits) : Except Fault Nat :=
  fits32 (limits.maxInputPrimitives * limits.maxVerticesOut)

/-- Whether a vertex stream is in use. -/
def usesStream (limits : GeometryLimits) (stream : UInt8) : Bool :=
  stream < 4 && limits.activeStreams &&& (1 <<< stream) != 0

/-- The vertex streams in use, in ascending order. -/
def streams (limits : GeometryLimits) : List UInt8 :=
  [0, 1, 2, 3].filter limits.usesStream

end GeometryLimits

namespace Config

/-- The most waves of a workgroup under this configuration. -/
def maxWaves (config : Config) : Nat :=
  (config.maxWorkgroupSize + config.wave.size - 1) / config.wave.size

/-- The place of the provoking vertex within a primitive. -/
def provokingIndex (config : Config) : Nat :=
  config.provokingVertex.index config.topology

/-- Checks the limits that every primitive shader is subject to. -/
def validate (config : Config) : Except ConfigError Unit := do
  unless 1 ≤ config.maxWorkgroupSize ∧ config.maxWorkgroupSize ≤ Hardware.maxWorkgroupSize do
    throw (.workgroupSize config.maxWorkgroupSize)
  unless config.maxWaves ≤ Hardware.maxWaves do
    throw (.tooManyWaves config.maxWorkgroupSize config.maxWaves)
  unless 1 ≤ config.maxInputVertices ∧ config.maxInputVertices ≤ config.maxWorkgroupSize do
    throw (.inputVertices config.maxInputVertices)

theorem validate_eq_ok_iff {config : Config} : config.validate = .ok () ↔
    (1 ≤ config.maxWorkgroupSize ∧ config.maxWorkgroupSize ≤ Hardware.maxWorkgroupSize) ∧
      config.maxWaves ≤ Hardware.maxWaves ∧
      1 ≤ config.maxInputVertices ∧ config.maxInputVertices ≤ config.maxWorkgroupSize := by
  simp only [validate, guard_eq_ok, guard_end_eq_ok]

/-- Checks the limits of geometry programs on top of those of `validate`. -/
def validateGeometry (config : Config) : Except ConfigError Unit := do
  config.validate
  let limits := config.geometry
  unless 1 ≤ limits.maxVerticesOut do
    throw .noOutputVertices
  unless limits.activeStreams &&& 1 ≠ 0 ∧ limits.activeStreams >>> 4 = 0 do
    throw (.streamMask limits.activeStreams)
  let limit := min Hardware.maxOutputVertices config.maxWorkgroupSize
  unless 1 ≤ limits.maxInputPrimitives ∧
      limits.maxInputPrimitives * limits.maxVerticesOut ≤ limit do
    throw (.tooManyOutputVertices limits.maxInputPrimitives limits.maxVerticesOut limit)

/-- The text of a configuration, field by field. -/
def text (config : Config) : String :=
  let limits := config.geometry
  let geometry := ", ".intercalate [
    s!"max_vertices_out: {limits.maxVerticesOut}",
    s!"max_input_primitives: {limits.maxInputPrimitives}",
    s!"active_streams: {limits.activeStreams.toNat}"]
  let fields := ", ".intercalate [
    "topology: " ++ config.topology.name,
    "provoking_vertex: " ++ config.provokingVertex.name,
    "wave: " ++ config.wave.name,
    s!"max_workgroup_size: {config.maxWorkgroupSize}",
    s!"max_es_vertices: {config.maxInputVertices}",
    s!"export_prim_id: {config.exportPrimitiveId}",
    s!"consider_passthrough: {config.considerPassthrough}",
    s!"consider_culling: {config.considerCulling}",
    "gs: GsConfig \x7b " ++ geometry ++ " \x7d"]
  "NggConfig \x7b " ++ fields ++ " \x7d"

end Config

end PrimitiveShader
