import PrimitiveShader.Lowering.Geometry
import PrimitiveShader.Lowering.Vertex

/-!
# Lowering to primitive shaders

A primitive shader does the work of the vertex, tessellation and geometry stages in one program that
asks for its output space and exports vertices and primitives by itself.
-/

namespace PrimitiveShader

/-- Lowers a program according to its stage. -/
def Program.lower (config : Config) (program : Program) : Except Fault Lowered :=
  match program.stage with
  | .vertex | .tessEval => Lowering.lowerVertex config program
  | .geometry => Lowering.lowerGeometry config program
  | .fragment => .ok (.rejected program (.unsupportedStage .fragment))

end PrimitiveShader
