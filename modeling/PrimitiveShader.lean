import PrimitiveShader.Executor.Trace
import PrimitiveShader.Program.Builder
import PrimitiveShader.Program.Printer
import PrimitiveShader.Proofs.Code
import PrimitiveShader.Proofs.Lowering.Geometry.Clearing
import PrimitiveShader.Proofs.Lowering.Geometry.Attributes
import PrimitiveShader.Proofs.Lowering.Geometry.Finales
import PrimitiveShader.Proofs.Lowering.Rejection
import PrimitiveShader.Proofs.Lowering.Safety
import PrimitiveShader.Proofs.Lowering.VertexRelay
import PrimitiveShader.Proofs.Memory.Races
import PrimitiveShader.Proofs.Schedule.StepLimit
import PrimitiveShader.Proofs.Strip
import PrimitiveShader.Proofs.Validity.Sites
import PrimitiveShader.Proofs.Wave.InitialRegisters
