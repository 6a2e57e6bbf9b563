/-!
# Topologies and provoking vertices

A primitive is a point, a line or a triangle. One of its vertices, the provoking one, supplies the
attributes that are constant over the primitive; a convention makes it the first or the last.
-/

namespace PrimitiveShader

/-- The kind of the exported primitives. -/
inductive Topology where
  | points
  | lines
  | triangles
deriving DecidableEq, Repr

/-- Which vertex of a primitive provokes. -/
inductive ProvokingVertex where
  | first
  | last
deriving DecidableEq, Repr

/-- Vertices per primitive. -/
def Topology.vertexCount : Topology → Nat
  | points => 1
  | lines => 2
  | triangles => 3

/-- The name of the topology in text. -/
def Topology.name : Topology → String
  | points => "Points"
  | lines => "Lines"
  | triangles => "Triangles"

/-- The place of the provoking vertex within one primitive. -/
def ProvokingVertex.index (provoking : ProvokingVertex) (topology : Topology) : Nat :=
  match provoking with
  | first => 0
  | last => topology.vertexCount - 1

/-- The name of the convention in text. -/
def ProvokingVertex.name : ProvokingVertex → String
  | first => "First"
  | last => "Last"

end PrimitiveShader
