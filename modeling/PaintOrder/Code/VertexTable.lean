import Std.Data.HashMap
import PaintOrder.Code.Bytes
import PaintOrder.Geometry.Face

/-!
# Vertex tables

The positions of one submodel's vertices are numbered in the order in which they are first
seen.  Two vertices share a number exactly if their positions are equal word for word.  The
numbers start at a base, so that several submodels can share one range of numbers.
-/

namespace PaintOrder.Code

/-- A numbering of positions: the positions in order, and the number of each. -/
structure VertexTable where
  base : Nat
  positions : Array FixedVector := #[]
  indices : Std.HashMap FixedVector Nat := {}

namespace VertexTable

/-- The number of distinct positions. -/
def size (table : VertexTable) : Nat :=
  table.positions.size

/-- The number after the last one in use, where the next table can start. -/
def finish (table : VertexTable) : Nat :=
  table.base + table.size

/-- The number of a position, if it has one. -/
def index? (table : VertexTable) (position : FixedVector) : Option Nat :=
  table.indices[position]?

/-- Numbers a position unless it has a number already, and gives its number. -/
def number (table : VertexTable) (position : FixedVector) : Nat × VertexTable :=
  match table.index? position with
  | some index => (index, table)
  | none =>
      let index := table.finish
      (index,
        { base := table.base
          positions := table.positions.push position
          indices := table.indices.insert position index })

/-- Numbers a position unless it has a number already. -/
def insert (table : VertexTable) (position : FixedVector) : VertexTable :=
  (table.number position).2

/-- Numbers the vertices of a list of faces in order. -/
def insertFaces (table : VertexTable) (faces : List Face) : VertexTable :=
  faces.foldl
    (fun table face =>
      face.vertices.foldl (fun table vertex => table.insert vertex.position) table)
    table

/-- The number of a position as a 16-bit word, if it has one. -/
def word? (table : VertexTable) (position : FixedVector) :
    Except CapacityError (Option Int16) :=
  match table.index? position with
  | none => .ok none
  | some index =>
      match signedWord? index with
      | some word => .ok (some word)
      | none => .error (.tooManyVertices index)

end VertexTable

end PaintOrder.Code
