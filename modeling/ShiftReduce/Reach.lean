import ShiftReduce.IdSet

/-!
# Search in a finite graph

`reach next bound start` is the set of vertices that can be reached from `start` along `next`, in a
graph whose vertices are the numbers below `bound`. Every vertex enters the list of vertices to
visit at most once, when it is first seen, so `bound` visits are enough.
-/

namespace ShiftReduce

/-- Adds a vertex that has not been seen to the vertices to visit and to those seen. -/
def discover (front : List Nat × IdSet) (v : Nat) : List Nat × IdSet :=
  if v ∈ front.2 then front else (v :: front.1, front.2.insert v)

/-- Visits the vertices of the list and those discovered on the way, `fuel` of them at most. -/
def visit (next : Nat → List Nat) : Nat → List Nat × IdSet → IdSet
  | 0, (_, seen) => seen
  | _ + 1, ([], seen) => seen
  | fuel + 1, (v :: todo, seen) => visit next fuel ((next v).foldl discover (todo, seen))

/-- The vertices below `bound` that can be reached from `start` along `next`. -/
def reach (next : Nat → List Nat) (bound : Nat) (start : IdSet) : IdSet :=
  visit next bound (start.toList, start)

end ShiftReduce
