/-!
# Repetition until nothing changes

`untilStable f fuel a` applies `f` again and again and stops at the first value that `f` leaves
alone. Where `f` only ever adds to a finite set, the number of things that can be added is enough
fuel, and the result is a fixed point.
-/

namespace ShiftReduce

/-- Applies `f` until it changes nothing, `fuel` times at most. -/
def untilStable {α : Type} [DecidableEq α] (f : α → α) : Nat → α → α
  | 0, a => a
  | fuel + 1, a => if f a = a then a else untilStable f fuel (f a)

end ShiftReduce
