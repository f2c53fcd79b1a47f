/-!
Half-open ranges of character offsets. Nothing here requires the start to lie before the stop.
-/

namespace LineCalc

structure Span where
  start : Nat
  stop : Nat
deriving DecidableEq, Repr

namespace Span

def text (s : Span) : String :=
  toString s.start ++ ".." ++ toString s.stop

/-- Spans are ordered by their starts, and by their stops where the starts agree. -/
instance : Ord Span where
  compare a b := (compare a.start b.start).then (compare a.stop b.stop)

end Span
end LineCalc
