/-!
# Progress reports

A loop that runs for long reports on itself only now and then. A report is due when more than a
period has gone by since the last one, `e` times longer for each level of the loop. Times are in
milliseconds from the start.

## Main definitions

* `Progress.due` — whether a report is due, which it then counts as made
* `Progress.tick` — starts the wait anew
-/

namespace ProofWalk

/-- The period between reports of an outermost loop, and the time of the last report. -/
structure Progress where
  period : Nat := 3000
  last : Nat := 0
deriving Repr, DecidableEq

namespace Progress

/-- The time since the last report. -/
def sinceLast (p : Progress) (now : Nat) : Nat := now - p.last

/-- The time that has to go by between two reports of a loop. -/
def wait (p : Progress) (level : Nat) : Float := Float.exp (Float.ofNat level) * Float.ofNat p.period

/-- Starts the wait for the next report. -/
def tick (p : Progress) (now : Nat) : Progress := { p with last := now }

/-- Whether a report of a loop is due. It counts as made if it is. -/
def due (p : Progress) (level now : Nat) : Bool × Progress :=
  if p.wait level < Float.ofNat (p.sinceLast now) then (true, p.tick now) else (false, p)

end Progress

end ProofWalk
