/-!
# Limits

A run can be limited in the number of rounds that a loop makes without a `break` and in the number
of calls that are active at once.  Modes are the usual combinations.
-/

namespace SignalLang

/-- What a program is run for. -/
inductive EvalMode where
  /-- An ordinary run: loops are cut off, calls nest freely. -/
  | interpret
  /-- No limits. -/
  | unbounded
  /-- A test: loops and calls are cut off. -/
  | testRun
deriving DecidableEq, Repr

/-- The mode where none is asked for. -/
instance : Inhabited EvalMode := ⟨.interpret⟩

/-- The limits of a run; an absent limit is none. -/
structure Limits where
  loopRounds : Option Nat
  callDepth : Option Nat
deriving DecidableEq, Repr

/-- The usual limit on the rounds of a loop. -/
def usualLoopRounds : Nat := 5000

/-- The limit on active calls in tests. -/
def testCallDepth : Nat := 500

namespace EvalMode

/-- The limits of a mode. -/
def limits : EvalMode → Limits
  | .interpret => ⟨some usualLoopRounds, none⟩
  | .unbounded => ⟨none, none⟩
  | .testRun => ⟨some usualLoopRounds, some testCallDepth⟩

/-- The name of a mode in dumps of the internal state. -/
def dump : EvalMode → String
  | .interpret => "Interpret"
  | .unbounded => "Unbounded"
  | .testRun => "TestRun"

end EvalMode

end SignalLang
