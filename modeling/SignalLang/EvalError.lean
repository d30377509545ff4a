import SignalLang.Value.Basic

/-!
# Evaluation errors

An evaluation error says what went wrong, where, and in which calls.  It stops the program; unlike a
`break` or `return` it has no target.
-/

namespace SignalLang

/-- What can go wrong when a program runs. -/
inductive EvalProblem where
  | unboundName (name : String)
  | noSuchField (field typeName : String)
  | immutableBinding (name : String)
  /-- Nobody handled a signal. -/
  | unhandledSignal (name : String) (signal : Value)
  | notCausable (typeName : String)
  | typeMismatch (expected found : String)
  | notCallable (typeName : String)
  /-- The name is empty where the function has none. -/
  | arityMismatch (name : String) (expected found : Nat)
  | recursionLimit (limit : Nat)
  | runawayLoop (iterations : Nat)
  /-- A `break` or `return` has no target left. -/
  | escapedControlFlow
  /-- Any other fault, in words. -/
  | other (message : String)
  /-- A problem that a function of the host puts in words of its own, with a signal if it likes. -/
  | inWords (problem : EvalProblem) (message : String) (signal : Option Value)
deriving Inhabited

namespace EvalProblem

/-- The code of a problem. -/
def code : EvalProblem → ErrorCode
  | .unboundName _ => .unboundName
  | .noSuchField _ _ => .noSuchField
  | .immutableBinding _ => .immutableBinding
  | .unhandledSignal _ _ => .unhandledSignal
  | .notCausable _ => .notCausable
  | .typeMismatch _ _ => .typeMismatch
  | .notCallable _ => .notCallable
  | .arityMismatch _ _ _ => .arityMismatch
  | .recursionLimit _ => .recursionLimit
  | .runawayLoop _ => .runawayLoop
  | .escapedControlFlow => .escapedControlFlow
  | .other _ => .internalFault
  | .inWords problem _ _ => problem.code

/-- The wording of a problem. -/
def message : EvalProblem → String
  | .unboundName name => s!"unbound name: {name}"
  | .noSuchField field typeName => s!"no field `{field}` on {typeName}"
  | .immutableBinding name => s!"cannot set immutable binding: {name}"
  | .unhandledSignal name _ => s!"unhandled signal: {name}"
  | .notCausable typeName => s!"{typeName} is not a signal and cannot be caused"
  | .typeMismatch expected found => s!"type mismatch: expected {expected}, got {found}"
  | .notCallable typeName => s!"{typeName} is not callable"
  | .arityMismatch name expected found =>
    (if name.isEmpty then "expected " else s!"{name} expects ") ++
      s!"{expected} " ++ (if expected = 1 then "argument" else "arguments") ++ s!", got {found}"
  | .recursionLimit limit => s!"maximum recursion depth exceeded (limit: {limit})"
  | .runawayLoop iterations => s!"loop did not break after {iterations} iterations"
  | .escapedControlFlow => "`break` or `return` escaped its target"
  | .other message => message
  | .inWords _ message _ => message

/-- What a report writes at the place of a problem. -/
def label : EvalProblem → String
  | .unboundName _ => "not bound here"
  | .noSuchField _ _ => "field access here"
  | .unhandledSignal _ _ => "no handler for this cause"
  | .typeMismatch _ _ => "value of the wrong type"
  | .notCallable _ => "in this call"
  | .arityMismatch _ _ _ => "in this call"
  | .notCausable _ => "caused here"
  | .immutableBinding _ => "assignment here"
  | .runawayLoop _ => "this loop"
  | .recursionLimit _ => "recursion limit reached here"
  | .escapedControlFlow => "no enclosing target"
  | .other _ => "here"
  | .inWords problem _ _ => problem.label

/-- The signal that nobody handled. -/
def signal? : EvalProblem → Option Value
  | .unhandledSignal _ signal => some signal
  | .inWords _ _ signal => signal
  | _ => none

end EvalProblem

/-- One of the calls that were active, with the place it was called from. -/
structure CallFrame where
  name : String
  site : Option Span
deriving DecidableEq, Repr, Inhabited

/-- The active calls at some moment, the innermost first. -/
abbrev Backtrace := List CallFrame

namespace Backtrace

/-- The line of one call. -/
def line (i : Nat) (f : CallFrame) : String :=
  s!"  {i}: {f.name}" ++ (f.site.map fun s => " at " ++ s.text).getD "" ++ "\n"

/-- The lines of all calls under a headline; nothing if there are none. -/
def text (b : Backtrace) : String :=
  if b.isEmpty then ""
  else "stack backtrace:\n" ++ String.join (b.zipIdx.map fun (f, i) => line i f)

end Backtrace

/-- Further information on an error. -/
structure EvalNote where
  message : String
  span : Option Span
deriving DecidableEq, Repr, Inhabited

/-- A problem, the expression where it arose, the calls that were active there, and notes. -/
structure EvalError where
  problem : EvalProblem
  span : Option Span
  backtrace : Option Backtrace
  notes : List EvalNote
deriving Inhabited

namespace EvalError

/-- A problem of which nothing else is known yet. -/
def new (problem : EvalProblem) : EvalError := ⟨problem, none, none, []⟩

/-- A problem at a place. -/
def newAt (problem : EvalProblem) (span : Span) : EvalError := ⟨problem, some span, none, []⟩

/-- The error at a given place. -/
def withSpan (e : EvalError) (span : Span) : EvalError := { e with span := some span }

/-- The error at a given place, unless its place is known already. -/
def withSpanIfNone (e : EvalError) (span : Span) : EvalError :=
  { e with span := some (e.span.getD span) }

/-- The error with a record of the active calls. -/
def withBacktrace (e : EvalError) (b : Backtrace) : EvalError := { e with backtrace := some b }

/-- The error with one more note. -/
def withNote (e : EvalError) (note : EvalNote) : EvalError := { e with notes := e.notes ++ [note] }

/-- Adds a note to a report; a note with a place becomes a label. -/
def reportNote (d : Diagnostic) (note : EvalNote) : Diagnostic :=
  match note.span with
  | some span => d.withLabel ⟨span, note.message, false⟩
  | none => d.withNote note.message

/-- The report of an error: its place, its notes, and at last the active calls. -/
def diagnostic (e : EvalError) : Diagnostic :=
  let plain := Diagnostic.plain e.problem.code e.problem.message
  let placed :=
    match e.span with
    | some span => plain.withLabel ⟨span, e.problem.label, true⟩
    | none => plain
  let noted := e.notes.foldl reportNote placed
  match e.backtrace with
  | some b => if b.isEmpty then noted else noted.withNote ("call stack:\n" ++ b.text)
  | none => noted

theorem code_foldl_reportNote (notes : List EvalNote) (d : Diagnostic) :
    (notes.foldl reportNote d).code = d.code := by
  induction notes generalizing d with
  | nil => rfl
  | cons note notes ih =>
    rw [List.foldl_cons, ih]
    unfold reportNote
    split <;> rfl

theorem code_diagnostic (e : EvalError) : e.diagnostic.code = e.problem.code := by
  unfold diagnostic
  cases e.span <;> cases e.backtrace <;> dsimp only
  case none.some | some.some =>
    split
    · rw [code_foldl_reportNote]; rfl
    · rw [Diagnostic.code_withNote, code_foldl_reportNote]; rfl
  all_goals
    rw [code_foldl_reportNote]; rfl

end EvalError

end SignalLang
