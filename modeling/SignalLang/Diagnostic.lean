import SignalLang.Code.Lowering

/-!
# Diagnostics

A diagnostic is the report of a problem, whichever phase found it: a code, a message, labelled spans
and notes.  The first digit of a code names the phase.
-/

namespace SignalLang

/-- The phase that finds a problem. -/
inductive Phase where
  /-- Translation of the tree. -/
  | build
  /-- Resolution of names and types. -/
  | resolution
  | evaluation
  /-- A fault of the library itself. -/
  | internal
deriving DecidableEq, Repr

/-- What a diagnostic is about. -/
inductive ErrorCode where
  | malformedString
  | malformedNumber
  | unknownType
  | duplicateDeclaration
  | incompatibleFunction
  | unknownImport
  | unknownName
  | isWithoutSubject
  | notVariable
  | breakOutsideLoop
  | returnOutsideFunction
  | argumentCount
  | declaredType
  | unboundName
  | noSuchField
  | unhandledSignal
  | typeMismatch
  | notCallable
  | notCausable
  | arityMismatch
  | immutableBinding
  | runawayLoop
  | recursionLimit
  | escapedControlFlow
  | internalFault
deriving DecidableEq, Repr

namespace ErrorCode

/-- The written form of a code. -/
def text : ErrorCode → String
  | .malformedString => "E1001"
  | .malformedNumber => "E1002"
  | .unknownType => "E2001"
  | .duplicateDeclaration => "E2002"
  | .incompatibleFunction => "E2003"
  | .unknownImport => "E2004"
  | .unknownName => "E2005"
  | .isWithoutSubject => "E2006"
  | .notVariable => "E2007"
  | .breakOutsideLoop => "E2008"
  | .returnOutsideFunction => "E2009"
  | .argumentCount => "E2010"
  | .declaredType => "E2011"
  | .unboundName => "E6001"
  | .noSuchField => "E6002"
  | .unhandledSignal => "E6003"
  | .typeMismatch => "E6004"
  | .notCallable => "E6005"
  | .notCausable => "E6006"
  | .arityMismatch => "E6007"
  | .immutableBinding => "E6008"
  | .runawayLoop => "E6009"
  | .recursionLimit => "E6010"
  | .escapedControlFlow => "E6011"
  | .internalFault => "E9001"

/-- Every code, in the order of the written forms. -/
def all : List ErrorCode :=
  [.malformedString, .malformedNumber, .unknownType, .duplicateDeclaration, .incompatibleFunction,
    .unknownImport, .unknownName, .isWithoutSubject, .notVariable, .breakOutsideLoop,
    .returnOutsideFunction, .argumentCount, .declaredType, .unboundName, .noSuchField,
    .unhandledSignal, .typeMismatch, .notCallable, .notCausable, .arityMismatch,
    .immutableBinding, .runawayLoop, .recursionLimit, .escapedControlFlow, .internalFault]

/-- The code with a given written form. -/
def ofText? (s : String) : Option ErrorCode := all.find? fun c => c.text == s

/-- The phase whose problems bear this code. -/
def phase : ErrorCode → Phase
  | .malformedString | .malformedNumber => .build
  | .unknownType | .duplicateDeclaration | .incompatibleFunction | .unknownImport | .unknownName
  | .isWithoutSubject | .notVariable | .breakOutsideLoop | .returnOutsideFunction
  | .argumentCount | .declaredType => .resolution
  | .unboundName | .noSuchField | .unhandledSignal | .typeMismatch | .notCallable | .notCausable
  | .arityMismatch | .immutableBinding | .runawayLoop | .recursionLimit | .escapedControlFlow =>
    .evaluation
  | .internalFault => .internal

theorem mem_all (c : ErrorCode) : c ∈ all := by cases c <;> decide

end ErrorCode

/-- A span with a message.  The primary labels say where the problem is, the others give context. -/
structure Label where
  span : Span
  message : String
  primary : Bool
deriving DecidableEq, Repr

/-- The report of a problem. -/
structure Diagnostic where
  code : ErrorCode
  message : String
  labels : List Label
  notes : List String
deriving DecidableEq, Repr

namespace Diagnostic

/-- A report with neither labels nor notes. -/
def plain (code : ErrorCode) (message : String) : Diagnostic := ⟨code, message, [], []⟩

/-- The report with one more label. -/
def withLabel (d : Diagnostic) (l : Label) : Diagnostic := { d with labels := d.labels ++ [l] }

/-- The report with one more note. -/
def withNote (d : Diagnostic) (note : String) : Diagnostic := { d with notes := d.notes ++ [note] }

@[simp] theorem code_withLabel (d : Diagnostic) (l : Label) : (d.withLabel l).code = d.code := rfl

@[simp] theorem code_withNote (d : Diagnostic) (note : String) :
    (d.withNote note).code = d.code := rfl

/-- The span of the first primary label. -/
def primarySpan? (d : Diagnostic) : Option Span :=
  (d.labels.find? fun l => l.primary).map fun l => l.span

/-- The line of a label; an arrow marks the primary ones. -/
def labelLine (l : Label) : String :=
  "\n  " ++ (if l.primary then "-->" else "   ") ++ s!" {l.span.text}: {l.message}"

/-- The line of a note. -/
def noteLine (note : String) : String := s!"\n  = note: {note}"

/-- The whole report: a headline, the labels, the notes. -/
def text (d : Diagnostic) : String :=
  s!"error [{d.code.text}]: {d.message}" ++ String.join (d.labels.map labelLine) ++
    String.join (d.notes.map noteLine)

end Diagnostic

/-- The code of a malformed literal. -/
def LiteralError.code (e : LiteralError) : ErrorCode :=
  match e.kind with
  | .string => .malformedString
  | .number => .malformedNumber

/-- The report of a malformed literal. -/
def LiteralError.diagnostic (e : LiteralError) : Diagnostic :=
  (Diagnostic.plain e.code e.message).withLabel ⟨e.span, "malformed literal", true⟩

end SignalLang
