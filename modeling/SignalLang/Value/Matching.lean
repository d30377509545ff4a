import SignalLang.Value.Basic

/-!
# Matching

Whether a value is of a type is decided by the value alone.  Arms of branches, handlers, parameters,
fields, results of signals and declared `let`s all use the same test.

* `Value.matches` : the test.
* `Value.matchPattern?` : the test of a pattern, with what it binds.
-/

namespace SignalLang

namespace Value

/-- Whether a value is of a type, looking through at most `depth` levels of options. -/
def matchesWithin (t : TypeTable) (v : Value) : Nat → Ty → Bool
  | _, .function params _ => v.arity? t == some params.length
  | depth, .named id =>
    match (t.get id).kind with
    | .anything | .unknown => true
    | .anySignal => v.isSignal
    | .option members =>
      match depth with
      | 0 => false
      | depth + 1 => members.any fun m => v.matchesWithin t depth m
    | .primitive | .object _ | .signal _ _ => v.type? == some id

/-- Levels of options that the test looks through.  Options may list themselves, so there has to be
a bound. -/
def maxOptions : Nat := 64

/-- Whether a value is of a type: a nominal type is that of the value itself, `Anything` admits
every value, `AnySignal` every signal, an option what one of its members admits, and a function
type what takes as many arguments. -/
def hasType (v : Value) (t : TypeTable) (ty : Ty) : Bool := v.matchesWithin t maxOptions ty

/-- Matches a value against a pattern.  A pattern whose type was never resolved matches nothing. -/
def matchPattern? (p : Code.Pattern) (v : Value) (t : TypeTable) : Option Bindings :=
  match t.resolved? p.typeRef with
  | none => none
  | some ty =>
    if v.hasType t ty then
      some (match p.binding with
        | some n => [(n, v)]
        | none => [])
    else none

end Value

end SignalLang
