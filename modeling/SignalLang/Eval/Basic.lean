import SignalLang.CallStack
import SignalLang.Handler
import SignalLang.Host
import SignalLang.Limits
import SignalLang.Native.Apply
import SignalLang.Scope.Environment

/-!
# Machines and outcomes

Evaluation reads a program and changes a machine.  It ends in a value, in an interrupt, which is an
error or a `break` or `return` on its way to its target, or, since evaluation is given a bounded
amount of fuel, in running out of it.

* `Program` : what evaluation reads.
* `Machine` : what evaluation changes.
* `Eval` : a step of evaluation.
-/

namespace SignalLang

/-- What evaluation reads and never changes.  Without a host, signals that no handler matches stay
unhandled. -/
structure Program where
  arena : Arena
  interner : Interner
  types : TypeTable
  limits : Limits
  host : Option Host
  functions : HostFunctions

/-- What evaluation changes. -/
structure Machine where
  store : Store
  env : Environment
  handlers : HandlerStack
  calls : CallStack
  /-- The innermost loop, which a `break` leaves. -/
  loopTarget : Option FrameId
  /-- The innermost function, which a `return` leaves. -/
  returnTarget : Option FrameId
  /-- Number of activations of loops and functions so far. -/
  activations : Nat
  /-- Number of answers that the host has given. -/
  hostTicks : Nat
  log : HostLog
deriving Inhabited

/-- What leaves an expression without a value. -/
inductive Interrupt where
  | fault (error : EvalError)
  | breakTo (target : FrameId) (value : Value)
  | returnTo (target : FrameId) (value : Value)
deriving Inhabited

namespace Interrupt

/-- Whether an interrupt is an error. -/
def isFault : Interrupt → Bool
  | .fault _ => true
  | _ => false

/-- Gives an error a place, unless it has one. -/
def withSpan (span : Span) : Interrupt → Interrupt
  | .fault e => .fault (e.withSpanIfNone span)
  | i => i

/-- The error that an interrupt is where no `break` or `return` may pass. -/
def toError : Interrupt → EvalError
  | .fault e => e
  | .breakTo _ _ => .new .escapedControlFlow
  | .returnTo _ _ => .new .escapedControlFlow

end Interrupt

/-- How evaluation ends. -/
inductive Outcome (α : Type) where
  | value (a : α)
  | interrupt (i : Interrupt)
  | outOfFuel
deriving Inhabited

/-- The outcome where no `break` or `return` may pass. -/
def Outcome.settle : Outcome α → Outcome α
  | .interrupt i => .interrupt (.fault i.toError)
  | r => r

namespace Outcome

/-- The value with which something ends, if it does. -/
def value? : Outcome α → Option α
  | .value a => some a
  | _ => none

theorem eq_value_of_value? {r : Outcome α} {a : α} (h : r.value? = some a) : r = .value a := by
  cases r with
  | value b => exact congrArg Outcome.value (Option.some.inj h)
  | _ => cases h

theorem eq_value_of_settle {r : Outcome α} {a : α} (h : r.settle = .value a) : r = .value a := by
  cases r with
  | value b => exact h
  | interrupt i => cases h
  | outOfFuel => cases h

end Outcome

/-- A step of evaluation. -/
def Eval (α : Type) : Type := Machine → Outcome α × Machine

namespace Eval

/-- The step that gives a value and changes nothing. -/
@[inline] def pure (a : α) : Eval α := fun s => (.value a, s)

/-- One step after the other; the second is left out if the first gives no value. -/
@[inline] def bind (x : Eval α) (f : α → Eval β) : Eval β := fun s =>
  match x s with
  | (.value a, s) => f a s
  | (.interrupt i, s) => (.interrupt i, s)
  | (.outOfFuel, s) => (.outOfFuel, s)

instance : Monad Eval where
  pure := Eval.pure
  bind := Eval.bind

/-- Ends with an interrupt. -/
@[inline] def interrupt (i : Interrupt) : Eval α := fun s => (.interrupt i, s)

/-- Ends with a problem; the place follows from the expression around it. -/
def fault (problem : EvalProblem) : Eval α := interrupt (.fault (.new problem))

/-- Ends with a problem at a place. -/
def faultAt (problem : EvalProblem) (span : Span) : Eval α :=
  interrupt (.fault (.newAt problem span))

/-- Runs out of fuel. -/
@[inline] def outOfFuel : Eval α := fun s => (.outOfFuel, s)

/-- Reads the machine. -/
@[inline] def read (f : Machine → α) : Eval α := fun s => (.value (f s), s)

/-- Changes the machine. -/
@[inline] def update (f : Machine → Machine) : Eval Unit := fun s => (.value (), f s)

/-- A value or an error. -/
def ofExcept : Except EvalError α → Eval α
  | .ok a => pure a
  | .error e => interrupt (.fault e)

theorem snd_ofExcept (r : Except EvalError α) (s : Machine) : (ofExcept r s).2 = s := by
  cases r <;> rfl

/-- Gives errors that have no place yet the place of an expression. -/
@[inline] def located (span : Span) (x : Eval α) : Eval α := fun s =>
  match x s with
  | (.interrupt i, s) => (.interrupt (i.withSpan span), s)
  | r => r

/-! ### Scopes and contexts -/

/-- Runs a step in a new scope, which is left however the step ends. -/
@[inline] def inScope (x : Eval α) : Eval α := fun s =>
  let (env, store) := s.env.push s.store
  match x { s with env, store } with
  | (r, s) => (r, { s with env := s.env.pop })

/-- Binds a name in the innermost scope. -/
def define (n : Name) (v : Value) (isVariable : Bool) : Eval Unit :=
  update fun s => { s with store := s.env.define s.store n v isVariable }

/-- Binds several names in the innermost scope, none of them as a variable. -/
def defineAll : Bindings → Eval Unit
  | [] => pure ()
  | (n, v) :: rest => do
    define n v false
    defineAll rest

/-- Runs a step in a new scope with some bindings. -/
def withBindings (bs : Bindings) (x : Eval α) : Eval α :=
  inScope do
    defineAll bs
    x

/-- Runs a step with an environment and targets of its own.  The former ones return however the step
ends. -/
@[inline] def inContext (env : Environment) (loopTarget returnTarget : Option FrameId)
    (x : Eval α) : Eval α := fun s =>
  let savedEnv := s.env
  let savedLoop := s.loopTarget
  let savedReturn := s.returnTarget
  match x { s with env, loopTarget, returnTarget } with
  | (r, s) => (r, { s with env := savedEnv, loopTarget := savedLoop, returnTarget := savedReturn })

/-- Creates the environment of a body that captured a scope. -/
def childEnvironment (captured : ScopeId) : Eval Environment := fun s =>
  let (env, store) := s.env.childOf captured s.store
  (.value env, { s with store })

/-- A new activation of a loop or function. -/
def freshFrame : Eval FrameId := fun s =>
  (.value (.ofSerial s.activations), { s with activations := s.activations + 1 })

end Eval

/-- How the parts of an expression are evaluated. -/
abbrev Evaluator := ExprId → Eval Value

end SignalLang
