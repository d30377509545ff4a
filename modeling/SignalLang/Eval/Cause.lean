import SignalLang.Eval.Call
import SignalLang.Value.Display

/-!
# Causing signals

A caused signal goes to the innermost handler that matches it, else to the host.  The value of the
handler, or the answer of the host, is the value of the `cause` expression, provided that it is of
the result type of the signal.
-/

namespace SignalLang

namespace Eval

variable (p : Program) (ev : Evaluator)

/-- Runs a step with a handler installed, which is removed however the step ends. -/
@[inline] def withHandler (f : HandlerFrame) (x : Eval α) : Eval α := fun s =>
  match x { s with handlers := s.handlers.push f } with
  | (r, s) => (r, { s with handlers := s.handlers.pop })

/-- Runs a step with all but the outermost `outer` handlers set aside.  They return however the step
ends. -/
@[inline] def withOuterHandlers (outer : Nat) (x : Eval α) : Eval α := fun s =>
  let (hidden, handlers) := s.handlers.splitOff outer
  match x { s with handlers } with
  | (r, s) => (r, { s with handlers := s.handlers.restore hidden })

/-- Runs the body of a handler.  It sees the scope where the handler was installed and breaks out of
the loop, or returns from the function, that was the innermost one there. -/
def runHandler (outer : Nat) (f : HandlerFrame) (bs : Bindings) : Eval Value :=
  withOuterHandlers outer do
    let env ← childEnvironment f.scope
    inContext env f.loopTarget f.returnTarget do
      defineAll bs
      ev f.body

/-- The value that a signal resumes with.  A signal whose result is `Action` takes any answer for
it. -/
def resume (type : TypeId) (v : Value) : Eval Value :=
  let expected := p.types.signalResult type
  if expected = .action then pure .action
  else do
    checkType p v expected
    return v

/-- The field of a `Debug` signal. -/
def debugField : Name := (p.interner.intern "value").1

/-- The line that a `Debug` signal gives the host. -/
def debugLine (signal : Value) : String :=
  ((signal.field? (debugField p)).map (Value.display p.types p.interner)).getD ""

/-- Asks the host about a signal. -/
def askHost (h : Host) (q : Question) : Eval (Option Value) := fun s =>
  let (answer, log) := h.ask s.log q
  (.value answer, { s with log })

/-- Counts an answer of the host. -/
def tick : Eval Unit := update fun s => { s with hostTicks := s.hostTicks + 1 }

/-- What becomes of a signal that no handler matches.  The host may answer it; a `Debug` that it
declines is recorded; anything else is an error. -/
def unhandled (type : TypeId) (signal : Value) : Eval Value :=
  let name := p.interner.text (p.types.get type).name
  match p.host with
  | none => fault (.unhandledSignal name signal)
  | some h => do
    match ← askHost h ⟨name, signal⟩ with
    | some v => do
      tick
      resume p type v
    | none =>
      if type = .debug then do
        update fun s => { s with log := h.debug s.log (debugLine p signal) }
        tick
        return .action
      else fault (.unhandledSignal name signal)

/-- Causes a signal. -/
def cause (v : Value) : Eval Value :=
  match v with
  | .signal _ type _ => do
    match ← read fun s => s.handlers.findMatch? p.types v with
    | some (outer, f, bs) => do
      let answer ← runHandler ev outer f bs
      resume p type answer
    | none => unhandled p type v
  | v => fault (.notCausable (v.typeName p.types p.interner))

end Eval

end SignalLang
