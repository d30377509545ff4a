import SignalLang.Eval.Basic

/-!
# Calls

Closures, native functions and constructors are called with evaluated arguments.  The number of
arguments is checked first, then the arguments whose parameter has a type.
-/

namespace SignalLang

namespace Eval

variable (p : Program) (ev : Evaluator)

/-- Checks that a value is of a type. -/
def checkType (v : Value) (expected : Ty) : Eval Unit :=
  if v.hasType p.types expected then pure ()
  else fault (.typeMismatch (p.types.display p.interner expected) (v.typeName p.types p.interner))

/-- Checks the arguments for the parameters whose type is known. -/
def checkArguments : List Code.Param → List Value → Eval Unit
  | q :: params, v :: args => do
    match q.typeRef.bind p.types.resolved? with
    | some expected => checkType p v expected
    | none => pure ()
    checkArguments params args
  | _, _ => pure ()

/-- The name of `fn` literals among the active calls. -/
def anonymousName : String := "<fn>"

/-- The name of a closure among the active calls. -/
def callName (c : Closure) : String :=
  match c.name with
  | some n => p.interner.text n
  | none => anonymousName

/-- Enters a call. -/
def pushCall (f : CallFrame) : Eval Unit := fun s =>
  match s.calls.push p.limits.callDepth f with
  | .ok calls => (.value (), { s with calls })
  | .error problem => (.interrupt (.fault (.new problem)), s)

/-- Runs the body of a call and leaves the call.  A `return` to its activation gives the value of
the call, and an error takes a record of the active calls along. -/
@[inline] def activation (frame : FrameId) (body : Eval Value) : Eval Value := fun s =>
  match body s with
  | (.interrupt (.returnTo target v), s) =>
    (if target = frame then .value v else .interrupt (.returnTo target v),
      { s with calls := s.calls.pop })
  | (.interrupt (.fault e), s) =>
    (.interrupt (.fault (s.calls.attach e)), { s with calls := s.calls.pop })
  | (r, s) => (r, { s with calls := s.calls.pop })

/-- Calls a closure.  Its body runs inside the scope that it captured, out of reach of the loops
around the call. -/
def callClosure (c : Closure) (args : List Value) (span : Span) : Eval Value :=
  if args.length ≠ c.params.length then
    fault (.arityMismatch (callName p c) c.params.length args.length)
  else do
    checkArguments p c.params args
    pushCall p ⟨callName p c, some span⟩
    let frame ← freshFrame
    let env ← childEnvironment c.captured
    activation frame <| inContext env none (some frame) do
      defineAll ((c.params.map fun q => q.name).zip args)
      ev c.body

/-- Calls a native function.  What it raises is passed on as it is. -/
def callNative (f : NativeFunction) (args : List Value) : Eval Value :=
  ofExcept (f.call p.functions args)

/-- Checks the arguments of a constructor and gives them the names of the fields. -/
def fieldValues : List FieldType → List Value → Eval (List (Name × Value))
  | f :: fields, v :: args => do
    checkType p v f.type
    return (f.name, v) :: (← fieldValues fields args)
  | _, _ => pure []

/-- Builds an instance from one argument per field. -/
def construct (type : TypeId) (args : List Value) : Eval Value :=
  let fields := p.types.fields type
  if args.length ≠ fields.length then
    fault (.arityMismatch (p.interner.text (p.types.get type).name) fields.length args.length)
  else do
    let values ← fieldValues p fields args
    fun s =>
      let (v, store) := s.store.addInstance (p.types.isSignal type) type values
      (.value v, { s with store })

/-- Calls a value.  The instance of a type without fields can be called without arguments and gives
itself. -/
def callValue (callee : Value) (args : List Value) (span : Span) : Eval Value :=
  match callee with
  | .closure c => callClosure p ev c args span
  | .native f => callNative p f args
  | .constructor type => construct p type args
  | v =>
    if v.fields?.any (·.isEmpty) && args.isEmpty then pure v
    else fault (.notCallable (v.typeName p.types p.interner))

end Eval

end SignalLang
