import SignalLang.EvalError
import SignalLang.Value.Equality

/-!
# What native functions compute

The functions of the library check the number and the kinds of their arguments themselves.  What the
functions of the host compute is up to the host.

* `Native.apply` : the functions of the library.
* `HostFunctions` : the functions that a host brings along.
* `NativeFunction.apply`, `NativeFunction.call` : what any native function gives.
-/

namespace SignalLang

namespace Native

/-- The number that an argument has to be. -/
def numberArg (v : Value) : Except EvalProblem Float :=
  match v.number? with
  | some n => .ok n
  | none => .error (.typeMismatch "Number" v.kindName)

/-- The text that an argument has to be. -/
def stringArg (v : Value) : Except EvalProblem String :=
  match v.string? with
  | some s => .ok s
  | none => .error (.typeMismatch "String" v.kindName)

/-- Applies a function of one argument. -/
def unary (n : Native) (f : Value → Except EvalProblem Value) : List Value →
    Except EvalProblem Value
  | [v] => f v
  | args => .error (.arityMismatch n.name 1 args.length)

/-- Applies a function of two arguments. -/
def binary (n : Native) (f : Value → Value → Except EvalProblem Value) : List Value →
    Except EvalProblem Value
  | [v, w] => f v w
  | args => .error (.arityMismatch n.name 2 args.length)

/-- Applies a function of two numbers; the first argument is checked first. -/
def onNumbers (n : Native) (f : Float → Float → Value) : List Value → Except EvalProblem Value :=
  n.binary fun v w => do
    let a ← numberArg v
    let b ← numberArg w
    return f a b

/-- The value of a function of the library for some arguments. -/
def apply : Native → List Value → Except EvalProblem Value
  | .equals => binary .equals fun v w => .ok (.boolean (v.equal w))
  | .add => onNumbers .add fun a b => .number (a + b)
  | .subtract => onNumbers .subtract fun a b => .number (a - b)
  | .multiply => onNumbers .multiply fun a b => .number (a * b)
  | .atLeast => onNumbers .atLeast fun a b => .boolean (a ≥ b)
  | .append => binary .append fun v w => do
    let a ← stringArg v
    let b ← stringArg w
    return .string (a ++ b)
  | .numberToString => unary .numberToString fun v => do
    let a ← numberArg v
    return .string (Number.text a)

end Native

/-- The functions that a host brings along, by their number.  Each gives a value or raises an error,
which may have a place, notes and a record of calls already. -/
def HostFunctions : Type := Nat → List Value → Except EvalError Value

/-- A host without functions of its own.  What such functions would give does not matter. -/
def HostFunctions.none : HostFunctions := fun _ _ => .ok .action

instance : Inhabited HostFunctions := ⟨.none⟩

/-- The value of a native function for some arguments. -/
def NativeFunction.apply (functions : HostFunctions) (f : NativeFunction) (args : List Value) :
    Except EvalError Value :=
  match f.code with
  | .library n => (n.apply args).mapError .new
  | .host entry => functions entry args

/-- What the call of a native function gives.  The number of arguments is checked first. -/
def NativeFunction.call (functions : HostFunctions) (f : NativeFunction) (args : List Value) :
    Except EvalError Value :=
  if args.length ≠ f.arity then .error (.new (.arityMismatch f.name f.arity args.length))
  else f.apply functions args

end SignalLang
