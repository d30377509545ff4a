import SignalLang.Eval.Expr

/-!
# Interpreters

An interpreter is a program with a machine to run it.  A module is loaded once; then its functions
can be called any number of times, whatever the outcome of each call.

* `Interpreter.new` : a machine on which only the builtins are bound.
* `Interpreter.load`, `Interpreter.call` : binding a module and calling one of its functions.
-/

namespace SignalLang

/-- A program and the machine that runs it. -/
structure Interpreter where
  program : Program
  machine : Machine

/-- What an interpreter is made for.  The limit on the rounds of loops follows the mode unless it is
overridden. -/
structure Settings where
  mode : EvalMode
  loopRounds : Option (Option Nat)
  host : Option Host

/-- The limits that settings stand for. -/
def Settings.limits (s : Settings) : Limits :=
  match s.loopRounds with
  | some loopRounds => { s.mode.limits with loopRounds }
  | none => s.mode.limits

namespace Interpreter

/-- The fuel of a run where none is given: more than any run can use up that ends at all. -/
def ampleFuel : Nat := 1_000_000_000_000_000

/-- The values that are bound in every module. -/
def builtins (t : TypeTable) (interner : Interner) : Bindings :=
  [((t.get .trueAnswer).name, .boolean true), ((t.get .falseAnswer).name, .boolean false),
    ((t.get .debug).name, .constructor .debug),
    ((t.get .assumptionBroken).name, .constructor .assumptionBroken)] ++
  Native.prelude.map fun n => ((interner.intern n.name).1, .native n)

/-- A machine on which the builtins are bound.  The module gets a scope inside theirs, so that it
can use their names for something else.  The store may hold values made before. -/
def freshMachine (t : TypeTable) (interner : Interner) (store : Store) : Machine :=
  let (env, store) := Environment.new store
  let store := store.defineAll env.root (builtins t interner)
  let (env, store) := env.push store
  { store, env, handlers := .empty, calls := .empty, loopTarget := none, returnTarget := none,
    activations := 0, hostTicks := 0, log := .empty }

/-- An interpreter for a resolved module.  The functions are those that the host brings along. -/
def new (arena : Arena) (interner : Interner) (types : TypeTable) (settings : Settings)
    (store : Store) (functions : HostFunctions := .none) : Interpreter :=
  ⟨⟨arena, interner, types, settings.limits, settings.host, functions⟩,
    freshMachine types interner store⟩

/-- Takes a step of evaluation. -/
def run (i : Interpreter) (x : Eval α) : Outcome α × Interpreter :=
  let (r, machine) := x i.machine
  (r, { i with machine })

/-- Evaluates an expression. -/
def eval (i : Interpreter) (id : ExprId) (fuel : Nat := ampleFuel) :
    Outcome Value × Interpreter :=
  i.run (Eval.expr i.program fuel id)

/-- Evaluates an expression with some names bound. -/
def evalWith (i : Interpreter) (bs : Bindings) (id : ExprId) (fuel : Nat := ampleFuel) :
    Outcome Value × Interpreter :=
  i.run (Eval.withBindings bs (Eval.expr i.program fuel id))

/-- Evaluates an expression with some names bound and nothing else in scope, not even the builtins,
and with given targets for `break` and `return`. -/
def evalApart (i : Interpreter) (loopTarget returnTarget : Option FrameId) (bs : Bindings)
    (id : ExprId) (fuel : Nat := ampleFuel) : Outcome Value × Interpreter :=
  let (env, store) := Environment.new i.machine.store
  { i with machine := { i.machine with store } }.run
    (Eval.inContext env loopTarget returnTarget
      (Eval.withBindings bs (Eval.expr i.program fuel id)))

/-- Binds the declarations of a module. -/
def load (i : Interpreter) (m : Module) (fuel : Nat := ampleFuel) :
    Outcome Unit × Interpreter :=
  let (r, i) := i.run (Eval.bindModule i.program (Eval.expr i.program fuel) m.decls)
  (r.settle, i)

theorem program_load (i : Interpreter) (m : Module) (fuel : Nat) :
    (i.load m fuel).2.program = i.program := rfl

/-- The value of a name that is visible in the module. -/
def lookup? (i : Interpreter) (name : String) : Option Value :=
  (i.program.interner.find? name).bind (i.machine.env.lookup? i.machine.store)

/-- Calls a function by name. -/
def call (i : Interpreter) (name : String) (args : List Value) (fuel : Nat := ampleFuel) :
    Outcome Value × Interpreter :=
  match i.lookup? name with
  | none => (.interrupt (.fault (.new (.unboundName name))), i)
  | some callee =>
    let (r, i) := i.run
      (Eval.callValue i.program (Eval.expr i.program fuel) callee args .dummy)
    (r.settle, i)

theorem program_call (i : Interpreter) (name : String) (args : List Value) (fuel : Nat) :
    (i.call name args fuel).2.program = i.program := by
  unfold call
  split <;> rfl

/-- The text of a value. -/
def display (i : Interpreter) (v : Value) : String := v.display i.program.types i.program.interner

/-- The lines that the host keeps. -/
def output (i : Interpreter) : List String := i.machine.log.lines.toList

end Interpreter

end SignalLang
