import SignalLang.Interpreter

/-!
# Running files

A file is translated, resolved and run.  Malformed literals and resolution errors stop it before
anything runs.
-/

namespace SignalLang

/-- How a file is run: the function to call, the mode, a limit on the rounds of loops in place of
that of the mode, and the host.  Without a host the lines of `Debug` signals are kept. -/
structure RunConfig where
  entry : String
  mode : EvalMode
  loopRounds : Option Nat
  host : Option Host

/-- The usual way to run a file. -/
instance : Inhabited RunConfig := ⟨⟨"main", default, none, none⟩⟩

/-- What comes out of a run: the text of the result or the phase that failed, the reports of that
phase, and the log of the host. -/
structure RunResult where
  result : Except Phase String
  diagnostics : List Diagnostic
  log : HostLog

namespace RunResult

/-- A run that failed in a phase. -/
def failed (phase : Phase) (diagnostics : List Diagnostic) (log : HostLog) : RunResult :=
  ⟨.error phase, diagnostics, log⟩

end RunResult

/-- The settings of the interpreter for a run. -/
def RunConfig.settings (c : RunConfig) : Settings :=
  ⟨c.mode, c.loopRounds.map some, some (c.host.getD .buffer)⟩

namespace Interpreter

/-- Loads a module and calls one of its functions without arguments. -/
def loadAndCall (i : Interpreter) (m : Module) (entry : String) (fuel : Nat := ampleFuel) :
    Outcome Value × Interpreter :=
  match i.load m fuel with
  | (.value _, i) => i.call entry [] fuel
  | (.interrupt e, i) => (.interrupt e, i)
  | (.outOfFuel, i) => (.outOfFuel, i)

end Interpreter

/-- Runs a file whose code has been resolved without errors. -/
def Module.run (m : Module) (interner : Interner) (types : TypeTable) (c : RunConfig)
    (store : Store) (functions : HostFunctions) (fuel : Nat) : RunResult :=
  let (outcome, i) :=
    (Interpreter.new m.arena interner types c.settings store functions).loadAndCall m c.entry fuel
  match outcome with
  | .value v => ⟨.ok (i.display v), [], i.machine.log⟩
  | .interrupt e => .failed .evaluation [e.toError.diagnostic] i.machine.log
  | .outOfFuel => .failed .internal [] i.machine.log

/-- Runs a file.  The store holds what the values of the host refer to, and the functions are those
that it brings along. -/
def Tree.File.run (file : Tree.File) (c : RunConfig) (store : Store)
    (functions : HostFunctions := .none) (fuel : Nat := Interpreter.ampleFuel) : RunResult :=
  match Module.ofTree file .new with
  | (.error errors, _) => .failed .build (errors.map (·.diagnostic)) .empty
  | (.ok m, interner) =>
    let (types, errors, interner) := m.resolve .core interner
    if errors.isEmpty then m.run interner types c store functions fuel
    else .failed .resolution (errors.map (·.diagnostic types interner)) .empty

end SignalLang
