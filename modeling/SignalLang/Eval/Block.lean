import SignalLang.Eval.Cause
import SignalLang.Eval.Declaration

/-!
# Blocks, branches and loops

A block runs its statements in a scope of its own.  An `effect for` statement installs its handler
around the rest of the block.
-/

namespace SignalLang

namespace Eval

variable (p : Program) (ev : Evaluator)

/-- Why a name cannot be set. -/
def assignProblem (name : String) : AssignError → EvalProblem
  | .immutable => .immutableBinding name
  | .undefined => .unboundName name

/-- Changes a variable. -/
def set (target : Name) (v : Value) (span : Span) : Eval Unit := fun s =>
  match s.store.owner s.env.current target with
  | .ok found => (.value (), { s with store := s.store.define found target v true })
  | .error e =>
    (.interrupt (.fault (.newAt (assignProblem (p.interner.text target) e) span)), s)

/-- The handler that an `effect for` statement installs. -/
def handlerFrame (pattern : Code.Pattern) (body : ExprId) : Eval HandlerFrame :=
  read fun s => ⟨pattern, body, s.env.current, s.loopTarget, s.returnTarget⟩

/-- Runs statements in order.  The value is that of the last one: that of an expression, else
`Action`. -/
def stmts (last : Value) : List Code.Stmt → Eval Value
  | [] => pure last
  | s :: rest =>
    match s.kind with
    | .expr e => do
      let v ← ev e
      stmts v rest
    | .decl d => do
      bindLet p ev d
      stmts .action rest
    | .set target value => do
      let v ← ev value
      set p target v s.span
      stmts .action rest
    | .effect pattern body => do
      let f ← handlerFrame pattern body
      withHandler f (stmts .action rest)

/-- The declarations among some statements. -/
def declsOf (body : List Code.Stmt) : List DeclId :=
  body.filterMap fun s =>
    match s.kind with
    | .decl d => some d
    | _ => none

/-- Runs a block in a scope of its own, after binding its hoisted declarations. -/
def block (body : List Code.Stmt) : Eval Value :=
  inScope do
    bindAllHoisted p (declsOf body)
    stmts p ev .action body

/-- The answer that a condition has to give. -/
def condition (v : Value) : Eval Bool :=
  match v.bool? with
  | some b => pure b
  | none => fault (.typeMismatch "BinaryAnswer" (v.typeName p.types p.interner))

/-- Runs the first arm that applies; the value is `Action` if none does. -/
def arms (subject : Option Value) : List Code.Arm → Eval Value
  | [] => pure .action
  | a :: rest =>
    match a.kind with
    | .when c body => do
      let v ← ev c
      if ← condition p v then ev body else arms subject rest
    | .is pattern body =>
      match subject with
      | none => faultAt (.other "`is` arm in a branch without subject") a.span
      | some v =>
        match v.matchPattern? pattern p.types with
        | some bs => withBindings bs (ev body)
        | none => arms subject rest
    | .otherwise body => ev body

/-- Evaluates an expression that may be absent; an absent one is `Action`. -/
def optional : Option ExprId → Eval Value
  | none => pure .action
  | some e => ev e

/-- Runs a branch. -/
def branch (subject : Option ExprId) (options : List Code.Arm) : Eval Value :=
  match subject with
  | none => arms p ev none options
  | some e => do
    let v ← ev e
    arms p ev (some v) options

/-- Runs the rounds of a loop until one breaks out of it.  `rounds` counts those made since the host
last gave an answer, at `ticks`; the limit is on this count. -/
def rounds (frame : FrameId) (body : ExprId) : Nat → Nat → Nat → Eval Value
  | 0, _, _ => outOfFuel
  | fuel + 1, done, ticks => fun s =>
    let done := if s.hostTicks = ticks then done else 0
    let ticks := s.hostTicks
    if p.limits.loopRounds.any (· ≤ done) then
      (.interrupt (.fault (.new (.runawayLoop done))), s)
    else
      match ev body s with
      | (.value _, s) => rounds frame body fuel (done + 1) ticks s
      | (.interrupt (.breakTo target v), s) =>
        (if target = frame then .value v else .interrupt (.breakTo target v), s)
      | r => r

/-- Runs a loop.  While it runs, it is the innermost one. -/
def loop (fuel : Nat) (body : ExprId) : Eval Value := do
  let frame ← freshFrame
  fun s =>
    let saved := s.loopTarget
    match rounds p ev frame body fuel 0 s.hostTicks { s with loopTarget := some frame } with
    | (r, s) => (r, { s with loopTarget := saved })

end Eval

end SignalLang
