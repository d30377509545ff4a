import SignalLang.Proofs.Balance
import SignalLang.Proofs.Lexical
import Mathlib.Data.List.Infix

/-!
# Moments of a run

Evaluation is a recursive function, so a run has no states in between to speak about.  This file
names them: a `Moment` is a part of an evaluation that is about to begin, with the machine there.

* `Task` : what can be a part: an expression, the rest of a block, of a branch or of the `let`s of a
  module, a call, a cause.  `Moment.result` is the evaluator applied to it.
* `Enters p m k m'` : the evaluation of `m` comes to evaluate `m'`, with one constructor for each
  place of the evaluator.  The label `k` says whether an activity begins there: a round of a loop,
  the body of a closure, the rest of a block under a handler, or the body of a handler.
* `Reaches p root π m` : the evaluation of `root` comes to `m`, and `π` lists the activities that
  are in progress there, the innermost first.  That no moment is missing is
  `Moment.result_eq_of_covers`.

An activity remembers the moment at which it began, and so its result.  What one step does to the
machine is stated here once: `Enters.keepsReach` for steps without a label, and one lemma for each
kind of activity.  The runs to speak about are those of an interpreter in use:

* `Interpreter.Session i` : `i` was made anew and then used any number of times.
* `Interpreter.Starts i root` : `root` is the moment at which such a use begins to evaluate.
-/

namespace SignalLang

/-! ### Tasks and moments -/

/-- A part of an evaluation. -/
inductive Task where
  | expr (id : ExprId)
  /-- The rest of the statements of a block. -/
  | stmts (block : ExprId) (last : Value) (rest : List Code.Stmt)
  /-- The rest of the arms of a branch. -/
  | arms (branch : ExprId) (subject : Option Value) (rest : List Code.Arm)
  /-- The rest of the `let`s of a module. -/
  | lets (rest : List DeclId)
  | call (callee : Value) (args : List Value) (span : Span)
  | cause (signal : Value)

/-- A part of an evaluation that is about to begin, and the machine there. -/
structure Moment where
  fuel : Nat
  task : Task
  machine : Machine

/-- What a task does, given how expressions are evaluated. -/
def Task.eval (p : Program) (ev : Evaluator) : Task → Eval Value
  | .expr id => ev id
  | .stmts _ last rest => Eval.stmts p ev last rest
  | .arms _ subject rest => Eval.arms p ev subject rest
  | .lets ds => do
    Eval.bindAllLets p ev ds
    return .action
  | .call callee args span => Eval.callValue p ev callee args span
  | .cause signal => Eval.cause p ev signal

/-- How the evaluation that begins at a moment ends. -/
def Moment.result (p : Program) (m : Moment) : Outcome Value × Machine :=
  m.task.eval p (Eval.expr p m.fuel) m.machine

/-! ### Activities -/

/-- The value that a `break` or `return` carries. -/
def Interrupt.value : Interrupt → Value
  | .fault _ => .action
  | .breakTo _ v => v
  | .returnTo _ v => v

/-- What can be in progress around a moment. -/
inductive ActivityKind where
  /-- A round of the loop `id`. -/
  | loop (id body : ExprId)
  /-- The body of a closure. -/
  | call (closure : Closure)
  /-- The rest of `block` behind a statement that installed a handler. -/
  | install (block : ExprId) (handler : HandlerFrame)
  /-- The body of a handler, with `outer` handlers around it. -/
  | handle (handler : HandlerFrame) (outer : Nat)

/-- An activity, and the moment at which it began: that of the loop expression, of the call, of the
statements from `effect for` on, or of the cause. -/
structure Activity where
  kind : ActivityKind
  start : Moment

namespace Activity

/-- How the activity ends. -/
def result (p : Program) (a : Activity) : Outcome Value × Machine := a.start.result p

/-- The frame of the activation that a loop or a call creates. -/
def frame (a : Activity) : FrameId := .ofSerial a.start.machine.activations

/-- Whether an unwind ends at an activity: a `break` to the frame of a loop, or a `return` to that
of a call. -/
def catches (a : Activity) (i : Interrupt) : Bool :=
  match i, a.kind with
  | .breakTo target _, .loop _ _ => target == a.frame
  | .returnTo target _, .call _ => target == a.frame
  | _, _ => false

/-- What becomes of an activity when an unwind comes out of it. -/
def after (a : Activity) (i : Interrupt) : Outcome Value :=
  if a.catches i then .value i.value else .interrupt i

end Activity

/-! ### The machine of a part -/

namespace Machine

/-- The machine in a new scope. -/
def inScope (s : Machine) : Machine :=
  { s with env := (s.env.push s.store).1, store := (s.env.push s.store).2 }

/-- The machine in a body that captured a scope, with targets of its own. -/
def inBody (s : Machine) (captured : ScopeId) (loopTarget returnTarget : Option FrameId) :
    Machine :=
  { s with env := (s.env.childOf captured s.store).1, store := (s.env.childOf captured s.store).2,
           loopTarget, returnTarget }

/-- The machine in a new activation of a loop. -/
def inLoop (s : Machine) : Machine :=
  { s with loopTarget := some (.ofSerial s.activations), activations := s.activations + 1 }

/-- The machine in a new activation of a closure, where `calls` are active. -/
def inCall (s : Machine) (c : Closure) (calls : CallStack) : Machine :=
  { s with calls, activations := s.activations + 1 }.inBody c.captured none
    (some (.ofSerial s.activations))

/-- The handler that an `effect for` statement installs. -/
def handlerFrame (s : Machine) (pattern : Code.Pattern) (body : ExprId) : HandlerFrame :=
  ⟨pattern, body, s.env.current, s.loopTarget, s.returnTarget⟩

/-- The machine with one more handler. -/
def install (s : Machine) (f : HandlerFrame) : Machine :=
  { s with handlers := s.handlers.push f }

/-- The machine in the body of a handler, with only the outermost `outer` handlers left. -/
def inHandler (s : Machine) (f : HandlerFrame) (outer : Nat) : Machine :=
  { s with handlers := (s.handlers.splitOff outer).2 }.inBody f.scope f.loopTarget f.returnTarget

end Machine

/-- Whether a loop goes on to another round, where `done` rounds were made since the host gave its
`ticks`-th answer. -/
def Eval.goesOn (p : Program) (s : Machine) (done ticks : Nat) : Prop :=
  ¬ p.limits.loopRounds.any (· ≤ if s.hostTicks = ticks then done else 0)

instance (p : Program) (s : Machine) (done ticks : Nat) : Decidable (Eval.goesOn p s done ticks) :=
  inferInstanceAs (Decidable (¬ _))

/-- `RoundBegins p ev body fuel done ticks s t` : with the machine at `s` before some round, the
loop comes to begin a round at `t`. -/
inductive RoundBegins (p : Program) (ev : Evaluator) (body : ExprId) :
    Nat → Nat → Nat → Machine → Machine → Prop
  | this {fuel done ticks s} (h : Eval.goesOn p s done ticks) :
      RoundBegins p ev body (fuel + 1) done ticks s s
  | later {fuel done ticks s v s' t} (h : Eval.goesOn p s done ticks)
      (hv : ev body s = (.value v, s'))
      (ht : RoundBegins p ev body fuel ((if s.hostTicks = ticks then done else 0) + 1)
        s.hostTicks s' t) :
      RoundBegins p ev body (fuel + 1) done ticks s t

/-! ### Steps into an evaluation -/

/-- The evaluation of one moment comes to evaluate another one. -/
inductive Enters (p : Program) : Moment → Option ActivityKind → Moment → Prop
  /-- An operand, behind those that gave values. -/
  | operand {n id s pre e post vs s'}
      (hops : (p.arena.expr id).kind.operands = pre ++ e :: post)
      (hpre : Eval.arguments (Eval.expr p n) pre s = (.value vs, s')) :
      Enters p ⟨n + 1, .expr id, s⟩ none ⟨n, .expr e, s'⟩
  | block {n id s body s'} (hk : (p.arena.expr id).kind = .block body)
      (hb : Eval.bindAllHoisted p (Eval.declsOf body) s.inScope = (.value (), s')) :
      Enters p ⟨n + 1, .expr id, s⟩ none ⟨n, .stmts id .action body, s'⟩
  | branch {n id s subject options vs s'} (hk : (p.arena.expr id).kind = .branch subject options)
      (hv : Eval.arguments (Eval.expr p n) subject.toList s = (.value vs, s')) :
      Enters p ⟨n + 1, .expr id, s⟩ none ⟨n, .arms id vs.head? options, s'⟩
  /-- Some round of a loop. -/
  | loop {n id s body s'} (hk : (p.arena.expr id).kind = .loop body)
      (hr : RoundBegins p (Eval.expr p n) body n 0 s.hostTicks s.inLoop s') :
      Enters p ⟨n + 1, .expr id, s⟩ (some (.loop id body)) ⟨n, .expr body, s'⟩
  | cause {n id s payload v s'} (hk : (p.arena.expr id).kind = .cause payload)
      (hv : Eval.expr p n payload s = (.value v, s')) :
      Enters p ⟨n + 1, .expr id, s⟩ none ⟨n, .cause v, s'⟩
  | call {n id s callee args f vs s'} (hk : (p.arena.expr id).kind = .call callee args)
      (hv : Eval.arguments (Eval.expr p n) (callee :: args) s = (.value (f :: vs), s')) :
      Enters p ⟨n + 1, .expr id, s⟩ none ⟨n, .call f vs (p.arena.expr id).span, s'⟩
  | pipe {n id s subject callee args v f vs s'}
      (hk : (p.arena.expr id).kind = .pipe subject callee args)
      (hv : Eval.arguments (Eval.expr p n) (subject :: callee :: args) s =
        (.value (v :: f :: vs), s')) :
      Enters p ⟨n + 1, .expr id, s⟩ none ⟨n, .call f (v :: vs) (p.arena.expr id).span, s'⟩
  | stmt {n b last st rest s e} (he : st.operand? p.arena = some e) :
      Enters p ⟨n, .stmts b last (st :: rest), s⟩ none ⟨n, .expr e, s⟩
  /-- The statements behind one, with the value that it leaves.  (Not those behind `effect for`.) -/
  | nextStmt {n b last st rest s v s'} (hst : ∀ pattern body, st.kind ≠ .effect pattern body)
      (hv : Eval.stmts p (Eval.expr p n) last [st] s = (.value v, s')) :
      Enters p ⟨n, .stmts b last (st :: rest), s⟩ none ⟨n, .stmts b v rest, s'⟩
  /-- The statements behind an `effect for`, under its handler. -/
  | install {n b last st rest s pattern body} (hst : st.kind = .effect pattern body) :
      Enters p ⟨n, .stmts b last (st :: rest), s⟩
        (some (.install b (s.handlerFrame pattern body)))
        ⟨n, .stmts b .action rest, s.install (s.handlerFrame pattern body)⟩
  | condition {n b subject a rest s c body} (ha : a.kind = .when c body) :
      Enters p ⟨n, .arms b subject (a :: rest), s⟩ none ⟨n, .expr c, s⟩
  | whenTrue {n b subject a rest s c body v s'} (ha : a.kind = .when c body)
      (hv : Eval.expr p n c s = (.value v, s')) (hb : v.bool? = some true) :
      Enters p ⟨n, .arms b subject (a :: rest), s⟩ none ⟨n, .expr body, s'⟩
  | whenFalse {n b subject a rest s c body v s'} (ha : a.kind = .when c body)
      (hv : Eval.expr p n c s = (.value v, s')) (hb : v.bool? = some false) :
      Enters p ⟨n, .arms b subject (a :: rest), s⟩ none ⟨n, .arms b subject rest, s'⟩
  | isMatch {n b v a rest s pattern body bs s'} (ha : a.kind = .is pattern body)
      (hm : v.matchPattern? pattern p.types = some bs)
      (hd : Eval.defineAll bs s.inScope = (.value (), s')) :
      Enters p ⟨n, .arms b (some v) (a :: rest), s⟩ none ⟨n, .expr body, s'⟩
  | isMiss {n b v a rest s pattern body} (ha : a.kind = .is pattern body)
      (hm : v.matchPattern? pattern p.types = none) :
      Enters p ⟨n, .arms b (some v) (a :: rest), s⟩ none ⟨n, .arms b (some v) rest, s⟩
  | otherwise {n b subject a rest s body} (ha : a.kind = .otherwise body) :
      Enters p ⟨n, .arms b subject (a :: rest), s⟩ none ⟨n, .expr body, s⟩
  | letValue {n d ds s name isVariable typeRef value}
      (hd : (p.arena.decl d).kind = .binding name isVariable typeRef value) :
      Enters p ⟨n, .lets (d :: ds), s⟩ none ⟨n, .expr value, s⟩
  | nextLet {n d ds s s'} (hd : Eval.bindLet p (Eval.expr p n) d s = (.value (), s')) :
      Enters p ⟨n, .lets (d :: ds), s⟩ none ⟨n, .lets ds, s'⟩
  /-- The body of the closure that is called, with its parameters bound. -/
  | body {n c args span s calls s'} (hlen : args.length = c.params.length)
      (hargs : Eval.checkArguments p c.params args s = (.value (), s))
      (hcalls : s.calls.push p.limits.callDepth ⟨Eval.callName p c, some span⟩ = .ok calls)
      (hd : Eval.defineAll ((c.params.map fun q => q.name).zip args) (s.inCall c calls) =
        (.value (), s')) :
      Enters p ⟨n, .call (.closure c) args span, s⟩ (some (.call c)) ⟨n, .expr c.body, s'⟩
  /-- The body of the handler that a cause finds, with its capture bound. -/
  | handler {n identity type fields s outer f bs s'}
      (hm : s.handlers.findMatch? p.types (.signal identity type fields) = some (outer, f, bs))
      (hd : Eval.defineAll bs (s.inHandler f outer) = (.value (), s')) :
      Enters p ⟨n, .cause (.signal identity type fields), s⟩ (some (.handle f outer))
        ⟨n, .expr f.body, s'⟩

/-- The evaluation of `root` comes to a moment, inside some activities, the innermost first. -/
inductive Reaches (p : Program) (root : Moment) : List Activity → Moment → Prop
  | root : Reaches p root [] root
  | step {π m m'} (h : Reaches p root π m) (hs : Enters p m none m') : Reaches p root π m'
  | enter {π m k m'} (h : Reaches p root π m) (hs : Enters p m (some k) m') :
      Reaches p root (⟨k, m⟩ :: π) m'

/-! ### The machine at the next moment -/

/-- The machine `s'` has the handlers and targets of `s`.  Activations may have come and gone. -/
structure Machine.KeepsReach (s s' : Machine) : Prop where
  handlers : s'.handlers = s.handlers
  loopTarget : s'.loopTarget = s.loopTarget
  returnTarget : s'.returnTarget = s.returnTarget
  activations : s.activations ≤ s'.activations

theorem Machine.Continues.keepsReach {s s' : Machine} (h : s.Continues s') : s.KeepsReach s' :=
  ⟨h.handlers, h.loopTarget, h.returnTarget, h.activations⟩

theorem Machine.keepsReach_refl (s : Machine) : s.KeepsReach s := ⟨rfl, rfl, rfl, Nat.le_refl _⟩

theorem Eval.Balanced.keepsReach {x : Eval α} (hx : Eval.Balanced x) {s t : Machine} {r : Outcome α}
    (h : x s = (r, t)) : s.KeepsReach t := by
  have := (hx s).keepsReach
  rwa [h] at this

/-- A step inside a new scope sees the handlers and targets from outside. -/
theorem Eval.Balanced.keepsReach_inScope {x : Eval α} (hx : Eval.Balanced x) {s t : Machine}
    {r : Outcome α} (h : x s.inScope = (r, t)) : s.KeepsReach t := by
  have h := hx.keepsReach h
  exact ⟨h.handlers, h.loopTarget, h.returnTarget, h.activations⟩

variable {p : Program}

theorem RoundBegins.keepsReach {ev : Evaluator} (hev : ∀ id, Eval.Balanced (ev id)) {body : ExprId}
    {fuel done ticks : Nat} {s t : Machine} (h : RoundBegins p ev body fuel done ticks s t) :
    s.KeepsReach t := by
  induction h with
  | this _ => exact Machine.keepsReach_refl _
  -- the rounds before this one are balanced
  | later _ hv _ ih =>
    have h := (hev body).keepsReach hv
    exact ⟨ih.handlers.trans h.handlers, ih.loopTarget.trans h.loopTarget,
      ih.returnTarget.trans h.returnTarget, Nat.le_trans h.activations ih.activations⟩

namespace Enters

/-- Without a new activity, handlers and targets stay. -/
theorem keepsReach {m m' : Moment} (h : Enters p m none m') : m.machine.KeepsReach m'.machine := by
  have hev := fun n => Eval.balanced_expr (p := p) n
  cases h with
  | operand _ hpre => exact (Eval.balanced_arguments (hev _) _).keepsReach hpre
  | block _ hb => exact (Eval.balanced_bindAllHoisted _).keepsReach_inScope hb
  | branch _ hv => exact (Eval.balanced_arguments (hev _) _).keepsReach hv
  | cause _ hv => exact (hev _ _).keepsReach hv
  | call _ hv => exact (Eval.balanced_arguments (hev _) _).keepsReach hv
  | pipe _ hv => exact (Eval.balanced_arguments (hev _) _).keepsReach hv
  | nextStmt _ hv => exact (Eval.balanced_stmts (hev _) _ _).keepsReach hv
  | whenTrue _ hv _ => exact (hev _ _).keepsReach hv
  | whenFalse _ hv _ => exact (hev _ _).keepsReach hv
  | isMatch _ _ hd => exact (Eval.balanced_defineAll _).keepsReach_inScope hd
  | nextLet hd => exact (Eval.balanced_bindLet (hev _) _).keepsReach hd
  | stmt _ | condition _ | isMiss _ _ | otherwise _ | letValue _ =>
    exact Machine.keepsReach_refl _

/-- A round of a loop: its frame is the target of `break`. -/
theorem loop_keepsReach {m m' : Moment} {id body : ExprId}
    (h : Enters p m (some (.loop id body)) m') : m.machine.inLoop.KeepsReach m'.machine := by
  cases h with
  | loop _ hr => exact hr.keepsReach (Eval.balanced_expr _)

/-- The rest of a block under a handler that was installed there. -/
theorem install_machine {m m' : Moment} {b : ExprId} {f : HandlerFrame}
    (h : Enters p m (some (.install b f)) m') :
    ∃ pattern body, f = m.machine.handlerFrame pattern body ∧ m'.machine = m.machine.install f := by
  cases h with
  | install _ => exact ⟨_, _, rfl, rfl⟩

/-- The body of a closure: no loop around the call is a target, and its own frame is that of
`return`. -/
theorem call_keepsReach {m m' : Moment} {c : Closure} (h : Enters p m (some (.call c)) m') :
    ∃ calls, (m.machine.inCall c calls).KeepsReach m'.machine := by
  cases h with
  | body _ _ _ hd => exact ⟨_, (Eval.balanced_defineAll _).keepsReach hd⟩

/-- The body of the handler that a cause finds. -/
theorem handle_keepsReach {m m' : Moment} {f : HandlerFrame} {outer : Nat}
    (h : Enters p m (some (.handle f outer)) m') :
    ∃ v bs, m.task = .cause v ∧ m.machine.handlers.findMatch? p.types v = some (outer, f, bs) ∧
      (m.machine.inHandler f outer).KeepsReach m'.machine := by
  cases h with
  | handler hm hd => exact ⟨_, _, rfl, hm, (Eval.balanced_defineAll _).keepsReach hd⟩

end Enters

/-! ### Paths -/

namespace Reaches

variable {root m : Moment} {π ρ : List Activity} {a : Activity}

/-- The activities around an activity are in progress where it begins. -/
theorem of_append (h : Reaches p root (ρ ++ a :: π) m) :
    Reaches p root π a.start ∧ ∃ m', Enters p a.start (some a.kind) m' := by
  generalize hσ : ρ ++ a :: π = σ at h
  induction h generalizing ρ with
  | root => simp at hσ
  | step _ _ ih => exact ih hσ
  | @enter σ' m k m' h hs ih =>
    cases ρ with
    | nil => cases hσ; exact ⟨h, _, hs⟩
    | cons b ρ => exact ih (List.cons.inj hσ).2

theorem of_cons (h : Reaches p root (a :: π) m) :
    Reaches p root π a.start ∧ ∃ m', Enters p a.start (some a.kind) m' :=
  of_append (show Reaches p root ([] ++ a :: π) m from h)

end Reaches

/-! ### Interpreters in use -/

namespace Interpreter

/-- An interpreter in use: modules were loaded, functions called and expressions evaluated, with
whatever outcome. -/
inductive Session : Interpreter → Prop
  | new (arena : Arena) (interner : Interner) (types : TypeTable) (settings : Settings)
      (store : Store) (functions : HostFunctions) :
      Session (.new arena interner types settings store functions)
  | load {i} (h : Session i) (m : Module) (fuel : Nat) : Session (i.load m fuel).2
  | call {i} (h : Session i) (name : String) (args : List Value) (fuel : Nat) :
      Session (i.call name args fuel).2
  | eval {i} (h : Session i) (id : ExprId) (fuel : Nat) : Session (i.eval id fuel).2

/-- The moment at which a use of an interpreter begins to evaluate. -/
inductive Starts (i : Interpreter) : Moment → Prop
  /-- The hoisted declarations of a module are bound, its `let`s come next. -/
  | load {m : Module} {fuel : Nat} {s : Machine}
      (h : Eval.bindAllHoisted i.program m.decls i.machine = (.value (), s)) :
      Starts i ⟨fuel, .lets m.decls, s⟩
  | call {name : String} {args : List Value} {fuel : Nat} {callee : Value}
      (h : i.lookup? name = some callee) : Starts i ⟨fuel, .call callee args .dummy, i.machine⟩
  | eval {id : ExprId} {fuel : Nat} : Starts i ⟨fuel, .expr id, i.machine⟩

theorem Session.atRest {i : Interpreter} (h : i.Session) : i.machine.AtRest := by
  induction h with
  | new arena interner types settings store => exact ⟨rfl, rfl, rfl⟩
  | load _ m fuel ih => exact (load_continues _ m fuel).atRest ih
  | call _ name args fuel ih => exact (call_continues _ name args fuel).atRest ih
  | eval _ id fuel ih => exact (Eval.balanced_expr fuel id _).atRest ih

theorem Starts.atRest {i : Interpreter} {root : Moment} (h : i.Starts root) (hi : i.Session) :
    root.machine.AtRest := by
  cases h with
  | @load m _ _ h =>
    have hc := Eval.balanced_bindAllHoisted (p := i.program) m.decls i.machine
    rw [h] at hc
    exact hc.atRest hi.atRest
  | call _ => exact hi.atRest
  | eval => exact hi.atRest

end Interpreter

end SignalLang
