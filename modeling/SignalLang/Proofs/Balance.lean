import SignalLang.Run

/-!
# Balanced evaluation

Evaluation installs handlers, sets handlers aside, enters calls and scopes, swaps environments and
changes the targets of `break` and `return`.  Whatever ends a step (a value, a `break` or `return`
on its way out, an error, or the end of the fuel), all of this is undone behind it.

* `Machine.Continues` : the machine after a step agrees with the one before it in the handlers, the
  active calls, the environment and the targets; activations are only added.
* `Eval.Balanced` : a step after which the machine continues where it stopped.
* `Eval.expr_balanced` : the evaluation of every expression is balanced, by induction on the fuel;
  every construct keeps the balance of its parts.
* `Interpreter.eval_load_call_balanced` : **evaluating an expression, loading a module and calling a
  function are balanced**, whatever the outcome.
-/

namespace SignalLang

/-- The machine `s'` continues where `s` stopped: handlers, calls, environment and targets are the
same.  New activations may have come and gone. -/
structure Machine.Continues (s s' : Machine) : Prop where
  handlers : s'.handlers = s.handlers
  calls : s'.calls = s.calls
  env : s'.env = s.env
  loopTarget : s'.loopTarget = s.loopTarget
  returnTarget : s'.returnTarget = s.returnTarget
  activations : s.activations ≤ s'.activations

namespace Machine.Continues

theorem refl (s : Machine) : s.Continues s := ⟨rfl, rfl, rfl, rfl, rfl, Nat.le_refl _⟩

theorem trans {s₁ s₂ s₃ : Machine} (h : s₁.Continues s₂) (h' : s₂.Continues s₃) :
    s₁.Continues s₃ :=
  ⟨h'.handlers.trans h.handlers, h'.calls.trans h.calls, h'.env.trans h.env,
    h'.loopTarget.trans h.loopTarget, h'.returnTarget.trans h.returnTarget,
    Nat.le_trans h.activations h'.activations⟩

end Machine.Continues

/-- No handler is installed and no loop or function is active. -/
structure Machine.AtRest (s : Machine) : Prop where
  handlers : s.handlers = .empty
  loopTarget : s.loopTarget = none
  returnTarget : s.returnTarget = none

theorem Machine.Continues.atRest {s s' : Machine} (h : s.Continues s') (hs : s.AtRest) :
    s'.AtRest :=
  ⟨h.handlers.trans hs.handlers, h.loopTarget.trans hs.loopTarget,
    h.returnTarget.trans hs.returnTarget⟩

namespace Eval

/-- A step after which the machine continues where it stopped, however the step ends. -/
def Balanced (x : Eval α) : Prop := ∀ s : Machine, s.Continues (x s).2

variable {p : Program} {ev : Evaluator}

/-! ### Steps in general -/

theorem balanced_pure (a : α) : Balanced (pure a : Eval α) := fun s => .refl s

theorem balanced_interrupt (i : Interrupt) : Balanced (interrupt i : Eval α) := fun s => .refl s

theorem balanced_fault (e : EvalProblem) : Balanced (fault e : Eval α) := balanced_interrupt _

theorem balanced_faultAt (e : EvalProblem) (span : Span) : Balanced (faultAt e span : Eval α) :=
  balanced_interrupt _

theorem balanced_outOfFuel : Balanced (outOfFuel : Eval α) := fun s => .refl s

theorem balanced_read (f : Machine → α) : Balanced (read f) := fun s => .refl s

theorem balanced_ofExcept (r : Except EvalError α) : Balanced (ofExcept r) := by
  cases r with
  | ok a => exact balanced_pure a
  | error e => exact balanced_interrupt _

theorem Balanced.bind {x : Eval α} {f : α → Eval β} (hx : Balanced x)
    (hf : ∀ a, Balanced (f a)) : Balanced (x >>= f) := by
  intro s
  have h := hx s
  simp only [Bind.bind, Eval.bind]
  cases hr : x s with
  | mk r s' =>
    rw [hr] at h
    cases r with
    | value a => exact h.trans (hf a s')
    | interrupt i => exact h
    | outOfFuel => exact h

theorem Balanced.located {x : Eval α} (hx : Balanced x) (span : Span) :
    Balanced (located span x) := by
  intro s
  have h := hx s
  simp only [Eval.located]
  cases hr : x s with
  | mk r s' =>
    rw [hr] at h
    cases r <;> exact h

/-- A step that changes nothing but the store, the log and the count of answers. -/
theorem balanced_of_frame {x : Eval α}
    (h : ∀ s, ∃ store hostTicks log, (x s).2 = { s with store, hostTicks, log }) :
    Balanced x := by
  intro s
  obtain ⟨store, hostTicks, log, hs⟩ := h s
  rw [hs]
  exact ⟨rfl, rfl, rfl, rfl, rfl, Nat.le_refl _⟩

/-! ### Scopes and contexts -/

theorem balanced_define (n : Name) (v : Value) (isVariable : Bool) :
    Balanced (define n v isVariable) :=
  balanced_of_frame fun _ => ⟨_, _, _, rfl⟩

theorem balanced_defineAll (bs : Bindings) : Balanced (defineAll bs) := by
  induction bs with
  | nil => exact balanced_pure ()
  | cons b bs ih => exact (balanced_define b.1 b.2 false).bind fun _ => ih

theorem balanced_childEnvironment (captured : ScopeId) : Balanced (childEnvironment captured) :=
  balanced_of_frame fun _ => ⟨_, _, _, rfl⟩

theorem balanced_freshFrame : Balanced freshFrame :=
  fun _ => ⟨rfl, rfl, rfl, rfl, rfl, Nat.le_succ _⟩

/-- The scope that was entered is left again: the step in it does not leave scopes behind. -/
theorem Balanced.inScope {x : Eval α} (hx : Balanced x) : Balanced (inScope x) := by
  intro s
  have h := hx { s with env := (s.env.push s.store).1, store := (s.env.push s.store).2 }
  exact ⟨h.handlers, h.calls, by simp [Eval.inScope, h.env, Environment.pop_push],
    h.loopTarget, h.returnTarget, h.activations⟩

theorem Balanced.withBindings {x : Eval α} (hx : Balanced x) (bs : Bindings) :
    Balanced (withBindings bs x) :=
  ((balanced_defineAll bs).bind fun _ => hx).inScope

theorem Balanced.inContext {x : Eval α} (hx : Balanced x) (env : Environment)
    (loopTarget returnTarget : Option FrameId) :
    Balanced (inContext env loopTarget returnTarget x) := by
  intro s
  have h := hx { s with env, loopTarget, returnTarget }
  exact ⟨h.handlers, h.calls, rfl, rfl, rfl, h.activations⟩

/-! ### Calls -/

theorem balanced_checkType (v : Value) (expected : Ty) : Balanced (checkType p v expected) := by
  unfold checkType
  split
  · exact balanced_pure ()
  · exact balanced_fault _

theorem balanced_checkArguments (params : List Code.Param) (args : List Value) :
    Balanced (checkArguments p params args) := by
  induction params generalizing args with
  | nil => exact balanced_pure ()
  | cons q params ih =>
    cases args with
    | nil => exact balanced_pure ()
    | cons v args =>
      simp only [checkArguments]
      cases q.typeRef.bind p.types.resolved? with
      | none => exact (balanced_pure ()).bind fun _ => ih args
      | some expected => exact (balanced_checkType v expected).bind fun _ => ih args

/-- Behind a call, the innermost active call is gone and all else is as it was. -/
theorem Balanced.activation {x : Eval Value} (hx : Balanced x) (frame : FrameId) (s : Machine) :
    Machine.Continues { s with calls := s.calls.pop } (activation frame x s).2 := by
  have h := hx s
  simp only [Eval.activation]
  split <;> rename_i hr <;> rw [hr] at h <;>
    exact ⟨h.handlers, by rw [h.calls], h.env, h.loopTarget, h.returnTarget, h.activations⟩

theorem balanced_callClosure (hev : ∀ id, Balanced (ev id)) (c : Closure) (args : List Value)
    (span : Span) : Balanced (callClosure p ev c args span) := by
  unfold callClosure
  split
  · exact balanced_fault _
  · refine (balanced_checkArguments _ _).bind fun _ s => ?_
    simp only [Bind.bind, Eval.bind, pushCall]
    cases hpush : s.calls.push p.limits.callDepth ⟨callName p c, some span⟩ with
    | error e => exact .refl s
    | ok calls =>
      have hbody := (balanced_defineAll ((c.params.map fun q => q.name).zip args)).bind
        fun _ => hev c.body
      -- the call that is pushed here is the one that the activation pops
      have h := (hbody.inContext (s.env.childOf c.captured s.store).1 none
        (some (.ofSerial s.activations))).activation (.ofSerial s.activations)
        { s with calls, activations := s.activations + 1,
                 store := (s.env.childOf c.captured s.store).2 }
      exact ⟨h.handlers, h.calls.trans (CallStack.pop_push hpush), h.env, h.loopTarget,
        h.returnTarget, Nat.le_trans (Nat.le_succ _) h.activations⟩

theorem balanced_callNative (f : NativeFunction) (args : List Value) :
    Balanced (callNative p f args) :=
  balanced_ofExcept _

theorem balanced_fieldValues (fields : List FieldType) (args : List Value) :
    Balanced (fieldValues p fields args) := by
  induction fields generalizing args with
  | nil => exact balanced_pure []
  | cons f fields ih =>
    cases args with
    | nil => exact balanced_pure []
    | cons v args =>
      exact (balanced_checkType v f.type).bind fun _ => (ih args).bind fun _ => balanced_pure _

theorem balanced_construct (type : TypeId) (args : List Value) :
    Balanced (construct p type args) := by
  simp only [construct]
  split
  · exact balanced_fault _
  · exact (balanced_fieldValues _ _).bind fun _ => balanced_of_frame fun _ => ⟨_, _, _, rfl⟩

theorem balanced_callValue (hev : ∀ id, Balanced (ev id)) (callee : Value) (args : List Value)
    (span : Span) : Balanced (callValue p ev callee args span) := by
  unfold callValue
  split
  · exact balanced_callClosure hev _ _ _
  · exact balanced_callNative _ _
  · exact balanced_construct _ _
  · split
    · exact balanced_pure _
    · exact balanced_fault _

/-! ### Causes -/

theorem Balanced.withHandler {x : Eval α} (hx : Balanced x) (f : HandlerFrame) :
    Balanced (withHandler f x) := by
  intro s
  have h := hx { s with handlers := s.handlers.push f }
  exact ⟨by simp [Eval.withHandler, h.handlers, HandlerStack.pop_push], h.calls, h.env,
    h.loopTarget, h.returnTarget, h.activations⟩

/-- What was set aside fits on what the step has left. -/
theorem Balanced.withOuterHandlers {x : Eval α} (hx : Balanced x) (outer : Nat) :
    Balanced (withOuterHandlers outer x) := by
  intro s
  have h := hx { s with handlers := (s.handlers.splitOff outer).2 }
  exact ⟨by simp [Eval.withOuterHandlers, h.handlers, HandlerStack.restore_splitOff], h.calls,
    h.env, h.loopTarget, h.returnTarget, h.activations⟩

theorem balanced_runHandler (hev : ∀ id, Balanced (ev id)) (outer : Nat) (f : HandlerFrame)
    (bs : Bindings) : Balanced (runHandler ev outer f bs) :=
  ((balanced_childEnvironment f.scope).bind fun env =>
    ((balanced_defineAll bs).bind fun _ => hev f.body).inContext env _ _).withOuterHandlers outer

theorem balanced_resume (type : TypeId) (v : Value) : Balanced (resume p type v) := by
  simp only [resume]
  split
  · exact balanced_pure _
  · exact (balanced_checkType v _).bind fun _ => balanced_pure v

theorem balanced_tick : Balanced tick := balanced_of_frame fun _ => ⟨_, _, _, rfl⟩

theorem balanced_unhandled (type : TypeId) (signal : Value) :
    Balanced (unhandled p type signal) := by
  simp only [unhandled]
  cases p.host with
  | none => exact balanced_fault _
  | some h =>
    refine Balanced.bind (balanced_of_frame fun _ => ⟨_, _, _, rfl⟩) fun answer => ?_
    cases answer with
    | some v => exact balanced_tick.bind fun _ => balanced_resume type v
    | none =>
      simp only
      split
      · exact Balanced.bind (balanced_of_frame fun _ => ⟨_, _, _, rfl⟩) fun _ =>
          balanced_tick.bind fun _ => balanced_pure _
      · exact balanced_fault _

theorem balanced_cause (hev : ∀ id, Balanced (ev id)) (v : Value) :
    Balanced (cause p ev v) := by
  unfold cause
  split
  · refine (balanced_read _).bind fun found => ?_
    cases found with
    | some m =>
      exact (balanced_runHandler hev m.1 m.2.1 m.2.2).bind fun _ => balanced_resume _ _
    | none => exact balanced_unhandled _ _
  · exact balanced_fault _

/-! ### Declarations -/

theorem balanced_bindImport (path : String) (items : List Code.ImportItem) :
    Balanced (bindImport p path items) := by
  induction items with
  | nil => exact balanced_pure ()
  | cons item rest ih =>
    simp only [bindImport]
    cases Native.find? path (p.interner.text item.name) with
    | some n => exact (balanced_define _ _ _).bind fun _ => ih
    | none => exact (balanced_faultAt _ _).bind fun _ => ih

theorem balanced_closure (name : Option Name) (params : List Code.Param)
    (result : Option TypeRefId) (body : ExprId) : Balanced (closure name params result body) :=
  balanced_of_frame fun _ => ⟨_, _, _, rfl⟩

theorem balanced_typeValue (d : DeclId) (fieldless isSignal : Bool) :
    Balanced (typeValue p d fieldless isSignal) := by
  unfold typeValue
  cases p.types.declType? d with
  | none => exact balanced_faultAt _ _
  | some type =>
    simp only
    split
    · exact balanced_pure _
    · split <;> exact balanced_pure _

theorem balanced_bindHoisted (d : DeclId) : Balanced (bindHoisted p d) := by
  unfold bindHoisted
  split
  · exact balanced_bindImport _ _
  · exact (balanced_closure _ _ _ _).bind fun _ => balanced_define _ _ _
  · exact (balanced_typeValue _ _ _).bind fun _ => balanced_define _ _ _
  · exact (balanced_typeValue _ _ _).bind fun _ => balanced_define _ _ _
  · exact balanced_pure ()
  · exact balanced_faultAt _ _

theorem balanced_checkDeclared (typeRef : Option TypeRefId) (v : Value) (span : Span) :
    Balanced (checkDeclared p typeRef v span) := by
  unfold checkDeclared
  split
  · exact balanced_pure ()
  · split
    · exact balanced_pure ()
    · exact balanced_faultAt _ _

theorem balanced_bindLet (hev : ∀ id, Balanced (ev id)) (d : DeclId) :
    Balanced (bindLet p ev d) := by
  unfold bindLet
  split
  · exact (hev _).bind fun v => (balanced_checkDeclared _ v _).bind fun _ =>
      balanced_define _ _ _
  · exact balanced_pure ()

theorem balanced_bindAllHoisted (ds : List DeclId) : Balanced (bindAllHoisted p ds) := by
  induction ds with
  | nil => exact balanced_pure ()
  | cons d ds ih =>
    simp only [bindAllHoisted]
    split
    · exact (balanced_bindHoisted d).bind fun _ => ih
    · exact (balanced_pure ()).bind fun _ => ih

theorem balanced_bindAllLets (hev : ∀ id, Balanced (ev id)) (ds : List DeclId) :
    Balanced (bindAllLets p ev ds) := by
  induction ds with
  | nil => exact balanced_pure ()
  | cons d ds ih => exact (balanced_bindLet hev d).bind fun _ => ih

theorem balanced_bindModule (hev : ∀ id, Balanced (ev id)) (ds : List DeclId) :
    Balanced (bindModule p ev ds) :=
  (balanced_bindAllHoisted ds).bind fun _ => balanced_bindAllLets hev ds

/-! ### Blocks, branches and loops -/

theorem balanced_set (target : Name) (v : Value) (span : Span) :
    Balanced (set p target v span) := by
  refine balanced_of_frame fun s => ?_
  simp only [set]
  split <;> exact ⟨_, _, _, rfl⟩

/-- The handler of an `effect for` statement is installed around all that follows in the list. -/
theorem balanced_stmts (hev : ∀ id, Balanced (ev id)) (last : Value) (body : List Code.Stmt) :
    Balanced (stmts p ev last body) := by
  induction body generalizing last with
  | nil => exact balanced_pure last
  | cons st rest ih =>
    simp only [stmts]
    split
    · exact (hev _).bind fun v => ih v
    · exact (balanced_bindLet hev _).bind fun _ => ih _
    · exact (hev _).bind fun v => (balanced_set _ v _).bind fun _ => ih _
    · exact (balanced_read _).bind fun f => (ih _).withHandler f

theorem balanced_block (hev : ∀ id, Balanced (ev id)) (body : List Code.Stmt) :
    Balanced (block p ev body) :=
  ((balanced_bindAllHoisted _).bind fun _ => balanced_stmts hev _ body).inScope

theorem balanced_condition (v : Value) : Balanced (condition p v) := by
  unfold condition
  split
  · exact balanced_pure _
  · exact balanced_fault _

theorem balanced_arms (hev : ∀ id, Balanced (ev id)) (subject : Option Value)
    (options : List Code.Arm) : Balanced (arms p ev subject options) := by
  induction options with
  | nil => exact balanced_pure _
  | cons a rest ih =>
    simp only [arms]
    split
    · refine (hev _).bind fun v => (balanced_condition v).bind fun b => ?_
      split
      · exact hev _
      · exact ih
    · split
      · exact balanced_faultAt _ _
      · split
        · exact (hev _).withBindings _
        · exact ih
    · exact hev _

theorem balanced_optional (hev : ∀ id, Balanced (ev id)) (e : Option ExprId) :
    Balanced (optional ev e) := by
  cases e with
  | none => exact balanced_pure _
  | some id => exact hev id

theorem balanced_branch (hev : ∀ id, Balanced (ev id)) (subject : Option ExprId)
    (options : List Code.Arm) : Balanced (branch p ev subject options) := by
  cases subject with
  | none => exact balanced_arms hev _ _
  | some e => exact (hev e).bind fun v => balanced_arms hev _ _

/-- Whether a round ends the loop or not, the machine continues behind it. -/
theorem balanced_rounds (hev : ∀ id, Balanced (ev id)) (frame : FrameId) (body : ExprId)
    (fuel done ticks : Nat) : Balanced (rounds p ev frame body fuel done ticks) := by
  induction fuel generalizing done ticks with
  | zero => exact balanced_outOfFuel
  | succ fuel ih =>
    intro s
    have h := hev body s
    simp only [rounds]
    -- the count of rounds does not matter
    generalize (if s.hostTicks = ticks then done else 0) = n
    split
    · exact .refl s
    · split <;> rename_i hr
      · rw [hr] at h; exact h.trans (ih _ _ _)
      · rw [hr] at h; exact h
      · exact h

theorem balanced_loop (hev : ∀ id, Balanced (ev id)) (fuel : Nat) (body : ExprId) :
    Balanced (loop p ev fuel body) := by
  refine balanced_freshFrame.bind fun frame s => ?_
  have h := balanced_rounds (p := p) hev frame body fuel 0 s.hostTicks
    { s with loopTarget := some frame }
  exact ⟨h.handlers, h.calls, h.env, rfl, h.returnTarget, h.activations⟩

/-! ### Expressions -/

theorem balanced_arguments (hev : ∀ id, Balanced (ev id)) (es : List ExprId) :
    Balanced (arguments ev es) := by
  induction es with
  | nil => exact balanced_pure []
  | cons e es ih => exact (hev e).bind fun v => ih.bind fun vs => balanced_pure _

theorem balanced_ident (n : Name) : Balanced (ident p n) := by
  refine balanced_of_frame fun s => ?_
  simp only [ident]
  split <;> exact ⟨_, _, _, rfl⟩

theorem balanced_member (receiver : Value) (field : Name) :
    Balanced (member p receiver field) := by
  unfold member
  split
  · exact balanced_pure _
  · exact balanced_fault _

theorem balanced_leaveFunction (v : Value) : Balanced (leaveFunction v) := by
  refine (balanced_read _).bind fun target => ?_
  cases target with
  | some frame => exact balanced_interrupt _
  | none => exact balanced_fault _

theorem balanced_leaveLoop (v : Value) : Balanced (leaveLoop v) := by
  refine (balanced_read _).bind fun target => ?_
  cases target with
  | some frame => exact balanced_interrupt _
  | none => exact balanced_fault _

/-- Every construct keeps the balance of its parts. -/
theorem balanced_node (hev : ∀ id, Balanced (ev id)) (fuel : Nat) (id : ExprId) :
    Balanced (node p ev fuel id) := by
  simp only [node]
  cases (p.arena.expr id).kind with
  | group inner => exact (hev inner).located _
  | block body => exact (balanced_block hev body).located _
  | function params result body => exact balanced_closure _ _ _ _
  | branch subject options => exact (balanced_branch hev subject options).located _
  | loop body => exact (balanced_loop hev fuel body).located _
  | cause payload => exact (hev payload).bind fun v => (balanced_cause hev v).located _
  | ret value => exact (balanced_optional hev value).bind fun v => balanced_leaveFunction v
  | brk value => exact (balanced_optional hev value).bind fun v => balanced_leaveLoop v
  | string text => exact balanced_pure _
  | number n => exact balanced_pure _
  | ident n => exact (balanced_ident n).located _
  | call callee args =>
    exact (hev callee).bind fun f => (balanced_arguments hev args).bind fun vs =>
      (balanced_callValue hev f vs _).located _
  | member receiver field =>
    exact (hev receiver).bind fun v => (balanced_member v field).located _
  | pipe subject callee args =>
    exact (hev subject).bind fun v => (hev callee).bind fun f =>
      (balanced_arguments hev args).bind fun vs => (balanced_callValue hev f _ _).located _

/-- The evaluation of every expression is balanced. -/
theorem balanced_expr (fuel : Nat) (id : ExprId) : Balanced (expr p fuel id) := by
  induction fuel generalizing id with
  | zero => exact balanced_outOfFuel
  | succ fuel ih => exact balanced_node ih fuel id

end Eval

/-! ### Interpreters -/

namespace Interpreter

theorem load_continues (i : Interpreter) (m : Module) (fuel : Nat) :
    i.machine.Continues (i.load m fuel).2.machine :=
  Eval.balanced_bindModule (Eval.balanced_expr fuel) m.decls i.machine

theorem call_continues (i : Interpreter) (name : String) (args : List Value) (fuel : Nat) :
    i.machine.Continues (i.call name args fuel).2.machine := by
  unfold call
  cases i.lookup? name with
  | none => exact .refl _
  | some callee =>
    exact Eval.balanced_callValue (Eval.balanced_expr fuel) callee args .dummy i.machine

/-- **Evaluation is balanced on every way out.**  Whatever the outcome of an expression, the
handlers, the active calls, the environment and the targets of `break` and `return` are the ones
from before it; and the same goes for loading a module and for calling a function. -/
theorem eval_load_call_balanced (i : Interpreter) (fuel : Nat) :
    (∀ (s : Machine) (id : ExprId), s.Continues (Eval.expr i.program fuel id s).2) ∧
      (∀ m, i.machine.Continues (i.load m fuel).2.machine) ∧
      ∀ name args, i.machine.Continues (i.call name args fuel).2.machine :=
  ⟨fun s id => Eval.balanced_expr fuel id s, fun m => i.load_continues m fuel,
    fun name args => i.call_continues name args fuel⟩

end Interpreter

end SignalLang
