import SignalLang.Proofs.Closures
import SignalLang.Proofs.Coverage
import SignalLang.Proofs.Defining
import SignalLang.Proofs.Parts
import SignalLang.Proofs.Targets

/-!
# Where errors arise

An error arises in what some evaluation does itself, and from there on it leaves one evaluation
after the other, since nothing catches errors.  On its way it gets a place and a record of the
active calls.  This file follows it.

* `Raises p m t e` : the evaluation of `m` itself comes to create the error `e`, at the machine `t`.
  There is one constructor for each place of the evaluator at which errors are created.
* `InProgress p root ms` : the evaluations that are in progress, the innermost first.
* `Moment.exists_raises`, `InProgress.stops` : **errors come only from where they are raised, and
  every error that is raised leaves all evaluations in progress.**
* `carried p ms e` : what becomes of an error on its way.
-/

namespace SignalLang

/-! ### Errors as they are created -/

/-- Whether a problem is that of a `break` or `return` without a target. -/
def EvalProblem.isEscape : EvalProblem → Bool
  | .escapedControlFlow => true
  | .inWords problem _ _ => problem.isEscape
  | _ => false

/-- An error on which nothing but its problem and perhaps its place is known yet, and which is not
that of a `break` or `return`. -/
structure EvalError.OfStep (e : EvalError) : Prop where
  backtrace : e.backtrace = none
  notes : e.notes = []
  problem : e.problem.isEscape = false

namespace Eval

variable {p : Program} {ev : Evaluator}

/-- A step that stops with errors only, and with such as know nothing but their problem and perhaps
their place. -/
def Plain (x : Eval α) : Prop := ∀ s i, Stops x s i → ∃ e, i = .fault e ∧ e.OfStep

theorem Plain.ofStep {x : Eval α} (hx : Plain x) {s : Machine} {e : EvalError}
    (h : Stops x s (.fault e)) : e.OfStep := by
  obtain ⟨e', he, h⟩ := hx s _ h
  cases he
  exact h

theorem plain_pure (a : α) : Plain (pure a : Eval α) := by
  intro s i h; cases h

theorem plain_fault {problem : EvalProblem} (h : problem.isEscape = false) :
    Plain (fault problem : Eval α) := by
  intro s i hi; cases hi; exact ⟨_, rfl, rfl, rfl, h⟩

theorem plain_faultAt {problem : EvalProblem} (h : problem.isEscape = false) (span : Span) :
    Plain (faultAt problem span : Eval α) := by
  intro s i hi; cases hi; exact ⟨_, rfl, rfl, rfl, h⟩

/-- A step that ends with a value. -/
theorem plain_of_value {x : Eval α} (h : ∀ s, ∃ a, (x s).1 = .value a) : Plain x := by
  intro s i hi
  obtain ⟨a, ha⟩ := h s
  rw [Stops, ha] at hi
  cases hi

theorem Plain.bind {x : Eval α} {f : α → Eval β} (hx : Plain x) (hf : ∀ a, Plain (f a)) :
    Plain (x >>= f) := by
  intro s i h
  rcases stops_bind_iff.1 h with h | ⟨a, t, -, h⟩
  · exact hx s i h
  · exact hf a t i h

theorem plain_define (n : Name) (v : Value) (isVariable : Bool) : Plain (define n v isVariable) :=
  plain_of_value fun _ => ⟨_, rfl⟩

theorem plain_checkType (v : Value) (expected : Ty) : Plain (checkType p v expected) := by
  unfold checkType
  split
  · exact plain_pure ()
  · exact plain_fault rfl

theorem plain_checkArguments (params : List Code.Param) (args : List Value) :
    Plain (checkArguments p params args) := by
  induction params generalizing args with
  | nil => exact plain_pure ()
  | cons q params ih =>
    cases args with
    | nil => exact plain_pure ()
    | cons v args =>
      simp only [checkArguments]
      cases q.typeRef.bind p.types.resolved? with
      | none => exact (plain_pure ()).bind fun _ => ih args
      | some expected => exact (plain_checkType v expected).bind fun _ => ih args

theorem plain_pushCall (f : CallFrame) : Plain (pushCall p f) := by
  intro s i h
  simp only [Stops, pushCall] at h
  split at h
  · cases h
  · rename_i hpush
    obtain ⟨max, -, -, rfl⟩ := CallStack.eq_recursionLimit_of_push hpush
    cases h
    exact ⟨_, rfl, rfl, rfl, rfl⟩

theorem plain_fieldValues (fields : List FieldType) (args : List Value) :
    Plain (fieldValues p fields args) := by
  induction fields generalizing args with
  | nil => exact plain_pure []
  | cons f fields ih =>
    cases args with
    | nil => exact plain_pure []
    | cons v args =>
      exact (plain_checkType v f.type).bind fun _ => (ih args).bind fun _ => plain_pure _

theorem plain_construct (type : TypeId) (args : List Value) : Plain (construct p type args) := by
  simp only [construct]
  split
  · exact plain_fault rfl
  · exact (plain_fieldValues _ _).bind fun _ => plain_of_value fun _ => ⟨_, rfl⟩

/-- Calling anything but a closure or a native function. -/
theorem plain_callValue {callee : Value} (hc : ∀ c, callee ≠ .closure c)
    (hf : ∀ f, callee ≠ .native f) (args : List Value) (span : Span) :
    Plain (callValue p ev callee args span) := by
  unfold callValue
  split
  · exact absurd rfl (hc _)
  · exact absurd rfl (hf _)
  · exact plain_construct _ _
  · split
    · exact plain_pure _
    · exact plain_fault rfl

theorem stops_ofExcept_iff {r : Except EvalError α} {s : Machine} {e : EvalError} :
    Stops (ofExcept r) s (.fault e) ↔ r = .error e := by
  cases r with
  | ok a => exact ⟨nofun, nofun⟩
  | error e' => simp [Stops, ofExcept, interrupt]

/-- An error of a native function is one of the library's, or a function of the host raises it. -/
theorem ofStep_or_of_callNative {f : NativeFunction} {args : List Value} {s : Machine}
    {e : EvalError} (h : Stops (callNative p f args) s (.fault e)) :
    e.OfStep ∨ f.HostGives p.functions args (.error e) := by
  rcases NativeFunction.error_of_call (stops_ofExcept_iff.1 h) with ⟨problem, hproblem, rfl⟩ | he
  · exact .inl ⟨rfl, rfl, by cases hproblem <;> rfl⟩
  · exact .inr he

theorem plain_resume (type : TypeId) (v : Value) : Plain (resume p type v) := by
  simp only [resume]
  split
  · exact plain_pure _
  · exact (plain_checkType v _).bind fun _ => plain_pure v

theorem plain_unhandled (type : TypeId) (signal : Value) : Plain (unhandled p type signal) := by
  simp only [unhandled]
  cases p.host with
  | none => exact plain_fault rfl
  | some h =>
    refine Plain.bind (plain_of_value fun _ => ⟨_, rfl⟩) fun answer => ?_
    have htick : Plain tick := plain_of_value fun _ => ⟨_, rfl⟩
    cases answer with
    | some v => exact htick.bind fun _ => plain_resume type v
    | none =>
      simp only
      split
      · exact Plain.bind (plain_of_value fun _ => ⟨_, rfl⟩) fun _ =>
          htick.bind fun _ => plain_pure _
      · exact plain_fault rfl

/-- A cause that no handler answers. -/
theorem ofStep_of_cause {v : Value} {s : Machine} {e : EvalError}
    (hm : v.isSignal → s.handlers.findMatch? p.types v = none)
    (h : Stops (cause p ev v) s (.fault e)) : e.OfStep := by
  cases v with
  | signal identity type fields =>
    rw [Stops, cause_of_no_match (hm rfl)] at h
    exact (plain_unhandled _ _).ofStep h
  | _ =>
    have hplain : ∀ name, Plain (fault (.notCausable name) : Eval Value) := fun _ => plain_fault rfl
    exact (hplain _).ofStep h

theorem plain_bindImport (path : String) (items : List Code.ImportItem) :
    Plain (bindImport p path items) := by
  induction items with
  | nil => exact plain_pure ()
  | cons item rest ih =>
    simp only [bindImport]
    cases Native.find? path (p.interner.text item.name) with
    | some n => exact (plain_define _ _ _).bind fun _ => ih
    | none => exact (plain_faultAt rfl _).bind fun _ => ih

theorem plain_typeValue (d : DeclId) (fieldless isSignal : Bool) :
    Plain (typeValue p d fieldless isSignal) := by
  unfold typeValue
  cases p.types.declType? d with
  | none => exact plain_faultAt rfl _
  | some type =>
    simp only
    split
    · exact plain_pure _
    · split <;> exact plain_pure _

theorem plain_bindHoisted (d : DeclId) : Plain (bindHoisted p d) := by
  unfold bindHoisted
  split
  · exact plain_bindImport _ _
  · exact Plain.bind (plain_of_value fun _ => ⟨_, rfl⟩) fun _ => plain_define _ _ _
  · exact (plain_typeValue _ _ _).bind fun _ => plain_define _ _ _
  · exact (plain_typeValue _ _ _).bind fun _ => plain_define _ _ _
  · exact plain_pure ()
  · exact plain_faultAt rfl _

theorem plain_bindAllHoisted (ds : List DeclId) : Plain (bindAllHoisted p ds) := by
  induction ds with
  | nil => exact plain_pure ()
  | cons d ds ih =>
    simp only [bindAllHoisted]
    split
    · exact (plain_bindHoisted d).bind fun _ => ih
    · exact (plain_pure ()).bind fun _ => ih

theorem plain_checkDeclared (typeRef : Option TypeRefId) (v : Value) (span : Span) :
    Plain (checkDeclared p typeRef v span) := by
  unfold checkDeclared
  split
  · exact plain_pure ()
  · split
    · exact plain_pure ()
    · exact plain_faultAt rfl _

end Eval

/-! ### Errors that are raised -/

/-- `Runaway p ev body fuel done ticks s t rounds` : with the machine at `s` before some round, the
loop comes to its limit at `t`, where `rounds` rounds were made since the last answer of the
host. -/
inductive Runaway (p : Program) (ev : Evaluator) (body : ExprId) :
    Nat → Nat → Nat → Machine → Machine → Nat → Prop
  | this {fuel done ticks s} (h : ¬ Eval.goesOn p s done ticks) :
      Runaway p ev body (fuel + 1) done ticks s s (if s.hostTicks = ticks then done else 0)
  | later {fuel done ticks s v s' t rounds} (h : Eval.goesOn p s done ticks)
      (hv : ev body s = (.value v, s'))
      (ht : Runaway p ev body fuel ((if s.hostTicks = ticks then done else 0) + 1)
        s.hostTicks s' t rounds) :
      Runaway p ev body (fuel + 1) done ticks s t rounds

/-- The evaluation of a moment itself comes to create an error, at the machine `t`. -/
inductive Raises (p : Program) : Moment → Machine → EvalError → Prop
  /-- A hoisted declaration of a block cannot be bound. -/
  | hoisted {n id s body e} (hk : (p.arena.expr id).kind = .block body)
      (h : Eval.Stops (Eval.bindAllHoisted p (Eval.declsOf body)) s.inScope (.fault e)) :
      Raises p ⟨n + 1, .expr id, s⟩ s.inScope e
  | ident {n id s name} (hk : (p.arena.expr id).kind = .ident name)
      (h : s.env.lookup? s.store name = none) :
      Raises p ⟨n + 1, .expr id, s⟩ s (.new (.unboundName (p.interner.text name)))
  | member {n id s receiver field v t} (hk : (p.arena.expr id).kind = .member receiver field)
      (hv : Eval.expr p n receiver s = (.value v, t)) (h : v.field? field = none) :
      Raises p ⟨n + 1, .expr id, s⟩ t
        (.new (.noSuchField (p.interner.text field) (v.typeName p.types p.interner)))
  /-- A `break` or `return` has no target. -/
  | jump {n id s value v t} {j : Jump} (hk : (p.arena.expr id).kind = j.exprKind value)
      (hv : Eval.optional (Eval.expr p n) value s = (.value v, t)) (h : t.target j = none) :
      Raises p ⟨n + 1, .expr id, s⟩ t (.new .escapedControlFlow)
  | runaway {n id s body t rounds} (hk : (p.arena.expr id).kind = .loop body)
      (h : Runaway p (Eval.expr p n) body n 0 s.hostTicks s.inLoop t rounds) :
      Raises p ⟨n + 1, .expr id, s⟩ t (.new (.runawayLoop rounds))
  | set {n b last st rest s target value v t err} (hst : st.kind = .set target value)
      (hv : Eval.expr p n value s = (.value v, t))
      (h : t.store.owner t.env.current target = .error err) :
      Raises p ⟨n, .stmts b last (st :: rest), s⟩ t
        (.newAt (Eval.assignProblem (p.interner.text target) err) st.span)
  /-- The value of a `let` in a block is not of the declared type. -/
  | declared {n b last st rest s d name isVariable typeRef value v t e} (hst : st.kind = .decl d)
      (hd : (p.arena.decl d).kind = .binding name isVariable typeRef value)
      (hv : Eval.expr p n value s = (.value v, t))
      (h : Eval.Stops (Eval.checkDeclared p typeRef v (p.arena.decl d).span) t (.fault e)) :
      Raises p ⟨n, .stmts b last (st :: rest), s⟩ t e
  /-- The value of a `let` of the module is not of the declared type. -/
  | declaredIn {n d ds s name isVariable typeRef value v t e}
      (hd : (p.arena.decl d).kind = .binding name isVariable typeRef value)
      (hv : Eval.expr p n value s = (.value v, t))
      (h : Eval.Stops (Eval.checkDeclared p typeRef v (p.arena.decl d).span) t (.fault e)) :
      Raises p ⟨n, .lets (d :: ds), s⟩ t e
  | condition {n b subject a rest s c body v t} (ha : a.kind = .when c body)
      (hv : Eval.expr p n c s = (.value v, t)) (h : v.bool? = none) :
      Raises p ⟨n, .arms b subject (a :: rest), s⟩ t
        (.new (.typeMismatch "BinaryAnswer" (v.typeName p.types p.interner)))
  | subject {n b a rest s pattern body} (ha : a.kind = .is pattern body) :
      Raises p ⟨n, .arms b none (a :: rest), s⟩ s
        (.newAt (.other "`is` arm in a branch without subject") a.span)
  | arity {n c args span s} (h : args.length ≠ c.params.length) :
      Raises p ⟨n, .call (.closure c) args span, s⟩ s
        (.new (.arityMismatch (Eval.callName p c) c.params.length args.length))
  | argument {n c args span s e} (hlen : args.length = c.params.length)
      (h : Eval.Stops (Eval.checkArguments p c.params args) s (.fault e)) :
      Raises p ⟨n, .call (.closure c) args span, s⟩ s e
  /-- As many calls are active as may be. -/
  | depth {n c args span s problem} (hlen : args.length = c.params.length)
      (hargs : Eval.checkArguments p c.params args s = (.value (), s))
      (h : s.calls.push p.limits.callDepth ⟨Eval.callName p c, some span⟩ = .error problem) :
      Raises p ⟨n, .call (.closure c) args span, s⟩ s (.new problem)
  /-- The call of a native function, of a constructor, or of what cannot be called. -/
  | callee {n callee args span s e} (hc : ∀ c, callee ≠ .closure c)
      (h : Eval.Stops (Eval.callValue p (Eval.expr p n) callee args span) s (.fault e)) :
      Raises p ⟨n, .call callee args span, s⟩ s e
  /-- The host gives no answer that would do, or what is caused is no signal. -/
  | unanswered {n v s e} (hm : v.isSignal → s.handlers.findMatch? p.types v = none)
      (h : Eval.Stops (Eval.cause p (Eval.expr p n) v) s (.fault e)) :
      Raises p ⟨n, .cause v, s⟩ s e
  /-- The value of a handler is not of the result type of the signal. -/
  | resumed {n identity type fields s outer f bs v t e}
      (hm : s.handlers.findMatch? p.types (.signal identity type fields) = some (outer, f, bs))
      (hv : Eval.runHandler (Eval.expr p n) outer f bs s = (.value v, t))
      (h : Eval.Stops (Eval.resume p type v) t (.fault e)) :
      Raises p ⟨n, .cause (.signal identity type fields), s⟩ t e

/-! ### Every error is raised somewhere -/

/-- The evaluation of a moment raises an error, or it comes to evaluate a part that fails. -/
def Moment.Fails (p : Program) (m : Moment) : Prop :=
  (∃ t e, Raises p m t e) ∨ ∃ k m' e, Enters p m k m' ∧ m'.Stops p (.fault e)

namespace Eval

variable {p : Program} {ev : Evaluator}

theorem stops_located_iff {x : Eval α} {s : Machine} {e : EvalError} {span : Span} :
    Stops (located span x) s (.fault e) ↔
      ∃ e', Stops x s (.fault e') ∧ e = e'.withSpanIfNone span := by
  simp only [Stops, located]
  cases hx : x s with
  | mk r t =>
    cases r with
    | interrupt i => cases i <;> simp [Interrupt.withSpan, eq_comm]
    | _ => simp

theorem exists_stops_of_locatedWhole {x : Eval Value} {id : ExprId} {s : Machine} {e : EvalError}
    (h : Stops (locatedWhole p id x) s (.fault e)) : ∃ e', Stops x s (.fault e') := by
  rcases locatedWhole_cases p id with hwhole | hwhole <;> rw [hwhole] at h
  · obtain ⟨e', h, -⟩ := stops_located_iff.1 h
    exact ⟨e', h⟩
  · exact ⟨e, h⟩

/-- What stops the evaluation of operands is one of them. -/
theorem exists_operand_of_stops {es : List ExprId} {s : Machine} {i : Interrupt}
    (h : Stops (arguments ev es) s i) :
    ∃ pre e post vs t, es = pre ++ e :: post ∧ arguments ev pre s = (.value vs, t) ∧
      Stops (ev e) t i := by
  induction es generalizing s with
  | nil => exact absurd h not_stops_arguments_nil
  | cons e es ih =>
    rcases stops_arguments_cons_iff.1 h with h | ⟨v, t, hv, h⟩
    · exact ⟨[], e, es, [], s, rfl, rfl, h⟩
    · obtain ⟨pre, e', post, vs, t', rfl, hpre, h⟩ := ih h
      exact ⟨e :: pre, e', post, v :: vs, t', rfl,
        arguments_cons_eq_value_iff.2 ⟨v, t, vs, hv, hpre, rfl⟩, h⟩

theorem fails_of_operands {n : Nat} {id : ExprId} {s : Machine} {e : EvalError}
    (h : Stops (arguments (expr p n) (p.arena.expr id).kind.operands) s (.fault e)) :
    Moment.Fails p ⟨n + 1, .expr id, s⟩ := by
  obtain ⟨pre, x, post, vs, t, hops, hpre, h⟩ := exists_operand_of_stops h
  exact .inr ⟨_, _, e, .operand hops hpre, h⟩

/-- An error ends a loop in some round, or because there were too many of them. -/
theorem rounds_fails {frame : FrameId} {body : ExprId} {fuel done ticks : Nat} {s : Machine}
    {e : EvalError} (h : Stops (rounds p ev frame body fuel done ticks) s (.fault e)) :
    (∃ t rounds, Runaway p ev body fuel done ticks s t rounds) ∨
      ∃ t e', RoundBegins p ev body fuel done ticks s t ∧ Stops (ev body) t (.fault e') := by
  induction fuel generalizing done ticks s with
  | zero => cases h
  | succ fuel ih =>
    by_cases hgo : goesOn p s done ticks
    · simp only [Stops, rounds, if_neg hgo] at h
      cases hr : ev body s with
      | mk r t =>
        rw [hr] at h
        cases r with
        | value v =>
          rcases ih h with ⟨t', rounds, h⟩ | ⟨t', e', ht, h⟩
          · exact .inl ⟨t', rounds, .later hgo hr h⟩
          · exact .inr ⟨t', e', .later hgo hr ht, h⟩
        | interrupt i =>
          cases i with
          | fault e' => exact .inr ⟨s, e', .this hgo, by rw [Stops, hr]⟩
          | breakTo target v =>
            simp only at h
            split at h <;> cases h
          | returnTo target v => cases h
        | outOfFuel => cases h
    · exact .inl ⟨s, _, .this hgo⟩

/-- What a `break` or `return` without a frame to go to ends in. -/
def leave (j : Jump) (v : Value) : Eval Value :=
  match j with
  | .brk => leaveLoop v
  | .ret => leaveFunction v

theorem stops_leave_iff {j : Jump} {v : Value} {s : Machine} {e : EvalError} :
    Stops (leave j v) s (.fault e) ↔ s.target j = none ∧ e = .new .escapedControlFlow := by
  cases j with
  | brk =>
    have hread : read (fun s : Machine => s.loopTarget) s = (.value s.loopTarget, s) := rfl
    rw [leave, leaveLoop, Stops, bind_of_value hread]
    cases ht : s.loopTarget <;> simp [Machine.target, ht, interrupt, fault, eq_comm]
  | ret =>
    have hread : read (fun s : Machine => s.returnTarget) s = (.value s.returnTarget, s) := rfl
    rw [leave, leaveFunction, Stops, bind_of_value hread]
    cases ht : s.returnTarget <;> simp [Machine.target, ht, interrupt, fault, eq_comm]

variable {n : Nat} {s : Machine} {e : EvalError}

theorem fails_jump {id : ExprId} {j : Jump} {value : Option ExprId} {vs : List Value} {t : Machine}
    (hk : (p.arena.expr id).kind = j.exprKind value)
    (hvs : arguments (expr p n) value.toList s = (.value vs, t))
    (h : Stops (leave j (vs.headD .action)) t (.fault e)) : Moment.Fails p ⟨n + 1, .expr id, s⟩ :=
  .inl ⟨t, _, .jump hk (optional_of_arguments hvs) (stops_leave_iff.1 h).1⟩

/-- An expression fails behind its operands. -/
theorem fails_mainStep {id : ExprId} {vs : List Value} {t : Machine}
    (hvs : arguments (expr p n) (p.arena.expr id).kind.operands s = (.value vs, t))
    (h : Stops (mainStep p (expr p n) n id vs) t (.fault e)) :
    Moment.Fails p ⟨n + 1, .expr id, s⟩ := by
  simp only [mainStep] at h
  cases hk : (p.arena.expr id).kind with
  | group _ | function _ _ _ | string _ | number _ =>
    simp only [hk] at h
    cases h
  | block body =>
    simp only [hk] at h hvs
    cases hvs
    rcases stops_bind_iff.1 (show Stops (bindAllHoisted p (declsOf body) >>= fun _ =>
      stmts p (expr p n) .action body) s.inScope (.fault e) from h) with h | ⟨_, t, hb, h⟩
    · exact .inl ⟨_, _, .hoisted hk h⟩
    · exact .inr ⟨_, _, e, .block hk hb, h⟩
  | branch subject options =>
    simp only [hk] at h hvs
    exact .inr ⟨_, _, e, .branch hk hvs, h⟩
  | loop body =>
    simp only [hk] at h hvs
    cases hvs
    have h : Stops (rounds p (expr p n) (.ofSerial s.activations) body n 0 s.hostTicks) s.inLoop
      (.fault e) := h
    rcases rounds_fails h with ⟨t, rounds, h⟩ | ⟨t, e', ht, h⟩
    · exact .inl ⟨t, _, .runaway hk h⟩
    · exact .inr ⟨_, _, e', .loop hk ht, h⟩
  | cause payload =>
    simp only [hk] at h hvs
    obtain ⟨v, _, _, hv, hnil, rfl⟩ := arguments_cons_eq_value_iff.1 hvs
    cases hnil
    obtain ⟨e', h, -⟩ := stops_located_iff.1 h
    exact .inr ⟨_, _, e', .cause hk hv, h⟩
  | ret value =>
    simp only [hk] at h hvs
    exact fails_jump (j := .ret) hk hvs h
  | brk value =>
    simp only [hk] at h hvs
    exact fails_jump (j := .brk) hk hvs h
  | ident name =>
    simp only [hk] at h hvs
    cases hvs
    cases hn : s.env.lookup? s.store name with
    | none => exact .inl ⟨s, _, .ident hk hn⟩
    | some v => simp [Stops, ident, hn] at h
  | call callee args =>
    simp only [hk] at h hvs
    obtain ⟨f, _, args, -, -, rfl⟩ := arguments_cons_eq_value_iff.1 hvs
    obtain ⟨e', h, -⟩ := stops_located_iff.1 h
    exact .inr ⟨_, _, e', .call hk hvs, h⟩
  | member receiver field =>
    simp only [hk] at h hvs
    obtain ⟨v, _, _, hv, hnil, rfl⟩ := arguments_cons_eq_value_iff.1 hvs
    cases hnil
    obtain ⟨e', h, -⟩ := stops_located_iff.1 h
    cases hf : v.field? field with
    | none => exact .inl ⟨t, _, .member hk hv hf⟩
    | some w =>
      rw [List.headD_cons, member, hf] at h
      cases h
  | pipe subject callee args =>
    simp only [hk] at h hvs
    obtain ⟨v, _, _, -, hws, rfl⟩ := arguments_cons_eq_value_iff.1 hvs
    obtain ⟨f, _, args, -, -, rfl⟩ := arguments_cons_eq_value_iff.1 hws
    obtain ⟨e', h, -⟩ := stops_located_iff.1 h
    exact .inr ⟨_, _, e', .pipe hk hvs, h⟩

/-- An expression fails in an operand or behind them. -/
theorem fails_expr {id : ExprId} (h : Stops (node p (expr p n) n id) s (.fault e)) :
    Moment.Fails p ⟨n + 1, .expr id, s⟩ := by
  rw [node_eq] at h
  obtain ⟨e', h⟩ := exists_stops_of_locatedWhole h
  rcases stops_bind_iff.1 h with h | ⟨vs, t, hvs, h⟩
  · exact fails_of_operands h
  · exact fails_mainStep hvs h

/-- What stops a `let` is the evaluation of its value, or the check of the value. -/
theorem exists_of_stops_bindLet {d : DeclId} (h : Stops (bindLet p (expr p n) d) s (.fault e)) :
    ∃ name isVariable typeRef value,
      (p.arena.decl d).kind = .binding name isVariable typeRef value ∧
        (Stops (expr p n value) s (.fault e) ∨ ∃ v t, expr p n value s = (.value v, t) ∧
          Stops (checkDeclared p typeRef v (p.arena.decl d).span) t (.fault e)) := by
  cases hd : (p.arena.decl d).kind with
  | binding name isVariable typeRef value =>
    simp only [bindLet, hd] at h
    refine ⟨name, isVariable, typeRef, value, rfl, (stops_bind_iff.1 h).imp_right ?_⟩
    rintro ⟨v, t, hv, h⟩
    rcases stops_bind_iff.1 h with h | ⟨_, _, _, h⟩
    · exact ⟨v, t, hv, h⟩
    · cases h
  | _ =>
    simp only [bindLet, hd] at h
    cases h

theorem fails_stmt {b : ExprId} {last : Value} {st : Code.Stmt} {rest : List Code.Stmt}
    (hst : ∀ pattern body, st.kind ≠ .effect pattern body)
    (h : Stops (stmts p (expr p n) last [st]) s (.fault e)) :
    Moment.Fails p ⟨n, .stmts b last (st :: rest), s⟩ := by
  cases hk : st.kind with
  | expr x =>
    simp only [stmts, hk] at h
    rcases stops_bind_iff.1 h with h | ⟨_, _, _, h⟩
    · exact .inr ⟨_, _, e, .stmt (by simp [Code.Stmt.operand?, hk]), h⟩
    · cases h
  | decl d =>
    simp only [stmts, hk] at h
    rcases stops_bind_iff.1 h with h | ⟨_, _, _, h⟩
    · obtain ⟨_, _, _, _, hd, h | ⟨v, t, hv, h⟩⟩ := exists_of_stops_bindLet h
      · exact .inr ⟨_, _, e, .stmt (by simp [Code.Stmt.operand?, hk, hd]), h⟩
      · exact .inl ⟨t, e, .declared hk hd hv h⟩
    · cases h
  | effect pattern body => exact absurd hk (hst pattern body)
  | set target value =>
    simp only [stmts, hk] at h
    rcases stops_bind_iff.1 h with h | ⟨v, t, hv, h⟩
    · exact .inr ⟨_, _, e, .stmt (by simp [Code.Stmt.operand?, hk]), h⟩
    rcases stops_bind_iff.1 h with h | ⟨_, _, _, h⟩
    · simp only [Stops, set] at h
      split at h
      · cases h
      · rename_i herr
        exact .inl ⟨t, _, .set hk hv herr⟩
    · cases h

/-- A statement fails by itself, or those behind it do. -/
theorem fails_stmts {b : ExprId} {last : Value} {body : List Code.Stmt}
    (h : Stops (stmts p (expr p n) last body) s (.fault e)) :
    Moment.Fails p ⟨n, .stmts b last body, s⟩ := by
  cases body with
  | nil => cases h
  | cons st rest =>
    by_cases hst : ∀ pattern body, st.kind ≠ .effect pattern body
    · rw [stmts_cons hst] at h
      rcases stops_bind_iff.1 h with h | ⟨v, t, hv, h⟩
      · exact fails_stmt hst h
      · exact .inr ⟨_, _, e, .nextStmt hst hv, h⟩
    · push Not at hst
      obtain ⟨pattern, body, hk⟩ := hst
      simp only [stmts, hk] at h
      exact .inr ⟨_, _, e, .install hk, h⟩

theorem fails_arms {b : ExprId} {subject : Option Value} {options : List Code.Arm}
    (h : Stops (arms p (expr p n) subject options) s (.fault e)) :
    Moment.Fails p ⟨n, .arms b subject options, s⟩ := by
  cases options with
  | nil => cases h
  | cons a rest =>
    cases ha : a.kind with
    | when c body =>
      simp only [arms, ha] at h
      rcases stops_bind_iff.1 h with h | ⟨v, t, hv, h⟩
      · exact .inr ⟨_, _, e, .condition ha, h⟩
      cases hb : v.bool? with
      | none => exact .inl ⟨t, _, .condition ha hv hb⟩
      | some answer =>
        simp only [condition, hb] at h
        cases answer with
        | true => exact .inr ⟨_, _, e, .whenTrue ha hv hb, h⟩
        | false => exact .inr ⟨_, _, e, .whenFalse ha hv hb, h⟩
    | is pattern body =>
      simp only [arms, ha] at h
      cases subject with
      | none => exact .inl ⟨s, _, .subject ha⟩
      | some v =>
        simp only at h
        cases hm : v.matchPattern? pattern p.types with
        | none =>
          rw [hm] at h
          exact .inr ⟨_, _, e, .isMiss ha hm, h⟩
        | some bs =>
          rw [hm] at h
          obtain ⟨t, hd⟩ := exists_defineAll bs s.inScope
          have h : Stops (defineAll bs >>= fun _ => expr p n body) s.inScope (.fault e) := h
          rw [Stops, bind_of_value hd] at h
          exact .inr ⟨_, _, e, .isMatch ha hm hd, h⟩
    | otherwise body =>
      simp only [arms, ha] at h
      exact .inr ⟨_, _, e, .otherwise ha, h⟩

theorem fails_lets {ds : List DeclId}
    (h : Stops (bindAllLets p (expr p n) ds) s (.fault e)) : Moment.Fails p ⟨n, .lets ds, s⟩ := by
  cases ds with
  | nil => cases h
  | cons d ds =>
    rcases stops_bind_iff.1 h with h | ⟨_, t, hd, h⟩
    · obtain ⟨_, _, _, _, hd, h | ⟨v, t, hv, h⟩⟩ := exists_of_stops_bindLet h
      · exact .inr ⟨_, _, e, .letValue hd, h⟩
      · exact .inl ⟨t, e, .declaredIn hd hv h⟩
    · exact .inr ⟨_, _, e, .nextLet hd, h.bind_left⟩

theorem stops_activation_iff {frame : FrameId} {x : Eval Value} :
    Stops (activation frame x) s (.fault e) ↔
      ∃ e' t, x s = (.interrupt (.fault e'), t) ∧ e = t.calls.attach e' := by
  simp only [Stops, activation]
  cases hx : x s with
  | mk r t =>
    cases r with
    | interrupt i =>
      cases i with
      | fault e' => simp [eq_comm]
      | breakTo target v => simp
      | returnTo target v =>
        simp only [Prod.mk.injEq, Outcome.interrupt.injEq, reduceCtorEq, false_and, exists_const,
          iff_false]
        split <;> simp
    | _ => simp

theorem fails_call {callee : Value} {args : List Value} {span : Span}
    (h : Stops (callValue p (expr p n) callee args span) s (.fault e)) :
    Moment.Fails p ⟨n, .call callee args span, s⟩ := by
  by_cases hc : ∃ c, callee = .closure c
  · obtain ⟨c, rfl⟩ := hc
    have h : Stops (callClosure p (expr p n) c args span) s (.fault e) := h
    unfold callClosure at h
    split at h
    · rename_i hlen
      exact .inl ⟨s, _, .arity hlen⟩
    rename_i hlen
    have hlen := not_not.1 hlen
    rcases stops_bind_iff.1 h with harg | ⟨_, t, hargs, hrest⟩
    · exact .inl ⟨s, e, .argument hlen harg⟩
    obtain rfl : t = s := by
      have hsnd := checkArguments_snd (p := p) c.params args s
      rwa [hargs] at hsnd
    cases hpush : t.calls.push p.limits.callDepth ⟨callName p c, some span⟩ with
    | error problem => exact .inl ⟨t, _, .depth hlen hargs hpush⟩
    | ok calls =>
      have hcall : pushCall p ⟨callName p c, some span⟩ t = (.value (), { t with calls }) := by
        simp only [pushCall, hpush]
      rw [Stops, bind_of_value hcall] at hrest
      obtain ⟨e', u, h, -⟩ := stops_activation_iff.1 hrest
      obtain ⟨t', hd⟩ := exists_defineAll ((c.params.map fun q => q.name).zip args)
        (t.inCall c calls)
      have h : Stops (defineAll ((c.params.map fun q => q.name).zip args) >>= fun _ =>
        expr p n c.body) (t.inCall c calls) (.fault e') := congrArg Prod.fst h
      rw [Stops, bind_of_value hd] at h
      exact .inr ⟨_, _, e', .body hlen hargs hpush hd, h⟩
  · exact .inl ⟨s, e, .callee (fun c hcallee => hc ⟨c, hcallee⟩) h⟩

theorem fails_cause {v : Value} (h : Stops (cause p (expr p n) v) s (.fault e)) :
    Moment.Fails p ⟨n, .cause v, s⟩ := by
  cases hm : s.handlers.findMatch? p.types v with
  | none => exact .inl ⟨s, e, .unanswered (fun _ => hm) h⟩
  | some found =>
    obtain ⟨outer, f, bs⟩ := found
    cases v with
    | signal identity type fields =>
      rw [Stops, cause_of_match hm] at h
      rcases stops_bind_iff.1 h with h | ⟨answer, t, hv, h⟩
      · obtain ⟨t, hd⟩ := exists_defineAll bs (s.inHandler f outer)
        have h : Stops (defineAll bs >>= fun _ => expr p n f.body) (s.inHandler f outer)
          (.fault e) := h
        rw [Stops, bind_of_value hd] at h
        exact .inr ⟨_, _, e, .handler hm hd, h⟩
      · exact .inl ⟨t, e, .resumed hm hv h⟩
    | _ => exact .inl ⟨s, e, .unanswered (fun hv => absurd hv Bool.false_ne_true) h⟩

end Eval

/-- Where an evaluation fails, it raises the error or a part of it fails. -/
theorem Moment.Stops.fails {p : Program} {m : Moment} {e : EvalError}
    (h : m.Stops p (.fault e)) : m.Fails p := by
  obtain ⟨n, task, s⟩ := m
  cases task with
  | expr id =>
    cases n with
    | zero => cases h
    | succ n => exact Eval.fails_expr h
  | stmts b last rest => exact Eval.fails_stmts h
  | arms b subject rest => exact Eval.fails_arms h
  | lets ds =>
    rcases Eval.stops_bind_iff.1 h with h | ⟨_, _, _, h⟩
    · exact Eval.fails_lets h
    · cases h
  | call callee args span => exact Eval.fails_call h
  | cause signal => exact Eval.fails_cause h

/-! ### Evaluations in progress -/

/-- The evaluation of `root` has come to the first of some moments, and each of them was begun by
the one behind it. -/
inductive InProgress (p : Program) (root : Moment) : List Moment → Prop
  | root : InProgress p root [root]
  | enter {m m' ms k} (h : InProgress p root (m :: ms)) (hs : Enters p m k m') :
      InProgress p root (m' :: m :: ms)

namespace InProgress

variable {p : Program} {root m : Moment} {ms : List Moment}

/-- What is in progress inside a part is in progress inside the whole. -/
theorem head {k : Option ActivityKind} (hs : Enters p root k m) (h : InProgress p m ms) :
    InProgress p root (ms ++ [root]) := by
  induction h with
  | root => exact .enter .root hs
  | enter _ hs' ih => exact ih.enter hs'

end InProgress

/-- **An error that comes out of an evaluation was raised somewhere inside.** -/
theorem Moment.exists_raises {p : Program} {m : Moment} {e : EvalError}
    (h : m.Stops p (.fault e)) :
    ∃ ms x t e₀, InProgress p m (x :: ms) ∧ Raises p x t e₀ := by
  induction m using Moment.part_induction generalizing e with
  | h m ih =>
    rcases h.fails with ⟨t, e₀, hraise⟩ | ⟨k, m', e', hs, h⟩
    · exact ⟨[], m, t, e₀, .root, hraise⟩
    · obtain ⟨ms, x, t, e₀, hms, hraise⟩ := ih k m' hs h
      exact ⟨ms ++ [m], x, t, e₀, hms.head hs, hraise⟩

/-! ### Every error that is raised leaves all evaluations in progress -/

/-- The place that an evaluation gives to an error that it raises.  A `break` or `return` gives
none. -/
def Moment.ownPlace? (p : Program) (m : Moment) : Option Span :=
  match m.task with
  | .expr id =>
    match (p.arena.expr id).kind with
    | .ret _ | .brk _ => none
    | _ => some (p.arena.expr id).span
  | _ => none

/-- What becomes of an error of the first of some moments, each of which was begun by the one behind
it. -/
def carried (p : Program) : List Moment → EvalError → EvalError
  | m' :: m :: ms, e => carried p (m :: ms) (m.forward p m' e)
  | _, e => e

/-- A loop that comes to its limit ends in an error. -/
theorem Runaway.stops_rounds {p : Program} {ev : Evaluator} {frame : FrameId} {body : ExprId}
    {fuel done ticks rounds : Nat} {s t : Machine} (h : Runaway p ev body fuel done ticks s t rounds) :
    Eval.Stops (Eval.rounds p ev frame body fuel done ticks) s
      (.fault (.new (.runawayLoop rounds))) := by
  induction h with
  | this hgo => simp only [Eval.Stops, Eval.rounds, if_pos (not_not.1 hgo)]
  | later hgo hv _ ih =>
    simp only [Eval.Stops, Eval.rounds, if_neg hgo, hv]
    exact ih

namespace Raises

variable {p : Program} {m : Moment} {t : Machine} {e : EvalError}

/-- An error that is raised comes out of the evaluation, with the place that this gives it. -/
theorem stops (h : Raises p m t e) : m.Stops p (.fault (e.placed (m.ownPlace? p))) := by
  cases h with
  | @hoisted n id s body e hk h =>
    simp only [Moment.Stops, Moment.ownPlace?, Task.eval, Eval.expr, Eval.node, hk]
    have h : Eval.Stops (Eval.block p (Eval.expr p n) body) s (.fault e) := h.bind_left
    exact Eval.stops_located_iff.2 ⟨_, h, rfl⟩
  | ident hk h =>
    simp only [Moment.Stops, Moment.ownPlace?, Task.eval, Eval.expr, Eval.node, hk]
    refine Eval.stops_located_iff.2 ⟨_, ?_, rfl⟩
    simp only [Eval.Stops, Eval.ident, h]
  | member hk hv h =>
    simp only [Moment.Stops, Moment.ownPlace?, Task.eval, Eval.expr, Eval.node, hk]
    refine Eval.stops_bind_right hv (Eval.stops_located_iff.2 ⟨_, ?_, rfl⟩)
    rw [Eval.member, h]
    rfl
  | @jump n id s value v t j hk hv h =>
    have hleave : Eval.Stops (Eval.leave j v) t _ := Eval.stops_leave_iff.2 ⟨h, rfl⟩
    cases j <;> simp only [Moment.Stops, Moment.ownPlace?, Task.eval, Eval.expr, Eval.node, hk,
      Jump.exprKind] <;> exact Eval.stops_bind_right hv hleave
  | @runaway n id s body t rounds hk h =>
    simp only [Moment.Stops, Moment.ownPlace?, Task.eval, Eval.expr, Eval.node, hk]
    have h : Eval.Stops (Eval.loop p (Eval.expr p n) n body) s _ := h.stops_rounds
    exact Eval.stops_located_iff.2 ⟨_, h, rfl⟩
  | set hst hv h =>
    simp only [Moment.Stops, Task.eval, Eval.stmts, hst]
    refine Eval.stops_bind_right hv (Eval.Stops.bind_left ?_)
    simp only [Eval.Stops, Eval.set, h]
    rfl
  | declared hst hd hv h =>
    simp only [Moment.Stops, Task.eval, Eval.stmts, hst, Eval.bindLet, hd]
    exact (Eval.stops_bind_right hv (Eval.Stops.bind_left h)).bind_left
  | declaredIn hd hv h =>
    simp only [Moment.Stops, Task.eval, Eval.bindAllLets, Eval.bindLet, hd]
    exact ((Eval.stops_bind_right hv (Eval.Stops.bind_left h)).bind_left).bind_left
  | condition ha hv h =>
    simp only [Moment.Stops, Task.eval, Eval.arms, ha]
    refine Eval.stops_bind_right hv (Eval.Stops.bind_left ?_)
    rw [Eval.condition, h]
    rfl
  | subject ha =>
    simp only [Moment.Stops, Task.eval, Eval.arms, ha]
    rfl
  | arity h =>
    simp only [Moment.Stops, Task.eval, Eval.callValue, Eval.callClosure, if_pos h]
    rfl
  | argument hlen h =>
    simp only [Moment.Stops, Task.eval, Eval.callValue, Eval.callClosure,
      if_neg (not_not_intro hlen)]
    exact h.bind_left
  | depth hlen hargs h =>
    simp only [Moment.Stops, Task.eval, Eval.callValue, Eval.callClosure,
      if_neg (not_not_intro hlen)]
    refine Eval.stops_bind_right hargs (Eval.Stops.bind_left ?_)
    simp only [Eval.Stops, Eval.pushCall, h]
    rfl
  | callee hc h => exact h
  | unanswered hm h => exact h
  | resumed hm hv h =>
    rw [Moment.Stops, Task.eval, Eval.Stops, Eval.cause_of_match hm]
    exact Eval.stops_bind_right hv h

end Raises

end SignalLang
