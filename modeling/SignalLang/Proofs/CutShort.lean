import SignalLang.Proofs.Coverage

/-!
# Cut-offs

Evaluation is bounded in three ways: by its fuel, and by the limits on the rounds of a loop and on
the calls that are active at once.  A bound can end an evaluation early, and that is all that it can
do: where it does not, it might as well have been larger.

* `Outcome.CutOff cut` : evaluation ran out of fuel, or ended in a problem that counts as a cut-off.
* `Eval.CutShort cut x y` : the step `x` does what `y` does, unless it is cut off.
* `Limits.CutShort cut l l'` : limits that end a run earlier than others do, with a problem that
  counts as a cut-off.
* `Eval.expr_cutShort` : **less fuel and lower limits cut an evaluation short**, by induction on the
  fuel; every construct is cut short if its parts are.
* `Interpreter.load_cutShort`, `Interpreter.call_cutShort` : the same of loading a module and of
  calling a function.
-/

namespace SignalLang

/-- Evaluation ran out of fuel, or ended in a problem that counts as a cut-off. -/
def Outcome.CutOff (cut : EvalProblem → Prop) : Outcome α → Prop
  | .value _ => False
  | .interrupt (.fault e) => cut e.problem
  | .interrupt (.breakTo _ _) => False
  | .interrupt (.returnTo _ _) => False
  | .outOfFuel => True

/-- Nothing keeps a cut-off from being one at the end of the run. -/
theorem Outcome.CutOff.settle {cut : EvalProblem → Prop} {r : Outcome α} (h : r.CutOff cut) :
    r.settle.CutOff cut := by
  cases r with
  | value a => exact h
  | outOfFuel => exact h
  | interrupt i =>
    cases i with
    | fault e => exact h
    | breakTo _ _ => exact h.elim
    | returnTo _ _ => exact h.elim

/-- A program with other limits. -/
def Program.withLimits (p : Program) (l : Limits) : Program := { p with limits := l }

/-- Where the limits `l` stop a run and `l'` do not, the problem counts as a cut-off. -/
structure Limits.CutShort (cut : EvalProblem → Prop) (l l' : Limits) : Prop where
  loopRounds : ∀ done, cut (.runawayLoop done) ∧ l.loopRounds.any (· ≤ done) ∨
    l.loopRounds.any (· ≤ done) = l'.loopRounds.any (· ≤ done)
  callDepth : ∀ (calls : CallStack) f,
    (∃ problem, cut problem ∧ calls.push l.callDepth f = .error problem) ∨
      calls.push l.callDepth f = calls.push l'.callDepth f

theorem Limits.CutShort.refl {cut : EvalProblem → Prop} (l : Limits) : l.CutShort cut l :=
  ⟨fun _ => .inr rfl, fun _ _ => .inr rfl⟩

namespace Eval

/-- The step `x` does what `y` does, unless it is cut off. -/
def CutShort (cut : EvalProblem → Prop) (x y : Eval α) : Prop :=
  ∀ s, (x s).1.CutOff cut ∨ x s = y s

variable {cut : EvalProblem → Prop} {p : Program} {l : Limits} {ev ev' : Evaluator}

/-! ### Steps in general -/

theorem CutShort.refl (x : Eval α) : CutShort cut x x := fun _ => .inr rfl

theorem cutShort_outOfFuel (y : Eval α) : CutShort cut outOfFuel y := fun _ => .inl trivial

theorem CutShort.bind {x y : Eval α} {f g : α → Eval β} (hx : CutShort cut x y)
    (hf : ∀ a, CutShort cut (f a) (g a)) : CutShort cut (x >>= f) (y >>= g) := by
  intro s
  have hxs := hx s
  simp only [Bind.bind, Eval.bind]
  rcases hxs with hcut | heq
  · left
    cases hr : x s with
    | mk r t =>
      rw [hr] at hcut
      cases r with
      | value a => exact hcut.elim
      | interrupt i => cases i <;> exact hcut
      | outOfFuel => trivial
  · rw [← heq]
    cases x s with
    | mk r t =>
      cases r with
      | value a => exact hf a t
      | interrupt i => exact .inr rfl
      | outOfFuel => exact .inr rfl

theorem CutShort.located {x y : Eval α} (h : CutShort cut x y) (span : Span) :
    CutShort cut (located span x) (located span y) := by
  intro s
  rcases h s with hcut | heq
  · left
    simp only [Eval.located]
    cases hr : x s with
    | mk r t =>
      rw [hr] at hcut
      cases r with
      | interrupt i => cases i <;> exact hcut
      | _ => exact hcut
  · exact .inr (located_congr heq span)

theorem CutShort.inScope {x y : Eval α} (h : CutShort cut x y) :
    CutShort cut (inScope x) (inScope y) := fun s =>
  (h s.inScope).imp id inScope_congr

theorem CutShort.withBindings {x y : Eval α} (h : CutShort cut x y) (bs : Bindings) :
    CutShort cut (withBindings bs x) (withBindings bs y) :=
  ((CutShort.refl _).bind fun _ => h).inScope

theorem CutShort.inContext {x y : Eval α} (h : CutShort cut x y) (env : Environment)
    (l r : Option FrameId) : CutShort cut (inContext env l r x) (inContext env l r y) := fun _ =>
  (h _).imp id inContext_congr

theorem CutShort.withHandler {x y : Eval α} (h : CutShort cut x y) (f : HandlerFrame) :
    CutShort cut (withHandler f x) (withHandler f y) := fun s =>
  (h (s.install f)).imp id withHandler_congr

theorem CutShort.withOuterHandlers {x y : Eval α} (h : CutShort cut x y) (outer : Nat) :
    CutShort cut (withOuterHandlers outer x) (withOuterHandlers outer y) := fun _ =>
  (h _).imp id withOuterHandlers_congr

/-- A call takes up the `return` to it, which is no cut-off. -/
theorem CutShort.activation {x y : Eval Value} (h : CutShort cut x y) (frame : FrameId) :
    CutShort cut (activation frame x) (activation frame y) := by
  intro s
  rcases h s with hcut | heq
  · left
    simp only [Eval.activation]
    cases hr : x s with
    | mk r t =>
      rw [hr] at hcut
      cases r with
      | value v => exact hcut
      | outOfFuel => trivial
      | interrupt i =>
        cases i with
        | fault e => simpa only [Outcome.CutOff, CallStack.problem_attach] using hcut
        | breakTo _ _ => exact hcut
        | returnTo _ _ => exact hcut.elim
  · exact .inr (activation_congr heq)

/-! ### What the limits have no part in

Only calls and loops look at the limits. -/

section

variable (p : Program) (l : Limits)

@[simp] theorem checkArguments_withLimits :
    checkArguments (p.withLimits l) = checkArguments p := by
  funext params args
  induction params generalizing args with
  | nil => rfl
  | cons q params ih =>
    cases args with
    | nil => rfl
    | cons v args =>
      simp only [checkArguments, ih]
      rfl

@[simp] theorem fieldValues_withLimits : fieldValues (p.withLimits l) = fieldValues p := by
  funext fields args
  induction fields generalizing args with
  | nil => rfl
  | cons f fields ih =>
    cases args with
    | nil => rfl
    | cons v args =>
      simp only [fieldValues, ih]
      rfl

@[simp] theorem construct_withLimits : construct (p.withLimits l) = construct p := by
  funext type args
  simp only [construct, fieldValues_withLimits]
  rfl

@[simp] theorem bindImport_withLimits : bindImport (p.withLimits l) = bindImport p := by
  funext path items
  induction items with
  | nil => rfl
  | cons item items ih =>
    simp only [bindImport, ih]
    rfl

@[simp] theorem bindAllHoisted_withLimits :
    bindAllHoisted (p.withLimits l) = bindAllHoisted p := by
  funext ds
  induction ds with
  | nil => rfl
  | cons d ds ih =>
    simp only [bindAllHoisted, bindHoisted, bindImport_withLimits, ih]
    rfl

end

/-! ### Calls and causes -/

theorem cutShort_pushCall (hl : p.limits.CutShort cut l) (f : CallFrame) :
    CutShort cut (pushCall p f) (pushCall (p.withLimits l) f) := by
  intro s
  rcases hl.callDepth s.calls f with ⟨problem, hcut, hpush⟩ | heq
  · left
    simp only [pushCall, hpush]
    exact hcut
  · right
    simp only [pushCall, heq, Program.withLimits]

section

variable (hl : p.limits.CutShort cut l) (hev : ∀ id, CutShort cut (ev id) (ev' id))

include hev

include hl in
theorem cutShort_callValue (callee : Value) (args : List Value) (span : Span) :
    CutShort cut (callValue p ev callee args span)
      (callValue (p.withLimits l) ev' callee args span) := by
  cases callee with
  | closure c =>
    simp only [callValue, callClosure, checkArguments_withLimits]
    split
    · exact .refl _
    · refine (CutShort.refl _).bind fun _ => (cutShort_pushCall hl _).bind fun _ =>
        (CutShort.refl _).bind fun frame => (CutShort.refl _).bind fun env => ?_
      exact (((CutShort.refl _).bind fun _ => hev c.body).inContext env none _).activation frame
  | constructor type =>
    simp only [callValue, construct_withLimits]
    exact .refl _
  | _ => exact .refl _

theorem cutShort_cause (v : Value) :
    CutShort cut (cause p ev v) (cause (p.withLimits l) ev' v) := by
  unfold cause
  split
  · refine (CutShort.refl _).bind fun found => ?_
    cases found with
    | none => exact .refl _
    | some found =>
      obtain ⟨outer, f, bs⟩ := found
      refine CutShort.bind (CutShort.withOuterHandlers ?_ outer) fun _ => .refl _
      exact (CutShort.refl _).bind fun env =>
        CutShort.inContext ((CutShort.refl _).bind fun _ => hev f.body) env _ _
  · exact .refl _

/-! ### Declarations and statements -/

theorem cutShort_bindLet (d : DeclId) :
    CutShort cut (bindLet p ev d) (bindLet (p.withLimits l) ev' d) := by
  simp only [bindLet, Program.withLimits]
  cases (p.arena.decl d).kind with
  | binding n isVariable typeRef value => exact (hev value).bind fun v => .refl _
  | _ => exact .refl _

theorem cutShort_bindModule (ds : List DeclId) :
    CutShort cut (bindModule p ev ds) (bindModule (p.withLimits l) ev' ds) := by
  simp only [bindModule, bindAllHoisted_withLimits]
  refine (CutShort.refl _).bind fun _ => ?_
  induction ds with
  | nil => exact .refl _
  | cons d ds ih => exact (cutShort_bindLet hev d).bind fun _ => ih

theorem cutShort_stmts (last : Value) (body : List Code.Stmt) :
    CutShort cut (stmts p ev last body) (stmts (p.withLimits l) ev' last body) := by
  induction body generalizing last with
  | nil => exact .refl _
  | cons st rest ih =>
    simp only [stmts]
    split
    · exact (hev _).bind fun v => ih v
    · exact (cutShort_bindLet hev _).bind fun _ => ih _
    · exact (hev _).bind fun v => (CutShort.refl _).bind fun _ => ih _
    · exact (CutShort.refl _).bind fun f => (ih _).withHandler f

theorem cutShort_block (body : List Code.Stmt) :
    CutShort cut (block p ev body) (block (p.withLimits l) ev' body) := by
  simp only [block, bindAllHoisted_withLimits]
  exact ((CutShort.refl _).bind fun _ => cutShort_stmts hev _ body).inScope

/-! ### Branches and loops -/

theorem cutShort_arms (subject : Option Value) (options : List Code.Arm) :
    CutShort cut (arms p ev subject options) (arms (p.withLimits l) ev' subject options) := by
  induction options with
  | nil => exact .refl _
  | cons a rest ih =>
    simp only [arms]
    split
    · refine (hev _).bind fun v => (CutShort.refl _).bind fun b => ?_
      split
      · exact hev _
      · exact ih
    · split
      · exact .refl _
      · simp only [Program.withLimits]
        split
        · exact (hev _).withBindings _
        · exact ih
    · exact hev _

theorem cutShort_branch (subject : Option ExprId) (options : List Code.Arm) :
    CutShort cut (branch p ev subject options) (branch (p.withLimits l) ev' subject options) := by
  cases subject with
  | none => exact cutShort_arms hev _ _
  | some e => exact (hev e).bind fun v => cutShort_arms hev _ _

include hl in
/-- The fuel cuts a loop off as well, when it comes to the last round that the fuel allows. -/
theorem cutShort_rounds (frame : FrameId) (body : ExprId) {fuel fuel' : Nat} (hle : fuel ≤ fuel')
    (done ticks : Nat) :
    CutShort cut (rounds p ev frame body fuel done ticks)
      (rounds (p.withLimits l) ev' frame body fuel' done ticks) := by
  induction fuel generalizing fuel' done ticks with
  | zero => exact cutShort_outOfFuel _
  | succ fuel ih =>
    obtain ⟨fuel', rfl⟩ : ∃ k, fuel' = k + 1 := ⟨fuel' - 1, by omega⟩
    intro s
    simp only [rounds]
    generalize (if s.hostTicks = ticks then done else 0) = n
    rcases hl.loopRounds n with ⟨hcut, hstop⟩ | heq
    · rw [if_pos hstop]
      exact .inl hcut
    rw [show (p.withLimits l).limits = l from rfl, ← heq]
    by_cases hstop : p.limits.loopRounds.any (· ≤ n)
    · rw [if_pos hstop, if_pos hstop]
      exact .inr rfl
    rw [if_neg hstop, if_neg hstop]
    rcases hev body s with hcut | heq
    · left
      cases hr : ev body s with
      | mk r t =>
        rw [hr] at hcut
        cases r with
        | value v => exact hcut.elim
        | outOfFuel => trivial
        | interrupt i =>
          cases i with
          | fault e => exact hcut
          | breakTo _ _ => exact hcut.elim
          | returnTo _ _ => exact hcut.elim
    · rw [← heq]
      cases ev body s with
      | mk r t =>
        cases r with
        | value v => exact ih (by omega) (n + 1) s.hostTicks t
        | outOfFuel => exact .inr rfl
        | interrupt i => cases i <;> exact .inr rfl

include hl in
theorem cutShort_loop {fuel fuel' : Nat} (hle : fuel ≤ fuel') (body : ExprId) :
    CutShort cut (loop p ev fuel body) (loop (p.withLimits l) ev' fuel' body) := by
  refine (CutShort.refl _).bind fun frame s => ?_
  rcases cutShort_rounds hl hev frame body hle 0 s.hostTicks { s with loopTarget := some frame }
    with hcut | heq
  · exact .inl hcut
  · right
    dsimp only
    rw [heq]

/-! ### Expressions -/

theorem cutShort_arguments (es : List ExprId) :
    CutShort cut (arguments ev es) (arguments ev' es) := by
  induction es with
  | nil => exact .refl _
  | cons e es ih => exact (hev e).bind fun v => ih.bind fun vs => .refl _

theorem cutShort_optional (e : Option ExprId) : CutShort cut (optional ev e) (optional ev' e) := by
  cases e with
  | none => exact .refl _
  | some e => exact hev e

include hl in
/-- Every construct is cut short if its parts are. -/
theorem cutShort_node {fuel fuel' : Nat} (hle : fuel ≤ fuel') (id : ExprId) :
    CutShort cut (node p ev fuel id) (node (p.withLimits l) ev' fuel' id) := by
  simp only [node, show (p.withLimits l).arena = p.arena from rfl]
  cases (p.arena.expr id).kind with
  | group inner => exact (hev inner).located _
  | block body => exact (cutShort_block hev body).located _
  | branch subject options => exact (cutShort_branch hev subject options).located _
  | loop body => exact (cutShort_loop hl hev hle body).located _
  | cause payload => exact (hev payload).bind fun v => (cutShort_cause hev v).located _
  | ret value => exact (cutShort_optional hev value).bind fun _ => .refl _
  | brk value => exact (cutShort_optional hev value).bind fun _ => .refl _
  | call callee args =>
    exact (hev callee).bind fun f => (cutShort_arguments hev args).bind fun vs =>
      (cutShort_callValue hl hev f vs _).located _
  | member receiver field => exact (hev receiver).bind fun v => .refl _
  | pipe subject callee args =>
    exact (hev subject).bind fun v => (hev callee).bind fun f =>
      (cutShort_arguments hev args).bind fun vs => (cutShort_callValue hl hev f _ _).located _
  | function params result body => exact .refl _
  | string text => exact .refl _
  | number n => exact .refl _
  | ident n => exact .refl _

end

/-- **Less fuel and lower limits cut an evaluation short.** -/
theorem expr_cutShort (hl : p.limits.CutShort cut l) {fuel fuel' : Nat} (hle : fuel ≤ fuel')
    (id : ExprId) : CutShort cut (expr p fuel id) (expr (p.withLimits l) fuel' id) := by
  induction fuel generalizing fuel' id with
  | zero => exact cutShort_outOfFuel _
  | succ fuel ih =>
    obtain ⟨fuel', rfl⟩ : ∃ k, fuel' = k + 1 := ⟨fuel' - 1, by omega⟩
    exact cutShort_node hl (fun id => ih (by omega) id) (by omega) id

end Eval

/-! ### Interpreters -/

namespace Interpreter

variable {cut : EvalProblem → Prop} {i : Interpreter} {l : Limits}

/-- An interpreter with other limits. -/
def withLimits (i : Interpreter) (l : Limits) : Interpreter :=
  { i with program := i.program.withLimits l }

theorem load_cutShort (hl : i.program.limits.CutShort cut l) (m : Module) {fuel fuel' : Nat}
    (hle : fuel ≤ fuel') : (i.load m fuel).1.CutOff cut ∨
      (i.withLimits l).load m fuel' = ((i.load m fuel).1, (i.load m fuel).2.withLimits l) := by
  have hload := Eval.cutShort_bindModule (p := i.program) (l := l)
    (fun id => Eval.expr_cutShort hl hle id) m.decls i.machine
  refine hload.imp Outcome.CutOff.settle fun heq => ?_
  simp only [load, run, heq]
  rfl

theorem call_cutShort (hl : i.program.limits.CutShort cut l) (name : String) (args : List Value)
    {fuel fuel' : Nat} (hle : fuel ≤ fuel') : (i.call name args fuel).1.CutOff cut ∨
      (i.withLimits l).call name args fuel' =
        ((i.call name args fuel).1, (i.call name args fuel).2.withLimits l) := by
  simp only [call, show (i.withLimits l).lookup? name = i.lookup? name from rfl]
  cases i.lookup? name with
  | none => exact .inr rfl
  | some callee =>
    have hcall := Eval.cutShort_callValue (p := i.program) hl
      (fun id => Eval.expr_cutShort hl hle id) callee args .dummy i.machine
    refine hcall.imp Outcome.CutOff.settle fun heq => ?_
    simp only [run, heq]
    rfl

end Interpreter

end SignalLang
