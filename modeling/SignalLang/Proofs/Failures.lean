import SignalLang.Proofs.Origins

/-!
# Failures

An interpreter that loads a module or calls a function can end in an error.  This file says where
such an error was created, and that what is created anywhere in the course of it is what the caller
gets.

* `Raises.ofStep`, `Raises.calls` : an error that is raised knows nothing of the calls around it,
  unless a function of the host raises it.
* `Interpreter.Use`, `Interpreter.error?` : a use of an interpreter, and the error it ends in.
* `Interpreter.Creates i u ms t e` : in the course of the use `u` the error `e` is created, at the
  machine `t`, with the evaluations `ms` in progress.
* `Interpreter.error?_iff_creates` : **a use ends in an error exactly if one is created**, and in
  the one that this becomes on its way.
-/

namespace SignalLang

/-! ### Errors that are raised -/

variable {p : Program}

/-- The active calls behind a step are those from before it. -/
theorem Eval.Balanced.calls_eq {x : Eval α} (hx : Eval.Balanced x) {s t : Machine} {r : Outcome α}
    (h : x s = (r, t)) : t.calls = s.calls := by
  have hcalls := (hx s).calls
  rwa [h] at hcalls

theorem RoundBegins.calls_eq {ev : Evaluator} (hev : ∀ id, Eval.Balanced (ev id)) {body : ExprId}
    {fuel done ticks : Nat} {s t : Machine} (h : RoundBegins p ev body fuel done ticks s t) :
    t.calls = s.calls := by
  induction h with
  | this _ => rfl
  | later _ hv _ ih => exact ih.trans ((hev body).calls_eq hv)

theorem Runaway.calls_eq {ev : Evaluator} (hev : ∀ id, Eval.Balanced (ev id)) {body : ExprId}
    {fuel done ticks rounds : Nat} {s t : Machine}
    (h : Runaway p ev body fuel done ticks s t rounds) : t.calls = s.calls := by
  induction h with
  | this _ => rfl
  | later _ hv _ ih => exact ih.trans ((hev body).calls_eq hv)

/-- A native function is called at a moment, and the function of the host behind it raises an
error. -/
inductive Moment.HostRaises (p : Program) : Moment → EvalError → Prop
  | intro {n f args span s e} (h : f.HostGives p.functions args (.error e)) :
    HostRaises p ⟨n, .call (.native f) args span, s⟩ e

namespace Raises

variable {m : Moment} {t : Machine} {e : EvalError}

/-- Either a `break` or `return` has no target, or nothing but the problem and perhaps the place of
the error is known, or a function of the host raises it. -/
theorem ofStep (h : Raises p m t e) :
    (∃ id value, ∃ j : Jump, m.task = .expr id ∧ (p.arena.expr id).kind = j.exprKind value ∧
      e = .new .escapedControlFlow) ∨ e.OfStep ∨ m.HostRaises p e := by
  cases h with
  | jump hk _ _ => exact .inl ⟨_, _, _, rfl, hk, rfl⟩
  | hoisted _ h => exact .inr (.inl ((Eval.plain_bindAllHoisted _).ofStep h))
  | ident _ _ | member _ _ _ | runaway _ _ | condition _ _ _ | subject _ | arity _ =>
    exact .inr (.inl ⟨rfl, rfl, rfl⟩)
  | @set _ _ _ _ _ _ _ _ _ _ err => cases err <;> exact .inr (.inl ⟨rfl, rfl, rfl⟩)
  | declared _ _ _ h => exact .inr (.inl ((Eval.plain_checkDeclared _ _ _).ofStep h))
  | declaredIn _ _ h => exact .inr (.inl ((Eval.plain_checkDeclared _ _ _).ofStep h))
  | argument _ h => exact .inr (.inl ((Eval.plain_checkArguments _ _).ofStep h))
  | @depth _ c _ span s problem _ _ h =>
    have hpush : Eval.Stops (Eval.pushCall p ⟨Eval.callName p c, some span⟩) t
        (.fault (.new problem)) := by
      simp only [Eval.Stops, Eval.pushCall, h]
    exact .inr (.inl ((Eval.plain_pushCall _).ofStep hpush))
  | @callee n callee args span s e hc h =>
    by_cases hf : ∃ f, callee = .native f
    · obtain ⟨f, rfl⟩ := hf
      exact .inr ((Eval.ofStep_or_of_callNative h).imp_right fun he => .intro he)
    · exact .inr (.inl ((Eval.plain_callValue hc (fun f h => hf ⟨f, h⟩) _ _).ofStep h))
  | unanswered hm h => exact .inr (.inl (Eval.ofStep_of_cause hm h))
  | resumed _ _ h => exact .inr (.inl ((Eval.plain_resume _ _).ofStep h))

/-- The active calls are those of the evaluation. -/
theorem calls (h : Raises p m t e) : t.calls = m.machine.calls := by
  have hev := fun n id => Eval.balanced_expr (p := p) n id
  cases h with
  | hoisted _ _ | ident _ _ | subject _ | arity _ | argument _ _ | depth _ _ _ | callee _ _
  | unanswered _ _ => rfl
  | member _ hv _ => exact (hev _ _).calls_eq hv
  | jump _ hv _ => exact (Eval.balanced_optional (hev _) _).calls_eq hv
  | runaway _ h => exact h.calls_eq (hev _)
  | set _ hv _ => exact (hev _ _).calls_eq hv
  | declared _ _ hv _ => exact (hev _ _).calls_eq hv
  | declaredIn _ hv _ => exact (hev _ _).calls_eq hv
  | condition _ hv _ => exact (hev _ _).calls_eq hv
  | resumed _ hv _ => exact (Eval.balanced_runHandler (hev _) _ _ _).calls_eq hv

end Raises

/-! ### Errors on their way -/

/-- An error passes every step into an evaluation. -/
theorem Enters.stops_fault {m m' : Moment} {k : Option ActivityKind} {e : EvalError}
    (h : Enters p m k m') (hs : m'.Stops p (.fault e)) :
    m.Stops p (.fault (m.forward p m' e)) := by
  cases k with
  | none => exact h.stops hs
  | some k =>
    have hresult := h.result_of_stops hs
    exact hresult

/-- **An error leaves all evaluations in progress.** -/
theorem InProgress.stops {root m : Moment} {ms : List Moment} {e : EvalError}
    (h : InProgress p root (m :: ms)) (hs : m.Stops p (.fault e)) :
    root.Stops p (.fault (carried p (m :: ms) e)) := by
  generalize hpath : m :: ms = path at h
  induction h generalizing m ms e with
  | root => cases hpath; exact hs
  | enter _ hstep ih =>
    cases hpath
    exact ih (hstep.stops_fault hs) rfl

@[simp] theorem EvalError.problem_placed (e : EvalError) (place : Option Span) :
    (e.placed place).problem = e.problem := by
  cases place <;> rfl

@[simp] theorem EvalError.notes_placed (e : EvalError) (place : Option Span) :
    (e.placed place).notes = e.notes := by
  cases place <;> rfl

@[simp] theorem EvalError.backtrace_placed (e : EvalError) (place : Option Span) :
    (e.placed place).backtrace = e.backtrace := by
  cases place <;> rfl

@[simp] theorem EvalError.span_placed (e : EvalError) (place : Option Span) :
    (e.placed place).span = e.span.or place := by
  cases place <;> cases hs : e.span <;> simp [placed, withSpanIfNone, hs]

theorem CallStack.notes_attach (c : CallStack) (e : EvalError) : (c.attach e).notes = e.notes := by
  unfold attach
  split <;> rfl

theorem CallStack.span_attach (c : CallStack) (e : EvalError) : (c.attach e).span = e.span := by
  unfold attach
  split <;> rfl

/-- What went wrong, and the signal that is kept, stay the same on the way. -/
theorem problem_carried (ms : List Moment) (e : EvalError) :
    (carried p ms e).problem = e.problem := by
  induction ms generalizing e with
  | nil => rfl
  | cons m' ms ih =>
    cases ms with
    | nil => rfl
    | cons m ms =>
      rw [carried, ih]
      unfold Moment.forward
      split
      · exact CallStack.problem_attach _ _
      · exact e.problem_placed _

theorem notes_carried (ms : List Moment) (e : EvalError) : (carried p ms e).notes = e.notes := by
  induction ms generalizing e with
  | nil => rfl
  | cons m' ms ih =>
    cases ms with
    | nil => rfl
    | cons m ms =>
      rw [carried, ih]
      unfold Moment.forward
      split
      · exact CallStack.notes_attach _ _
      · exact e.notes_placed _

/-! ### Uses of an interpreter -/

/-- The error that an outcome is where no `break` or `return` may pass. -/
def Outcome.error? : Outcome α → Option EvalError
  | .interrupt i => some i.toError
  | _ => none

theorem Outcome.error?_settle (r : Outcome α) : r.settle.error? = r.error? := by
  cases r <;> rfl

theorem Outcome.error?_eq_some_iff {r : Outcome α} {e : EvalError} :
    r.error? = some e ↔ r = .interrupt (.fault e) ∨
      ∃ i, r = .interrupt i ∧ i.isFault = false ∧ e = .new .escapedControlFlow := by
  cases r with
  | interrupt i =>
    cases i with
    | fault e' => simp [error?, Interrupt.toError, Interrupt.isFault]
    | _ => simp [error?, Interrupt.toError, Interrupt.isFault, @eq_comm _ e]
  | _ => simp [error?]

namespace Interpreter

/-- A use of an interpreter. -/
inductive Use where
  | load (m : Module) (fuel : Nat)
  | call (name : String) (args : List Value) (fuel : Nat)

/-- The error that a use ends in. -/
def error? (i : Interpreter) : Use → Option EvalError
  | .load m fuel => (i.load m fuel).1.error?
  | .call name args fuel => (i.call name args fuel).1.error?

/-- The moment at which a use begins to evaluate. -/
inductive Begins (i : Interpreter) : Use → Moment → Prop
  /-- The hoisted declarations of the module are bound, its `let`s come next. -/
  | load {m fuel s} (h : Eval.bindAllHoisted i.program m.decls i.machine = (.value (), s)) :
      Begins i (.load m fuel) ⟨fuel, .lets m.decls, s⟩
  | call {name args fuel callee} (h : i.lookup? name = some callee) :
      Begins i (.call name args fuel) ⟨fuel, .call callee args .dummy, i.machine⟩

/-- In the course of a use an error is created, at the machine `t`, with some evaluations in
progress, the innermost first. -/
inductive Creates (i : Interpreter) : Use → List Moment → Machine → EvalError → Prop
  | raised {u root x ms t e} (hu : i.Begins u root)
      (hms : InProgress i.program root (x :: ms)) (h : Raises i.program x t e) :
      Creates i u (x :: ms) t e
  /-- A hoisted declaration of the module cannot be bound. -/
  | hoisted {m fuel e}
      (h : Eval.Stops (Eval.bindAllHoisted i.program m.decls) i.machine (.fault e)) :
      Creates i (.load m fuel) [] i.machine e
  /-- Nothing is bound to the name of the function. -/
  | unbound {name args fuel} (h : i.lookup? name = none) :
      Creates i (.call name args fuel) [] i.machine (.new (.unboundName name))
  /-- A `break` or `return` leaves everything there is. -/
  | stray {u root j} (hu : i.Begins u root) (h : root.Stops i.program j)
      (hj : j.isFault = false) :
      Creates i u [] (root.result i.program).2 (.new .escapedControlFlow)

/-- What the caller gets of an error that was created with some evaluations in progress. -/
def reported (p : Program) : List Moment → EvalError → EvalError
  | [], e => e
  | x :: ms, e => carried p (x :: ms) (e.placed (x.ownPlace? p))

variable {i : Interpreter} {u : Use} {e : EvalError}

/-- A use that has begun to evaluate ends in the error in which the evaluation ends. -/
theorem Begins.error?_eq {root : Moment} (h : i.Begins u root) :
    i.error? u = (root.result i.program).1.error? := by
  cases h with
  | @load m fuel s h =>
    have hload : (i.load m fuel).1 =
        (Eval.bindAllLets i.program (Eval.expr i.program fuel) m.decls s).1.settle := by
      simp only [Interpreter.load, run, Eval.bindModule, Eval.bind_of_value h]
    simp only [error?, hload, Outcome.error?_settle, Moment.result, Task.eval, Bind.bind, Eval.bind]
    cases hr : Eval.bindAllLets i.program (Eval.expr i.program fuel) m.decls s with
    | mk r t => cases r <;> rfl
  | @call name args fuel callee h =>
    simp only [error?, Interpreter.call, h, run, Outcome.error?_settle]
    rfl

/-- Where no evaluation begins, an error is created before. -/
theorem begins_or_creates (h : i.error? u = some e) :
    (∃ root, i.Begins u root) ∨ i.Creates u [] i.machine e := by
  cases u with
  | load m fuel =>
    cases hr : Eval.bindAllHoisted i.program m.decls i.machine with
    | mk r s =>
      have hload : i.error? (.load m fuel) = (Eval.bindModule i.program
          (Eval.expr i.program fuel) m.decls i.machine).1.error? := Outcome.error?_settle _
      simp only [hload, Eval.bindModule, Bind.bind, Eval.bind, hr] at h
      cases r with
      | value _ => exact .inl ⟨_, .load hr⟩
      | interrupt j =>
        have hstops : Eval.Stops (Eval.bindAllHoisted i.program m.decls) i.machine j := by
          rw [Eval.Stops, hr]
        obtain ⟨e', rfl, -⟩ := Eval.plain_bindAllHoisted _ _ _ hstops
        cases h
        exact .inr (.hoisted hstops)
      | outOfFuel => cases h
  | call name args fuel =>
    cases hlookup : i.lookup? name with
    | none =>
      simp only [error?, Interpreter.call, hlookup, Outcome.error?, Interrupt.toError,
        Option.some.injEq] at h
      subst h
      exact .inr (.unbound hlookup)
    | some callee => exact .inl ⟨_, .call hlookup⟩

/-- What is created in the course of a use is what its caller gets. -/
theorem Creates.error?_eq {ms : List Moment} {t : Machine} {e₀ : EvalError}
    (h : i.Creates u ms t e₀) : i.error? u = some (reported i.program ms e₀) := by
  cases h with
  | raised hu hms h =>
    rw [hu.error?_eq]
    exact congrArg Outcome.error? (hms.stops h.stops)
  | @hoisted m fuel e₀ h =>
    have h : Eval.Stops (Eval.bindModule i.program (Eval.expr i.program fuel) m.decls) i.machine
      (.fault e₀) := h.bind_left
    show (i.load m fuel).1.error? = _
    exact (Outcome.error?_settle _).trans (congrArg Outcome.error? h)
  | unbound h => simp only [error?, Interpreter.call, h]; rfl
  | stray hu h hj =>
    rw [hu.error?_eq, Outcome.error?_eq_some_iff]
    exact .inr ⟨_, h, hj, rfl⟩

/-- **A use ends in an error exactly if one is created in its course**, and in what becomes of that
error on its way. -/
theorem error?_iff_creates :
    i.error? u = some e ↔ ∃ ms t e₀, i.Creates u ms t e₀ ∧ e = reported i.program ms e₀ := by
  constructor
  · intro h
    rcases begins_or_creates h with ⟨root, hu⟩ | hcreates
    · rw [hu.error?_eq, Outcome.error?_eq_some_iff] at h
      rcases h with hfault | ⟨j, hj, hisFault, rfl⟩
      · obtain ⟨ms, x, t, e₀, hms, hraise⟩ := Moment.exists_raises (p := i.program) hfault
        have hcreates : i.Creates u (x :: ms) t e₀ := .raised hu hms hraise
        -- the evaluation ends only once, so this is the error in question
        have hsame : Outcome.interrupt (.fault e) = .interrupt (.fault _) :=
          hfault.symm.trans (hms.stops hraise.stops)
        cases hsame
        exact ⟨_, t, e₀, hcreates, rfl⟩
      · exact ⟨[], _, _, .stray hu hj hisFault, rfl⟩
    · exact ⟨[], _, e, hcreates, rfl⟩
  · rintro ⟨ms, t, e₀, hcreates, rfl⟩
    exact hcreates.error?_eq

end Interpreter

end SignalLang
