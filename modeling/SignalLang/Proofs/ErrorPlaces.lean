import SignalLang.Proofs.Failures

/-!
# The places of errors

An error points at an expression.  Where it was created with a place, as by `set`, by a `let`, by an
arm or by an import, it keeps that one.  Elsewhere the evaluations that it leaves give it a place,
and the first of them that does so decides.

* `innermostPlace? p ms` : the place of the innermost expression that is evaluated.
* `surroundingPlace? p ms` : the place of the innermost expression of which the first of the
  evaluations in progress is a part, other than as an operand of a cause, a jump, a call, a field
  access or a pipe.
* `Interpreter.place_of_error` : **an error without a place gets that of the innermost expression**,
  except for a `break` or `return` without a target, which gets the place of an expression around
  it.
-/

namespace SignalLang

variable {p : Program}

/-- The place of the innermost expression that is evaluated. -/
def innermostPlace? (p : Program) (ms : List Moment) : Option Span :=
  (ms.findSome? fun m => m.task.expr?).map fun id => (p.arena.expr id).span

/-- The place that the evaluations in progress give to an error of the first of them: that of the
innermost expression around it that does not let the errors of an operand pass by. -/
def surroundingPlace? (p : Program) : List Moment → Option Span
  | m' :: m :: ms => (m.placeOf? p m'.task).or (surroundingPlace? p (m :: ms))
  | _ => none

/-- The first place that an error gets on its way is the one that it keeps. -/
theorem span_carried (ms : List Moment) (e : EvalError) :
    (carried p ms e).span = e.span.or (surroundingPlace? p ms) := by
  induction ms generalizing e with
  | nil => exact Option.or_none.symm
  | cons m' ms ih =>
    cases ms with
    | nil => exact Option.or_none.symm
    | cons m ms =>
      have hforward : (m.forward p m' e).span = e.span.or (m.placeOf? p m'.task) := by
        unfold Moment.forward
        split
        · rename_i hm
          rw [CallStack.span_attach, Moment.placeOf?_eq_none (by rw [hm]; rfl), Option.or_none]
        · exact e.span_placed _
      rw [carried, ih, hforward, surroundingPlace?, Option.or_assoc]

/-- What is evaluated for an expression, but is none itself, leaves its errors to this expression.
-/
theorem surroundingPlace?_eq {m : Moment} {ms : List Moment} (hm : m.task.expr? = none) :
    surroundingPlace? p (m :: ms) = innermostPlace? p (m :: ms) := by
  induction ms generalizing m with
  | nil => simp [surroundingPlace?, innermostPlace?, hm]
  | cons m₁ ms ih =>
    have hinner : innermostPlace? p (m :: m₁ :: ms) = innermostPlace? p (m₁ :: ms) := by
      simp only [innermostPlace?, List.findSome?_cons, hm]
    rw [surroundingPlace?, hinner]
    cases htask : m₁.task.expr? with
    | none => rw [Moment.placeOf?_eq_none htask, Option.none_or, ih htask]
    | some id =>
      have hplace : m₁.placeOf? p m.task = some (p.arena.expr id).span := by
        simp only [Moment.placeOf?]
        cases hexpr : m₁.task <;> cases hpart : m.task <;> simp_all [Task.expr?]
      simp [hplace, innermostPlace?, htask]

/-- Whatever an expression raises gets its place, except for what a `break` or `return` does. -/
theorem Raises.ownPlace?_eq {m : Moment} {t : Machine} {e : EvalError} (h : Raises p m t e)
    (hescape : e.problem.isEscape = false) :
    m.ownPlace? p = m.task.expr?.map fun id => (p.arena.expr id).span := by
  cases h with
  | jump _ _ _ => cases hescape
  | hoisted hk _ | ident hk _ | member hk _ _ | runaway hk _ =>
    simp only [Moment.ownPlace?, hk]
    rfl
  | _ => rfl

/-- A `break` or `return` gives no place to its error, nor does the call of a native function. -/
theorem Raises.ownPlace?_eq_none {m : Moment} {t : Machine} {e : EvalError} (h : Raises p m t e)
    (hescape : e.problem.isEscape) : m.ownPlace? p = none := by
  rcases h.ofStep with ⟨id, value, j, htask, hk, rfl⟩ | hplain | hhost
  · cases j <;> simp only [Moment.ownPlace?, htask, hk, Jump.exprKind]
  · rw [hplain.problem] at hescape
    cases hescape
  · cases hhost
    rfl

namespace Interpreter

/-- **An error points at the innermost expression that was evaluated when it was created, unless it
was created with a place or by a `break` or `return`.**  Every error in which loading a module or
calling a function ends was created in its course with some evaluations in progress, and every error
that is created there reaches the caller, with the place that it was created with, if any, else with
that of the innermost expression in progress.  Only a `break` or `return` without a target is no
such expression: its error gets the place of the innermost expression of which it is no operand. -/
theorem place_of_error (i : Interpreter) (u : Use) :
    (∀ e, i.error? u = some e → ∃ ms t e₀, i.Creates u ms t e₀) ∧
    ∀ ms t e₀, i.Creates u ms t e₀ → ∃ e, i.error? u = some e ∧
      e.span = e₀.span.or (if e₀.problem.isEscape then surroundingPlace? i.program ms
        else innermostPlace? i.program ms) := by
  refine ⟨fun e h => ?_, fun ms t e₀ h => ⟨_, h.error?_eq, ?_⟩⟩
  · obtain ⟨ms, t, e₀, hcreates, -⟩ := error?_iff_creates.1 h
    exact ⟨ms, t, e₀, hcreates⟩
  cases h with
  | @raised u root x ms t e₀ hu hms hraise =>
    show (carried i.program (x :: ms) _).span = _
    rw [span_carried, EvalError.span_placed]
    cases hescape : e₀.problem.isEscape with
    | true =>
      simp [hraise.ownPlace?_eq_none hescape]
    | false =>
      rw [hraise.ownPlace?_eq hescape, Option.or_assoc]
      cases htask : x.task.expr? with
      | none => simp [surroundingPlace?_eq htask]
      | some id => simp [innermostPlace?, htask]
  | hoisted h =>
    rw [((Eval.plain_bindAllHoisted _).ofStep h).problem]
    exact Option.or_none.symm
  | unbound h => rfl
  | stray hu h hj => rfl

/-- `let x = { break }` -/
def breakingOut : Module :=
  ⟨"", [⟨0⟩], ⟨#[⟨.brk none, ⟨10, 15⟩⟩, ⟨.block [⟨.expr ⟨0⟩, ⟨10, 15⟩⟩], ⟨8, 17⟩⟩],
    #[⟨.binding .empty false none ⟨1⟩, ⟨0, 17⟩⟩], #[]⟩⟩

/-- The interpreter of `breakingOut`. -/
def outsideLoops : Interpreter :=
  .new breakingOut.arena .new (.builtin .new 0) ⟨default, none, none⟩ .empty

/-- The error of the `break` points at the block around it. -/
theorem breakingOut_place :
    ∃ ms t e₀ e, outsideLoops.Creates (.load breakingOut 9) ms t e₀ ∧
      innermostPlace? outsideLoops.program ms = some ⟨10, 15⟩ ∧
      outsideLoops.error? (.load breakingOut 9) = some e ∧ e.span = some ⟨8, 17⟩ := by
  have h : InProgress outsideLoops.program ⟨9, .lets breakingOut.decls, outsideLoops.machine⟩ [_] :=
    .root
  have h := h.enter (.letValue rfl)
  have h := h.enter (.block rfl rfl)
  have h := h.enter (.stmt rfl)
  have hcreates := Creates.raised (.load rfl) h (.jump (j := .brk) rfl rfl rfl)
  obtain ⟨e, herror, hspan⟩ := (place_of_error outsideLoops (.load breakingOut 9)).2 _ _ _ hcreates
  exact ⟨_, _, _, e, hcreates, rfl, herror, hspan⟩

end Interpreter

end SignalLang
