import SignalLang.Proofs.Moments
import SignalLang.Proofs.Operands

/-!
# Unwinding

A `break` or `return` leaves everything between itself and its target, and an error everything there
is.  This file follows them on their way out of an evaluation.

* `Eval.Stops` : a step stops with an interrupt; the lemmas behind it say what a step makes of the
  interrupt of one of its parts.
* `Moment.handOn` : what an evaluation makes of the interrupt of a part.  An error gets a place and
  a record of the active calls on its way, a `break` or `return` stays as it is.
* `Enters.stops`, `Enters.result_of_stops` : one step of the way, out of a part and out of an
  activity.
* `Reaches.result_of_stops` : **an unwind leaves one activity after the other, up to the first that
  catches it**, which ends with the value that the unwind carries.
-/

namespace SignalLang

/-- What becomes of a loop when an unwind comes out of a round. -/
def Interrupt.outOfRound (frame : FrameId) : Interrupt → Outcome Value
  | .breakTo target v => if target = frame then .value v else .interrupt (.breakTo target v)
  | i => .interrupt i

/-- What becomes of a call when an unwind comes out of its body. -/
def Interrupt.outOfBody (frame : FrameId) : Interrupt → Outcome Value
  | .returnTo target v => if target = frame then .value v else .interrupt (.returnTo target v)
  | i => .interrupt i

/-! ### What is handed on -/

/-- The expression that a task evaluates. -/
def Task.expr? : Task → Option ExprId
  | .expr id => some id
  | _ => none

/-- The place that an expression gives to the errors of its operands.  Those of the operands of a
cause, a jump, a call, a field access or a pipe pass by. -/
def Code.Expr.operandPlace? (e : Code.Expr) : Option Span :=
  match e.kind with
  | .cause _ | .ret _ | .brk _ | .call _ _ | .member _ _ | .pipe _ _ _ => none
  | _ => some e.span

/-- The error with a place, if there is one to give and it has none yet. -/
def EvalError.placed (e : EvalError) : Option Span → EvalError
  | some span => e.withSpanIfNone span
  | none => e

/-- The place that the evaluation of a moment gives to the errors of a part: none but expressions
give one. -/
def Moment.placeOf? (p : Program) (m : Moment) (part : Task) : Option Span :=
  match m.task, part with
  | .expr id, .expr _ => (p.arena.expr id).operandPlace?
  | .expr id, _ => some (p.arena.expr id).span
  | _, _ => none

/-- What becomes of an error of the part `m'`.  The body of a call leaves with a record of the
active calls. -/
def Moment.forward (p : Program) (m m' : Moment) (e : EvalError) : EvalError :=
  match m.task with
  | .call _ _ _ => m'.machine.calls.attach e
  | _ => e.placed (m.placeOf? p m'.task)

/-- What becomes of an interrupt of the part `m'`. -/
def Moment.handOn (p : Program) (m m' : Moment) : Interrupt → Interrupt
  | .fault e => .fault (m.forward p m' e)
  | i => i

/-- The interrupt with a place, if it is an error and there is one to give. -/
def Interrupt.placed (place : Option Span) : Interrupt → Interrupt
  | .fault e => .fault (e.placed place)
  | i => i

@[simp] theorem Interrupt.placed_none (i : Interrupt) : i.placed none = i := by
  cases i <;> rfl

@[simp] theorem Interrupt.placed_some (i : Interrupt) (span : Span) :
    i.placed (some span) = i.withSpan span := by
  cases i <;> rfl

/-- The interrupt with a record of the active calls, if it is an error. -/
def Interrupt.recorded (calls : CallStack) : Interrupt → Interrupt
  | .fault e => .fault (calls.attach e)
  | i => i

namespace Moment

variable {p : Program} {m m' : Moment} {i : Interrupt}

theorem handOn_of_isFault (hi : i.isFault = false) : m.handOn p m' i = i := by
  cases i with
  | fault e => cases hi
  | _ => rfl

/-- Out of a call. -/
theorem handOn_call {callee : Value} {args : List Value} {span : Span}
    (h : m.task = .call callee args span) : m.handOn p m' i = i.recorded m'.machine.calls := by
  cases i <;> simp [handOn, forward, h, Interrupt.recorded]

theorem placeOf?_eq_none {part : Task} (h : m.task.expr? = none) : m.placeOf? p part = none := by
  unfold placeOf?
  split <;> rename_i hm <;> simp_all [Task.expr?]

/-- Out of anything but a call. -/
theorem handOn_of_ne_call (h : ∀ callee args span, m.task ≠ .call callee args span) :
    m.handOn p m' i = i.placed (m.placeOf? p m'.task) := by
  cases i with
  | fault e =>
    cases hm : m.task with
    | call callee args span => exact absurd hm (h _ _ _)
    | _ => simp only [handOn, forward, hm, Interrupt.placed]
  | _ => rfl

end Moment

/-! ### How a step stops -/

namespace Eval

variable {p : Program} {ev : Evaluator}

/-- From the machine `s`, the step stops with an interrupt. -/
def Stops (x : Eval α) (s : Machine) (i : Interrupt) : Prop := (x s).1 = .interrupt i

theorem stops_bind_iff {x : Eval α} {f : α → Eval β} {s : Machine} {i : Interrupt} :
    Stops (x >>= f) s i ↔ Stops x s i ∨ ∃ a s', x s = (.value a, s') ∧ Stops (f a) s' i := by
  simp only [Stops, Bind.bind, Eval.bind]
  cases hr : x s with
  | mk r s' => cases r <;> simp

theorem Stops.bind_left {x : Eval α} {f : α → Eval β} {s : Machine} {i : Interrupt}
    (h : Stops x s i) : Stops (x >>= f) s i := stops_bind_iff.2 (.inl h)

theorem stops_bind_right {x : Eval α} {f : α → Eval β} {s s' : Machine} {a : α} {i : Interrupt}
    (hx : x s = (.value a, s')) (h : Stops (f a) s' i) : Stops (x >>= f) s i :=
  stops_bind_iff.2 (.inr ⟨a, s', hx, h⟩)

/-- A place is given to errors only. -/
theorem Stops.located {x : Eval α} {s : Machine} {i : Interrupt} (h : Stops x s i) (span : Span) :
    Stops (located span x) s (i.withSpan span) := by
  simp only [Stops, Eval.located] at h ⊢
  cases hx : x s with
  | mk r t =>
    rw [hx] at h
    cases h; rfl

theorem located_of_value {x : Eval α} {s : Machine} {a : α} (h : (x s).1 = .value a) (span : Span) :
    (located span x s).1 = .value a := by
  simp only [Eval.located]
  cases hx : x s with
  | mk r t =>
    rw [hx] at h
    cases h
    rfl

theorem located_outOfRound {x : Eval Value} {s : Machine} {i : Interrupt} {frame : FrameId}
    (h : (x s).1 = i.outOfRound frame) (span : Span) :
    (Eval.located span x s).1 = (i.withSpan span).outOfRound frame := by
  cases i with
  | fault e => exact Stops.located h span
  | returnTo target v => exact Stops.located h span
  | breakTo target v =>
    show _ = (Interrupt.breakTo target v).outOfRound frame
    by_cases ht : target = frame
    · simp only [Interrupt.outOfRound, if_pos ht] at h ⊢
      exact located_of_value h span
    · simp only [Interrupt.outOfRound, if_neg ht] at h ⊢
      exact Stops.located h span

/-! ### Operands in order -/

theorem not_stops_arguments_nil {s : Machine} {i : Interrupt} :
    ¬ Stops (arguments ev []) s i := by
  intro h; cases h

theorem stops_arguments_cons_iff {e : ExprId} {es : List ExprId} {s : Machine} {i : Interrupt} :
    Stops (arguments ev (e :: es)) s i ↔
      Stops (ev e) s i ∨ ∃ v s', ev e s = (.value v, s') ∧ Stops (arguments ev es) s' i := by
  simp only [arguments, stops_bind_iff]
  refine or_congr_right (exists₂_congr fun v s' => and_congr_right fun _ => ?_)
  constructor
  · rintro (h | ⟨_, _, _, h⟩)
    · exact h
    · cases h
  · exact .inl

theorem stops_arguments_append {pre post : List ExprId} {e : ExprId} {s s' : Machine}
    {vs : List Value} {i : Interrupt} (hpre : arguments ev pre s = (.value vs, s'))
    (h : Stops (ev e) s' i) : Stops (arguments ev (pre ++ e :: post)) s i := by
  induction pre generalizing s vs with
  | nil => cases hpre; exact stops_arguments_cons_iff.2 (.inl h)
  | cons e' pre ih =>
    obtain ⟨v, t, ws, hv, hws, rfl⟩ := arguments_cons_eq_value_iff.1 hpre
    exact stops_arguments_cons_iff.2 (.inr ⟨v, t, hv, ih hws⟩)

/-- An unwind out of an operand leaves the expression. -/
theorem Stops.node_of_operands {id : ExprId} {n : Nat} {s : Machine} {i : Interrupt}
    (h : Stops (arguments ev (p.arena.expr id).kind.operands) s i) :
    Stops (node p ev n id) s (i.placed (p.arena.expr id).operandPlace?) := by
  have hbind : Stops (arguments ev _ >>= mainStep p ev n id) s i := h.bind_left
  rw [node_eq]
  generalize arguments ev _ >>= mainStep p ev n id = x at hbind ⊢
  simp only [locatedWhole, Code.Expr.operandPlace?]
  cases hk : (p.arena.expr id).kind with
  | group _ | block _ | branch _ _ | loop _ | ident _ => exact i.placed_some _ ▸ hbind.located _
  | cause _ | ret _ | brk _ | call _ _ | member _ _ | pipe _ _ _ => rwa [i.placed_none]
  | function _ _ _ | string _ | number _ =>
    -- there are no operands
    rw [hk] at h
    exact absurd h not_stops_arguments_nil

/-- An unwind out of what an expression does behind its operands takes its place along. -/
theorem Stops.node_of_value {id : ExprId} {n : Nat} {s t : Machine} {vs : List Value}
    {x : Eval Value} {i : Interrupt} (h : Stops x t i)
    (hvs : arguments ev (p.arena.expr id).kind.operands s = (.value vs, t))
    (hx : locatedWhole p id (mainStep p ev n id vs) = Eval.located (p.arena.expr id).span x) :
    Stops (node p ev n id) s (i.placed (some (p.arena.expr id).span)) := by
  rw [Stops, Eval.node_of_value hvs, hx, i.placed_some]
  exact h.located _

/-! ### Scopes, rounds and statements -/

theorem Stops.inContext {x : Eval α} {s : Machine} {i : Interrupt} {env : Environment}
    {l r : Option FrameId}
    (h : Stops x { s with env, loopTarget := l, returnTarget := r } i) :
    Stops (inContext env l r x) s i := h

/-- An unwind out of a round ends the loop, with a value if the loop is its target. -/
theorem rounds_of_stops {frame : FrameId} {body : ExprId} {fuel done ticks : Nat} {s t : Machine}
    {i : Interrupt} (h : RoundBegins p ev body fuel done ticks s t)
    (hb : Stops (ev body) t i) :
    (rounds p ev frame body fuel done ticks s).1 = i.outOfRound frame := by
  induction h with
  | @this _ _ _ s hgo =>
    simp only [rounds, if_neg hgo]
    cases hr : ev body s with
    | mk r t =>
      rw [Stops, hr] at hb
      -- this round ends with the unwind
      cases hb
      cases i <;> rfl
  | later hgo hv _ ih =>
    simp only [rounds, if_neg hgo, hv]
    exact ih hb

/-- A `return` to the activation ends a call with its value, any other unwind passes by, and an
error takes a record of the active calls along. -/
theorem activation_of_stops {frame : FrameId} {x : Eval Value} {s : Machine} {i : Interrupt}
    (hx : Balanced x) (h : Stops x s i) :
    (activation frame x s).1 = (i.recorded s.calls).outOfBody frame := by
  have hcalls := (hx s).calls
  simp only [activation]
  cases hr : x s with
  | mk r t =>
    rw [hr] at hcalls
    rw [Stops, hr] at h
    cases h
    cases i with
    | fault e => simp only [Interrupt.recorded, Interrupt.outOfBody, ← hcalls]
    | breakTo target v => rfl
    | returnTo target v => rfl

theorem callClosure_of_stops (hev : ∀ id, Balanced (ev id)) {c : Closure} {args : List Value}
    {span : Span} {s s' : Machine} {calls : CallStack} {i : Interrupt}
    (hlen : args.length = c.params.length)
    (hargs : checkArguments p c.params args s = (.value (), s))
    (hcalls : s.calls.push p.limits.callDepth ⟨callName p c, some span⟩ = .ok calls)
    (hd : defineAll ((c.params.map fun q => q.name).zip args) (s.inCall c calls) =
      (.value (), s')) (hb : Stops (ev c.body) s' i) :
    (callClosure p ev c args span s).1 =
      (i.recorded calls).outOfBody (.ofSerial s.activations) := by
  have hpush : pushCall p ⟨callName p c, some span⟩ s = (.value (), { s with calls }) := by
    simp only [pushCall, hcalls]
  unfold callClosure
  rw [if_neg (not_not_intro hlen), bind_of_value hargs, bind_of_value hpush]
  have hbody := (balanced_defineAll ((c.params.map fun q => q.name).zip args)).bind
    fun _ => hev c.body
  -- frame and environment are new, and the rest is the body
  refine activation_of_stops (hbody.inContext _ _ _)
    (s := { s with calls, activations := s.activations + 1, store := _ }) (Stops.inContext ?_)
  exact stops_bind_right hd hb

/-- An unwind out of the body of a handler leaves the cause that it answers. -/
theorem stops_cause_of_handler {identity : Option Identity} {type : TypeId}
    {fields : List (Name × Value)} {s s' : Machine} {outer : Nat} {f : HandlerFrame} {bs : Bindings}
    {i : Interrupt}
    (hm : s.handlers.findMatch? p.types (.signal identity type fields) = some (outer, f, bs))
    (hd : defineAll bs (s.inHandler f outer) = (.value (), s')) (hb : Stops (ev f.body) s' i) :
    Stops (cause p ev (.signal identity type fields)) s i := by
  rw [Stops, cause_of_match hm]
  have hhandler : Stops (runHandler ev outer f bs) s i := stops_bind_right hd hb
  exact hhandler.bind_left

theorem stops_bindLet {d : DeclId} {name : Name} {isVariable : Bool} {typeRef : Option TypeRefId}
    {value : ExprId} {s : Machine} {i : Interrupt}
    (hd : (p.arena.decl d).kind = .binding name isVariable typeRef value)
    (h : Stops (ev value) s i) : Stops (bindLet p ev d) s i := by
  simp only [bindLet, hd]
  exact h.bind_left

/-- An unwind out of the expression of a statement leaves the statements. -/
theorem stops_stmts_of_operand {st : Code.Stmt} {rest : List Code.Stmt} (last : Value) {e : ExprId}
    {s : Machine} {i : Interrupt} (he : st.operand? p.arena = some e) (h : Stops (ev e) s i) :
    Stops (stmts p ev last (st :: rest)) s i := by
  simp only [Code.Stmt.operand?] at he
  cases hk : st.kind with
  | expr e' =>
    simp only [hk, Option.some.injEq] at he
    subst he
    simp only [stmts, hk]
    exact h.bind_left
  | decl d =>
    simp only [hk] at he
    split at he
    · rename_i hd
      cases he
      simp only [stmts, hk]
      exact (stops_bindLet hd h).bind_left
    · cases he
  | effect pattern body => simp [hk] at he
  | set target value =>
    simp only [hk, Option.some.injEq] at he
    subst he
    simp only [stmts, hk]
    exact h.bind_left

end Eval

/-! ### Out of an activity -/

namespace Activity

variable {m : Moment} {i : Interrupt}

theorem after_loop {id body : ExprId} :
    (⟨.loop id body, m⟩ : Activity).after i = i.outOfRound (.ofSerial m.machine.activations) := by
  cases i <;> simp [after, catches, Interrupt.outOfRound, frame, Interrupt.value]

theorem after_call {c : Closure} :
    (⟨.call c, m⟩ : Activity).after i = i.outOfBody (.ofSerial m.machine.activations) := by
  cases i <;> simp [after, catches, Interrupt.outOfBody, frame, Interrupt.value]

theorem after_install {b : ExprId} {f : HandlerFrame} :
    (⟨.install b f, m⟩ : Activity).after i = .interrupt i := by
  cases i <;> rfl

theorem after_handle {f : HandlerFrame} {outer : Nat} :
    (⟨.handle f outer, m⟩ : Activity).after i = .interrupt i := by
  cases i <;> rfl

end Activity

/-! ### Out of a moment -/

variable {p : Program}

/-- The evaluation from a moment stops with an interrupt. -/
def Moment.Stops (p : Program) (m : Moment) (i : Interrupt) : Prop :=
  Eval.Stops (m.task.eval p (Eval.expr p m.fuel)) m.machine i

namespace Enters

/-- An unwind passes the steps of what is no expression as it is. -/
theorem stops_aside {m m' : Moment} {i : Interrupt} (h : Enters p m none m')
    (htask : m.task.expr? = none) (hs : m'.Stops p i) : m.Stops p i := by
  cases h with
  | operand _ _ | block _ _ | branch _ _ | cause _ _ | call _ _ | pipe _ _ => cases htask
  | @stmt _ _ last _ _ _ _ he => exact Eval.stops_stmts_of_operand last he hs
  | nextStmt hst hv =>
    rw [Moment.Stops, Task.eval, Eval.stmts_cons hst]
    exact Eval.stops_bind_right hv hs
  | condition ha =>
    simp only [Moment.Stops, Task.eval, Eval.arms, ha]
    exact Eval.Stops.bind_left hs
  | whenTrue ha hv hb =>
    simp only [Moment.Stops, Task.eval, Eval.arms, ha]
    refine Eval.stops_bind_right hv ?_
    simp only [Eval.condition, hb]
    exact hs
  | whenFalse ha hv hb =>
    simp only [Moment.Stops, Task.eval, Eval.arms, ha]
    refine Eval.stops_bind_right hv ?_
    simp only [Eval.condition, hb]
    exact hs
  | @isMatch n b v a rest s pattern body bs s' ha hm hd =>
    have h : Eval.Stops (Eval.withBindings bs (Eval.expr p n body)) s i :=
      Eval.stops_bind_right hd hs
    simpa only [Moment.Stops, Task.eval, Eval.arms, ha, hm] using h
  | isMiss ha hm =>
    simpa only [Moment.Stops, Task.eval, Eval.arms, ha, hm] using hs
  | otherwise ha =>
    simpa only [Moment.Stops, Task.eval, Eval.arms, ha] using hs
  | letValue hd =>
    have h := Eval.stops_bindLet hd hs
    exact (h.bind_left).bind_left
  | nextLet hd =>
    rcases Eval.stops_bind_iff.1 hs with h | ⟨_, _, _, h⟩
    · exact (Eval.stops_bind_right hd h).bind_left
    · cases h

/-- An unwind passes every step that begins no activity. -/
theorem stops {m m' : Moment} {i : Interrupt} (h : Enters p m none m') (hs : m'.Stops p i) :
    m.Stops p (m.handOn p m' i) := by
  rw [Moment.handOn_of_ne_call (by cases h <;> nofun)]
  by_cases hm : m.task.expr? = none
  · rw [Moment.placeOf?_eq_none hm, Interrupt.placed_none]
    exact h.stops_aside hm hs
  cases h with
  | operand hops hpre =>
    refine Eval.Stops.node_of_operands ?_
    rw [hops]
    exact Eval.stops_arguments_append hpre hs
  | @block n id s body s' hk hb =>
    have h : Eval.Stops (Eval.block p (Eval.expr p n) body) s i := Eval.stops_bind_right hb hs
    exact h.node_of_value (by rw [hk]; rfl) (by simp only [Eval.locatedWhole, Eval.mainStep, hk])
  | branch hk hv =>
    exact Eval.Stops.node_of_value hs (by rw [hk]; exact hv)
      (by simp only [Eval.locatedWhole, Eval.mainStep, hk]; rfl)
  | cause hk hv =>
    exact Eval.Stops.node_of_value hs (by rw [hk]; exact Eval.arguments_singleton_of_value hv)
      (by simp only [Eval.locatedWhole, Eval.mainStep, hk]; rfl)
  | call hk hv | pipe hk hv =>
    exact Eval.Stops.node_of_value hs (by rw [hk]; exact hv)
      (by simp only [Eval.locatedWhole, Eval.mainStep, hk]; rfl)
  | _ => exact absurd rfl hm

/-- An unwind out of an activity ends there if the activity catches it, and goes on otherwise. -/
theorem result_of_stops {m m' : Moment} {k : ActivityKind} {i : Interrupt}
    (h : Enters p m (some k) m') (hs : m'.Stops p i) :
    (m.result p).1 = (⟨k, m⟩ : Activity).after (m.handOn p m' i) := by
  cases h with
  | @loop n id s body s' hk hr =>
    have hloop : (Eval.loop p (Eval.expr p n) n body s).1 = i.outOfRound (.ofSerial s.activations) :=
      Eval.rounds_of_stops hr hs
    have hplace : (p.arena.expr id).operandPlace? = some (p.arena.expr id).span := by
      simp only [Code.Expr.operandPlace?, hk]
    rw [Activity.after_loop, Moment.handOn_of_ne_call (by simp)]
    simp only [Moment.result, Task.eval, Eval.expr, Eval.node, hk, Moment.placeOf?, hplace,
      Interrupt.placed_some]
    exact Eval.located_outOfRound hloop _
  | install hst =>
    rw [Activity.after_install, Moment.handOn_of_ne_call (by simp), Moment.placeOf?_eq_none rfl,
      Interrupt.placed_none]
    simp only [Moment.result, Task.eval, Eval.stmts, hst]
    exact hs
  | @body n c args span s calls s' hlen hargs hcalls hd =>
    rw [Activity.after_call, Moment.handOn_call rfl]
    have hsame := (Eval.balanced_defineAll ((c.params.map fun q => q.name).zip args)
      (s.inCall c calls)).calls
    rw [hd] at hsame
    rw [hsame]
    exact Eval.callClosure_of_stops (Eval.balanced_expr _) hlen hargs hcalls hd hs
  | handler hm hd =>
    rw [Activity.after_handle, Moment.handOn_of_ne_call (by simp), Moment.placeOf?_eq_none rfl,
      Interrupt.placed_none]
    exact Eval.stops_cause_of_handler hm hd hs

end Enters

/-- **The way of an unwind.**  An unwind that comes out of a moment leaves one activity around it
after the other, up to the first that catches it. -/
theorem Reaches.result_of_stops {root m : Moment} {π₁ π₂ : List Activity} {a : Activity}
    {i : Interrupt} (h : Reaches p root (π₁ ++ a :: π₂) m) (hi : i.isFault = false)
    (hπ : ∀ b ∈ π₁, b.catches i = false) (hs : m.Stops p i) :
    (∀ b ∈ π₁, (b.result p).1 = .interrupt i) ∧ (a.result p).1 = a.after i := by
  generalize hσ : π₁ ++ a :: π₂ = σ at h
  induction h generalizing π₁ with
  | root => simp at hσ
  | step _ hstep ih =>
    exact ih hπ (Moment.handOn_of_isFault hi ▸ hstep.stops hs) hσ
  | @enter σ' m k m' _ hstep ih =>
    have hk := Moment.handOn_of_isFault hi ▸ hstep.result_of_stops hs
    cases π₁ with
    | nil => cases hσ; exact ⟨by simp, hk⟩
    | cons b π₁ =>
      rw [List.cons_append, List.cons.injEq] at hσ
      obtain ⟨rfl, hσ⟩ := hσ
      -- `b` does not catch the unwind, so it leaves the moment at which `b` began as well
      obtain ⟨hb, hπ⟩ := List.forall_mem_cons.1 hπ
      rw [Activity.after, if_neg (by simp [hb])] at hk
      obtain ⟨hall, ha⟩ := ih hπ hk hσ
      exact ⟨List.forall_mem_cons.2 ⟨hk, hall⟩, ha⟩

end SignalLang
