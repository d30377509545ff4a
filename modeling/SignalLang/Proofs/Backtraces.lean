import SignalLang.Proofs.Failures
import SignalLang.Proofs.InternalFaults
import SignalLang.Proofs.Resolution

/-!
# Backtraces

An error is created without a record of the active calls, unless a function of the host brings one
along.  The calls that it leaves give it one, on the way out, when some of them are already gone.
This file shows that it is the right one all the same.

* `activeCalls p ms` : the calls whose bodies are in progress.
* `InProgress.calls_eq` : the call stack of a machine lists these.
* `InProgress.backtrace_carried` : on its way out of all evaluations in progress, an error takes the
  call stack of the innermost one along, unless it has a record already.
* `Interpreter.backtrace_of_error` : **an error reaches the caller with the problem with which it
  was created, and with the calls that were active there**, unless it came with a record of its own.
* `Interpreter.own_backtrace_is_kept` : errors that functions of the host raise can come with one.
-/

namespace SignalLang

/-- The record of some active calls, if there are any. -/
def CallStack.record? (c : CallStack) : Option Backtrace :=
  if c.frames = [] then none else some c.frames

theorem CallStack.record?_of_cons {c : CallStack} {f : CallFrame} {fs : List CallFrame}
    (h : c.frames = f :: fs) : c.record? = some c.frames := by
  rw [record?, if_neg (by simp [h])]

/-- A record is given to errors that have none. -/
theorem CallStack.backtrace_attach (c : CallStack) (e : EvalError) :
    (c.attach e).backtrace = e.backtrace.or c.record? := by
  obtain ⟨frames⟩ := c
  cases frames <;> cases hb : e.backtrace <;>
    simp [attach, isEmpty, record?, hb, EvalError.withBacktrace, backtrace]

theorem CallStack.frames_push {c c' : CallStack} {limit : Option Nat} {f : CallFrame}
    (h : c.push limit f = .ok c') : c'.frames = f :: c.frames := by
  unfold push at h
  split at h
  · split at h <;> cases h
    rfl
  · cases h; rfl

variable {p : Program}

/-- The call whose body a moment evaluates, with the place from which it was called. -/
def Moment.callFrame? (p : Program) (m : Moment) : Option CallFrame :=
  match m.task with
  | .call (.closure c) _ span => some ⟨Eval.callName p c, some span⟩
  | _ => none

/-- The calls whose bodies are in progress, the innermost first: the first of the moments has not
come to a body yet. -/
def activeCalls (p : Program) (ms : List Moment) : List CallFrame :=
  ms.tail.filterMap (Moment.callFrame? p)

/-! ### Calls in progress -/

namespace Enters

variable {m m' : Moment} {k : Option ActivityKind}

/-- The body of a closure begins with one more active call. -/
theorem frames_of_call {callee : Value} {args : List Value} {span : Span}
    (h : Enters p m k m') (hm : m.task = .call callee args span) :
    ∃ f, m.callFrame? p = some f ∧ m'.machine.calls.frames = f :: m.machine.calls.frames := by
  cases h with
  | @body n c args' span' s calls s' hlen hargs hcalls hd =>
    have hsame := (Eval.balanced_defineAll _).calls_eq hd
    exact ⟨_, rfl, hsame ▸ CallStack.frames_push hcalls⟩
  | _ => cases hm

/-- Everything else begins with the same active calls. -/
theorem calls_of_ne_call (h : Enters p m k m')
    (hm : ∀ callee args span, m.task ≠ .call callee args span) :
    m'.machine.calls = m.machine.calls ∧ m.callFrame? p = none := by
  have hev := fun n id => Eval.balanced_expr (p := p) n id
  have hnone : m.callFrame? p = none := by
    unfold Moment.callFrame?
    split
    · rename_i htask
      exact absurd htask (hm _ _ _)
    · rfl
  refine ⟨?_, hnone⟩
  cases h with
  | operand _ hpre => exact (Eval.balanced_arguments (hev _) _).calls_eq hpre
  | block _ hb => exact ((Eval.balanced_bindAllHoisted _).calls_eq hb :)
  | branch _ hv => exact (Eval.balanced_arguments (hev _) _).calls_eq hv
  | loop _ hr => exact hr.calls_eq (hev _)
  | cause _ hv => exact (hev _ _).calls_eq hv
  | call _ hv => exact (Eval.balanced_arguments (hev _) _).calls_eq hv
  | pipe _ hv => exact (Eval.balanced_arguments (hev _) _).calls_eq hv
  | nextStmt _ hv => exact (Eval.balanced_stmts (hev _) _ _).calls_eq hv
  | whenTrue _ hv _ => exact (hev _ _).calls_eq hv
  | whenFalse _ hv _ => exact (hev _ _).calls_eq hv
  | isMatch _ _ hd => exact ((Eval.balanced_defineAll _).calls_eq hd :)
  | nextLet hd => exact (Eval.balanced_bindLet (hev _) _).calls_eq hd
  | handler _ hd => exact ((Eval.balanced_defineAll _).calls_eq hd :)
  | body _ _ _ _ => exact absurd rfl (hm _ _ _)
  | stmt _ | install _ | condition _ | isMiss _ _ | otherwise _ | letValue _ => rfl

theorem frames_eq (h : Enters p m k m') :
    m'.machine.calls.frames = (m.callFrame? p).toList ++ m.machine.calls.frames := by
  by_cases hm : ∃ callee args span, m.task = .call callee args span
  · obtain ⟨callee, args, span, hm⟩ := hm
    obtain ⟨f, hf, hframes⟩ := h.frames_of_call hm
    rw [hf, hframes]
    rfl
  · obtain ⟨hcalls, hnone⟩ := h.calls_of_ne_call fun _ _ _ htask => hm ⟨_, _, _, htask⟩
    rw [hcalls, hnone]
    rfl

/-- What an error gets from here on, it gets before or behind this step. -/
theorem backtrace_forward (h : Enters p m k m') (e : EvalError) :
    (m.forward p m' e).backtrace.or m.machine.calls.record? =
      e.backtrace.or m'.machine.calls.record? := by
  by_cases hm : ∃ callee args span, m.task = .call callee args span
  · obtain ⟨callee, args, span, hm⟩ := hm
    obtain ⟨f, -, hframes⟩ := h.frames_of_call hm
    -- there is a call at least, so no call further out can give a record
    have hrecord := CallStack.record?_of_cons hframes
    simp only [Moment.forward, hm, CallStack.backtrace_attach, hrecord, Option.or_assoc,
      Option.some_or]
  · have hne : ∀ callee args span, m.task ≠ .call callee args span :=
      fun _ _ _ htask => hm ⟨_, _, _, htask⟩
    have hforward : (m.forward p m' e).backtrace = e.backtrace := by
      have hplaced : m.handOn p m' (.fault e) = _ := Moment.handOn_of_ne_call hne
      have heq : m.forward p m' e = e.placed (m.placeOf? p m'.task) := by
        injection hplaced
      rw [heq, EvalError.backtrace_placed]
    rw [hforward, (h.calls_of_ne_call hne).1]

end Enters

namespace InProgress

variable {root m : Moment} {ms : List Moment}

/-- **The call stack lists the calls in progress**, each with its name and the place of the call. -/
theorem calls_eq (h : InProgress p root (m :: ms)) (hroot : root.machine.calls = .empty) :
    m.machine.calls.frames = activeCalls p (m :: ms) := by
  generalize hpath : m :: ms = path at h
  induction h generalizing m ms with
  | root => cases hpath; rw [hroot]; rfl
  | @enter m₁ m' ms₁ k _ hs ih =>
    cases hpath
    rw [hs.frames_eq, ih rfl, activeCalls, activeCalls, List.tail_cons, List.tail_cons,
      List.filterMap_cons]
    cases m₁.callFrame? p <;> rfl

/-- An error without a record gets that of the calls around the innermost evaluation. -/
theorem backtrace_carried (h : InProgress p root (m :: ms)) (hroot : root.machine.calls = .empty)
    (e : EvalError) :
    (carried p (m :: ms) e).backtrace = e.backtrace.or m.machine.calls.record? := by
  generalize hpath : m :: ms = path at h
  induction h generalizing m ms e with
  | root =>
    cases hpath
    rw [hroot]
    exact (Option.or_none).symm
  | enter _ hs ih =>
    cases hpath
    rw [carried, ih _ rfl, hs.backtrace_forward]

end InProgress

/-! ### Errors that reach the caller -/

/-- The machine behind an evaluation continues where it began. -/
theorem Moment.continues_result (p : Program) (m : Moment) :
    m.machine.Continues (m.result p).2 := by
  obtain ⟨n, task, s⟩ := m
  have hev := Eval.balanced_expr (p := p) n
  cases task with
  | expr id => exact hev id s
  | stmts b last rest => exact Eval.balanced_stmts hev last rest s
  | arms b subject rest => exact Eval.balanced_arms hev subject rest s
  | lets ds => exact ((Eval.balanced_bindAllLets hev ds).bind fun _ => Eval.balanced_pure _) s
  | call callee args span => exact Eval.balanced_callValue hev callee args span s
  | cause signal => exact Eval.balanced_cause hev signal s

/-- An error is created without a record, unless a function of the host raises it. -/
theorem Raises.backtrace_eq {m : Moment} {t : Machine} {e : EvalError} (h : Raises p m t e) :
    e.backtrace = none ∨ m.HostRaises p e := by
  rcases h.ofStep with ⟨_, _, _, -, -, rfl⟩ | hplain | hhost
  · exact .inl rfl
  · exact .inl hplain.backtrace
  · exact .inr hhost

/-- A host without functions raises no errors. -/
theorem Moment.not_hostRaises (hfunctions : p.functions = .none) (m : Moment) (e : EvalError) :
    ¬ m.HostRaises p e := by
  rintro ⟨h⟩
  obtain ⟨entry, h⟩ := h.exists
  rw [hfunctions] at h
  cases h

/-- All calls in progress have a place from which they were made. -/
theorem site_of_mem_activeCalls {ms : List Moment} {f : CallFrame} (hf : f ∈ activeCalls p ms) :
    f.site.isSome := by
  obtain ⟨m, -, hm⟩ := List.mem_filterMap.1 hf
  unfold Moment.callFrame? at hm
  split at hm
  · cases hm
    rfl
  · cases hm

namespace Interpreter

variable {i : Interpreter}

/-- No call is active between the uses of an interpreter. -/
theorem Session.calls_eq (h : i.Session) : i.machine.calls = .empty := by
  induction h with
  | new arena interner types settings store functions => rfl
  | load _ m fuel ih => exact (load_continues _ m fuel).calls.trans ih
  | call _ name args fuel ih => exact (call_continues _ name args fuel).calls.trans ih
  | eval _ id fuel ih => exact (Eval.balanced_expr fuel id _).calls.trans ih

theorem Begins.calls_eq {u : Use} {root : Moment} (h : i.Begins u root) :
    root.machine.calls = i.machine.calls := by
  cases h with
  | load h => exact (Eval.balanced_bindAllHoisted _).calls_eq h
  | call _ => rfl

/-- The call stack lists the calls that are active where an error is created. -/
theorem Creates.frames_eq (hi : i.Session) {u : Use} {ms : List Moment} {t : Machine}
    {e : EvalError} (h : i.Creates u ms t e) : t.calls.frames = activeCalls i.program ms := by
  have hcalls := hi.calls_eq
  cases h with
  | raised hu hms hraise => rw [hraise.calls, hms.calls_eq (hu.calls_eq.trans hcalls)]
  | hoisted _ => rw [hcalls]; rfl
  | unbound _ => rw [hcalls]; rfl
  | @stray u root j hu _ _ =>
    rw [(root.continues_result i.program).calls, hu.calls_eq, hcalls]
    rfl

/-- **An error reaches the caller as it was created, with a record of the calls that were active
there.**  Every error in which loading a module or calling a function ends was created in its course
by an evaluation in progress, and every error that is created there reaches the caller: with the
same problem, which comprises its kind, its message and the signal that it keeps, and with the calls
whose bodies were in progress, the innermost first, if there were any.  Only where a function of the
host has raised the error with a record of its own, it keeps this one. -/
theorem backtrace_of_error (hi : i.Session) (u : Use) :
    (∀ e, i.error? u = some e → ∃ ms t e₀, i.Creates u ms t e₀) ∧
    ∀ ms t e₀, i.Creates u ms t e₀ →
      (e₀.backtrace = none ∨ ∃ x ∈ ms.head?, x.HostRaises i.program e₀) ∧
      t.calls.frames = activeCalls i.program ms ∧
      ∃ e, i.error? u = some e ∧ e.problem = e₀.problem ∧ e.notes = e₀.notes ∧ e.backtrace =
        e₀.backtrace.or (if t.calls.frames = [] then none else some t.calls.frames) := by
  refine ⟨fun e h => ?_, fun ms t e₀ h => ?_⟩
  · obtain ⟨ms, t, e₀, hcreates, -⟩ := error?_iff_creates.1 h
    exact ⟨ms, t, e₀, hcreates⟩
  have herror := h.error?_eq
  have hframes := h.frames_eq hi
  have hcalls := hi.calls_eq
  cases h with
  | @raised u root x ms t e₀ hu hms hraise =>
    have hroot := hu.calls_eq.trans hcalls
    refine ⟨hraise.backtrace_eq.imp_right fun hhost => ⟨x, rfl, hhost⟩, hframes, _, herror, ?_, ?_,
      ?_⟩
    · exact (problem_carried _ _).trans (e₀.problem_placed _)
    · exact (notes_carried _ _).trans (e₀.notes_placed _)
    · show (carried i.program (x :: ms) _).backtrace = e₀.backtrace.or t.calls.record?
      rw [hms.backtrace_carried hroot, EvalError.backtrace_placed, hraise.calls]
  | hoisted h =>
    have hplain := (Eval.plain_bindAllHoisted _).ofStep h
    refine ⟨.inl hplain.backtrace, hframes, _, herror, rfl, rfl, ?_⟩
    rw [hframes, hplain.backtrace]
    exact hplain.backtrace
  | unbound h => exact ⟨.inl rfl, hframes, _, herror, rfl, rfl, by rw [hframes]; rfl⟩
  | stray hu h hj => exact ⟨.inl rfl, hframes, _, herror, rfl, rfl, by rw [hframes]; rfl⟩

/-- `signal Ask(); signal Alarm(); function main() { effect for Ask fail(); ask() }
function ask() cause Ask; function fail() cause Alarm` -/
def failingHandler : Tree.File :=
  let calling (name : String) (span : Span) : Tree.Expr :=
    .node (.ident name) [.call [] span] span
  let causing (signal : String) : Tree.Expr :=
    .node (.cause (.node (.ident signal) [] .dummy)) [] .dummy
  ⟨"", [.signal "Ask" [] none .dummy, .signal "Alarm" [] none .dummy,
    .function "main" [] none (.node (.block [
      .effect ⟨.named "Ask" .dummy, none, .dummy⟩ (calling "fail" ⟨1, 2⟩) .dummy,
      .expr (calling "ask" ⟨3, 4⟩) .dummy]) [] .dummy) .dummy,
    .function "ask" [] none (causing "Ask") .dummy,
    .function "fail" [] none (causing "Alarm") .dummy]⟩

/-- The handler runs on top of the call that causes the signal, and what it calls fails there. -/
theorem failingHandler_backtrace : ∃ m interner types interner',
    (Module.ofTree failingHandler .new = (.ok m, interner) ∧
      m.resolve .core interner = (types, [], interner')) ∧
    let i := ((new m.arena interner' types ⟨default, none, none⟩ .empty).load m 20).2
    i.Session ∧ ∃ ms t e₀, i.Creates (.call "main" [] 20) ms t e₀ ∧
      e₀.problem.message = "unhandled signal: Alarm" ∧
      activeCalls i.program ms =
        [⟨"fail", some ⟨1, 2⟩⟩, ⟨"ask", some ⟨3, 4⟩⟩, ⟨"main", some .dummy⟩] := by
  have hok : (failingHandler.resolved? .core).any fun (m, types, interner') =>
      (((new m.arena interner' types ⟨default, none, none⟩ .empty).load m 20).2.error?
        (.call "main" [] 20)).any fun e => e.problem.message = "unhandled signal: Alarm" ∧
          e.backtrace =
            some [⟨"fail", some ⟨1, 2⟩⟩, ⟨"ask", some ⟨3, 4⟩⟩, ⟨"main", some .dummy⟩] := by
    decide +kernel
  obtain ⟨⟨m, types, interner'⟩, hok, hrun⟩ := (Option.any_eq_true _ _).1 hok
  obtain ⟨interner, hm, hres⟩ := Tree.File.of_resolved? hok
  obtain ⟨e, herror, he⟩ := (Option.any_eq_true _ _).1 hrun
  obtain ⟨hmessage, hbacktrace⟩ := of_decide_eq_true he
  have hi := (Session.new m.arena interner' types ⟨default, none, none⟩ .empty .none).load m 20
  obtain ⟨hcreated, hreported⟩ := backtrace_of_error hi (.call "main" [] 20)
  obtain ⟨ms, t, e₀, hcreates⟩ := hcreated e herror
  obtain ⟨hown, hcalls, e', herror', hproblem, -, hrecord⟩ := hreported ms t e₀ hcreates
  have hnone : e₀.backtrace = none := hown.resolve_right fun ⟨x, _, hhost⟩ =>
    x.not_hostRaises rfl e₀ hhost
  obtain rfl : e' = e := Option.some.inj (herror'.symm.trans herror)
  refine ⟨m, interner, types, interner', ⟨hm, hres⟩, hi, ms, t, e₀, hcreates, ?_, ?_⟩
  · rw [← hproblem, hmessage]
  · rw [hbacktrace, hnone, Option.none_or] at hrecord
    split at hrecord
    · cases hrecord
    · exact hcalls.symm.trans (Option.some.inj hrecord).symm

/-- The functions of the host raise errors with a record of calls that nobody made here. -/
def failingElsewhere : HostFunctions := fun _ _ =>
  .error { EvalError.new (.other "failed") with backtrace := some [⟨"elsewhere", none⟩] }

/-- **An error that a function of the host raises can come with a record of calls, which it keeps.**
The host answers with such a function, and the module calls it. -/
theorem own_backtrace_is_kept : ¬ ∀ (i : Interpreter) (u : Use), i.Session →
    ∀ ms t e₀, i.Creates u ms t e₀ → ∃ e, i.error? u = some e ∧
      e.backtrace = if t.calls.frames = [] then none else some t.calls.frames := by
  intro h
  have hok : (Tree.File.askingEcho.resolved? .core).any fun (m, types, interner') =>
      (((new m.arena interner' types Tree.File.offering.settings .empty failingElsewhere).load m
        20).2.error? (.call "main" [] 20)).any fun e =>
          e.backtrace = some [⟨"elsewhere", none⟩] := by decide +kernel
  obtain ⟨⟨m, types, interner'⟩, -, hrun⟩ := (Option.any_eq_true _ _).1 hok
  obtain ⟨e, herror, he⟩ := (Option.any_eq_true _ _).1 hrun
  have hi := (Session.new m.arena interner' types Tree.File.offering.settings .empty
    failingElsewhere).load m 20
  obtain ⟨ms, t, e₀, hcreates, -⟩ := error?_iff_creates.1 herror
  obtain ⟨e', herror', hrecord⟩ := h _ _ hi ms t e₀ hcreates
  obtain rfl : e' = e := Option.some.inj (herror'.symm.trans herror)
  rw [of_decide_eq_true he] at hrecord
  split at hrecord
  · cases hrecord
  · have hmem : ⟨"elsewhere", none⟩ ∈ t.calls.frames :=
      Option.some.inj hrecord ▸ List.mem_singleton_self _
    rw [hcreates.frames_eq hi] at hmem
    cases site_of_mem_activeCalls hmem

end Interpreter

end SignalLang
