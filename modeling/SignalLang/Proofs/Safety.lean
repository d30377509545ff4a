import SignalLang.Proofs.Balance
import SignalLang.Proofs.Closures
import SignalLang.Proofs.Placement

/-!
# Safe evaluation

Where all code is well placed, evaluation never comes to a `break` or `return` without a target, to
an `is` without a subject or to a type that is not known; and every `break` or `return` on its way
out goes to a target that is still there.

* `Machine.Sound p s` : the closures in the machine and the bodies of its handlers are well placed,
  the latter for the targets that the handlers keep.
* `Machine.CanBreak`, `Machine.CanReturn` : the targets that are there, which are those of the
  machine itself and of its handlers.
* `Eval.Safe p l r x good` : with a loop around if `l` and a function if `r`, the step `x` keeps a
  sound machine sound, gives a `good` value, and ends in no internal fault.
* `Eval.safe_expr` : **the evaluation of every well placed expression is safe**, by induction on the
  fuel; every construct is safe if its parts are.
-/

namespace SignalLang

/-! ### Sound machines -/

namespace Program

/-- An expression is well placed in its program. -/
abbrev Places (p : Program) : Bool → Bool → ExprId → Prop := Placed p.arena p.types.Declares

/-- A declaration is well placed in its program. -/
abbrev PlacesDecl (p : Program) : Bool → Bool → DeclId → Prop := PlacedDecl p.arena p.types.Declares

/-- The expressions that can be bodies of functions. -/
abbrev IsBody (p : Program) : ExprId → Prop := p.Places false true

end Program

namespace Machine

/-- All code that a machine refers to is well placed. -/
structure Sound (p : Program) (s : Machine) : Prop where
  store : s.store.Runs p.IsBody
  questions : ∀ q ∈ s.log.questions, q.signal.Runs p.IsBody
  handlers : ∀ f ∈ s.handlers.frames, p.Places f.loopTarget.isSome f.returnTarget.isSome f.body

/-- A `break` can reach a target. -/
def CanBreak (s : Machine) (target : FrameId) : Prop :=
  s.loopTarget = some target ∨ ∃ f ∈ s.handlers.frames, f.loopTarget = some target

/-- A `return` can reach a target. -/
def CanReturn (s : Machine) (target : FrameId) : Prop :=
  s.returnTarget = some target ∨ ∃ f ∈ s.handlers.frames, f.returnTarget = some target

end Machine

/-- Problems that a program can have although its code is well placed. -/
def EvalProblem.Ordinary (e : EvalProblem) : Prop :=
  e.code ≠ .escapedControlFlow ∧ e.code ≠ .internalFault

@[simp]
theorem EvalProblem.ordinary_iff {e : EvalProblem} :
    e.Ordinary ↔ e.code ≠ .escapedControlFlow ∧ e.code ≠ .internalFault := .rfl

theorem EvalProblem.OfArguments.ordinary {e : EvalProblem} (h : e.OfArguments) : e.Ordinary := by
  cases h <;> simp [EvalProblem.code]

/-- The host of a program makes up well placed code only, and its functions raise ordinary problems
only. -/
structure Program.HostSafe (p : Program) : Prop extends p.HostOnly fun c => p.IsBody c.body where
  raises : ∀ entry args e, p.functions entry args = .error e → e.problem.Ordinary

/-- An interrupt is an ordinary problem, or goes to a target that is there. -/
def Interrupt.Fine (p : Program) (s : Machine) : Interrupt → Prop
  | .fault e => e.problem.Ordinary
  | .breakTo target v => s.CanBreak target ∧ v.Runs p.IsBody
  | .returnTo target v => s.CanReturn target ∧ v.Runs p.IsBody

/-- An outcome is a good value or a fine interrupt. -/
def Outcome.Fine (p : Program) (s : Machine) (good : α → Prop) : Outcome α → Prop
  | .value a => good a
  | .interrupt i => i.Fine p s
  | .outOfFuel => True

/-- Fine is fine wherever all targets are there. -/
theorem Outcome.Fine.mono {p : Program} {s s' : Machine} {good : α → Prop} {res : Outcome α}
    (h : res.Fine p s good) (hb : ∀ t, s.CanBreak t → s'.CanBreak t)
    (hr : ∀ t, s.CanReturn t → s'.CanReturn t) : res.Fine p s' good := by
  cases res with
  | value a => exact h
  | outOfFuel => trivial
  | interrupt i =>
    cases i with
    | fault e => exact h
    | breakTo t v => exact ⟨hb t h.1, h.2⟩
    | returnTo t v => exact ⟨hr t h.1, h.2⟩

/-- A step from `s` has ended well. -/
structure Machine.Ends (p : Program) (s : Machine) (good : α → Prop) (res : Outcome α × Machine) :
    Prop where
  continues : s.Continues res.2
  sound : res.2.Sound p
  outcome : res.1.Fine p s good

/-- Targets stay where they are as long as the machine continues. -/
theorem Machine.Continues.fine_iff {p : Program} {s s' : Machine} (h : s.Continues s')
    {good : α → Prop} (res : Outcome α) : res.Fine p s' good ↔ res.Fine p s good := by
  cases res with
  | value a => exact .rfl
  | outOfFuel => exact .rfl
  | interrupt i =>
    cases i <;>
      simp only [Outcome.Fine, Interrupt.Fine, Machine.CanBreak, Machine.CanReturn, h.handlers,
        h.loopTarget, h.returnTarget]

namespace Eval

/-- Where there is a loop around if `l` and a function if `r`, a step ends well. -/
def Safe (p : Program) (l r : Bool) (x : Eval α) (good : α → Prop) : Prop :=
  ∀ s : Machine, s.Sound p → s.loopTarget.isSome = l → s.returnTarget.isSome = r →
    s.Ends p good (x s)

/-- The evaluation of well placed parts is safe. -/
def SafeParts (p : Program) (ev : Evaluator) : Prop :=
  ∀ l r id, p.Places l r id → Safe p l r (ev id) (Value.Runs p.IsBody)

variable {p : Program} {ev : Evaluator} {l r : Bool} {good : α → Prop}

/-! ### Steps in general -/

theorem safe_pure {a : α} (h : good a) : Safe p l r (pure a) good :=
  fun s hs _ _ => ⟨.refl s, hs, h⟩

theorem safe_fault {e : EvalProblem} (h : e.Ordinary) : Safe p l r (fault e : Eval α) good :=
  fun s hs _ _ => ⟨.refl s, hs, h⟩

theorem safe_faultAt {e : EvalProblem} (h : e.Ordinary) (span : Span) :
    Safe p l r (faultAt e span : Eval α) good :=
  fun s hs _ _ => ⟨.refl s, hs, h⟩

theorem safe_outOfFuel : Safe p l r (outOfFuel : Eval α) good :=
  fun s hs _ _ => ⟨.refl s, hs, trivial⟩

theorem ends_bind {s : Machine} {x : Eval α} {f : α → Eval β} {good' : β → Prop}
    (hx : s.Ends p good (x s))
    (hf : ∀ a, good a → Safe p s.loopTarget.isSome s.returnTarget.isSome (f a) good') :
    s.Ends p good' ((x >>= f) s) := by
  obtain ⟨hc, hsound, hfine⟩ := hx
  simp only [Bind.bind, Eval.bind]
  cases hres : x s with
  | mk res s' =>
    rw [hres] at hc hsound hfine
    cases res with
    | value a =>
      obtain ⟨hc', hsound', hfine'⟩ := hf a hfine s' hsound (by rw [hc.loopTarget])
        (by rw [hc.returnTarget])
      exact ⟨hc.trans hc', hsound', (hc.fine_iff _).1 hfine'⟩
    | interrupt i => exact ⟨hc, hsound, hfine⟩
    | outOfFuel => exact ⟨hc, hsound, trivial⟩

theorem Safe.bind {x : Eval α} {f : α → Eval β} {good' : β → Prop} (hx : Safe p l r x good)
    (hf : ∀ a, good a → Safe p l r (f a) good') : Safe p l r (x >>= f) good' := by
  intro s hs hl hr
  exact ends_bind (hx s hs hl hr) (by rw [hl, hr]; exact hf)

theorem Safe.located {x : Eval α} (hx : Safe p l r x good) (span : Span) :
    Safe p l r (located span x) good := by
  intro s hs hl hr
  obtain ⟨hc, hsound, hfine⟩ := hx s hs hl hr
  simp only [Eval.located]
  cases hres : x s with
  | mk res s' =>
    rw [hres] at hc hsound hfine
    cases res with
    | interrupt i => cases i <;> exact ⟨hc, hsound, hfine⟩
    | _ => exact ⟨hc, hsound, hfine⟩

/-- A step that changes nothing but the store, the log and the count of answers. -/
theorem safe_of_frame {x : Eval α}
    (h : ∀ s : Machine, s.Sound p → ∃ res store hostTicks log,
      x s = (res, { s with store, hostTicks, log }) ∧ res.Fine p s good ∧
        store.Runs p.IsBody ∧ ∀ q ∈ log.questions, q.signal.Runs p.IsBody) : Safe p l r x good := by
  intro s hs _ _
  obtain ⟨res, store, hostTicks, log, hx, hres, hstore, hquestions⟩ := h s hs
  rw [hx]
  exact ⟨⟨rfl, rfl, rfl, rfl, rfl, Nat.le_refl _⟩, ⟨hstore, hquestions, hs.handlers⟩, hres⟩

/-! ### Scopes and contexts -/

theorem safe_define (n : Name) {v : Value} (hv : v.Runs p.IsBody) (isVariable : Bool) :
    Safe p l r (define n v isVariable) fun _ => True :=
  safe_of_frame fun _ hs =>
    ⟨.value (), _, _, _, rfl, trivial, hs.store.define _ _ hv _, hs.questions⟩

theorem safe_defineAll {bs : Bindings} (hbs : bs.Runs p.IsBody) :
    Safe p l r (defineAll bs) fun _ => True := by
  induction bs with
  | nil => exact safe_pure trivial
  | cons b bs ih =>
    obtain ⟨hb, hbs⟩ := List.forall_mem_cons.1 hbs
    exact (safe_define b.1 hb false).bind fun _ _ => ih hbs

theorem safe_freshFrame : Safe p l r freshFrame fun _ => True :=
  fun _ hs _ _ => ⟨⟨rfl, rfl, rfl, rfl, rfl, Nat.le_succ _⟩,
    ⟨hs.store, hs.questions, hs.handlers⟩, trivial⟩

theorem Safe.inScope {x : Eval α} (hx : Safe p l r x good) : Safe p l r (inScope x) good := by
  intro s hs hl hr
  obtain ⟨hc, hsound, hfine⟩ := hx
    { s with env := (s.env.push s.store).1, store := (s.env.push s.store).2 }
    ⟨hs.store.addScope _, hs.questions, hs.handlers⟩ hl hr
  refine ⟨⟨hc.handlers, hc.calls, ?_, hc.loopTarget, hc.returnTarget, hc.activations⟩,
    ⟨hsound.store, hsound.questions, hsound.handlers⟩, ?_⟩
  · simp [Eval.inScope, hc.env, Environment.pop_push]
  · exact hfine

theorem Safe.withBindings {x : Eval α} (hx : Safe p l r x good) {bs : Bindings}
    (hbs : bs.Runs p.IsBody) : Safe p l r (withBindings bs x) good :=
  ((safe_defineAll hbs).bind fun _ _ => hx).inScope

/-- A step with targets of its own ends well, apart from what becomes of these targets behind it. -/
theorem Safe.inContext {x : Eval α} {loopTarget returnTarget : Option FrameId}
    (hx : Safe p loopTarget.isSome returnTarget.isSome x good) (env : Environment) {s : Machine}
    (hs : s.Sound p) :
    s.Continues (inContext env loopTarget returnTarget x s).2 ∧
      (inContext env loopTarget returnTarget x s).2.Sound p ∧
      (inContext env loopTarget returnTarget x s).1.Fine p { s with loopTarget, returnTarget }
        good := by
  obtain ⟨hc, hsound, hfine⟩ := hx { s with env, loopTarget, returnTarget }
    ⟨hs.store, hs.questions, hs.handlers⟩ rfl rfl
  exact ⟨⟨hc.handlers, hc.calls, rfl, rfl, rfl, hc.activations⟩,
    ⟨hsound.store, hsound.questions, hsound.handlers⟩, hfine⟩

/-! ### Calls -/

theorem safe_checkType (v : Value) (expected : Ty) :
    Safe p l r (checkType p v expected) fun _ => True := by
  unfold checkType
  split
  · exact safe_pure trivial
  · exact safe_fault (by simp [EvalProblem.code])

theorem safe_checkArguments (params : List Code.Param) (args : List Value) :
    Safe p l r (checkArguments p params args) fun _ => True := by
  induction params generalizing args with
  | nil => exact safe_pure trivial
  | cons q params ih =>
    cases args with
    | nil => exact safe_pure trivial
    | cons v args =>
      simp only [checkArguments]
      cases q.typeRef.bind p.types.resolved? with
      | none => exact Safe.bind (safe_pure trivial) fun _ (_ : True) => ih args
      | some expected => exact (safe_checkType v expected).bind fun _ _ => ih args

theorem ordinary_of_push {calls : CallStack} {limit : Option Nat} {f : CallFrame}
    {e : EvalProblem} (h : calls.push limit f = .error e) : e.Ordinary := by
  obtain ⟨max, -, -, rfl⟩ := CallStack.eq_recursionLimit_of_push h
  simp [EvalProblem.code]

/-- The body of a call has no loop around, and a `return` in it ends the call. -/
theorem Safe.activation {x : Eval Value} (hx : Safe p false true x (Value.Runs p.IsBody))
    (frame : FrameId) (env : Environment) {s : Machine} (hs : s.Sound p) :
    ({ s with calls := s.calls.pop } : Machine).Ends p (Value.Runs p.IsBody)
      (activation frame (Eval.inContext env none (some frame) x) s) := by
  have hx : Safe p (none : Option FrameId).isSome (some frame).isSome x _ := hx
  obtain ⟨hc, hsound, hfine⟩ := hx.inContext env hs
  simp only [Eval.activation]
  cases hres : Eval.inContext env none (some frame) x s with
  | mk res s' =>
    rw [hres] at hc hsound hfine
    have hc' : ({ s with calls := s.calls.pop } : Machine).Continues
        { s' with calls := s'.calls.pop } :=
      ⟨hc.handlers, congrArg CallStack.pop hc.calls, hc.env, hc.loopTarget, hc.returnTarget,
        hc.activations⟩
    have hsound' : ({ s' with calls := s'.calls.pop } : Machine).Sound p :=
      ⟨hsound.store, hsound.questions, hsound.handlers⟩
    cases res with
    | value v => exact ⟨hc', hsound', hfine⟩
    | outOfFuel => exact ⟨hc', hsound', trivial⟩
    | interrupt i =>
      cases i with
      | fault e =>
        refine ⟨hc', hsound', ?_⟩
        simp only [Outcome.Fine, Interrupt.Fine, CallStack.problem_attach] at hfine ⊢
        exact hfine
      | breakTo target v =>
        -- the body has no target of its own for a `break`
        obtain ⟨htarget | htarget, hv⟩ := hfine
        · cases htarget
        · exact ⟨hc', hsound', .inr htarget, hv⟩
      | returnTo target v =>
        refine ⟨hc', hsound', ?_⟩
        obtain ⟨htarget, hv⟩ := hfine
        dsimp only
        split
        · exact hv
        · rename_i hne
          rcases htarget with htarget | htarget
          · exact absurd (Option.some.inj htarget).symm hne
          · exact ⟨.inr htarget, hv⟩

theorem safe_callClosure (hev : SafeParts p ev) {c : Closure} (hbody : p.IsBody c.body)
    {args : List Value} (hargs : ∀ v ∈ args, v.Runs p.IsBody) (span : Span) :
    Safe p l r (callClosure p ev c args span) (Value.Runs p.IsBody) := by
  unfold callClosure
  split
  · exact safe_fault (by simp [EvalProblem.code])
  · refine (safe_checkArguments _ _).bind fun _ _ s hs _ _ => ?_
    simp only [Bind.bind, Eval.bind, pushCall]
    cases hpush : s.calls.push p.limits.callDepth ⟨callName p c, some span⟩ with
    | error e =>
      exact ⟨.refl s, hs, ordinary_of_push hpush⟩
    | ok calls =>
      have hbs : Bindings.Runs p.IsBody ((c.params.map fun q => q.name).zip args) :=
        fun b hb => hargs _ (List.of_mem_zip hb).2
      have hrun := (safe_defineAll hbs).bind fun _ _ => hev false true c.body hbody
      -- the body runs with its own frame for `return` and no loop around
      obtain ⟨hc, hsound, hfine⟩ := hrun.activation (.ofSerial s.activations)
        (s.env.childOf c.captured s.store).1
        (s := { s with calls, activations := s.activations + 1,
                       store := (s.env.childOf c.captured s.store).2 })
        ⟨hs.store.addScope _, hs.questions, hs.handlers⟩
      exact ⟨⟨hc.handlers, hc.calls.trans (CallStack.pop_push hpush), hc.env, hc.loopTarget,
        hc.returnTarget, Nat.le_trans (Nat.le_succ _) hc.activations⟩, hsound,
        hfine⟩

theorem safe_callNative (hhost : p.HostSafe) (f : NativeFunction) {args : List Value}
    (hargs : ∀ v ∈ args, v.Runs p.IsBody) :
    Safe p l r (callNative p f args) (Value.Runs p.IsBody) := by
  unfold callNative
  cases hres : f.call p.functions args with
  | ok v => exact safe_pure (hhost.functions.call hargs hres)
  | error e =>
    refine fun s hs _ _ => ⟨.refl s, hs, ?_⟩
    rcases NativeFunction.error_of_call hres with ⟨problem, hproblem, rfl⟩ | he
    · exact hproblem.ordinary
    · obtain ⟨entry, he⟩ := he.exists
      exact hhost.raises entry args e he

theorem safe_fieldValues (fields : List FieldType) {args : List Value}
    (hargs : ∀ v ∈ args, v.Runs p.IsBody) :
    Safe p l r (fieldValues p fields args) fun vs => ∀ x ∈ vs, x.2.Runs p.IsBody := by
  induction fields generalizing args with
  | nil => exact safe_pure (by simp)
  | cons f fields ih =>
    cases args with
    | nil => exact safe_pure (by simp)
    | cons v args =>
      obtain ⟨hv, hargs⟩ := List.forall_mem_cons.1 hargs
      refine (safe_checkType v f.type).bind fun _ _ => (ih hargs).bind fun vs hvs => ?_
      exact safe_pure (List.forall_mem_cons.2 ⟨hv, hvs⟩)

theorem safe_construct (type : TypeId) {args : List Value}
    (hargs : ∀ v ∈ args, v.Runs p.IsBody) :
    Safe p l r (construct p type args) (Value.Runs p.IsBody) := by
  simp only [construct]
  split
  · exact safe_fault (by simp [EvalProblem.code])
  · refine (safe_fieldValues _ hargs).bind fun vs hvs => safe_of_frame fun s hs => ?_
    obtain ⟨hv, hstore⟩ := hs.store.addInstance (p.types.isSignal type) type hvs
    exact ⟨.value _, _, _, _, rfl, hv, hstore, hs.questions⟩

theorem safe_callValue (hev : SafeParts p ev) (hhost : p.HostSafe) {callee : Value}
    (hcallee : callee.Runs p.IsBody)
    {args : List Value} (hargs : ∀ v ∈ args, v.Runs p.IsBody) (span : Span) :
    Safe p l r (callValue p ev callee args span) (Value.Runs p.IsBody) := by
  unfold callValue
  split
  · exact safe_callClosure hev (Value.runs_closure.1 hcallee) hargs span
  · exact safe_callNative hhost _ hargs
  · exact safe_construct _ hargs
  · split
    · exact safe_pure hcallee
    · exact safe_fault (by simp [EvalProblem.code])

/-! ### Causes -/

/-- A handler that keeps the targets of the machine adds no targets to it. -/
theorem Safe.withHandler {x : Eval α} (hx : Safe p l r x good) {s : Machine} (hs : s.Sound p)
    (hl : s.loopTarget.isSome = l) (hr : s.returnTarget.isSome = r) {f : HandlerFrame}
    (hfl : f.loopTarget = s.loopTarget) (hfr : f.returnTarget = s.returnTarget)
    (hbody : p.Places l r f.body) : s.Ends p good (withHandler f x s) := by
  have hf : p.Places f.loopTarget.isSome f.returnTarget.isSome f.body := by
    rw [hfl, hfr, hl, hr]
    exact hbody
  obtain ⟨hc, hsound, hfine⟩ := hx { s with handlers := s.handlers.push f }
    ⟨hs.store, hs.questions, List.forall_mem_cons.2 ⟨hf, hs.handlers⟩⟩ hl hr
  have hback : (Eval.withHandler f x s).2.handlers = s.handlers := by
    simp [Eval.withHandler, hc.handlers, HandlerStack.pop_push]
  refine ⟨⟨hback, hc.calls, hc.env, hc.loopTarget, hc.returnTarget, hc.activations⟩,
    ⟨hsound.store, hsound.questions, by rw [hback]; exact hs.handlers⟩, hfine.mono ?_ ?_⟩
  · rintro t (h | ⟨g, hg, h⟩)
    · exact .inl h
    · rcases List.mem_cons.1 hg with rfl | hg
      · exact .inl (hfl ▸ h)
      · exact .inr ⟨g, hg, h⟩
  · rintro t (h | ⟨g, hg, h⟩)
    · exact .inl h
    · rcases List.mem_cons.1 hg with rfl | hg
      · exact .inl (hfr ▸ h)
      · exact .inr ⟨g, hg, h⟩

/-- The body of a handler finds the targets that the handler keeps, which are there as long as the
handler is. -/
theorem safe_runHandler (hev : SafeParts p ev) (outer : Nat) {f : HandlerFrame} {bs : Bindings}
    (hbs : bs.Runs p.IsBody) {s : Machine} (hs : s.Sound p) (hf : f ∈ s.handlers.frames) :
    s.Ends p (Value.Runs p.IsBody) (runHandler ev outer f bs s) := by
  have hrun := (safe_defineAll hbs).bind fun _ _ => hev _ _ f.body (hs.handlers f hf)
  have hdrop : ∀ g, g ∈ (s.handlers.splitOff outer).2.frames → g ∈ s.handlers.frames :=
    fun g hg => List.mem_of_mem_drop hg
  obtain ⟨hc, hsound, hfine⟩ := hrun.inContext (s.env.childOf f.scope s.store).1
    (s := { s with handlers := (s.handlers.splitOff outer).2,
                   store := (s.env.childOf f.scope s.store).2 })
    ⟨hs.store.addScope _, hs.questions, fun g hg => hs.handlers g (hdrop g hg)⟩
  have hback : (runHandler ev outer f bs s).2.handlers = s.handlers :=
    (congrArg (fun h => h.restore (s.handlers.splitOff outer).1) hc.handlers).trans
      (s.handlers.restore_splitOff outer)
  refine ⟨⟨hback, hc.calls, hc.env, hc.loopTarget, hc.returnTarget, hc.activations⟩,
    ⟨hsound.store, hsound.questions, by rw [hback]; exact hs.handlers⟩, hfine.mono ?_ ?_⟩
  · rintro t (h | ⟨g, hg, h⟩)
    · exact .inr ⟨f, hf, h⟩
    · exact .inr ⟨g, hdrop g hg, h⟩
  · rintro t (h | ⟨g, hg, h⟩)
    · exact .inr ⟨f, hf, h⟩
    · exact .inr ⟨g, hdrop g hg, h⟩

theorem safe_resume (type : TypeId) {v : Value} (hv : v.Runs p.IsBody) :
    Safe p l r (resume p type v) (Value.Runs p.IsBody) := by
  simp only [resume]
  split
  · exact safe_pure Value.runs_action
  · exact (safe_checkType v _).bind fun _ _ => safe_pure hv

theorem safe_tick : Safe p l r tick fun _ => True :=
  safe_of_frame fun _ hs => ⟨.value (), _, _, _, rfl, trivial, hs.store, hs.questions⟩

theorem safe_askHost {h : Host} (hh : h.Runs p.IsBody) {q : Question}
    (hq : q.signal.Runs p.IsBody) :
    Safe p l r (askHost h q) fun answer => ∀ v, answer = some v → v.Runs p.IsBody := by
  refine safe_of_frame fun s hs => ?_
  have hqs : ∀ q' ∈ q :: s.log.questions, q'.signal.Runs p.IsBody :=
    List.forall_mem_cons.2 ⟨hq, hs.questions⟩
  exact ⟨.value _, _, _, _, rfl, fun v hv => hh.answer hqs hv, hs.store, hqs⟩

theorem safe_unhandled (hhost : p.HostSafe) (type : TypeId)
    {signal : Value} (hsignal : signal.Runs p.IsBody) :
    Safe p l r (unhandled p type signal) (Value.Runs p.IsBody) := by
  simp only [unhandled]
  cases hh : p.host with
  | none => exact safe_fault (by simp [EvalProblem.code])
  | some h =>
    refine (safe_askHost (hhost.answers h hh) hsignal).bind fun answer hanswer => ?_
    cases answer with
    | some v => exact safe_tick.bind fun _ _ => safe_resume type (hanswer v rfl)
    | none =>
      dsimp only
      split
      · refine Safe.bind (safe_of_frame fun s hs => ?_) fun _ (_ : True) =>
          safe_tick.bind fun _ _ => safe_pure Value.runs_action
        refine ⟨.value (), _, _, _, rfl, trivial, hs.store, ?_⟩
        rw [Host.questions_debug]
        exact hs.questions
      · exact safe_fault (by simp [EvalProblem.code])

theorem safe_cause (hev : SafeParts p ev) (hhost : p.HostSafe)
    {v : Value} (hv : v.Runs p.IsBody) :
    Safe p l r (cause p ev v) (Value.Runs p.IsBody) := by
  unfold cause
  split
  · rename_i identity type fields
    intro s hs hl hr
    simp only [Bind.bind, Eval.bind, read]
    cases hfound : s.handlers.findMatch? p.types (.signal identity type fields) with
    | none => exact safe_unhandled hhost type hv s hs hl hr
    | some m =>
      obtain ⟨outer, f, bs⟩ := m
      obtain ⟨inner, rest, hframes, -, hmatch, -⟩ :=
        HandlerStack.firstMatch?_eq_some_iff.1 hfound
      have hf : f ∈ s.handlers.frames := by simp [hframes]
      exact ends_bind (safe_runHandler hev outer (hv.matchPattern? hmatch) hs hf) fun answer ha =>
        safe_resume type ha
  · exact safe_fault (by simp [EvalProblem.code])

/-! ### Declarations -/

theorem safe_bindImport (path : String) (items : List Code.ImportItem) :
    Safe p l r (bindImport p path items) fun _ => True := by
  induction items with
  | nil => exact safe_pure trivial
  | cons item rest ih =>
    simp only [bindImport]
    cases Native.find? path (p.interner.text item.name) with
    | some n => exact (safe_define _ (Value.runs_native n) _).bind fun _ _ => ih
    | none =>
      refine Safe.bind (safe_faultAt (e := .unboundName _) (by simp [EvalProblem.code]) _) fun _ (_ : True) => ih

theorem safe_closure (name : Option Name) (params : List Code.Param) (result : Option TypeRefId)
    {body : ExprId} (hbody : p.IsBody body) :
    Safe p l r (closure name params result body) (Value.Runs p.IsBody) :=
  safe_of_frame fun _ hs =>
    ⟨.value _, _, _, _, rfl, Value.runs_closure.2 hbody, hs.store, hs.questions⟩

theorem safe_typeValue {d : DeclId} (hd : p.types.Declares d) (fieldless isSignal : Bool) :
    Safe p l r (typeValue p d fieldless isSignal) (Value.Runs p.IsBody) := by
  obtain ⟨type, htype⟩ := Option.isSome_iff_exists.1 hd
  simp only [typeValue, htype]
  split
  · exact safe_pure (Value.runs_constructor type)
  · split
    · exact safe_pure (Value.runs_signal (by simp))
    · exact safe_pure (Value.runs_object (by simp))

theorem safe_bindHoisted {d : DeclId} (hd : p.PlacesDecl l r d)
    (hhoisted : (p.arena.decl d).kind.hoisted) :
    Safe p l r (bindHoisted p d) fun _ => True := by
  obtain ⟨-, hbody, htype⟩ := hd
  unfold bindHoisted
  cases hk : (p.arena.decl d).kind with
  | imports path items => exact safe_bindImport path items
  | function n params result body =>
    exact (safe_closure _ _ _ (hbody _ _ _ _ hk)).bind fun _ hv => safe_define _ hv _
  | object n fields =>
    rw [hk] at htype
    exact (safe_typeValue (htype rfl) _ _).bind fun _ hv => safe_define _ hv _
  | signal n fields _ =>
    rw [hk] at htype
    exact (safe_typeValue (htype rfl) _ _).bind fun _ hv => safe_define _ hv _
  | option _ _ => exact safe_pure trivial
  | binding _ _ _ _ =>
    rw [hk] at hhoisted
    cases hhoisted

theorem safe_checkDeclared (typeRef : Option TypeRefId) (v : Value) (span : Span) :
    Safe p l r (checkDeclared p typeRef v span) fun _ => True := by
  unfold checkDeclared
  split
  · exact safe_pure trivial
  · split
    · exact safe_pure trivial
    · exact safe_faultAt (e := .typeMismatch _ _) (by simp [EvalProblem.code]) _

theorem safe_bindLet (hev : SafeParts p ev) {d : DeclId} (hd : p.PlacesDecl l r d) :
    Safe p l r (bindLet p ev d) fun _ => True := by
  unfold bindLet
  split
  · rename_i n isVariable type value hk
    refine (hev l r value (hd.value _ _ _ _ hk)).bind fun v hv => ?_
    exact (safe_checkDeclared _ v _).bind fun _ _ => safe_define n hv isVariable
  · exact safe_pure trivial

theorem safe_bindAllHoisted {ds : List DeclId} (hds : ∀ d ∈ ds, p.PlacesDecl l r d) :
    Safe p l r (bindAllHoisted p ds) fun _ => True := by
  induction ds with
  | nil => exact safe_pure trivial
  | cons d ds ih =>
    obtain ⟨hd, hds⟩ := List.forall_mem_cons.1 hds
    simp only [bindAllHoisted]
    split
    · rename_i hhoisted
      exact (safe_bindHoisted hd hhoisted).bind fun _ _ => ih hds
    · exact ih hds

theorem safe_bindAllLets (hev : SafeParts p ev) {ds : List DeclId}
    (hds : ∀ d ∈ ds, p.PlacesDecl l r d) : Safe p l r (bindAllLets p ev ds) fun _ => True := by
  induction ds with
  | nil => exact safe_pure trivial
  | cons d ds ih =>
    obtain ⟨hd, hds⟩ := List.forall_mem_cons.1 hds
    exact (safe_bindLet hev hd).bind fun _ _ => ih hds

theorem safe_bindModule (hev : SafeParts p ev) {ds : List DeclId}
    (hds : ∀ d ∈ ds, p.PlacesDecl l r d) : Safe p l r (bindModule p ev ds) fun _ => True :=
  (safe_bindAllHoisted hds).bind fun _ _ => safe_bindAllLets hev hds

/-! ### Blocks, branches and loops -/

theorem safe_set (target : Name) {v : Value} (hv : v.Runs p.IsBody) (span : Span) :
    Safe p l r (set p target v span) fun _ => True := by
  refine safe_of_frame fun s hs => ?_
  simp only [set]
  split
  · exact ⟨.value (), _, _, _, rfl, trivial, hs.store.define _ _ hv _, hs.questions⟩
  · rename_i e _
    refine ⟨_, s.store, s.hostTicks, s.log, rfl, ?_, hs.store, hs.questions⟩
    cases e <;> exact EvalProblem.ordinary_iff.2 (by simp [EvalError.newAt, assignProblem,
      EvalProblem.code])

/-- The rest of a block.  The handlers it installs keep the targets that are around the block. -/
theorem safe_stmts (hev : SafeParts p ev) {id : ExprId} (hid : p.Places l r id)
    {body : List Code.Stmt} (hk : (p.arena.expr id).kind = .block body) {last : Value}
    (hlast : last.Runs p.IsBody) {rest : List Code.Stmt} (hrest : rest ⊆ body) :
    Safe p l r (stmts p ev last rest) (Value.Runs p.IsBody) := by
  induction rest generalizing last with
  | nil => exact safe_pure hlast
  | cons st rest ih =>
    obtain ⟨hst, hrest⟩ := List.cons_subset.1 hrest
    have hoperand : ∀ e, st.operand? p.arena = some e → p.Places l r e :=
      fun e he => hid.child (.part (.stmt hk hst he))
    simp only [stmts]
    cases hs : st.kind with
    | expr e =>
      exact (hev l r e (hoperand e (by simp [Code.Stmt.operand?, hs]))).bind fun v hv =>
        ih hv hrest
    | decl d =>
      have hd : d ∈ (p.arena.expr id).kind.decls := by
        rw [hk]
        exact Arena.mem_declsOf.2 ⟨st, hst, hs⟩
      exact (safe_bindLet hev (hid.decl hd)).bind fun _ _ => ih Value.runs_action hrest
    | set target value =>
      refine (hev l r value (hoperand value (by simp [Code.Stmt.operand?, hs]))).bind fun v hv => ?_
      exact (safe_set target hv st.span).bind fun _ _ => ih Value.runs_action hrest
    | effect pattern b =>
      -- the handler keeps the targets of the block, for which its body is placed
      have hb : p.Places l r b := hid.child (.handler ⟨body, hk, st, hst, pattern, hs⟩)
      exact fun s hs hl hr =>
        (ih Value.runs_action hrest).withHandler hs hl hr rfl rfl hb

theorem safe_block (hev : SafeParts p ev) {id : ExprId} (hid : p.Places l r id)
    {body : List Code.Stmt} (hk : (p.arena.expr id).kind = .block body) :
    Safe p l r (block p ev body) (Value.Runs p.IsBody) := by
  have hds : ∀ d ∈ declsOf body, p.PlacesDecl l r d := fun d hd => hid.decl (by rw [hk]; exact hd)
  exact ((safe_bindAllHoisted hds).bind fun _ _ =>
    safe_stmts hev hid hk Value.runs_action (List.Subset.refl _)).inScope

theorem safe_condition (v : Value) : Safe p l r (condition p v) fun _ => True := by
  unfold condition
  split
  · exact safe_pure trivial
  · exact safe_fault (by simp [EvalProblem.code])

theorem safe_arms (hev : SafeParts p ev) {id : ExprId} (hid : p.Places l r id)
    {subject : Option ExprId} {options : List Code.Arm}
    (hk : (p.arena.expr id).kind = .branch subject options) {v : Option Value}
    (hv : ∀ w, v = some w → w.Runs p.IsBody) (hsubject : v = none → subject = none)
    {rest : List Code.Arm} (hrest : rest ⊆ options) :
    Safe p l r (arms p ev v rest) (Value.Runs p.IsBody) := by
  induction rest with
  | nil => exact safe_pure Value.runs_action
  | cons a rest ih =>
    obtain ⟨ha, hrest⟩ := List.cons_subset.1 hrest
    have hbody : p.Places l r a.kind.body := hid.child (.part (.arm hk ha))
    simp only [arms]
    cases hak : a.kind with
    | when c body =>
      rw [hak] at hbody
      refine (hev l r c (hid.child (.part (.condition hk ha hak)))).bind fun w _ => ?_
      refine (safe_condition w).bind fun b _ => ?_
      cases b with
      | true => exact hev l r body hbody
      | false => exact ih hrest
    | is pattern body =>
      rw [hak] at hbody
      cases v with
      -- resolution has found no `is` under a branch without subject
      | none =>
        rw [hsubject rfl] at hk
        exact absurd hak (hid.fits.is options hk a ha pattern body)
      | some w =>
        dsimp only
        split
        · rename_i bs hmatch
          exact (hev l r body hbody).withBindings ((hv w rfl).matchPattern? hmatch)
        · exact ih hrest
    | otherwise body =>
      rw [hak] at hbody
      exact hev l r body hbody

theorem safe_optional (hev : SafeParts p ev) {e : Option ExprId}
    (he : ∀ id ∈ e.toList, p.Places l r id) :
    Safe p l r (optional ev e) (Value.Runs p.IsBody) := by
  cases e with
  | none => exact safe_pure Value.runs_action
  | some id => exact hev l r id (he id (by simp))

theorem safe_branch (hev : SafeParts p ev) {id : ExprId} (hid : p.Places l r id)
    {subject : Option ExprId} {options : List Code.Arm}
    (hk : (p.arena.expr id).kind = .branch subject options) :
    Safe p l r (branch p ev subject options) (Value.Runs p.IsBody) := by
  cases subject with
  | none => exact safe_arms hev hid hk (by simp) (fun _ => rfl) (List.Subset.refl _)
  | some e =>
    have he : p.Places l r e := hid.child (.part (.operand (by simp [hk])))
    refine (hev l r e he).bind fun v hv => ?_
    refine safe_arms hev hid hk (v := some v) ?_ nofun (List.Subset.refl _)
    rintro _ ⟨⟩
    exact hv

/-- Around a loop there are the targets from before it; a `break` to the loop itself never comes
out. -/
theorem safe_rounds {body : ExprId} (hbody : Safe p true r (ev body) (Value.Runs p.IsBody))
    (frame : FrameId) (fuel done ticks : Nat) {s : Machine} (hs : s.Sound p)
    (hl : s.loopTarget = some frame) (hr : s.returnTarget.isSome = r) (saved : Option FrameId) :
    s.Continues (rounds p ev frame body fuel done ticks s).2 ∧
      (rounds p ev frame body fuel done ticks s).2.Sound p ∧
      (rounds p ev frame body fuel done ticks s).1.Fine p { s with loopTarget := saved }
        (Value.Runs p.IsBody) := by
  induction fuel generalizing s done ticks with
  | zero => exact ⟨.refl s, hs, trivial⟩
  | succ fuel ih =>
    obtain ⟨hc, hsound, hfine⟩ := hbody s hs (by simp [hl]) hr
    simp only [rounds]
    generalize (if s.hostTicks = ticks then done else 0) = n
    split
    · exact ⟨.refl s, hs, EvalProblem.ordinary_iff.2 (by simp [EvalError.new, EvalProblem.code])⟩
    · cases hres : ev body s with
      | mk res s' =>
        rw [hres] at hc hsound hfine
        cases res with
        | value v =>
          obtain ⟨hc', hsound', hfine'⟩ := ih (n + 1) s.hostTicks hsound (hc.loopTarget.trans hl)
            (by rw [hc.returnTarget, hr])
          -- the next round starts from `s'`, where the same targets are there
          have hsaved : ({ s with loopTarget := saved } : Machine).Continues
              { s' with loopTarget := saved } :=
            ⟨hc.handlers, hc.calls, hc.env, rfl, hc.returnTarget, hc.activations⟩
          exact ⟨hc.trans hc', hsound', (hsaved.fine_iff _).1 hfine'⟩
        | outOfFuel => exact ⟨hc, hsound, trivial⟩
        | interrupt i =>
          cases i with
          | fault e => exact ⟨hc, hsound, hfine⟩
          | returnTo t v => exact ⟨hc, hsound, hfine⟩
          | breakTo t v =>
            refine ⟨hc, hsound, ?_⟩
            obtain ⟨ht, hv⟩ := hfine
            dsimp only
            split
            · exact hv
            · rename_i hne
              rcases ht with ht | ht
              · exact absurd (Option.some.inj (hl.symm.trans ht)).symm hne
              · exact ⟨.inr ht, hv⟩

theorem safe_loop (hev : SafeParts p ev) {id : ExprId} (hid : p.Places l r id) {body : ExprId}
    (hk : (p.arena.expr id).kind = .loop body) (fuel : Nat) :
    Safe p l r (loop p ev fuel body) (Value.Runs p.IsBody) := by
  have hbody : p.Places true r body := hid.child (.loop hk)
  refine safe_freshFrame.bind fun frame _ s hs hl hr => ?_
  obtain ⟨hc, hsound, hfine⟩ := safe_rounds (hev true r body hbody) frame fuel 0 s.hostTicks
    (s := { s with loopTarget := some frame }) ⟨hs.store, hs.questions, hs.handlers⟩ rfl hr
    s.loopTarget
  exact ⟨⟨hc.handlers, hc.calls, hc.env, rfl, hc.returnTarget, hc.activations⟩,
    ⟨hsound.store, hsound.questions, hsound.handlers⟩, hfine⟩

/-! ### Expressions -/

theorem safe_arguments (hev : SafeParts p ev) {es : List ExprId}
    (hes : ∀ e ∈ es, p.Places l r e) :
    Safe p l r (arguments ev es) fun vs => ∀ v ∈ vs, v.Runs p.IsBody := by
  induction es with
  | nil => exact safe_pure (by simp)
  | cons e es ih =>
    obtain ⟨he, hes⟩ := List.forall_mem_cons.1 hes
    refine (hev l r e he).bind fun v hv => (ih hes).bind fun vs hvs => ?_
    exact safe_pure (List.forall_mem_cons.2 ⟨hv, hvs⟩)

theorem safe_ident (n : Name) : Safe p l r (ident p n) (Value.Runs p.IsBody) := by
  refine safe_of_frame fun s hs => ?_
  simp only [ident]
  split
  · rename_i v hv
    exact ⟨_, s.store, s.hostTicks, s.log, rfl, hs.store.lookup? hv, hs.store, hs.questions⟩
  · exact ⟨_, s.store, s.hostTicks, s.log, rfl,
      EvalProblem.ordinary_iff.2 (by simp [EvalError.new, EvalProblem.code]), hs.store, hs.questions⟩

theorem safe_member {receiver : Value} (hv : receiver.Runs p.IsBody) (field : Name) :
    Safe p l r (member p receiver field) (Value.Runs p.IsBody) := by
  unfold member
  split
  · rename_i v hfield
    exact safe_pure (hv.field? hfield)
  · exact safe_fault (by simp [EvalProblem.code])

/-- With a function around, there is a target for a `return`. -/
theorem safe_leaveFunction {v : Value} (hv : v.Runs p.IsBody) :
    Safe p l true (leaveFunction v) (Value.Runs p.IsBody) := by
  intro s hs _ hr
  obtain ⟨target, htarget⟩ := Option.isSome_iff_exists.1 hr
  simp only [leaveFunction, Bind.bind, Eval.bind, read, htarget]
  exact ⟨.refl s, hs, .inl htarget, hv⟩

/-- With a loop around, there is a target for a `break`. -/
theorem safe_leaveLoop {v : Value} (hv : v.Runs p.IsBody) :
    Safe p true r (leaveLoop v) (Value.Runs p.IsBody) := by
  intro s hs hl _
  obtain ⟨target, htarget⟩ := Option.isSome_iff_exists.1 hl
  simp only [leaveLoop, Bind.bind, Eval.bind, read, htarget]
  exact ⟨.refl s, hs, .inl htarget, hv⟩

/-- Every construct is safe if its parts are. -/
theorem safe_node (hev : SafeParts p ev) (hhost : p.HostSafe)
    (fuel : Nat) {id : ExprId} (hid : p.Places l r id) :
    Safe p l r (node p ev fuel id) (Value.Runs p.IsBody) := by
  have hoperand : ∀ e ∈ (p.arena.expr id).kind.operands, p.Places l r e :=
    fun e he => hid.child (.part (.operand he))
  simp only [node]
  cases hk : (p.arena.expr id).kind <;> rw [hk] at hoperand
  case group inner => exact (hev l r inner (hoperand inner (by simp))).located _
  case block body => exact (safe_block hev hid hk).located _
  case function params result body => exact safe_closure _ _ _ (hid.child (.function hk))
  case branch subject options => exact (safe_branch hev hid hk).located _
  case loop body => exact (safe_loop hev hid hk fuel).located _
  case cause payload =>
    refine (hev l r payload (hoperand payload (by simp))).bind
      fun v hv => ?_
    exact (safe_cause hev hhost hv).located _
  case ret value =>
    -- a placed `return` has a function around, so there is a target
    obtain rfl := hid.fits.ret value hk
    exact (safe_optional hev hoperand).bind fun v hv => safe_leaveFunction hv
  case brk value =>
    -- a placed `break` has a loop around
    obtain rfl := hid.fits.brk value hk
    exact (safe_optional hev hoperand).bind fun v hv => safe_leaveLoop hv
  case string text => exact safe_pure (Value.runs_string _)
  case number n => exact safe_pure (Value.runs_number n)
  case ident n => exact (safe_ident n).located _
  case call callee args =>
    obtain ⟨hcallee, hargs⟩ := List.forall_mem_cons.1 hoperand
    refine (hev l r callee hcallee).bind fun f hf => ?_
    refine (safe_arguments hev hargs).bind fun vs hvs => ?_
    exact (safe_callValue hev hhost hf hvs _).located _
  case member receiver field =>
    refine (hev l r receiver (hoperand receiver (by simp))).bind
      fun v hv => ?_
    exact (safe_member hv field).located _
  case pipe subject callee args =>
    obtain ⟨hsubject, hoperand⟩ := List.forall_mem_cons.1 hoperand
    obtain ⟨hcallee, hargs⟩ := List.forall_mem_cons.1 hoperand
    refine (hev l r subject hsubject).bind fun v hv => (hev l r callee hcallee).bind fun f hf => ?_
    refine (safe_arguments hev hargs).bind fun vs hvs => ?_
    exact (safe_callValue hev hhost hf (List.forall_mem_cons.2 ⟨hv, hvs⟩) _).located _

/-- **The evaluation of every well placed expression is safe.** -/
theorem safe_expr (hhost : p.HostSafe) (fuel : Nat) :
    SafeParts p (expr p fuel) := by
  induction fuel with
  | zero => exact fun _ _ _ _ => safe_outOfFuel
  | succ fuel ih => exact fun _ _ _ hid => safe_node ih hhost fuel hid

end Eval

end SignalLang
