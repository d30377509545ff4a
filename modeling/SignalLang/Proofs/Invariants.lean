import SignalLang.Proofs.Closures
import SignalLang.Proofs.Writes

/-!
# What evaluation keeps

Evaluation has few ways of its own to change a machine or to come by a value.  It creates scopes,
binds and sets names, makes closures and instances, installs handlers and asks the host.  All else
hands values on, or puts back what was there before.  So what is kept in these few ways is kept by
every evaluation.

* `Invariant` : a property of machines, one of the values in a store, and how a machine may change
  in a step; `Invariant.At` : both properties, at a moment.
* `Invariant.Steady`, `Invariant.Kept` : steps can be put together, and all that evaluation does of
  its own keeps the invariant.
* `Moment.Answers p m v` : the host answers the cause that begins at `m` with `v`, or its function
  that is called there gives `v`.
* `Eval.Keeps I p ms good x s` : from a machine `s` where the invariant holds, the step `x` begins
  its parts `ms` that way and ends that way, with a `good` value if any.
* `Eval.Keeps.bind`, `Eval.Keeps.within` : steps one after the other, and a step from another
  machine behind which environment and handlers are put back.
-/

namespace SignalLang

variable {p : Program}

/-! ### Values at hand -/

/-- The value that an interrupt takes along. -/
def Interrupt.carried? : Interrupt → Option Value
  | .fault e => e.problem.signal?
  | .breakTo _ v => some v
  | .returnTo _ v => some v

/-- The value with which an evaluation ends, or which its interrupt takes along. -/
def Outcome.carried? : Outcome Value → Option Value
  | .value v => some v
  | .interrupt i => i.carried?
  | .outOfFuel => none

/-- The values that a task has at hand. -/
def Task.values : Task → List Value
  | .expr _ => []
  | .lets _ => []
  | .stmts _ last _ => [last]
  | .arms _ subject _ => subject.toList
  | .call callee args _ => callee :: args
  | .cause signal => [signal]

/-- What the host gives at a moment: the answer to the cause that begins there, or the value or the
signal with an error that comes from the function of the host that is called there. -/
inductive Moment.Answers (p : Program) : Moment → Value → Prop
  | cause {n identity type fields s host v}
      (hm : s.handlers.findMatch? p.types (.signal identity type fields) = none)
      (hhost : p.host = some host)
      (hv : host.answer s.log.questions ⟨p.interner.text (p.types.get type).name,
        .signal identity type fields⟩ = some v) :
      Answers p ⟨n, .cause (.signal identity type fields), s⟩ v
  | value {n f args span s v} (hv : f.HostGives p.functions args (.ok v)) :
      Answers p ⟨n, .call (.native f) args span, s⟩ v
  | error {n f args span s e v} (he : f.HostGives p.functions args (.error e))
      (hv : e.problem.signal? = some v) : Answers p ⟨n, .call (.native f) args span, s⟩ v

/-! ### Problems -/

theorem CallStack.signal?_of_push {calls : CallStack} {limit : Option Nat} {f : CallFrame}
    {problem : EvalProblem} (h : calls.push limit f = .error problem) : problem.signal? = none := by
  obtain ⟨max, -, -, rfl⟩ := eq_recursionLimit_of_push h
  rfl

/-! ### Invariants -/

/-- What evaluation is to keep: a property of machines, one of the values in a store, and how a
machine may change from the beginning of a step to its end. -/
structure Invariant where
  machine : Machine → Prop
  value : Store → Value → Prop
  step : Machine → Machine → Prop

namespace Invariant

/-- A good value, or an interrupt with a value that meets the invariant. -/
def Fits (I : Invariant) (s : Store) (good : Store → α → Prop) : Outcome α → Prop
  | .value a => good s a
  | .interrupt i => ∀ v ∈ i.carried?, I.value s v
  | .outOfFuel => True

/-- A step from `s` has kept the invariant. -/
structure Ends (I : Invariant) (s : Machine) (good : Store → α → Prop)
    (res : Outcome α × Machine) : Prop where
  step : I.step s res.2
  outcome : I.Fits res.2.store good res.1

/-- The invariant holds at a moment. -/
structure At (I : Invariant) (m : Moment) : Prop where
  machine : I.machine m.machine
  values : ∀ v ∈ m.task.values, I.value m.machine.store v

/-- Steps can be put together.  A step that is made from another machine keeps the invariant as well
if environment and handlers are put back behind it. -/
class Steady (I : Invariant) : Prop where
  refl {s} : I.machine s → I.step s s
  trans {s t u} : I.step s t → I.step t u → I.step s u
  machine {s t} : I.step s t → I.machine s → I.machine t
  value {s t v} : I.step s t → I.value s.store v → I.value t.store v
  grow {s t v} : s.cells.size ≤ t.cells.size → I.value s v → I.value t v
  within {s s' t t'} : I.step s' t' → s.store.cells.size ≤ s'.store.cells.size →
    t.store.cells = t'.store.cells → t.log.questions = t'.log.questions →
    (t'.env = s'.env → t.env = s.env) → (t'.handlers = s'.handlers → t.handlers = s.handlers) →
    I.step s t

/-- All that evaluation does of its own keeps the invariant. -/
structure Kept (I : Invariant) (p : Program) : Prop where
  number {s} (x : Float) : I.value s (.number x)
  string {s} (text : String) : I.value s (.string text)
  boolean {s} (b : Bool) : I.value s (.boolean b)
  action {s} : I.value s .action
  native {s} (f : NativeFunction) : I.value s (.native f)
  field {s v w} {n : Name} : I.value s v → v.field? n = some w → I.value s w
  lookup {s v n} : I.machine s → s.env.lookup? s.store n = some v → I.value s.store v
  /-- A closure captures the current scope. -/
  closure {s c} : I.machine s → c.captured = s.env.current → I.value s.store (.closure c)
  typeValue {s t v d x fields isSignal}
    (hd : (p.arena.decl d).kind = .object x fields ∧ isSignal = false ∨
      ∃ result, (p.arena.decl d).kind = .signal x fields result ∧ isSignal = true)
    (hv : Eval.typeValue p d fields.isEmpty isSignal s = (.value v, t)) : I.value s.store v
  /-- An instance has one value for each field, of the type of this field. -/
  addInstance {s type} {values : List (Name × Value)} : I.value s (.constructor type) →
    (∀ x ∈ values, I.value s x.2) →
    values.map Prod.fst = (p.types.fields type).map (fun f => f.name) →
    (∀ x ∈ values.zip (p.types.fields type), x.1.2.hasType p.types x.2.type) →
    I.value s (s.addInstance (p.types.isSignal type) type values).1
  define {s v} (n isVariable) : I.machine s → I.value s.store v →
    I.step s { s with store := s.env.define s.store n v isVariable }
  assign {s v n found} : I.machine s → I.value s.store v →
    s.store.owner s.env.current n = .ok found →
    I.step s { s with store := s.store.define found n v true }
  ask {s q} (host : Host) : I.machine s → I.value s.store q.signal →
    I.step s { s with log := (host.ask s.log q).2 }
  inScope {s} : I.machine s → I.machine s.inScope
  inBody {s c} (loopTarget returnTarget) : I.machine s → I.value s.store (.closure c) →
    I.machine (s.inBody c.captured loopTarget returnTarget)
  inHandler {s f} (outer) : I.machine s → f ∈ s.handlers.frames → I.machine (s.inHandler f outer)
  install {s} (pattern body) : I.machine s → I.machine (s.install (s.handlerFrame pattern body))

variable {I : Invariant} {s t u : Machine} {good : Store → α → Prop} {v : Value}

theorem Kept.result (hI : I.Kept p) {s : Store} (h : v.IsResult) : I.value s v := by
  cases h with
  | number x => exact hI.number x
  | string text => exact hI.string text
  | boolean b => exact hI.boolean b

theorem Kept.headD (hI : I.Kept p) {s : Store} {vs : List Value} (h : ∀ v ∈ vs, I.value s v) :
    I.value s (vs.headD .action) := by
  cases vs with
  | nil => exact hI.action
  | cons v vs => exact h v List.mem_cons_self

/-- A pattern binds the value that it matches. -/
theorem value_of_matchPattern? {s : Store} (h : I.value s v) {pattern : Code.Pattern}
    {t : TypeTable} {bs : Bindings} (hm : v.matchPattern? pattern t = some bs) :
    ∀ b ∈ bs, I.value s b.2 := by
  rw [Value.eq_of_matchPattern? hm]
  intro b hb
  obtain ⟨n, -, rfl⟩ := List.mem_map.1 hb
  exact h

variable [I.Steady]

/-- A step to a machine that differs in nothing the invariant is about. -/
theorem Steady.congr (h : I.step s t) (hstore : u.store.cells = t.store.cells)
    (henv : u.env = t.env) (hhandlers : u.handlers = t.handlers)
    (hlog : u.log.questions = t.log.questions) : I.step s u :=
  Steady.within h (Nat.le_refl _) hstore hlog henv.trans hhandlers.trans

/-- Values stay good in a store with the same scopes. -/
theorem Steady.of_cells {s t : Store} (h : I.value s v) (hcells : t.cells = s.cells) :
    I.value t v :=
  Steady.grow (Nat.le_of_eq (congrArg Array.size hcells.symm)) h

theorem ends_value {a : α} (hs : I.machine s) (h : good s.store a) :
    I.Ends s good (.value a, s) :=
  ⟨Steady.refl hs, h⟩

/-- Nothing has changed at an interrupt that takes no value along. -/
theorem ends_interrupt {i : Interrupt} (hs : I.machine s) (h : i.carried? = none) :
    I.Ends s good (.interrupt i, s) :=
  ⟨Steady.refl hs, fun v hv => by cases h.symm.trans hv⟩

end Invariant

namespace Eval

open Invariant (Steady ends_value ends_interrupt)

/-- Where the invariant holds, it holds where the parts `ms` of the step `x` begin and, as long as
these end well, the step ends well itself, with a good value if any. -/
def Keeps (I : Invariant) (p : Program) (ms : List Moment) (good : Store → α → Prop) (x : Eval α)
    (s : Machine) : Prop :=
  I.machine s → (∀ m ∈ ms, I.At m → I.Ends m.machine I.value (m.result p)) →
    (∀ m ∈ ms, I.At m) ∧ I.Ends s good (x s)

variable {I : Invariant} {ms : List Moment} {good : Store → α → Prop} {good' : Store → β → Prop}
  {s : Machine}

/-! ### Steps in general -/

/-- A step without parts. -/
theorem keeps_of {x : Eval α} (h : I.machine s → I.Ends s good (x s)) : Keeps I p [] good x s :=
  fun hs _ => ⟨by simp, h hs⟩

theorem keeps_read {g : Machine → α} {f : α → Eval β} (h : Keeps I p ms good' (f (g s)) s) :
    Keeps I p ms good' (read g >>= f) s := h

/-- The evaluation of one part. -/
theorem keeps_part (m : Moment) (hm : ∀ v ∈ m.task.values, I.value m.machine.store v)
    {x : Eval Value} (hx : x m.machine = m.result p) : Keeps I p [m] I.value x m.machine := by
  intro hs hend
  have hm : I.At m := ⟨hs, hm⟩
  refine ⟨List.forall_mem_singleton.2 hm, ?_⟩
  rw [hx]
  exact hend m List.mem_cons_self hm

theorem keeps_expr (n : Nat) (e : ExprId) (s : Machine) :
    Keeps I p [⟨n, .expr e, s⟩] I.value (expr p n e) s :=
  keeps_part ⟨n, .expr e, s⟩ nofun rfl

theorem Keeps.located {x : Eval α} (hx : Keeps I p ms good x s) (span : Span) :
    Keeps I p ms good (located span x) s := by
  intro hs hend
  obtain ⟨hms, hu, ho⟩ := hx hs hend
  refine ⟨hms, ?_⟩
  simp only [Eval.located]
  cases hr : x s with
  | mk r u =>
    rw [hr] at hu ho
    cases r with
    | interrupt i => cases i <;> exact ⟨hu, ho⟩
    | _ => exact ⟨hu, ho⟩

theorem Keeps.locatedWhole {x : Eval Value} {good : Store → Value → Prop}
    (hx : Keeps I p ms good x s) (id : ExprId) : Keeps I p ms good (locatedWhole p id x) s := by
  rcases locatedWhole_cases p id with hwhole | hwhole <;> rw [hwhole]
  · exact hx.located _
  · exact hx

theorem keeps_define (hI : I.Kept p) (n : Name) {v : Value} (hv : I.value s.store v)
    (isVariable : Bool) : Keeps I p [] (fun _ _ => True) (define n v isVariable) s :=
  keeps_of fun hs => ⟨hI.define n isVariable hs hv, trivial⟩

variable [I.Steady]

theorem keeps_pure {a : α} (h : good s.store a) : Keeps I p [] good (pure a) s :=
  keeps_of fun hs => ends_value hs h

theorem keeps_interrupt {i : Interrupt} (h : ∀ v ∈ i.carried?, I.value s.store v) :
    Keeps I p [] good (interrupt i) s :=
  keeps_of fun hs => ⟨Steady.refl hs, h⟩

theorem keeps_fault {e : EvalProblem} (h : e.signal? = none) : Keeps I p [] good (fault e) s :=
  keeps_of fun hs => ends_interrupt hs h

theorem keeps_faultAt {e : EvalProblem} (h : e.signal? = none) (span : Span) :
    Keeps I p [] good (faultAt e span) s :=
  keeps_of fun hs => ends_interrupt hs h

theorem keeps_outOfFuel : Keeps I p [] good outOfFuel s :=
  keeps_of fun hs => ⟨Steady.refl hs, trivial⟩

/-- A step that changes nothing the invariant is about. -/
theorem keeps_update {f : Machine → Machine} (hstore : (f s).store.cells = s.store.cells)
    (henv : (f s).env = s.env) (hhandlers : (f s).handlers = s.handlers)
    (hlog : (f s).log.questions = s.log.questions) :
    Keeps I p [] (fun _ _ => True) (update f) s :=
  keeps_of fun hs => ⟨Steady.congr (Steady.refl hs) hstore henv hhandlers hlog, trivial⟩

namespace Keeps

variable {x : Eval α} {f : α → Eval β} {g : α → Machine → List Moment}

/-- The parts of a step, and those of what comes behind it. -/
theorem bind (hx : Keeps I p ms good x s)
    (hf : ∀ a u, x s = (.value a, u) → I.step s u → good u.store a →
      Keeps I p (g a u) good' (f a) u) :
    Keeps I p (ms ++ behind x s g) good' (x >>= f) s := by
  intro hs hend
  obtain ⟨hms, hu, ho⟩ := hx hs fun m hmem => hend m (List.mem_append_left _ hmem)
  simp only [Bind.bind, Eval.bind, behind] at hend ⊢
  cases hr : x s with
  | mk r u =>
    rw [hr] at hu ho hend
    cases r with
    | value a =>
      obtain ⟨hms', hends⟩ := hf a u hr hu ho (Steady.machine hu hs) fun m hmem =>
        hend m (List.mem_append_right _ hmem)
      exact ⟨List.forall_mem_append.2 ⟨hms, hms'⟩, Steady.trans hu hends.step, hends.outcome⟩
    | interrupt i => exact ⟨by simpa using hms, hu, ho⟩
    | outOfFuel => exact ⟨by simpa using hms, hu, trivial⟩

/-- What comes behind has no parts. -/
theorem bind_step (hx : Keeps I p ms good x s)
    (hf : ∀ a u, x s = (.value a, u) → I.step s u → good u.store a → Keeps I p [] good' (f a) u) :
    Keeps I p ms good' (x >>= f) s := by
  have h := hx.bind (g := fun _ _ => []) hf
  rwa [behind_nil, List.append_nil] at h

/-- Only what comes behind has parts. -/
theorem behind (hx : Keeps I p [] good x s)
    (hf : ∀ a u, x s = (.value a, u) → I.step s u → good u.store a →
      Keeps I p (g a u) good' (f a) u) :
    Keeps I p (behind x s g) good' (x >>= f) s := by
  have h := hx.bind hf
  rwa [List.nil_append] at h

/-- Behind a step of which the value is known. -/
theorem of_value {a : α} {u : Machine} (h : x s = (.value a, u)) (hf : Keeps I p ms good' (f a) u)
    (hu : I.machine s → I.step s u) : Keeps I p ms good' (x >>= f) s := by
  intro hs hend
  rw [bind_of_value h]
  obtain ⟨hms, hends⟩ := hf (Steady.machine (hu hs) hs) hend
  exact ⟨hms, Steady.trans (hu hs) hends.step, hends.outcome⟩

/-- A step that does what another one does from another machine, and puts environment and handlers
back. -/
theorem within {y : Eval α} {s' : Machine} (hx : Keeps I p ms good x s')
    (hs : I.machine s → I.machine s') (hsize : s.store.cells.size ≤ s'.store.cells.size)
    (houtcome : (y s).1 = (x s').1) (hstore : (y s).2.store = (x s').2.store)
    (hlog : (y s).2.log = (x s').2.log) (henv : (x s').2.env = s'.env → (y s).2.env = s.env)
    (hhandlers : (x s').2.handlers = s'.handlers → (y s).2.handlers = s.handlers) :
    Keeps I p ms good y s := by
  intro h hend
  obtain ⟨hms, hu, ho⟩ := hx (hs h) hend
  refine ⟨hms, Steady.within hu hsize (congrArg Store.cells hstore)
    (congrArg HostLog.questions hlog) henv hhandlers, ?_⟩
  rw [hstore, houtcome]
  exact ho

theorem inScope (hI : I.Kept p) (hx : Keeps I p ms good x s.inScope) :
    Keeps I p ms good (inScope x) s := by
  refine hx.within hI.inScope (s.store.size_le_addScope _) rfl rfl rfl (fun henv => ?_) id
  show (x s.inScope).2.env.pop = s.env
  rw [henv]
  rfl

/-- A step in a scope of its own inside one that was captured, in place of the environment. -/
theorem inBody {captured : ScopeId} {loopTarget returnTarget : Option FrameId}
    (hx : Keeps I p ms good x (s.inBody captured loopTarget returnTarget))
    (hs : I.machine s → I.machine (s.inBody captured loopTarget returnTarget)) :
    Keeps I p ms good
      (childEnvironment captured >>= fun env => inContext env loopTarget returnTarget x) s :=
  hx.within hs (s.store.size_le_addScope _) rfl rfl rfl (fun _ => rfl) id

end Keeps

theorem keeps_defineAll (hI : I.Kept p) {bs : Bindings} (hbs : ∀ b ∈ bs, I.value s.store b.2) :
    Keeps I p [] (fun _ _ => True) (defineAll bs) s := by
  induction bs generalizing s with
  | nil => exact keeps_pure trivial
  | cons b bs ih =>
    obtain ⟨hb, hbs⟩ := List.forall_mem_cons.1 hbs
    exact (keeps_define hI b.1 hb false).bind_step fun _ u _ hu _ => ih fun c hc =>
      Steady.value hu (hbs c hc)

theorem keeps_defineEach (hI : I.Kept p) {xs : List (Name × Eval Value)}
    (hxs : ∀ x ∈ xs, ∀ s, Keeps I p [] I.value x.2 s) :
    Keeps I p [] (fun _ _ => True) (defineEach xs) s := by
  induction xs generalizing s with
  | nil => exact keeps_pure trivial
  | cons x xs ih =>
    obtain ⟨hx, hxs⟩ := List.forall_mem_cons.1 hxs
    refine (hx s).bind_step fun v _ _ _ hv => ?_
    exact (keeps_define hI x.1 hv false).bind_step fun _ _ _ _ _ => ih hxs

end Eval

end SignalLang
