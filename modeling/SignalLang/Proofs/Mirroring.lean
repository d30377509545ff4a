import SignalLang.Proofs.Cells
import SignalLang.Proofs.NativeCalls
import SignalLang.Proofs.Renaming

/-!
# Mirrored runs

Two runs can do the same with renamed values.  The machines then differ in the values that are bound
and in the order in which the names of a scope are bound, and in nothing else.

* `Store.Mirrors r s s'`, `Machine.Mirrors r m m'` : the values of the one, renamed, are those of
  the other.
* `Program.Mirrors r p p'` : the programs differ in the places of types, and the host of the one
  answers what that of the other does, as its functions do.
* `Eval.Mirrors r x x' A` : from machines that mirror each other, `x` and `x'` lead to such
  machines, and to results that `A` relates.
-/

namespace SignalLang

/-! ### Errors -/

namespace EvalProblem

/-- The problem with its values renamed. -/
def rename (r : Renaming) : EvalProblem → EvalProblem
  | .unhandledSignal name signal => .unhandledSignal name (signal.rename r)
  | .inWords problem message signal => .inWords problem message (signal.map (Value.rename r))
  | problem => problem

variable (r : Renaming) (problem : EvalProblem)

theorem rename_of_signal? (h : problem.signal? = none) : problem.rename r = problem := by
  cases problem with
  | unhandledSignal name signal => cases h
  | inWords problem message signal =>
    obtain rfl : signal = none := h
    rfl
  | _ => rfl

theorem signal?_rename : (problem.rename r).signal? = problem.signal?.map (Value.rename r) := by
  cases problem <;> rfl

@[simp] theorem code_rename : (problem.rename r).code = problem.code := by
  cases problem <;> rfl

@[simp] theorem message_rename : (problem.rename r).message = problem.message := by
  cases problem <;> rfl

@[simp] theorem label_rename : (problem.rename r).label = problem.label := by
  cases problem <;> rfl

end EvalProblem

namespace EvalError

/-- The error with its values renamed. -/
def rename (r : Renaming) (e : EvalError) : EvalError := { e with problem := e.problem.rename r }

/-- **The report of an error does not depend on the numbering.** -/
theorem diagnostic_rename (r : Renaming) (e : EvalError) : (e.rename r).diagnostic = e.diagnostic := by
  simp [diagnostic, rename]

end EvalError

namespace Interrupt

/-- The interrupt with its values renamed. -/
def rename (r : Renaming) : Interrupt → Interrupt
  | .fault e => .fault (e.rename r)
  | .breakTo target v => .breakTo target (v.rename r)
  | .returnTo target v => .returnTo target (v.rename r)

theorem withSpan_rename (r : Renaming) (span : Span) (i : Interrupt) :
    (i.rename r).withSpan span = (i.withSpan span).rename r := by
  cases i <;> rfl

theorem toError_rename (r : Renaming) (i : Interrupt) :
    (i.rename r).toError = i.toError.rename r := by
  cases i <;> rfl

end Interrupt

/-- The second outcome is the first one with its values renamed; `A` relates the results. -/
inductive Outcome.Mirrors (r : Renaming) (A : α → β → Prop) : Outcome α → Outcome β → Prop
  | value {a b} (h : A a b) : Mirrors r A (.value a) (.value b)
  | interrupt (i) : Mirrors r A (.interrupt i) (.interrupt (i.rename r))
  | outOfFuel : Mirrors r A .outOfFuel .outOfFuel

theorem Outcome.Mirrors.settle {r : Renaming} {A : α → β → Prop} {o : Outcome α} {o' : Outcome β}
    (h : o.Mirrors r A o') : o.settle.Mirrors r A o'.settle := by
  cases h with
  | value h => exact .value h
  | outOfFuel => exact .outOfFuel
  | interrupt i =>
    rw [Outcome.settle, Outcome.settle, i.toError_rename]
    exact .interrupt (.fault i.toError)

/-! ### Stores -/

/-- The binding with its value renamed. -/
def Binding.rename (r : Renaming) (b : Binding) : Binding := { b with value := b.value.rename r }

namespace Store

/-- The bindings of the second store are those of the first one, renamed.  What is still to come is
numbered in the same way in both. -/
structure Mirrors (r : Renaming) (s s' : Store) : Prop where
  size : s'.cells.size = s.cells.size
  parent : ∀ id, (s'.cell id).parent = (s.cell id).parent
  binding? : ∀ id n, s'.binding? id n = (s.binding? id n).map (Binding.rename r)
  nextIdentity : s'.nextIdentity = s.nextIdentity
  fixed : ∀ i : Identity, s.nextIdentity ≤ i.index → r.identity i = i

variable {r : Renaming} {s s' : Store}

theorem Mirrors.addScope (h : s.Mirrors r s') (parent : Option ScopeId) :
    (s.addScope parent).2.Mirrors r (s'.addScope parent).2 where
  size := by rw [size_addScope, size_addScope, h.size]
  parent id := by
    rw [cell_addScope, cell_addScope, h.size]
    split
    · rfl
    · exact h.parent id
  binding? id n := by rw [binding?_addScope, binding?_addScope, h.binding?]
  nextIdentity := h.nextIdentity
  fixed := h.fixed

theorem Mirrors.define (h : s.Mirrors r s') (id : ScopeId) (n : Name) (v : Value)
    (isVariable : Bool) :
    (s.define id n v isVariable).Mirrors r (s'.define id n (v.rename r) isVariable) where
  size := by rw [size_define, size_define, h.size]
  parent c := by rw [parent_define, parent_define, h.parent]
  binding? c m := by
    rw [binding?_define, binding?_define, h.size]
    split
    · rfl
    · exact h.binding? c m
  nextIdentity := h.nextIdentity
  fixed := h.fixed

theorem Mirrors.isSome_binding? (h : s.Mirrors r s') (id : ScopeId) (n : Name) :
    (s'.binding? id n).isSome = (s.binding? id n).isSome := by
  rw [h.binding?, Option.isSome_map]

theorem Mirrors.nearest? (h : s.Mirrors r s') (id : ScopeId) (n : Name) :
    s'.nearest? id n = s.nearest? id n := by
  have hwithin : ∀ length id, s'.nearestWithin n length id = s.nearestWithin n length id := by
    intro length
    induction length with
    | zero => exact fun _ => rfl
    | succ length ih =>
      intro id
      simp only [nearestWithin, h.isSome_binding?, h.parent, ih]
  rw [Store.nearest?, Store.nearest?, h.size, hwithin]

theorem Mirrors.lookup? (h : s.Mirrors r s') (id : ScopeId) (n : Name) :
    s'.lookup? id n = (s.lookup? id n).map (Value.rename r) := by
  rw [Store.lookup?, Store.lookup?, h.nearest?]
  cases s.nearest? id n with
  | none => rfl
  | some found =>
    rw [Option.bind_some, Option.bind_some, h.binding?]
    cases s.binding? found n <;> rfl

theorem Mirrors.owner (h : s.Mirrors r s') (id : ScopeId) (n : Name) :
    s'.owner id n = s.owner id n := by
  rw [Store.owner, Store.owner, h.nearest?]
  cases s.nearest? id n with
  | none => rfl
  | some found =>
    dsimp only
    rw [h.binding?]
    cases s.binding? found n <;> rfl

/-- New identities are the same. -/
theorem Mirrors.fixed_next (h : s.Mirrors r s') : r.identity ⟨s.nextIdentity⟩ = ⟨s.nextIdentity⟩ :=
  h.fixed _ (Nat.le_refl _)

theorem Mirrors.addIdentity (h : s.Mirrors r s') : s.addIdentity.2.Mirrors r s'.addIdentity.2 where
  size := h.size
  parent := h.parent
  binding? := h.binding?
  nextIdentity := congrArg (· + 1) h.nextIdentity
  fixed i hi := h.fixed i (Nat.le_trans (Nat.le_succ _) hi)

theorem Mirrors.addInstance (h : s.Mirrors r s') (isSignal : Bool) (type : TypeId)
    (fields : List (Name × Value)) :
    (s'.addInstance isSignal (r.type type) (Value.renameFields r fields)).1 =
        (s.addInstance isSignal type fields).1.rename r ∧
      (s.addInstance isSignal type fields).2.Mirrors r
        (s'.addInstance isSignal (r.type type) (Value.renameFields r fields)).2 := by
  cases fields with
  | nil =>
    refine ⟨?_, h⟩
    cases isSignal <;> rfl
  | cons f fields =>
    refine ⟨?_, h.addIdentity⟩
    have hidentity : some (⟨s'.nextIdentity⟩ : Identity) =
        (some (⟨s.nextIdentity⟩ : Identity)).map r.identity := by
      rw [Option.map_some, h.fixed_next, h.nextIdentity]
    cases isSignal
    · exact congrArg (fun i => Value.object i _ _) hidentity
    · exact congrArg (fun i => Value.signal i _ _) hidentity

theorem Mirrors.addClosure (h : s.Mirrors r s') (name : Option Name) (params : List Code.Param)
    (result : Option TypeRefId) (body : ExprId) (captured : ScopeId) :
    (s'.addClosure name params result body captured).1 =
        (s.addClosure name params result body captured).1.rename r ∧
      (s.addClosure name params result body captured).2.Mirrors r
        (s'.addClosure name params result body captured).2 := by
  refine ⟨?_, h.addIdentity⟩
  have hidentity : (⟨s'.nextIdentity⟩ : Identity) = r.identity ⟨s.nextIdentity⟩ := by
    rw [h.fixed_next, h.nextIdentity]
  exact congrArg (fun i => Value.closure ⟨i, name, params, result, body, captured⟩) hidentity

end Store

/-! ### Machines -/

/-- The question with its values renamed. -/
def Question.rename (r : Renaming) (q : Question) : Question :=
  { q with signal := q.signal.rename r }

/-- The log with the values of the questions renamed. -/
def HostLog.rename (r : Renaming) (log : HostLog) : HostLog :=
  { log with questions := log.questions.map (Question.rename r) }

/-- The second machine is the first one, with its values renamed. -/
structure Machine.Mirrors (r : Renaming) (m m' : Machine) : Prop where
  store : m.store.Mirrors r m'.store
  env : m'.env = m.env
  handlers : m'.handlers = m.handlers
  calls : m'.calls = m.calls
  loopTarget : m'.loopTarget = m.loopTarget
  returnTarget : m'.returnTarget = m.returnTarget
  activations : m'.activations = m.activations
  hostTicks : m'.hostTicks = m.hostTicks
  log : m'.log = m.log.rename r

/-! ### Hosts and programs -/

/-- The second host answers what the first one does, with renamed values.  It keeps lines if the
first one does. -/
structure Host.Mirrors (r : Renaming) (h h' : Host) : Prop where
  answer : ∀ earlier q, h'.answer (earlier.map (Question.rename r)) (q.rename r) =
    (h.answer earlier q).map (Value.rename r)
  keepsLines : h'.keepsLines = h.keepsLines

/-- The second functions give for renamed values what the first ones do, with renamed values. -/
def HostFunctions.Mirrors (r : Renaming) (functions functions' : HostFunctions) : Prop :=
  ∀ entry args, functions' entry (args.map (Value.rename r)) =
    ((functions entry args).map (Value.rename r)).mapError (EvalError.rename r)

theorem HostFunctions.mirrors_none (r : Renaming) : HostFunctions.none.Mirrors r .none :=
  fun _ _ => rfl

/-- **What native functions give does not depend on the numbering**, if that is so of the functions
of the host. -/
theorem NativeFunction.call_rename {r : Renaming} {functions functions' : HostFunctions}
    (h : functions.Mirrors r functions') (f : NativeFunction) (args : List Value) :
    f.call functions' (args.map (Value.rename r)) =
      ((f.call functions args).map (Value.rename r)).mapError (EvalError.rename r) := by
  simp only [call, apply, List.length_map]
  split
  · rfl
  cases f.code with
  | host entry => exact h entry args
  | library n =>
    have hplain := n.plain_apply args
    dsimp only
    rw [n.apply_rename]
    cases happly : n.apply args with
    | ok v => rfl
    | error problem =>
      rw [happly] at hplain
      cases hplain with
      | error hproblem =>
        have hsame := problem.rename_of_signal? r hproblem.signal?
        exact congrArg (fun problem => Except.error (EvalError.new problem)) hsame.symm

/-- The programs differ in the places of types only. -/
structure Program.Mirrors (r : Renaming) (p p' : Program) : Prop where
  arena : p'.arena = p.arena
  interner : p'.interner = p.interner
  types : r.Retypes p.types p'.types
  limits : p'.limits = p.limits
  host : Option.Rel (Host.Mirrors r) p.host p'.host
  functions : p.functions.Mirrors r p'.functions

/-! ### Steps -/

namespace Eval

/-- From machines that mirror each other, two steps lead to such machines, and to results that `A`
relates. -/
def Mirrors (r : Renaming) (x : Eval α) (x' : Eval β) (A : α → β → Prop) : Prop :=
  ∀ s s' : Machine, s.Mirrors r s' →
    (x s).1.Mirrors r A (x' s').1 ∧ (x s).2.Mirrors r (x' s').2

/-- A value and the renamed one. -/
def Renamed (r : Renaming) (v w : Value) : Prop := w = v.rename r

variable {r : Renaming}

theorem mirrors_pure {A : α → β → Prop} {a : α} {b : β} (h : A a b) :
    Mirrors r (pure a) (pure b) A :=
  fun _ _ hs => ⟨.value h, hs⟩

theorem mirrors_outOfFuel {A : α → β → Prop} : Mirrors r outOfFuel outOfFuel A :=
  fun _ _ hs => ⟨.outOfFuel, hs⟩

theorem mirrors_interrupt {A : α → β → Prop} (i : Interrupt) :
    Mirrors r (interrupt i) (interrupt (i.rename r)) A :=
  fun _ _ hs => ⟨.interrupt i, hs⟩

/-- A problem without values. -/
theorem mirrors_fault {A : α → β → Prop} {problem : EvalProblem}
    (h : problem.rename r = problem) : Mirrors r (fault problem) (fault problem) A := by
  have hi := mirrors_interrupt (r := r) (A := A) (.fault (.new problem))
  rwa [Interrupt.rename, EvalError.rename, show (EvalError.new problem).problem = problem from rfl,
    h] at hi

theorem mirrors_faultAt {A : α → β → Prop} {problem : EvalProblem} (span : Span)
    (h : problem.rename r = problem) : Mirrors r (faultAt problem span) (faultAt problem span) A := by
  have hi := mirrors_interrupt (r := r) (A := A) (.fault (.newAt problem span))
  rwa [Interrupt.rename, EvalError.rename,
    show (EvalError.newAt problem span).problem = problem from rfl, h] at hi

/-- What the two steps come to, side by side. -/
theorem Mirrors.outcomes {A : α → β → Prop} {x : Eval α} {x' : Eval β} (h : Mirrors r x x' A)
    {s s' : Machine} (hs : s.Mirrors r s') :
    ∃ o t o' t', x s = (o, t) ∧ x' s' = (o', t') ∧ o.Mirrors r A o' ∧ t.Mirrors r t' :=
  ⟨_, _, _, _, rfl, rfl, h s s' hs⟩

theorem Mirrors.bind {α' β' : Type} {A : α → α' → Prop} {B : β → β' → Prop} {x : Eval α}
    {x' : Eval α'} {f : α → Eval β} {f' : α' → Eval β'} (hx : Mirrors r x x' A)
    (hf : ∀ a a', A a a' → Mirrors r (f a) (f' a') B) : Mirrors r (x >>= f) (x' >>= f') B := by
  intro s s' hs
  obtain ⟨o, t, o', t', heq, heq', ho, ht⟩ := hx.outcomes hs
  simp only [Bind.bind, Eval.bind, heq, heq']
  cases ho with
  | value h => exact hf _ _ h t t' ht
  | interrupt i => exact ⟨.interrupt i, ht⟩
  | outOfFuel => exact ⟨.outOfFuel, ht⟩

/-- A step whose value is not used. -/
theorem Mirrors.andThen {A : α → β → Prop} {x x' : Eval Unit} {y : Eval α} {y' : Eval β}
    (hx : Mirrors r x x' Eq) (hy : Mirrors r y y' A) :
    Mirrors r (x >>= fun _ => y) (x' >>= fun _ => y') A :=
  hx.bind fun _ _ _ => hy

theorem mirrors_read {A : α → β → Prop} {f : Machine → α} {f' : Machine → β}
    (h : ∀ s s' : Machine, s.Mirrors r s' → A (f s) (f' s')) : Mirrors r (read f) (read f') A :=
  fun s s' hs => ⟨.value (h s s' hs), hs⟩

theorem mirrors_update {f f' : Machine → Machine}
    (h : ∀ s s' : Machine, s.Mirrors r s' → (f s).Mirrors r (f' s')) :
    Mirrors r (update f) (update f') Eq :=
  fun s s' hs => ⟨.value rfl, h s s' hs⟩

theorem Mirrors.located {A : α → β → Prop} {x : Eval α} {x' : Eval β} (h : Mirrors r x x' A)
    (span : Span) : Mirrors r (located span x) (located span x') A := by
  intro s s' hs
  obtain ⟨o, t, o', t', heq, heq', ho, ht⟩ := h.outcomes hs
  simp only [Eval.located, heq, heq']
  cases ho with
  | value h => exact ⟨.value h, ht⟩
  | interrupt i =>
    dsimp only
    rw [i.withSpan_rename]
    exact ⟨.interrupt _, ht⟩
  | outOfFuel => exact ⟨.outOfFuel, ht⟩

/-! ### Scopes and contexts -/

theorem Mirrors.inScope {A : α → β → Prop} {x : Eval α} {x' : Eval β} (h : Mirrors r x x' A) :
    Mirrors r (inScope x) (inScope x') A := by
  intro s s' hs
  have hpush : (s'.env.push s'.store).1 = (s.env.push s.store).1 := by
    simp only [Environment.push, Store.addScope, hs.env, hs.store.size]
  have hstore : (s.env.push s.store).2.Mirrors r (s'.env.push s'.store).2 := by
    simp only [Environment.push, hs.env]
    exact hs.store.addScope _
  have hinside : s.inScope.Mirrors r s'.inScope := { hs with env := hpush, store := hstore }
  obtain ⟨o, t, o', t', heq, heq', ho, ht⟩ := h.outcomes hinside
  rw [Machine.inScope] at heq heq'
  simp only [Eval.inScope, heq, heq']
  exact ⟨ho, { ht with env := by rw [ht.env] }⟩

theorem mirrors_define (n : Name) (v : Value) (isVariable : Bool) :
    Mirrors r (define n v isVariable) (define n (v.rename r) isVariable) Eq :=
  mirrors_update fun _ _ hs => { hs with
    store := by
      simp only [Environment.define, hs.env]
      exact hs.store.define _ n v isVariable }

theorem mirrors_defineAll (bs : Bindings) :
    Mirrors r (defineAll bs) (defineAll (Value.renameFields r bs)) Eq := by
  induction bs with
  | nil => exact mirrors_pure rfl
  | cons b bs ih => exact (mirrors_define b.1 b.2 false).andThen ih

theorem Mirrors.withBindings {A : α → β → Prop} {x : Eval α} {x' : Eval β} (h : Mirrors r x x' A)
    (bs : Bindings) : Mirrors r (withBindings bs x) (withBindings (Value.renameFields r bs) x') A :=
  ((mirrors_defineAll bs).andThen h).inScope

theorem Mirrors.inContext {A : α → β → Prop} {x : Eval α} {x' : Eval β} (h : Mirrors r x x' A)
    (env : Environment) (loopTarget returnTarget : Option FrameId) :
    Mirrors r (inContext env loopTarget returnTarget x)
      (inContext env loopTarget returnTarget x') A := by
  intro s s' hs
  have hinside : ({ s with env, loopTarget, returnTarget } : Machine).Mirrors r
      { s' with env, loopTarget, returnTarget } :=
    { hs with env := rfl, loopTarget := rfl, returnTarget := rfl }
  obtain ⟨o, t, o', t', heq, heq', ho, ht⟩ := h.outcomes hinside
  simp only [Eval.inContext, heq, heq']
  exact ⟨ho, { ht with env := hs.env, loopTarget := hs.loopTarget, returnTarget := hs.returnTarget }⟩

theorem mirrors_childEnvironment (captured : ScopeId) :
    Mirrors r (childEnvironment captured) (childEnvironment captured) Eq := by
  intro s s' hs
  refine ⟨.value ?_, { hs with store := hs.store.addScope _ }⟩
  rw [hs.env]
  exact congrArg (fun size => { s.env with inner := [], base := ⟨size⟩ }) hs.store.size.symm

theorem mirrors_freshFrame : Mirrors r freshFrame freshFrame Eq := fun _ _ hs =>
  ⟨.value (congrArg FrameId.ofSerial hs.activations.symm),
    { hs with activations := congrArg (· + 1) hs.activations }⟩

/-! ### Handlers and calls -/

theorem Mirrors.withHandler {A : α → β → Prop} {x : Eval α} {x' : Eval β} (h : Mirrors r x x' A)
    (f : HandlerFrame) : Mirrors r (withHandler f x) (withHandler f x') A := by
  intro s s' hs
  have hinside : (s.install f).Mirrors r (s'.install f) :=
    { hs with handlers := by rw [Machine.install, Machine.install, hs.handlers] }
  obtain ⟨o, t, o', t', heq, heq', ho, ht⟩ := h.outcomes hinside
  rw [Machine.install] at heq heq'
  simp only [Eval.withHandler, heq, heq']
  exact ⟨ho, { ht with handlers := by rw [ht.handlers] }⟩

theorem Mirrors.withOuterHandlers {A : α → β → Prop} {x : Eval α} {x' : Eval β}
    (h : Mirrors r x x' A) (outer : Nat) :
    Mirrors r (withOuterHandlers outer x) (withOuterHandlers outer x') A := by
  intro s s' hs
  have hinside : ({ s with handlers := (s.handlers.splitOff outer).2 } : Machine).Mirrors r
      { s' with handlers := (s'.handlers.splitOff outer).2 } :=
    { hs with handlers := by rw [hs.handlers] }
  obtain ⟨o, t, o', t', heq, heq', ho, ht⟩ := h.outcomes hinside
  simp only [Eval.withOuterHandlers, heq, heq']
  exact ⟨ho, { ht with handlers := by rw [ht.handlers, hs.handlers] }⟩

theorem attach_rename (calls : CallStack) (e : EvalError) :
    calls.attach (e.rename r) = (calls.attach e).rename r := by
  have hcond : (e.rename r).backtrace = e.backtrace := rfl
  simp only [CallStack.attach, hcond]
  split <;> rfl

theorem Mirrors.activation {x x' : Eval Value} (h : Mirrors r x x' (Renamed r)) (frame : FrameId) :
    Mirrors r (activation frame x) (activation frame x') (Renamed r) := by
  intro s s' hs
  obtain ⟨o, t, o', t', heq, heq', ho, ht⟩ := h.outcomes hs
  have hpop : { t with calls := t.calls.pop }.Mirrors r { t' with calls := t'.calls.pop } :=
    { ht with calls := by rw [ht.calls] }
  simp only [Eval.activation, heq, heq']
  cases ho with
  | value h => exact ⟨.value h, hpop⟩
  | outOfFuel => exact ⟨.outOfFuel, hpop⟩
  | interrupt i =>
    cases i with
    | fault e =>
      refine ⟨?_, hpop⟩
      simp only [Interrupt.rename, ht.calls, attach_rename]
      exact .interrupt (.fault _)
    | breakTo target v => exact ⟨.interrupt (.breakTo target v), hpop⟩
    | returnTo target v =>
      refine ⟨?_, hpop⟩
      dsimp only [Interrupt.rename]
      split
      · exact .value rfl
      · exact .interrupt (.returnTo target v)

end Eval

end SignalLang
