import SignalLang.Proofs.Defining

/-!
# Steps in scopes that show their contexts

Where the current scope shows the context in which an expression was accepted, its evaluation binds
every name in a scope that does not bind it yet, and finds every name that it looks for unless that
name may be missing.  This file says what that means for a single step, and has the steps that open
scopes: calls and causes.

* `Machine.Scoped g s` : all closures and handlers that a machine refers to fit.
* `Machine.Ready g c s` : the current scope of such a machine shows the context `c`.
* `Machine.Arrives g s good res` : a step from `s` has ended with a `good` value, or in an interrupt
  that is explained; the store has grown, and the machine is scoped again.
* `Eval.Arriving g ev` : what is accepted arrives if `ev` evaluates it.
* `Eval.arrives_callValue`, `Eval.arrives_cause` : **so do calls and causes.**
-/

namespace SignalLang

variable {p : Program} {g : Scoping p}

/-! ### Machines -/

namespace Scoping

/-- A problem with a name is about one that may be missing, or one that is bound both as a constant
and as a variable; or a function of the host raises it. -/
def Explains (g : Scoping p) : EvalProblem → Prop
  | .unboundName text =>
    ((∃ n, text = p.interner.text n ∧ (g.missing n ∨ ∃ c, g.promised c n)) ∨ g.anyMissing) ∨
      p.functions.CanRaise (.unboundName text)
  | .immutableBinding text =>
    (∃ n, text = p.interner.text n ∧ g.constant n ∧ g.changeable n) ∨
      p.functions.CanRaise (.immutableBinding text)
  | _ => True

theorem explains_of_arguments {problem : EvalProblem} (h : problem.OfArguments) :
    g.Explains problem := by
  cases h <;> trivial

theorem explains_of_canRaise {problem : EvalProblem} (h : p.functions.CanRaise problem) :
    g.Explains problem := by
  cases problem with
  | unboundName text | immutableBinding text => exact .inr h
  | _ => trivial

/-- The closures that the host makes up fit in every store. -/
abbrev TrustsHost (g : Scoping p) : Prop := p.HostOnly fun c => ∀ s, g.Fits s c

end Scoping

/-- A value is good, and problems are explained. -/
def Outcome.Suits (g : Scoping p) (s : Store) (good : Store → α → Prop) : Outcome α → Prop
  | .value a => good s a
  | .interrupt (.fault e) => g.Explains e.problem
  | .interrupt (.breakTo _ v) => g.Holds s v
  | .interrupt (.returnTo _ v) => g.Holds s v
  | .outOfFuel => True

namespace Machine

/-- All closures and handlers that a machine refers to fit, and its current scope is there. -/
structure Scoped (g : Scoping p) (s : Machine) : Prop where
  current : s.env.current.index < s.store.cells.size
  store : g.HoldsAll s.store
  questions : ∀ q ∈ s.log.questions, g.Holds s.store q.signal
  handlers : ∀ f ∈ s.handlers.frames, g.FitsHandler s.store f

/-- The current scope shows a context. -/
structure Ready (g : Scoping p) (c : Resolve.Context) (s : Machine) : Prop where
  fits : s.Scoped g
  shows : g.Shows s.store s.env.current [] c

/-- The machine `t` behind a step from `s`. -/
structure Behind (g : Scoping p) (s t : Machine) : Prop where
  env : t.env = s.env
  grows : s.store.Grows t.store
  fits : t.Scoped g

/-- A step from `s` has ended as it should. -/
structure Arrives (g : Scoping p) (s : Machine) (good : Store → α → Prop)
    (res : Outcome α × Machine) : Prop extends s.Behind g res.2 where
  outcome : res.1.Suits g res.2.store good

/-- Some names are not bound in the current scope itself. -/
def Free (s : Machine) (ns : List Name) : Prop :=
  ∀ n ∈ ns, s.store.binding? s.env.current n = none

variable {s t u : Machine} {c : Resolve.Context}

theorem Scoped.behind (hs : s.Scoped g) : s.Behind g s := ⟨rfl, .refl _, hs⟩

theorem Behind.trans (h : s.Behind g t) (h' : t.Behind g u) : s.Behind g u :=
  ⟨h'.env.trans h.env, h.grows.trans h'.grows, h'.fits⟩

theorem Behind.ready (h : s.Behind g t) (hs : s.Ready g c) : t.Ready g c :=
  ⟨h.fits, by rw [h.env]; exact hs.shows.grows h.grows⟩

theorem Ready.behind (hs : s.Ready g c) : s.Behind g s := hs.fits.behind

/-- A machine with more in the store. -/
theorem Scoped.withStore (hs : s.Scoped g) {store : Store} (hgrows : s.store.Grows store)
    (hstore : g.HoldsAll store) : s.Behind g { s with store } :=
  ⟨rfl, hgrows, Nat.lt_of_lt_of_le hs.current hgrows.size, hstore,
    fun q hq => (hs.questions q hq).grows hgrows, fun f hf => (hs.handlers f hf).grows hgrows⟩

/-- The environment from before a step is still there behind it. -/
theorem Scoped.withEnv (ht : t.Scoped g) {env : Environment}
    (henv : env.current.index < t.store.cells.size) : ({ t with env } : Machine).Scoped g :=
  ⟨henv, ht.store, ht.questions, ht.handlers⟩

namespace Arrives

variable {good good' : Store → α → Prop}

theorem weaken {res : Outcome α × Machine} (h : s.Arrives g good res)
    (hgood : ∀ st a, s.store.Grows st → good st a → good' st a) : s.Arrives g good' res := by
  obtain ⟨hb, ho⟩ := h
  refine ⟨hb, ?_⟩
  generalize res.1 = r at ho ⊢
  cases r with
  | value a => exact hgood _ a hb.grows ho
  | interrupt i => cases i <;> exact ho
  | outOfFuel => trivial

/-- What comes behind a step that arrives begins where that step ends. -/
theorem bind {x : Eval α} {f : α → Eval β} {good' : Store → β → Prop}
    (hx : s.Arrives g good (x s))
    (hf : ∀ a t, x s = (.value a, t) → s.Behind g t → good t.store a →
      t.Arrives g good' (f a t)) : s.Arrives g good' ((x >>= f) s) := by
  obtain ⟨hb, ho⟩ := hx
  simp only [Bind.bind, Eval.bind]
  cases hr : x s with
  | mk r t =>
    rw [hr] at hb ho
    cases r with
    | value a =>
      obtain ⟨hb', ho'⟩ := hf a t hr hb ho
      exact ⟨hb.trans hb', ho'⟩
    | interrupt i => exact ⟨hb, by cases i <;> exact ho⟩
    | outOfFuel => exact ⟨hb, trivial⟩

theorem located {x : Eval α} (hx : s.Arrives g good (x s)) (span : Span) :
    s.Arrives g good (Eval.located span x s) := by
  obtain ⟨hb, ho⟩ := hx
  simp only [Eval.located]
  cases hr : x s with
  | mk r t =>
    rw [hr] at hb ho
    cases r with
    | interrupt i => cases i <;> exact ⟨hb, ho⟩
    | _ => exact ⟨hb, ho⟩

end Arrives

end Machine

/-! ### Stores in which names are bound -/

namespace Store

/-- In one scope some names were bound, and no others. -/
structure Binds (id : ScopeId) (ns : List Name) (s s' : Store) : Prop where
  bound : ∀ n ∈ ns, (s'.binding? id n).isSome
  other : ∀ n, n ∉ ns → s.binding? id n = none → s'.binding? id n = none

variable {s s' s'' : Store} {id : ScopeId} {ns ms : List Name}

theorem Binds.refl (id : ScopeId) (s : Store) : s.Binds id [] s := ⟨by simp, fun _ _ h => h⟩

theorem Binds.trans (h : s.Binds id ns s') (h' : s'.Binds id ms s'') (hs : s'.Grows s'') :
    s.Binds id (ns ++ ms) s'' := by
  refine ⟨fun n hn => ?_, fun n hn hnone => ?_⟩
  · rcases List.mem_append.1 hn with hn | hn
    · exact hs.isSome (h.bound n hn)
    · exact h'.bound n hn
  · rw [List.mem_append, not_or] at hn
    exact h'.other n hn.2 (h.other n hn.1 hnone)

theorem binds_define (hid : id.index < s.cells.size) (n : Name) (v : Value) (isVariable : Bool) :
    s.Binds id [n] (s.define id n v isVariable) := by
  refine ⟨fun m hm => ?_, fun m hm hnone => ?_⟩
  · rw [List.mem_singleton.1 hm, binding?_define, if_pos ⟨rfl, rfl, hid⟩]
    rfl
  · rw [binding?_define, if_neg fun h => hm (List.mem_singleton.2 h.2.1)]
    exact hnone

/-- What keeps all scopes binds no name in them. -/
theorem Keeps.binds (h : s.Keeps s.cells.size s') (hid : id.index < s.cells.size) :
    s.Binds id [] s' := by
  refine ⟨by simp, fun n _ hnone => ?_⟩
  have hrel := h.binding id hid n
  rw [hnone] at hrel
  generalize s'.binding? id n = b at hrel ⊢
  cases hrel
  rfl

end Store

namespace Machine

variable {s t : Machine} {ns ms : List Name}

theorem Free.left (h : s.Free (ns ++ ms)) : s.Free ns := fun n hn => h n (List.mem_append_left _ hn)

/-- Names stay free as others are bound. -/
theorem Free.right (h : s.Free (ns ++ ms)) (hnodup : (ns ++ ms).Nodup)
    (henv : t.env = s.env) (hb : s.store.Binds s.env.current ns t.store) : t.Free ms := by
  intro n hn
  rw [henv]
  exact hb.other n (fun hn' => (List.nodup_append.1 hnodup).2.2 n hn' n hn rfl)
    (h n (List.mem_append_right _ hn))

end Machine

namespace Eval

open Machine

variable {ev : Evaluator} {s t : Machine} {c c' : Resolve.Context} {good : Store → α → Prop}

/-! ### Steps in general -/

theorem arrives_pure (hs : s.Scoped g) {a : α} (h : good s.store a) :
    s.Arrives g good ((pure a : Eval α) s) :=
  ⟨hs.behind, h⟩

theorem arrives_fault (hs : s.Scoped g) {e : EvalProblem} (he : g.Explains e) :
    s.Arrives g good ((fault e : Eval α) s) :=
  ⟨hs.behind, he⟩

theorem arrives_faultAt (hs : s.Scoped g) {e : EvalProblem} (he : g.Explains e) (span : Span) :
    s.Arrives g good ((faultAt e span : Eval α) s) :=
  ⟨hs.behind, he⟩

theorem arrives_outOfFuel (hs : s.Scoped g) : s.Arrives g good ((outOfFuel : Eval α) s) :=
  ⟨hs.behind, trivial⟩

/-! ### Scopes and contexts -/

theorem arrives_define (hs : s.Scoped g) {n : Name}
    (hfree : s.store.binding? s.env.current n = none) {v : Value} (hv : g.Holds s.store v)
    {isVariable : Bool} (hn : isVariable = false → g.constant n) :
    s.Arrives g (fun st _ => s.store.Binds s.env.current [n] st) (define n v isVariable s) :=
  have hgrows := Store.grows_define hfree v isVariable
  ⟨hs.withStore hgrows (hs.store.define hgrows hv hn), Store.binds_define hs.current n v isVariable⟩

/-- A step gives a name its value, and binds nothing itself. -/
structure Gives (g : Scoping p) (s : Machine) (x : Name × Eval Value) : Prop where
  constant : g.constant x.1
  spares : Spares x.2
  arrives : ∀ t, s.Behind g t → t.Arrives g g.Holds (x.2 t)

/-- Different names that are free in the current scope can be given their values. -/
structure Prepared (g : Scoping p) (s : Machine) (xs : List (Name × Eval Value)) : Prop where
  fits : s.Scoped g
  free : s.Free (xs.map Prod.fst)
  nodup : (xs.map Prod.fst).Nodup
  gives : ∀ x ∈ xs, Gives g s x

namespace Prepared

variable {xs ys : List (Name × Eval Value)} {x : Name × Eval Value} {n : Name} {v : Value}

/-- Behind the value of the first name, the name is still free. -/
theorem binding?_eq_none (h : Prepared g s (x :: xs)) (hx : x.2 s = (.value v, t)) :
    t.store.binding? t.env.current x.1 = none := by
  have hgives := h.gives x List.mem_cons_self
  have harrives := hgives.arrives s h.fits.behind
  have hkeeps := hgives.spares s
  rw [hx] at harrives hkeeps
  rw [harrives.env]
  exact (hkeeps.binds h.fits.current).other x.1 (by simp) (h.free x.1 (by simp))

theorem arrives_head (h : Prepared g s (x :: xs)) :
    s.Arrives g (fun st _ => s.store.Binds s.env.current [x.1] st)
      ((do let v ← x.2; define x.1 v false : Eval Unit) s) := by
  have hgives := h.gives x List.mem_cons_self
  refine (hgives.arrives s h.fits.behind).bind fun v t hx ht hv => ?_
  refine (arrives_define ht.fits (h.binding?_eq_none hx) hv fun _ => hgives.constant).weaken
    fun st _ _ hb => ?_
  have hkeeps := hgives.spares s
  rw [hx] at hkeeps
  rw [ht.env] at hb
  exact ⟨hb.bound, fun m hm hnone =>
    hb.other m hm ((hkeeps.binds h.fits.current).other m (by simp) hnone)⟩

theorem append (h : Prepared g s (xs ++ ys)) (ht : s.Behind g t)
    (hb : s.store.Binds s.env.current (xs.map Prod.fst) t.store) : Prepared g t ys := by
  obtain ⟨-, hfree, hnodup, hgives⟩ := h
  rw [List.map_append] at hfree hnodup
  exact ⟨ht.fits, hfree.right hnodup ht.env hb, (List.nodup_append.1 hnodup).2.1, fun x hx =>
    have hx := hgives x (List.mem_append_right _ hx)
    ⟨hx.constant, hx.spares, fun u hu => hx.arrives u (ht.trans hu)⟩⟩

/-- Names are bound one after the other. -/
theorem arrives (h : Prepared g s xs) :
    s.Arrives g (fun st _ => s.store.Binds s.env.current (xs.map Prod.fst) st)
      (defineEach xs s) := by
  induction xs generalizing s with
  | nil => exact arrives_pure h.fits (.refl _ _)
  | cons x xs ih =>
    rw [show x :: xs = [x] ++ xs from rfl, defineEach_append, defineEach_singleton]
    refine h.arrives_head.bind fun _ t _ ht hb => ?_
    have htail : Prepared g t xs := append (show Prepared g s ([x] ++ xs) from h) ht hb
    exact (ih htail).weaken fun _ _ hgrows h =>
      hb.trans (ht.env ▸ h) hgrows

theorem left (h : Prepared g s (xs ++ ys)) : Prepared g s xs := by
  obtain ⟨hs, hfree, hnodup, hgives⟩ := h
  rw [List.map_append] at hfree hnodup
  exact ⟨hs, hfree.left, (List.nodup_append.1 hnodup).1,
    fun x hx => hgives x (List.mem_append_left _ hx)⟩

/-- **Each name is bound where it is not bound yet**, and what is bound stays. -/
theorem fresh (h : Prepared g s xs) (hd : DefinesAmong xs s t n v) :
    t.store.binding? t.env.current n = none ∧
      (t.store.define t.env.current n v false).Grows (defineEach xs s).2.store := by
  obtain ⟨pre, x, post, s', rfl, hpre, hx⟩ := hd
  have harrives := h.left.arrives
  rw [hpre] at harrives
  have h' := h.append harrives.toBehind harrives.outcome
  have hdefine := h'.arrives_head
  rw [defineEach_append, bind_of_value hpre, show (n, x) :: post = [(n, x)] ++ post from rfl,
    defineEach_append, defineEach_singleton]
  have hstep : ((do let v ← x; define n v false : Eval Unit) s') =
      (.value (), { t with store := t.store.define t.env.current n v false }) :=
    bind_of_value hx
  rw [hstep] at hdefine
  rw [bind_of_value hstep]
  have htail : Prepared g _ post := append (show Prepared g s' ([(n, x)] ++ post) from h')
    hdefine.toBehind hdefine.outcome
  exact ⟨h'.binding?_eq_none hx, htail.arrives.grows⟩

end Prepared

/-- A machine whose current scope is new. -/
structure New (s t : Machine) (parent : ScopeId) : Prop where
  store : t.store = (s.store.addScope (some parent)).2
  current : t.env.current = ⟨s.store.cells.size⟩
  log : t.log = s.log
  handlers : ∀ f ∈ t.handlers.frames, f ∈ s.handlers.frames

theorem new_inScope (s : Machine) : New s s.inScope s.env.current :=
  ⟨rfl, rfl, rfl, fun _ h => h⟩

theorem new_inBody (s : Machine) (captured : ScopeId) (l r : Option FrameId) :
    New s (s.inBody captured l r) captured :=
  ⟨rfl, rfl, rfl, fun _ h => h⟩

namespace New

variable {parent : ScopeId}

theorem grows (h : New s t parent) : s.store.Grows t.store := by
  rw [h.store]
  exact (Store.keeps_addScope _).grows

theorem lt_size (h : New s t parent) : t.env.current.index < t.store.cells.size := by
  rw [h.current, h.store, Store.size_addScope]
  exact Nat.lt_succ_self _

theorem parent_eq (h : New s t parent) : (t.store.cell t.env.current).parent = some parent := by
  rw [h.current, h.store, Store.cell_addScope, if_pos rfl]

theorem free (h : New s t parent) (ns : List Name) : t.Free ns := by
  intro n _
  rw [h.current, h.store, Store.binding?_addScope]
  exact Store.binding?_of_size_le (Nat.le_refl _) n

theorem fits (h : New s t parent) (hs : s.Scoped g) : t.Scoped g where
  current := h.lt_size
  store := hs.store.grows h.grows fun _ _ => by rw [h.store, Store.binding?_addScope]
  questions q hq := (hs.questions q (h.log ▸ hq)).grows h.grows
  handlers f hf := (hs.handlers f (h.handlers f hf)).grows h.grows

/-- Where the names are bound in it, the new scope shows the context. -/
theorem ready (h : New s t parent) {ns : List Name} (hc : g.Shows s.store parent ns c)
    {u : Machine} (hu : t.Behind g u) (hns : ∀ n ∈ ns, (u.store.binding? t.env.current n).isSome) :
    u.Ready g c := by
  refine ⟨hu.fits, ?_⟩
  rw [hu.env]
  refine hc.enter (h.grows.trans hu.grows) ?_ (by rw [h.current]) hns
  rw [hu.grows.parent _ h.lt_size]
  exact h.parent_eq

end New

/-- Behind a new scope, the environment from before it returns. -/
theorem arrives_inScope {x : Eval α} (hs : s.Scoped g)
    (hx : s.inScope.Arrives g good (x s.inScope)) : s.Arrives g good (inScope x s) := by
  obtain ⟨⟨henv, hgrows, hfits⟩, ho⟩ := hx
  have hgrows' := (new_inScope s).grows.trans hgrows
  have hpop : (x s.inScope).2.env.pop = s.env := by rw [henv]; exact s.env.pop_push s.store
  have hlt : (x s.inScope).2.env.pop.current.index < (x s.inScope).2.store.cells.size := by
    rw [hpop]
    exact Nat.lt_of_lt_of_le hs.current hgrows'.size
  exact ⟨⟨hpop, hgrows', hfits.withEnv hlt⟩, ho⟩

/-- Evaluation of accepted parts arrives. -/
def Arriving (g : Scoping p) (ev : Evaluator) : Prop :=
  ∀ c id (s : Machine), g.Accepts c id → s.Ready g c → s.Arrives g g.Holds (ev id s)

/-- The current scope is new, and there for some bindings and a body that goes with them. -/
inductive Opens (g : Scoping p) (t : Machine) (bs : Bindings) (id : ExprId) : Prop
  | intro {s parent c} (hnew : New s t parent) (hs : s.Scoped g) (hid : g.Accepts c id)
      (hc : g.Shows s.store parent (bs.map Prod.fst) c) (hnodup : (bs.map Prod.fst).Nodup)
      (hbs : ∀ b ∈ bs, g.Holds s.store b.2 ∧ g.constant b.1)

namespace Opens

variable {bs : Bindings} {id : ExprId}

theorem prepared (h : Opens g t bs id) : Prepared g t (given bs) := by
  obtain ⟨hnew, hs, -, -, hnodup, hbs⟩ := h
  refine ⟨hnew.fits hs, hnew.free _, by rw [map_fst_given]; exact hnodup, fun x hx => ?_⟩
  obtain ⟨b, hb, rfl⟩ := List.mem_map.1 hx
  exact ⟨(hbs b hb).2, (quiet_pure _).spares, fun u hu =>
    arrives_pure hu.fits ((hbs b hb).1.grows (hnew.grows.trans hu.grows))⟩

theorem arrives_define (h : Opens g t bs id) :
    t.Arrives g (fun st _ => t.store.Binds t.env.current (bs.map Prod.fst) st)
      (defineAll bs t) := by
  rw [defineAll_eq, ← map_fst_given]
  exact h.prepared.arrives

/-- Behind the bindings, the body can begin. -/
theorem ready (h : Opens g t bs id) {u : Machine} (hd : defineAll bs t = (.value (), u)) :
    ∃ c, g.Accepts c id ∧ u.Ready g c := by
  obtain ⟨hu, hbinds⟩ := h.arrives_define
  rw [hd] at hu hbinds
  obtain ⟨hnew, -, hid, hc, -, -⟩ := h
  exact ⟨_, hid, hnew.ready hc hu hbinds.bound⟩

theorem arrives (hev : Arriving g ev) (h : Opens g t bs id) :
    t.Arrives g g.Holds ((do defineAll bs; ev id : Eval Value) t) := by
  refine h.arrives_define.bind fun _ u hu _ _ => ?_
  obtain ⟨c, hid, hready⟩ := h.ready hu
  exact hev c id u hid hready

end Opens

/-- The body of a closure or handler, behind which the environment returns. -/
theorem arrives_inContext {x : Eval α} (hs : s.Scoped g) {captured : ScopeId}
    {l r : Option FrameId}
    (hx : (s.inBody captured l r).Arrives g good (x (s.inBody captured l r))) :
    s.Arrives g good (inContext (s.env.childOf captured s.store).1 l r x
      { s with store := (s.env.childOf captured s.store).2 }) := by
  obtain ⟨⟨-, hgrows, hfits⟩, ho⟩ := hx
  have hgrows' := (new_inBody s captured l r).grows.trans hgrows
  have henv : s.env.current.index < (x (s.inBody captured l r)).2.store.cells.size :=
    Nat.lt_of_lt_of_le hs.current hgrows'.size
  exact ⟨⟨rfl, hgrows', henv, hfits.store, hfits.questions, hfits.handlers⟩, ho⟩

/-! ### Calls -/

theorem arrives_checkType (hs : s.Scoped g) (v : Value) (expected : Ty) :
    s.Arrives g (fun _ _ => True) (checkType p v expected s) := by
  unfold checkType
  split
  · exact arrives_pure hs trivial
  · exact arrives_fault hs trivial

theorem arrives_checkArguments (hs : s.Scoped g) (params : List Code.Param) (args : List Value) :
    s.Arrives g (fun _ _ => True) (checkArguments p params args s) := by
  induction params generalizing args s with
  | nil => exact arrives_pure hs trivial
  | cons q params ih =>
    cases args with
    | nil => exact arrives_pure hs trivial
    | cons v args =>
      simp only [checkArguments]
      cases q.typeRef.bind p.types.resolved? with
      | none =>
        have hpure : s.Arrives g (fun _ _ => True) ((pure () : Eval Unit) s) :=
          arrives_pure hs trivial
        exact hpure.bind fun _ t _ ht _ => ih ht.fits args
      | some expected =>
        exact (arrives_checkType hs v expected).bind fun _ t _ ht _ => ih ht.fits args

theorem explains_of_push {calls : CallStack} {limit : Option Nat} {f : CallFrame} {e : EvalProblem}
    (h : calls.push limit f = .error e) : g.Explains e := by
  obtain ⟨max, -, -, rfl⟩ := CallStack.eq_recursionLimit_of_push h
  trivial

/-- Calls do not matter for what a machine refers to. -/
theorem arrives_activation {x : Eval Value} (hx : s.Arrives g g.Holds (x t)) (frame : FrameId) :
    s.Arrives g g.Holds (activation frame x t) := by
  obtain ⟨hb, ho⟩ := hx
  have hpop : ∀ u : Machine, s.Behind g u → s.Behind g { u with calls := u.calls.pop } :=
    fun u h => ⟨h.env, h.grows, h.fits.current, h.fits.store, h.fits.questions, h.fits.handlers⟩
  simp only [activation]
  cases hr : x t with
  | mk r u =>
    rw [hr] at hb ho
    cases r with
    | value v => exact ⟨hpop u hb, ho⟩
    | outOfFuel => exact ⟨hpop u hb, trivial⟩
    | interrupt i =>
      cases i with
      | fault e =>
        refine ⟨hpop u hb, ?_⟩
        simp only [Outcome.Suits, CallStack.problem_attach] at ho ⊢
        exact ho
      | breakTo target v => exact ⟨hpop u hb, ho⟩
      | returnTo target v =>
        dsimp only
        split <;> exact ⟨hpop u hb, ho⟩

/-- The scope that a closure captured shows what its body was accepted with. -/
theorem opens_call (hs : s.Scoped g) {cl : Closure} (hcl : g.Fits s.store cl) {args : List Value}
    (hargs : ∀ v ∈ args, g.Holds s.store v) (hlen : args.length = cl.params.length)
    (calls : CallStack) :
    Opens g (s.inCall cl calls) ((cl.params.map fun q => q.name).zip args) cl.body := by
  obtain ⟨ctx, hbody, hshows⟩ := hcl.body
  have hnames : ((cl.params.map fun q => q.name).zip args).map Prod.fst =
      cl.params.map fun q => q.name :=
    List.map_fst_zip (by simp [hlen])
  have hbs : ∀ b ∈ (cl.params.map fun q => q.name).zip args,
      g.Holds s.store b.2 ∧ g.constant b.1 := by
    intro b hb
    obtain ⟨hq, hv⟩ := List.of_mem_zip hb
    obtain ⟨q, hq, hname⟩ := List.mem_map.1 hq
    exact ⟨hargs _ hv, hname ▸ hcl.params q hq⟩
  have hs' : ({ s with calls, activations := s.activations + 1 } : Machine).Scoped g :=
    ⟨hs.current, hs.store, hs.questions, hs.handlers⟩
  refine .intro (new_inBody _ cl.captured none (some (.ofSerial s.activations))) hs' hbody
    ?_ (by rw [hnames]; exact hcl.distinct) hbs
  rw [hnames]
  exact hshows

theorem arrives_callClosure (hev : Arriving g ev) (hs : s.Scoped g) {cl : Closure}
    (hcl : g.Fits s.store cl) {args : List Value} (hargs : ∀ v ∈ args, g.Holds s.store v)
    (span : Span) : s.Arrives g g.Holds (callClosure p ev cl args span s) := by
  unfold callClosure
  split
  · exact arrives_fault hs trivial
  · rename_i hlen
    refine (arrives_checkArguments hs _ _).bind fun _ t _ ht _ => ?_
    simp only [Bind.bind, Eval.bind, pushCall]
    cases hpush : t.calls.push p.limits.callDepth ⟨callName p cl, some span⟩ with
    | error e => exact ⟨ht.fits.behind, explains_of_push hpush⟩
    | ok calls =>
      have hopens := opens_call ht.fits (hcl.grows ht.grows)
        (fun v hv => (hargs v hv).grows ht.grows) (not_not.1 hlen) calls
      have ht' : ({ t with calls, activations := t.activations + 1 } : Machine).Scoped g :=
        ⟨ht.fits.current, ht.fits.store, ht.fits.questions, ht.fits.handlers⟩
      have h := arrives_activation (arrives_inContext ht' (hopens.arrives hev))
        (.ofSerial t.activations)
      exact ⟨⟨h.env, h.grows, h.fits⟩, h.outcome⟩

theorem arrives_callNative (hhost : g.TrustsHost) (hs : s.Scoped g) (f : NativeFunction)
    {args : List Value} (hargs : ∀ v ∈ args, g.Holds s.store v) :
    s.Arrives g g.Holds (callNative p f args s) := by
  unfold callNative
  cases hres : f.call p.functions args with
  | ok v =>
    have hfits : p.functions.Only (g.Fits s.store) := hhost.functions.mono fun _ h => h s.store
    exact arrives_pure hs (hfits.call hargs hres)
  | error e =>
    refine ⟨hs.behind, ?_⟩
    rcases NativeFunction.error_of_call hres with ⟨problem, hproblem, rfl⟩ | he
    · exact Scoping.explains_of_arguments hproblem
    · obtain ⟨entry, he⟩ := he.exists
      exact Scoping.explains_of_canRaise ⟨entry, args, e, he, rfl⟩

theorem arrives_fieldValues (hs : s.Scoped g) (fields : List FieldType) {args : List Value}
    (hargs : ∀ v ∈ args, g.Holds s.store v) :
    s.Arrives g (fun st vs => ∀ x ∈ vs, g.Holds st x.2) (fieldValues p fields args s) := by
  induction fields generalizing args s with
  | nil => exact arrives_pure hs (by simp)
  | cons f fields ih =>
    cases args with
    | nil => exact arrives_pure hs (by simp)
    | cons v args =>
      obtain ⟨hv, hargs⟩ := List.forall_mem_cons.1 hargs
      refine (arrives_checkType hs v f.type).bind fun _ t _ ht _ => ?_
      refine (ih ht.fits fun v hv => (hargs v hv).grows ht.grows).bind fun vs u _ hu hvs => ?_
      exact arrives_pure hu.fits
        (List.forall_mem_cons.2 ⟨hv.grows (ht.grows.trans hu.grows), hvs⟩)

/-- A machine with another identity to give out. -/
theorem behind_of_cells (hs : s.Scoped g) {store : Store} (h : store.cells = s.store.cells) :
    s.Behind g { s with store } := by
  have hgrows : s.store.Grows store := (Store.keeps_of_cells h).grows
  refine hs.withStore hgrows (hs.store.grows hgrows fun c n => ?_)
  simp only [Store.binding?, Store.cell, h]

theorem arrives_construct (hs : s.Scoped g) (type : TypeId) {args : List Value}
    (hargs : ∀ v ∈ args, g.Holds s.store v) :
    s.Arrives g g.Holds (construct p type args s) := by
  simp only [construct]
  split
  · exact arrives_fault hs trivial
  · refine (arrives_fieldValues hs _ hargs).bind fun vs t _ ht hvs => ?_
    have hb := behind_of_cells ht.fits
      (t.store.cells_addInstance (p.types.isSignal type) type vs)
    refine ⟨hb, ?_⟩
    simp only [Outcome.Suits, Store.addInstance]
    cases p.types.isSignal type with
    | true => exact Value.only_signal fun x hx => (hvs x hx).grows hb.grows
    | false => exact Value.only_object fun x hx => (hvs x hx).grows hb.grows

theorem arrives_callValue (hev : Arriving g ev) (hhost : g.TrustsHost) (hs : s.Scoped g)
    {callee : Value} (hcallee : g.Holds s.store callee) {args : List Value}
    (hargs : ∀ v ∈ args, g.Holds s.store v) (span : Span) :
    s.Arrives g g.Holds (callValue p ev callee args span s) := by
  unfold callValue
  split
  · exact arrives_callClosure hev hs (Value.only_closure.1 hcallee) hargs span
  · exact arrives_callNative hhost hs _ hargs
  · exact arrives_construct hs _ hargs
  · split
    · exact arrives_pure hs hcallee
    · exact arrives_fault hs trivial

/-! ### Causes -/

theorem arrives_withHandler {x : Eval α} {f : HandlerFrame}
    (hx : (s.install f).Arrives g good (x (s.install f))) :
    s.Arrives g good (withHandler f x s) := by
  obtain ⟨⟨henv, hgrows, hfits⟩, ho⟩ := hx
  exact ⟨⟨henv, hgrows, hfits.current, hfits.store, hfits.questions,
    fun f' hf' => hfits.handlers f' (List.mem_of_mem_tail hf')⟩, ho⟩

/-- The machine with the inner handlers set aside. -/
theorem arrives_withOuterHandlers {x : Eval α} (hs : s.Scoped g) (outer : Nat)
    (hx : { s with handlers := (s.handlers.splitOff outer).2 : Machine }.Arrives g good
      (x { s with handlers := (s.handlers.splitOff outer).2 })) :
    s.Arrives g good (withOuterHandlers outer x s) := by
  obtain ⟨⟨henv, hgrows, hfits⟩, ho⟩ := hx
  refine ⟨⟨henv, hgrows, hfits.current, hfits.store, hfits.questions, fun f hf => ?_⟩, ho⟩
  rcases List.mem_append.1 hf with hf | hf
  · exact (hs.handlers f (List.mem_of_mem_take hf)).grows hgrows
  · exact hfits.handlers f hf

theorem scoped_splitOff (hs : s.Scoped g) (outer : Nat) :
    { s with handlers := (s.handlers.splitOff outer).2 : Machine }.Scoped g :=
  ⟨hs.current, hs.store, hs.questions, fun f hf => hs.handlers f (List.mem_of_mem_drop hf)⟩

/-- What a pattern binds. -/
theorem map_fst_of_matchPattern? {v : Value} {pattern : Code.Pattern} {bs : Bindings}
    (hm : v.matchPattern? pattern p.types = some bs) :
    bs.map Prod.fst = pattern.binding.toList ∧ ∀ b ∈ bs, b.2 = v := by
  rw [Value.eq_of_matchPattern? hm]
  cases pattern.binding <;> simp

theorem nodup_toList (o : Option Name) : o.toList.Nodup := by cases o <;> simp

/-- What is bound under a pattern. -/
theorem holds_of_matchPattern? {v : Value} (hv : g.Holds s.store v) {pattern : Code.Pattern}
    (hcapture : ∀ n ∈ pattern.binding.toList, g.constant n) {bs : Bindings}
    (hm : v.matchPattern? pattern p.types = some bs) :
    ∀ b ∈ bs, g.Holds s.store b.2 ∧ g.constant b.1 := by
  obtain ⟨hnames, hvalues⟩ := map_fst_of_matchPattern? hm
  intro b hb
  exact ⟨hvalues b hb ▸ hv, hcapture b.1 (hnames ▸ List.mem_map_of_mem hb)⟩

/-- A handler that is found is installed and matches. -/
theorem mem_frames_of_findMatch? {h : HandlerStack} {types : TypeTable} {v : Value} {outer : Nat}
    {f : HandlerFrame} {bs : Bindings} (hm : h.findMatch? types v = some (outer, f, bs)) :
    f ∈ h.frames ∧ v.matchPattern? f.pattern types = some bs := by
  obtain ⟨inner, rest, hframes, -, hmatch, -⟩ := HandlerStack.firstMatch?_eq_some_iff.1 hm
  exact ⟨by simp [hframes], hmatch⟩

/-- The scope of a handler shows what its body was accepted with. -/
theorem opens_handler (hs : s.Scoped g) (outer : Nat) {f : HandlerFrame}
    (hf : f ∈ s.handlers.frames) {v : Value} (hv : g.Holds s.store v) {bs : Bindings}
    (hm : v.matchPattern? f.pattern p.types = some bs) :
    Opens g (s.inHandler f outer) bs f.body := by
  have hfits := hs.handlers f hf
  obtain ⟨ctx, hbody, hshows⟩ := hfits.body
  obtain ⟨hnames, -⟩ := map_fst_of_matchPattern? hm
  rw [← hnames] at hshows
  exact .intro (new_inBody _ f.scope f.loopTarget f.returnTarget) (scoped_splitOff hs outer) hbody
    hshows (by rw [hnames]; exact nodup_toList _) (holds_of_matchPattern? hv hfits.captures hm)

theorem arrives_runHandler (hev : Arriving g ev) (hs : s.Scoped g) (outer : Nat) {f : HandlerFrame}
    (hf : f ∈ s.handlers.frames) {v : Value} (hv : g.Holds s.store v) {bs : Bindings}
    (hm : v.matchPattern? f.pattern p.types = some bs) :
    s.Arrives g g.Holds (runHandler ev outer f bs s) :=
  arrives_withOuterHandlers hs outer (arrives_inContext (scoped_splitOff hs outer)
    ((opens_handler hs outer hf hv hm).arrives hev))

theorem arrives_resume (hs : s.Scoped g) (type : TypeId) {v : Value} (hv : g.Holds s.store v) :
    s.Arrives g g.Holds (resume p type v s) := by
  simp only [resume]
  split
  · exact arrives_pure hs Value.only_action
  · exact (arrives_checkType hs v _).bind fun _ t _ ht _ => arrives_pure ht.fits (hv.grows ht.grows)

/-- What a host answers holds if the closures that it makes up fit. -/
theorem holds_answer {h : Host} (hh : h.Only fun c => ∀ s, g.Fits s c) (hs : s.Scoped g)
    {q : Question} (hq : g.Holds s.store q.signal) {v : Value}
    (hv : h.answer s.log.questions q = some v) : g.Holds s.store v :=
  (hh.mono fun _ hfits => hfits s.store).answer (List.forall_mem_cons.2 ⟨hq, hs.questions⟩) hv

/-- A machine with another log and count of answers. -/
theorem behind_of_log (hs : s.Scoped g) {log : HostLog} (hostTicks : Nat)
    (hlog : ∀ q ∈ log.questions, g.Holds s.store q.signal) :
    s.Behind g { s with log, hostTicks } :=
  ⟨rfl, .refl _, hs.current, hs.store, hlog, hs.handlers⟩

theorem arrives_unhandled (hhost : g.TrustsHost) (hs : s.Scoped g)
    (type : TypeId) {signal : Value} (hsignal : g.Holds s.store signal) :
    s.Arrives g g.Holds (unhandled p type signal s) := by
  simp only [unhandled]
  cases hh : p.host with
  | none => exact arrives_fault hs trivial
  | some h =>
    dsimp only
    generalize hq : (⟨p.interner.text (p.types.get type).name, signal⟩ : Question) = q
    have hsignal : g.Holds s.store q.signal := hq ▸ hsignal
    have hasked : s.Behind g { s with log := ⟨q :: s.log.questions, s.log.lines⟩ } :=
      behind_of_log hs s.hostTicks (List.forall_mem_cons.2 ⟨hsignal, hs.questions⟩)
    have hask : s.Arrives g (fun st a => ∀ v, a = some v → g.Holds st v) (askHost h q s) :=
      ⟨hasked, fun v hv => holds_answer (hhost.answers h hh) hs hsignal hv⟩
    refine hask.bind fun answer t _ ht hanswer => ?_
    have htick : t.Arrives g (fun _ _ => True) (tick t) :=
      ⟨behind_of_log ht.fits (t.hostTicks + 1) ht.fits.questions, trivial⟩
    cases answer with
    | some v =>
      exact htick.bind fun _ u _ hu _ =>
        arrives_resume hu.fits type ((hanswer v rfl).grows hu.grows)
    | none =>
      dsimp only
      split
      · have hquestions : ∀ line, (h.debug t.log line).questions = t.log.questions := fun line => by
          unfold Host.debug
          split <;> rfl
        have hdebug : t.Arrives g (fun _ _ => True)
            (update (fun s => { s with log := h.debug s.log (debugLine p signal) }) t) :=
          ⟨behind_of_log ht.fits t.hostTicks (by rw [hquestions]; exact ht.fits.questions), trivial⟩
        refine hdebug.bind fun _ u _ hu _ => ?_
        have htick : u.Arrives g (fun _ _ => True) (tick u) :=
          ⟨behind_of_log hu.fits (u.hostTicks + 1) hu.fits.questions, trivial⟩
        exact htick.bind fun _ w _ hw _ => arrives_pure hw.fits Value.only_action
      · exact arrives_fault ht.fits trivial

theorem arrives_cause (hev : Arriving g ev) (hhost : g.TrustsHost)
    (hs : s.Scoped g) {v : Value} (hv : g.Holds s.store v) :
    s.Arrives g g.Holds (cause p ev v s) := by
  unfold cause
  split
  · rename_i identity type fields
    simp only [Bind.bind, Eval.bind, read]
    cases hfound : s.handlers.findMatch? p.types (.signal identity type fields) with
    | none => exact arrives_unhandled hhost hs type hv
    | some m =>
      obtain ⟨outer, f, bs⟩ := m
      obtain ⟨hf, hmatch⟩ := mem_frames_of_findMatch? hfound
      exact (arrives_runHandler hev hs outer hf hv hmatch).bind fun answer t _ ht hanswer =>
        arrives_resume ht.fits type hanswer
  · exact arrives_fault hs trivial

end Eval

end SignalLang
