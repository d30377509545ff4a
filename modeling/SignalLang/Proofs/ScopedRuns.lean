import SignalLang.Proofs.InternalFaults
import SignalLang.Proofs.ScopedMoments

/-!
# Runs in scopes that show their contexts

A module is loaded once, then its functions are called any number of times.  What was accepted of
the module holds at every moment of such a run, if the values that come from outside can be trusted:
the arguments of the calls, the answers of the host and what the host keeps in the store.

* `Interpreter.after`, `Interpreter.results` : an interpreter after some calls, and their results.
* `Interpreter.Supplied P i calls` : all closures in the arguments are of a kind or come out of the
  run itself.
* `Interpreter.Visits`, `Interpreter.Declares` : the moments of a run, and the names that it binds.
* `Interpreter.Serves g P i` : an interpreter between uses, where closures of a kind are known from
  outside; `Interpreter.Loads g P i m` : one in which an accepted module can be loaded.
* `Interpreter.Visits.fits` : **all moments of a run fit.**
* `Interpreter.Declares.fresh` : **a run binds names that are not bound yet.**
-/

namespace SignalLang

/-! ### Runs -/

/-- A call of a function by name. -/
structure Call where
  name : String
  args : List Value
  fuel : Nat

/-- All closures that a store refers to are of a kind. -/
def Store.Only (P : Closure → Prop) (s : Store) : Prop :=
  ∀ c n b, s.binding? c n = some b → b.value.Only P

namespace Interpreter

/-- Makes a call. -/
def make (i : Interpreter) (c : Call) : Outcome Value × Interpreter := i.call c.name c.args c.fuel

/-- The interpreter after some calls. -/
def after (i : Interpreter) : List Call → Interpreter
  | [] => i
  | c :: calls => (i.make c).2.after calls

/-- The values that some calls give. -/
def results (i : Interpreter) : List Call → List Value
  | [] => []
  | c :: calls => (i.make c).1.value?.toList ++ (i.make c).2.results calls

/-- All closures in the arguments of calls are of a kind, or come out of earlier calls or of signals
that the host was asked about. -/
def Supplied (P : Closure → Prop) (i : Interpreter) (calls : List Call) : Prop :=
  ∀ pre c post, calls = pre ++ c :: post → ∀ v ∈ c.args, v.Only fun cl =>
    P cl ∨ (∃ r ∈ i.results pre, r.Carries cl) ∨
      ∃ q ∈ (i.after pre).machine.log.questions, q.signal.Carries cl

/-- A moment of the run in which a module is loaded and some calls are made. -/
inductive Visits (i : Interpreter) (m : Module) (fuel : Nat) (calls : List Call) : Moment → Prop
  | load {s π x} (hs : Eval.bindAllHoisted i.program m.decls i.machine = (.value (), s))
      (hx : Reaches i.program ⟨fuel, .lets m.decls, s⟩ π x) : Visits i m fuel calls x
  | call {pre c post callee π x} (hcalls : calls = pre ++ c :: post)
      (hc : ((i.load m fuel).2.after pre).lookup? c.name = some callee)
      (hx : Reaches i.program ⟨c.fuel, .call callee c.args .dummy,
        ((i.load m fuel).2.after pre).machine⟩ π x) : Visits i m fuel calls x

variable {i : Interpreter} {calls : List Call}

theorem program_make (c : Call) : (i.make c).2.program = i.program :=
  i.program_call c.name c.args c.fuel

/-- The machine behind a call of a name that is bound. -/
theorem machine_make {c : Call} {callee : Value} (h : i.lookup? c.name = some callee) :
    (i.make c).2.machine =
      (Moment.result i.program ⟨c.fuel, .call callee c.args .dummy, i.machine⟩).2 := by
  simp only [make, call, h]
  rfl

theorem program_after : (i.after calls).program = i.program := by
  induction calls generalizing i with
  | nil => rfl
  | cons c calls ih => exact ih.trans (program_make c)

theorem after_append (pre post : List Call) : i.after (pre ++ post) = (i.after pre).after post := by
  induction pre generalizing i with
  | nil => rfl
  | cons c pre ih => exact ih

theorem results_append (pre post : List Call) :
    i.results (pre ++ post) = i.results pre ++ (i.after pre).results post := by
  induction pre generalizing i with
  | nil => rfl
  | cons c pre ih =>
    simp only [List.cons_append, results, after, ih, List.append_assoc]

/-- Arguments without other closures. -/
theorem supplied_of_only {P : Closure → Prop} (h : ∀ c ∈ calls, ∀ v ∈ c.args, v.Only P) :
    i.Supplied P calls := by
  rintro pre c post rfl v hv
  exact (h c (by simp) v hv).mono fun _ h => .inl h

namespace Supplied

variable {P : Closure → Prop} {pre post : List Call}

theorem left (h : i.Supplied P (pre ++ post)) : i.Supplied P pre := by
  rintro pre' c post' rfl
  exact h pre' c (post' ++ post) (by simp)

/-- For the calls behind some, the results of these are known. -/
theorem right (h : i.Supplied P (pre ++ post)) :
    (i.after pre).Supplied (fun cl => P cl ∨ ∃ r ∈ i.results pre, r.Carries cl) post := by
  rintro pre' c post' rfl v hv cl hcl
  rcases h (pre ++ pre') c post' (by simp) v hv cl hcl with h | ⟨r, hr, hcl⟩ | hq
  · exact .inl (.inl h)
  · rw [results_append] at hr
    rcases List.mem_append.1 hr with hr | hr
    · exact .inl (.inr ⟨r, hr, hcl⟩)
    · exact .inr (.inl ⟨r, hr, hcl⟩)
  · rw [after_append] at hq
    exact .inr (.inr hq)

end Supplied

/-! ### New machines -/

section

variable {store : Store} {id : ScopeId}

/-- What is bound behind several bindings was bound before or is one of them. -/
theorem binding?_defineAll {bs : Bindings} {c : ScopeId} {n : Name} {b : Binding}
    (h : (store.defineAll id bs).binding? c n = some b) :
    store.binding? c n = some b ∨ (n, b.value) ∈ bs ∧ b.isVariable = false := by
  induction bs generalizing store with
  | nil => exact .inl h
  | cons x bs ih =>
    rcases ih h with h | ⟨hmem, hb⟩
    · rw [Store.binding?_define] at h
      split at h
      · rename_i heq
        cases h
        exact .inr ⟨by simp [heq.2.1], rfl⟩
      · exact .inl h
    · exact .inr ⟨List.mem_cons_of_mem _ hmem, hb⟩

theorem size_defineAll (bs : Bindings) :
    (store.defineAll id bs).cells.size = store.cells.size := by
  induction bs generalizing store with
  | nil => rfl
  | cons b bs ih => exact ih.trans (Store.size_define ..)

/-- All of several bindings are there behind them. -/
theorem isSome_defineAll {bs : Bindings} (hid : id.index < store.cells.size) {n : Name}
    (hn : n ∈ bs.map Prod.fst ∨ (store.binding? id n).isSome) :
    ((store.defineAll id bs).binding? id n).isSome := by
  induction bs generalizing store with
  | nil => simpa [Store.defineAll] using hn
  | cons x bs ih =>
    refine ih (by rw [Store.size_define]; exact hid) ?_
    rw [Store.binding?_define]
    by_cases hx : n = x.1
    · simp [hx, hid]
    · simpa [hx, List.map_cons, List.mem_cons] using hn

/-- The machine in the scope of the builtins, around that of the module. -/
def rootMachine (t : TypeTable) (interner : Interner) (store : Store) : Machine :=
  let (env, store) := Environment.new store
  { freshMachine t interner store with
    env, store := store.defineAll env.root (builtins t interner) }

theorem new_freshMachine (t : TypeTable) (interner : Interner) (store : Store) :
    Eval.New (rootMachine t interner store) (freshMachine t interner store)
      (rootMachine t interner store).env.current :=
  ⟨rfl, rfl, rfl, fun _ h => h⟩

variable {p : Program} {g : Scoping p} {P : Closure → Prop} {t : TypeTable} {interner : Interner}

theorem current_lt_size_rootMachine (t : TypeTable) (interner : Interner) (store : Store) :
    (rootMachine t interner store).env.current.index <
      (rootMachine t interner store).store.cells.size := by
  have hsize : (rootMachine t interner store).store.cells.size = store.cells.size + 1 :=
    (size_defineAll _).trans (Store.size_addScope store none)
  rw [hsize]
  exact Nat.lt_succ_self store.cells.size

/-- All builtins are bound there. -/
theorem isSome_binding?_rootMachine {t : TypeTable} {interner : Interner} {n : Name}
    (hn : n ∈ (builtins t interner).map Prod.fst) :
    ((rootMachine t interner store).store.binding?
      (rootMachine t interner store).env.current n).isSome := by
  refine isSome_defineAll (Nat.lt_of_lt_of_eq (current_lt_size_rootMachine t interner store) ?_)
    (.inl hn)
  exact size_defineAll _

/-- The values in the store that the scope of the builtins was added to, and the builtins. -/
theorem scoped_rootMachine (hknown : ∀ cl, P cl → ∀ s, g.Fits s cl)
    (hstore : ∀ c n b, store.binding? c n = some b →
      b.value.Only P ∧ (b.isVariable = false → g.constant n))
    (hbuiltins : ∀ b ∈ builtins t interner, g.constant b.1) :
    (rootMachine t interner store).Scoped g := by
  refine ⟨current_lt_size_rootMachine t interner store, fun c n b hb => ?_, nofun, nofun⟩
  rcases binding?_defineAll hb with hb | ⟨hmem, -⟩
  · replace hb := (Store.binding?_addScope store none c n).symm.trans hb
    exact ⟨(hstore c n b hb).1.mono fun cl hcl => hknown cl hcl _, (hstore c n b hb).2⟩
  · have honly : (builtins t interner).Runs fun _ => False := runs_builtins t interner
    exact ⟨Value.Only.mono (honly _ hmem) fun _ h => h.elim, fun _ => hbuiltins _ hmem⟩

end

/-! ### Machines between uses -/

variable {p : Program} {g : Scoping p}

theorem holds_lookup? (hs : i.machine.Scoped g) {name : String} {v : Value}
    (hv : i.lookup? name = some v) : g.Holds i.machine.store v := by
  obtain ⟨n, -, hn⟩ := Option.bind_eq_some_iff.1 hv
  exact hs.store.lookup? hn

/-- What comes out of a step that arrives is explained. -/
theorem explains_of_settle {s : Machine} {good : Store → α → Prop} {res : Outcome α × Machine}
    (h : s.Arrives g good res) {e : Interrupt} (he : res.1.settle = .interrupt e) :
    g.Explains e.toError.problem := by
  have ho := h.outcome
  generalize res.1 = r at he ho
  cases r with
  | interrupt e' =>
    cases he
    cases e' with
    | fault e => exact ho
    | breakTo target v => trivial
    | returnTo target v => trivial
  | value a => cases he
  | outOfFuel => cases he

/-- Between uses of an interpreter, some closures are known from outside. -/
structure Serves (g : Scoping p) (P : Closure → Prop) (i : Interpreter) : Prop where
  program : i.program = p
  fits : i.machine.Scoped g
  known : ∀ cl, P cl → g.Fits i.machine.store cl

section

variable (hord : p.arena.Ordered) (hhost : g.TrustsHost)
  {P : Closure → Prop}

/-- The arguments of the next call hold. -/
theorem Serves.holds_args (hi : i.Serves g P) {c : Call} (hc : i.Supplied P (c :: calls)) :
    ∀ v ∈ c.args, g.Holds i.machine.store v := by
  intro v hv cl hcl
  rcases hc [] c calls rfl v hv cl hcl with h | ⟨r, hr, -⟩ | ⟨q, hq, hcl⟩
  · exact hi.known cl h
  · cases hr
  · exact hi.fits.questions q hq cl hcl

include hord hhost

/-- Calling a function arrives. -/
theorem Serves.make (hi : i.Serves g P) {c : Call} (hc : i.Supplied P (c :: calls)) :
    i.machine.store.Grows (i.make c).2.machine.store ∧
      (i.make c).2.Serves g (fun cl => P cl ∨ ∃ r ∈ i.results [c], r.Carries cl) := by
  obtain ⟨rfl, hs, hP⟩ := hi
  have hargs := Serves.holds_args ⟨rfl, hs, hP⟩ hc
  suffices h : i.machine.Behind g (i.make c).2.machine ∧
      ∀ v ∈ (i.make c).1.value?, g.Holds (i.make c).2.machine.store v by
    obtain ⟨hb, hresult⟩ := h
    refine ⟨hb.grows, program_make c, hb.fits, ?_⟩
    rintro cl (h | ⟨r, hr, hcl⟩)
    · exact (hP cl h).grows hb.grows
    · simp only [results, List.append_nil, Option.mem_toList] at hr
      exact hresult r hr cl hcl
  unfold make call
  cases hcallee : i.lookup? c.name with
  | none => exact ⟨hs.behind, by simp [Outcome.value?]⟩
  | some callee =>
    obtain ⟨hb, ho⟩ := Eval.arrives_callValue (Eval.arrives_expr hord hhost c.fuel) hhost hs
      (holds_lookup? hs hcallee) hargs .dummy
    refine ⟨hb, fun v hv => ?_⟩
    simp only [run] at hv ⊢
    generalize hres : Eval.callValue i.program (Eval.expr i.program c.fuel) callee c.args .dummy
      i.machine = res at hv ho
    obtain ⟨r, t⟩ := res
    cases r with
    | value w =>
      cases hv
      exact ho
    | interrupt e => cases hv
    | outOfFuel => cases hv

/-- Calling functions arrives, and what comes out of the calls is known from then on. -/
theorem Serves.after (hi : i.Serves g P) (hcalls : i.Supplied P calls) :
    i.machine.store.Grows (i.after calls).machine.store ∧
      (i.after calls).Serves g (fun cl => P cl ∨ ∃ r ∈ i.results calls, r.Carries cl) := by
  induction calls generalizing i P with
  | nil =>
    refine ⟨.refl _, hi.program, hi.fits, ?_⟩
    rintro cl (h | ⟨r, hr, -⟩)
    · exact hi.known cl h
    · cases hr
  | cons c calls ih =>
    obtain ⟨hgrows, hi'⟩ := hi.make hord hhost hcalls
    have hrest := (show i.Supplied P ([c] ++ calls) from hcalls).right
    obtain ⟨hgrows', hi''⟩ := ih hi' hrest
    refine ⟨hgrows.trans hgrows', hi''.program, hi''.fits, ?_⟩
    rintro cl (h | ⟨r, hr, hcl⟩)
    · exact hi''.known cl (.inl (.inl h))
    · rw [show c :: calls = [c] ++ calls from rfl, results_append] at hr
      rcases List.mem_append.1 hr with hr | hr
      · exact hi''.known cl (.inl (.inr ⟨r, hr, hcl⟩))
      · exact hi''.known cl (.inr ⟨r, hr, hcl⟩)

/-- The problem in which a call of a name that is bound ends is explained. -/
theorem Serves.explains (hi : i.Serves g P) {c : Call} (hc : i.Supplied P (c :: calls))
    {callee : Value} (hcallee : i.lookup? c.name = some callee) {e : Interrupt}
    (he : (i.make c).1 = .interrupt e) : g.Explains e.toError.problem := by
  have hargs := hi.holds_args hc
  obtain ⟨rfl, hs, -⟩ := hi
  simp only [Interpreter.make, call, hcallee] at he
  exact explains_of_settle (Eval.arrives_callValue (Eval.arrives_expr hord hhost c.fuel) hhost hs
    (holds_lookup? hs hcallee) hargs .dummy) he

/-- What a call leaves in the store is still there behind the calls that follow. -/
theorem Serves.grows_after (hi : i.Serves g P) {c : Call} (hcalls : i.Supplied P (c :: calls)) :
    (i.make c).2.machine.store.Grows (i.after (c :: calls)).machine.store :=
  ((hi.make hord hhost hcalls).2.after hord hhost
    (show i.Supplied P ([c] ++ calls) from hcalls).right).1

end

/-! ### Loading a module -/

/-- A module that was accepted can be loaded: its names can be bound in the current scope, and those
of its `let`s are promised there, since its functions see them from the beginning. -/
structure Loads (g : Scoping p) (P : Closure → Prop) (i : Interpreter) (m : Module) : Prop
    extends i.Serves g P where
  accepted : ∃ c, Resolve.AcceptsScope g.known g.Accepts .afterScope (Resolve.Context.nested c)
    (m.decls.map .decl) ∧ g.Shows i.machine.store i.machine.env.current [] c.nested
  free : ∀ ns, i.machine.Free ns
  promises : ∀ n ∈ Resolve.letNames p.arena (m.decls.map .decl),
    g.missing n ∨ g.promised i.machine.env.current n

namespace Loads

variable {P : Closure → Prop} {m : Module}

theorem begins (h : i.Loads g P m) : ∃ c₀ c₁,
    Resolve.AcceptsItems p.arena g.Accepts .afterScope c₀ (m.decls.map .decl) c₁ ∧
      Eval.Begins g i.machine m.decls (m.decls.map .decl) c₀ :=
  let ⟨_, haccepts, hshows⟩ := h.accepted
  Eval.begins_module ⟨h.fits, hshows⟩ haccepts h.free h.promises

/-- Behind the hoisted declarations, the `let`s begin. -/
theorem fits_lets (h : i.Loads g P m) (fuel : Nat) {s : Machine}
    (hs : Eval.bindAllHoisted p m.decls i.machine = (.value (), s)) :
    Moment.Fits g ⟨fuel, .lets m.decls, s⟩ :=
  let ⟨_, _, items, hbegins⟩ := h.begins
  have hnext := hbegins.next s hs
  .lets items hnext.1 hnext.2

section

variable (hord : p.arena.Ordered) (hhost : g.TrustsHost)

include hord hhost

/-- Loading binds the `let`s behind the hoisted declarations. -/
theorem arrives (h : i.Loads g P m) (fuel : Nat) :
    i.machine.Arrives g (fun st _ => i.machine.store.Binds i.machine.env.current
      (Resolve.hoistedNames p.arena m.decls ++ Resolve.letNames p.arena (m.decls.map .decl)) st)
      (Eval.bindModule p (Eval.expr p fuel) m.decls i.machine) := by
  obtain ⟨c₀, c₁, items, hbegins⟩ := h.begins
  refine hbegins.arrives.bind fun _ s hs ht hb => ?_
  obtain ⟨hready, hopen⟩ := hbegins.next s hs
  refine (Eval.arrives_bindAllLets (Eval.arrives_expr hord hhost fuel) (Eval.spares_expr fuel)
    hready items hopen).weaken fun _ _ hgrows h => ?_
  exact hb.trans (ht.env ▸ h) hgrows

/-- The problem in which loading ends is explained. -/
theorem explains (h : i.Loads g P m) {fuel : Nat} {e : Interrupt}
    (he : (i.load m fuel).1 = .interrupt e) : g.Explains e.toError.problem := by
  have harrives := h.arrives hord hhost fuel
  obtain ⟨⟨rfl, -, -⟩, -, -, -⟩ := h
  exact explains_of_settle harrives he

/-- A module that is loaded can be used. -/
theorem load (h : i.Loads g P m) (fuel : Nat) :
    i.machine.store.Grows (i.load m fuel).2.machine.store ∧ (i.load m fuel).2.Serves g P := by
  have harrives := h.arrives hord hhost fuel
  obtain ⟨⟨rfl, -, hknown⟩, -, -, -⟩ := h
  exact ⟨harrives.grows, rfl, harrives.fits, fun cl hcl => (hknown cl hcl).grows harrives.grows⟩

/-- Behind a successful load, nothing is promised any more. -/
theorem load_of_value (h : i.Loads g P m) {fuel : Nat} (hvalue : (i.load m fuel).1 = .value ())
    (hpromised : ∀ c n, g.promised c n →
      c = i.machine.env.current ∧ n ∈ Resolve.letNames p.arena (m.decls.map .decl)) :
    (i.load m fuel).2.Serves (g.promising fun _ _ => False) P := by
  obtain ⟨-, hi⟩ := h.load hord hhost fuel
  have harrives := h.arrives hord hhost fuel
  obtain ⟨⟨rfl, -, -⟩, -, -, -⟩ := h
  have hbinds := harrives.outcome
  rw [show (Eval.bindModule i.program (Eval.expr i.program fuel) m.decls i.machine).1 = .value ()
    from Outcome.eq_value_of_settle hvalue] at hbinds
  have hkept : ∀ c n, g.promised c n → False ∨
      ((i.load m fuel).2.machine.store.binding? c n).isSome ∨ g.missing n := by
    intro c n hn
    obtain ⟨rfl, hlet⟩ := hpromised c n hn
    exact .inr (.inl (hbinds.bound n (List.mem_append_right _ hlet)))
  exact ⟨hi.program, Eval.scoped_promising (q := g.promised) hi.fits hkept,
    fun cl hcl => Scoping.Fits.promising (q := g.promised) hkept (hi.known cl hcl)⟩

end

end Loads

/-- An accepted module can be loaded in a new interpreter. -/
theorem loads_new {m : Module} {imports : Imports} {interner interner' : Interner}
    {types : TypeTable} {settings : Settings} {store : Store} {functions : HostFunctions}
    {g : Scoping (new m.arena interner' types settings store functions).program}
    {P : Closure → Prop}
    (hm : m.arena.Numbered) (hres : m.resolve imports interner = (types, [], interner'))
    (hexported : g.exported = fun path n => (imports.find? path (interner'.text n)).isSome = true)
    (hknown : ∀ cl, P cl → ∀ s, g.Fits s cl)
    (hstore : ∀ c n b, store.binding? c n = some b →
      b.value.Only P ∧ (b.isVariable = false → g.constant n))
    (hbuiltins : ∀ b ∈ builtins types interner', g.constant b.1)
    (hshows : g.Shows (rootMachine types interner' store).store
      (rootMachine types interner' store).env.current [] (m.outerContext imports interner))
    (hpromises : ∀ n ∈ Resolve.letNames m.arena (m.decls.map .decl),
      g.missing n ∨ g.promised (freshMachine types interner' store).env.current n) :
    (new m.arena interner' types settings store functions).Loads g P m := by
  have hnew := new_freshMachine types interner' store
  have hfits := hnew.fits (scoped_rootMachine hknown hstore hbuiltins)
  have hready := hnew.ready hshows.nested hfits.behind (by simp)
  have hg : g.known = m.known imports interner' types := by
    rw [Scoping.known, hexported]
    rfl
  have haccepted := Module.accepted_of_resolve hm hres
  rw [Module.context_eq_nested, ← hg] at haccepted
  exact ⟨⟨rfl, hfits, fun cl hcl => hknown cl hcl _⟩, ⟨_, haccepted, hready.shows⟩, hnew.free,
    hpromises⟩

/-! ### Moments of a run -/

/-- The run in which a module is loaded and some calls are made comes to bind a name in the current
scope of a machine. -/
inductive Declares (i : Interpreter) (m : Module) (fuel : Nat) (calls : List Call) :
    Machine → Name → Binding → Prop
  | hoisted {t n v}
      (h : Eval.DefinesAmong (Eval.allHoistSteps i.program m.decls) i.machine t n v) :
      Declares i m fuel calls t n ⟨v, false⟩
  | moment {x t n b} (hx : i.Visits m fuel calls x) (h : x.Defines i.program t n b) :
      Declares i m fuel calls t n b

/-- Loading the module or one of the calls ends with an interrupt. -/
inductive Fails (i : Interpreter) (m : Module) (fuel : Nat) (calls : List Call) : Interrupt → Prop
  | load {e} (h : (i.load m fuel).1 = .interrupt e) : Fails i m fuel calls e
  | call {pre c post e} (hcalls : calls = pre ++ c :: post)
      (h : (((i.load m fuel).2.after pre).make c).1 = .interrupt e) : Fails i m fuel calls e

section

variable {m : Module} {fuel : Nat} {P : Closure → Prop} (hord : p.arena.Ordered)
  (hhost : g.TrustsHost) (hload : i.Loads g P m)
  (hcalls : (i.load m fuel).2.Supplied P calls)

include hord hhost hload hcalls

/-- A run lets the store grow. -/
theorem grows_after : i.machine.store.Grows ((i.load m fuel).2.after calls).machine.store := by
  obtain ⟨hgrows, hi⟩ := hload.load hord hhost fuel
  exact hgrows.trans (hi.after hord hhost hcalls).1

/-- The problem in which a run ends is explained, but for the call of a name that is not bound. -/
theorem Fails.explains {e : Interrupt} (h : i.Fails m fuel calls e) :
    g.Explains e.toError.problem ∨ e.toError.problem.code = .unboundName := by
  cases h with
  | load h => exact .inl (hload.explains hord hhost h)
  | @call pre c post _ heq h =>
    subst heq
    obtain ⟨-, hi⟩ := hload.load hord hhost fuel
    obtain ⟨-, hi⟩ := hi.after hord hhost hcalls.left
    cases hcallee : ((i.load m fuel).2.after pre).lookup? c.name with
    | some callee => exact .inl (hi.explains hord hhost hcalls.right hcallee h)
    | none =>
      simp only [make, Interpreter.call, hcallee] at h
      cases h
      exact .inr rfl

/-- **All moments of a run fit.** -/
theorem Visits.fits {x : Moment} (hx : i.Visits m fuel calls x) : x.Fits g := by
  have hp := hload.program
  cases hx with
  | load hs hx =>
    subst hp
    exact hx.fits hord hhost (hload.fits_lets fuel hs)
  | @call pre c post callee π x heq hc hx =>
    subst hp heq
    obtain ⟨-, hi⟩ := hload.load hord hhost fuel
    obtain ⟨-, hi⟩ := hi.after hord hhost hcalls.left
    exact hx.fits hord hhost
      (.call hi.fits (holds_lookup? hi.fits hc) (hi.holds_args hcalls.right))

/-- What is in the store behind a moment of a run is still there in the end. -/
theorem Visits.grows {x : Moment} (hx : i.Visits m fuel calls x) :
    (x.result p).2.store.Grows ((i.load m fuel).2.after calls).machine.store := by
  have hp := hload.program
  obtain ⟨-, hi⟩ := hload.load hord hhost fuel
  cases hx with
  | @load s π x hs hx =>
    subst hp
    have hend : (i.load m fuel).2.machine =
        (Eval.bindAllLets i.program (Eval.expr i.program fuel) m.decls s).2 :=
      congrArg Prod.snd (Eval.bind_of_value hs)
    have hgrows := hx.grows hord hhost (hload.fits_lets fuel hs)
    simp only [Moment.result, Task.eval, Eval.store_lets] at hgrows
    rw [← hend] at hgrows
    exact hgrows.trans (hi.after hord hhost hcalls).1
  | @call pre c post callee π x heq hc hx =>
    subst hp heq
    obtain ⟨-, hi⟩ := hi.after hord hhost hcalls.left
    have hend := machine_make hc
    have hp' : ((i.load m fuel).2.after pre).program = i.program := hi.program
    rw [hp'] at hend
    have hgrows := hx.grows hord hhost
      (.call hi.fits (holds_lookup? hi.fits hc) (hi.holds_args hcalls.right))
    rw [← hend] at hgrows
    rw [after_append]
    exact hgrows.trans (hi.grows_after hord hhost hcalls.right)

/-- **A run binds names that are not bound yet**, and what is bound stays. -/
theorem Declares.fresh {t : Machine} {n : Name} {b : Binding}
    (h : i.Declares m fuel calls t n b) : t.store.binding? t.env.current n = none ∧
      (t.store.define t.env.current n b.value b.isVariable).Grows
        ((i.load m fuel).2.after calls).machine.store := by
  have hp := hload.program
  cases h with
  | hoisted h =>
    obtain ⟨c₀, c₁, items, hbegins⟩ := hload.begins
    obtain ⟨-, hi⟩ := hload.load hord hhost fuel
    subst hp
    obtain ⟨hnone, hgrows⟩ := hbegins.prepared.fresh h
    rw [← Eval.bindAllHoisted_eq] at hgrows
    refine ⟨hnone, (hgrows.trans ?_).trans (hi.after hord hhost hcalls).1⟩
    refine Eval.grows_bind (.refl _) fun _ s hs => ?_
    have hlets := ((hload.fits_lets fuel hs).arrives hord hhost).grows
    simpa only [Moment.result, Task.eval, Eval.store_lets] using hlets
  | moment hx h =>
    subst hp
    obtain ⟨hnone, hgrows⟩ := (hx.fits hord hhost hload hcalls).fresh hord hhost h
    exact ⟨hnone, hgrows.trans (hx.grows hord hhost hload hcalls)⟩

end

end Interpreter

end SignalLang
