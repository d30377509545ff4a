import SignalLang.Proofs.Instances
import SignalLang.Proofs.KeptInvariants

/-!
# Evaluation keeps values well-formed

Values come about in few places: in literals, declarations, calls of constructors and of native
functions, and in answers of the host.  All of these give well-formed values if what the host gives
is well-formed, and everything else hands values on.

* `Machine.WellFormed t s`, `Moment.WellFormed t m` : all values in the store and in the questions
  of a machine are well-formed, and at a moment also those at hand.
* `Invariant.kept_wellFormed` : this is an invariant that evaluation keeps, if the table reflects
  the declarations.
* `Eval.Forms p ms good x s` : from a well-formed machine `s`, the step `x` begins the parts `ms`
  well-formed and ends well-formed, with a `good` value if any.
* `Moment.WellFormed.ends`, `Moment.WellFormed.of_reaches` : **an evaluation in which all that the
  host gives is well-formed ends well-formed, and so do all the moments that it comes to.**
-/

namespace SignalLang

variable {p : Program} {t : TypeTable}

/-! ### Well-formed machines -/

/-- All values in a store are well-formed. -/
def Store.WellFormed (t : TypeTable) (s : Store) : Prop :=
  ∀ c n b, s.binding? c n = some b → b.value.WellFormed t

/-- All values in a machine are well-formed. -/
structure Machine.WellFormed (t : TypeTable) (s : Machine) : Prop where
  store : s.store.WellFormed t
  questions : ∀ q ∈ s.log.questions, q.signal.WellFormed t

/-- The value that an interrupt carries is well-formed. -/
def Interrupt.WellFormed (t : TypeTable) : Interrupt → Prop
  | .fault e => ∀ v, e.problem.signal? = some v → v.WellFormed t
  | .breakTo _ v => v.WellFormed t
  | .returnTo _ v => v.WellFormed t

/-- A problem without a signal carries no value. -/
theorem Interrupt.wellFormed_fault {e : EvalError} (h : e.problem.signal? = none) :
    (Interrupt.fault e).WellFormed t := by
  intro v hv
  rw [h] at hv
  cases hv

/-- A good value, or a well-formed interrupt. -/
def Outcome.WellFormed (t : TypeTable) (good : α → Prop) : Outcome α → Prop
  | .value a => good a
  | .interrupt i => i.WellFormed t
  | .outOfFuel => True

namespace Store.WellFormed

variable {s : Store}

theorem addScope (h : s.WellFormed t) (parent : Option ScopeId) :
    (s.addScope parent).2.WellFormed t := by
  intro c n b hb
  rw [Store.binding?_addScope] at hb
  exact h c n b hb

theorem define (h : s.WellFormed t) (id : ScopeId) (n : Name) {v : Value} (hv : v.WellFormed t)
    (isVariable : Bool) : (s.define id n v isVariable).WellFormed t := by
  intro c m b hb
  rw [Store.binding?_define] at hb
  split at hb
  · cases hb
    exact hv
  · exact h c m b hb

theorem lookup? (h : s.WellFormed t) {id : ScopeId} {n : Name} {v : Value}
    (hv : s.lookup? id n = some v) : v.WellFormed t := by
  obtain ⟨b, hb, rfl⟩ := Option.map_eq_some_iff.1 hv
  obtain ⟨found, -, hb⟩ := Option.bind_eq_some_iff.1 hb
  exact h found n b hb

theorem of_cells (h : s.WellFormed t) {s' : Store} (hc : s'.cells = s.cells) :
    s'.WellFormed t := by
  intro c n b hb
  simp only [Store.binding?, Store.cell, hc] at hb
  exact h c n b hb

end Store.WellFormed

namespace Value.WellFormed

/-- Fields of well-formed instances are well-formed. -/
theorem field? {v w : Value} (h : v.WellFormed t) {n : Name} (hw : v.field? n = some w) :
    w.WellFormed t := by
  obtain ⟨fields, hv, hw⟩ := Option.bind_eq_some_iff.1 hw
  obtain ⟨l₁, l₂, hfields, -⟩ := List.lookup_eq_some_iff.1 hw
  have hmem : (n, w) ∈ fields := by simp [hfields]
  cases h with
  | object _ _ hall _ =>
    cases hv
    exact hall _ hmem
  | signal _ _ hall _ =>
    cases hv
    exact hall _ hmem
  | _ => cases hv

end Value.WellFormed

/-- The values that a task has at hand are well-formed. -/
def Task.WellFormed (t : TypeTable) : Task → Prop
  | .expr _ | .lets _ => True
  | .stmts _ last _ => last.WellFormed t
  | .arms _ subject _ => ∀ v ∈ subject, v.WellFormed t
  | .call callee args _ => callee.WellFormed t ∧ ∀ v ∈ args, v.WellFormed t
  | .cause signal => signal.WellFormed t

/-- All values at a moment are well-formed. -/
structure Moment.WellFormed (t : TypeTable) (m : Moment) : Prop where
  machine : m.machine.WellFormed t
  task : m.task.WellFormed t

/-- What begins at a moment ends well-formed. -/
structure Moment.EndsWellFormed (p : Program) (m : Moment) : Prop where
  outcome : (m.result p).1.WellFormed p.types (Value.WellFormed p.types)
  machine : (m.result p).2.WellFormed p.types

/-! ### An invariant -/

theorem Interrupt.wellFormed_iff {i : Interrupt} :
    i.WellFormed t ↔ ∀ v ∈ i.carried?, v.WellFormed t := by
  cases i <;> simp [Interrupt.WellFormed, Interrupt.carried?]

theorem Task.wellFormed_iff {task : Task} :
    task.WellFormed t ↔ ∀ v ∈ task.values, v.WellFormed t := by
  cases task <;> simp [Task.WellFormed, Task.values]

namespace Invariant

/-- All values are well-formed. -/
def wellFormed (t : TypeTable) : Invariant where
  machine s := s.WellFormed t
  value _ v := v.WellFormed t
  step _ s := s.WellFormed t

theorem fits_wellFormed_iff {good : α → Prop} {s : Store} {r : Outcome α} :
    (wellFormed t).Fits s (fun _ => good) r ↔ r.WellFormed t good := by
  cases r with
  | interrupt i => exact Interrupt.wellFormed_iff.symm
  | _ => exact .rfl

theorem ends_wellFormed_iff {good : α → Prop} {s : Machine} {res : Outcome α × Machine} :
    (wellFormed t).Ends s (fun _ => good) res ↔ res.1.WellFormed t good ∧ res.2.WellFormed t :=
  ⟨fun h => ⟨fits_wellFormed_iff.1 h.outcome, h.step⟩,
    fun h => ⟨h.2, fits_wellFormed_iff.2 h.1⟩⟩

theorem at_wellFormed_iff {m : Moment} : (wellFormed t).At m ↔ m.WellFormed t :=
  ⟨fun h => ⟨h.machine, Task.wellFormed_iff.2 h.values⟩,
    fun h => ⟨h.machine, Task.wellFormed_iff.1 h.task⟩⟩

instance : (wellFormed t).Steady where
  refl hs := hs
  trans _ h := h
  machine h _ := h
  value _ hv := hv
  grow _ hv := hv
  within h _ hcells hlog _ _ := ⟨h.store.of_cells hcells, hlog ▸ h.questions⟩

variable {interner : Interner} {refCount : Nat}

/-- What the name of an object or signal stands for is well-formed, since the table reflects the
declarations. -/
theorem wellFormed_typeValue (htypes : p.types.Faithful p.arena (.builtin interner refCount) [])
    {d : DeclId} {x : Name} {fields : List Code.Field} {isSignal : Bool} {s u : Machine} {v : Value}
    (hd : (p.arena.decl d).kind = .object x fields ∧ isSignal = false ∨
      ∃ result, (p.arena.decl d).kind = .signal x fields result ∧ isSignal = true)
    (hv : Eval.typeValue p d fields.isEmpty isSignal s = (.value v, u)) :
    v.WellFormed p.types := by
  cases htype : p.types.declType? d with
  | none =>
    simp only [Eval.typeValue, htype] at hv
    cases hv
  | some type =>
    simp only [Eval.typeValue, htype] at hv
    have hshape := htypes.shapes htype
    obtain ⟨hk, rfl⟩ | ⟨result, hk, rfl⟩ := hd
    · rw [hk] at hshape
      obtain ⟨types, hentry, hnames⟩ := hshape.object
      cases fields <;> cases hv
      · exact .object hentry hnames.symm (by simp) (by simp)
      · exact .constructor (by rintro rfl; cases hnames) (.inl hentry)
    · rw [hk] at hshape
      obtain ⟨types, result, hentry, hnames⟩ := hshape.signal
      cases fields <;> cases hv
      · exact .signal hentry hnames.symm (by simp) (by simp)
      · exact .constructor (by rintro rfl; cases hnames) (.inr ⟨result, hentry⟩)

/-- **A constructor makes well-formed instances.** -/
theorem wellFormed_addInstance {type : TypeId} (htype : (Value.constructor type).WellFormed t)
    {values : List (Name × Value)} (hall : ∀ x ∈ values, x.2.WellFormed t)
    (hnames : values.map Prod.fst = (t.fields type).map fun f => f.name)
    (htypes : ∀ x ∈ values.zip (t.fields type), x.1.2.hasType t x.2.type) (s : Store) :
    (s.addInstance (t.isSignal type) type values).1.WellFormed t := by
  cases htype with
  | constructor _ hkind =>
    simp only [Store.addInstance]
    rcases hkind with hk | ⟨result, hk⟩
    · simp only [TypeTable.isSignal, TypeTable.fields, hk] at hnames htypes ⊢
      exact .object hk hnames hall htypes
    · simp only [TypeTable.isSignal, TypeTable.fields, hk] at hnames htypes ⊢
      exact .signal hk hnames hall htypes

/-- **Evaluation keeps all values well-formed.** -/
theorem kept_wellFormed (htypes : p.types.Faithful p.arena (.builtin interner refCount) []) :
    (wellFormed p.types).Kept p where
  number := .number
  string := .string
  boolean b := .boolean htypes b
  action := .action
  native := .native
  field hv hw := hv.field? hw
  lookup hs hv := hs.store.lookup? hv
  closure _ _ := .closure _
  typeValue hd hv := wellFormed_typeValue htypes hd hv
  addInstance htype hall hnames htypes := wellFormed_addInstance htype hall hnames htypes _
  define n isVariable hs hv := ⟨hs.store.define _ n hv isVariable, hs.questions⟩
  assign hs hv _ := ⟨hs.store.define _ _ hv _, hs.questions⟩
  ask _ hs hsignal := ⟨hs.store, List.forall_mem_cons.2 ⟨hsignal, hs.questions⟩⟩
  inScope hs := ⟨hs.store.addScope _, hs.questions⟩
  inBody _ _ hs _ := ⟨hs.store.addScope _, hs.questions⟩
  inHandler _ hs _ := ⟨hs.store.addScope _, hs.questions⟩
  install _ _ hs := ⟨hs.store, hs.questions⟩

end Invariant

/-! ### Evaluations -/

namespace Moment

variable {m m' : Moment}

theorem endsWellFormed_iff : m.EndsWellFormed p ↔
    (Invariant.wellFormed p.types).Ends m.machine (Invariant.wellFormed p.types).value
      (m.result p) :=
  ⟨fun h => Invariant.ends_wellFormed_iff.2 ⟨h.outcome, h.machine⟩, fun h =>
    have h := Invariant.ends_wellFormed_iff.1 h
    ⟨h.1, h.2⟩⟩

end Moment

namespace Eval

/-- From a well-formed machine, the step `x` begins its parts `ms` well-formed and, as long as these
end well-formed, ends well-formed itself, with a good value if any. -/
def Forms (p : Program) (ms : List Moment) (good : α → Prop) (x : Eval α) (s : Machine) : Prop :=
  s.WellFormed p.types → (∀ m ∈ ms, m.WellFormed p.types → m.EndsWellFormed p) →
    (∀ m ∈ ms, m.WellFormed p.types) ∧ (x s).1.WellFormed p.types good ∧
      (x s).2.WellFormed p.types

variable {ms : List Moment} {good : α → Prop} {x : Eval α} {s : Machine} {interner : Interner}
  {refCount : Nat}

theorem forms_iff : Forms p ms good x s ↔
    Keeps (Invariant.wellFormed p.types) p ms (fun _ => good) x s := by
  simp only [Forms, Keeps, Invariant.ends_wellFormed_iff, Invariant.at_wellFormed_iff,
    Moment.endsWellFormed_iff]
  rfl

theorem forms_bindAllHoisted (htypes : p.types.Faithful p.arena (.builtin interner refCount) [])
    (ds : List DeclId) : Forms p [] (fun _ => True) (bindAllHoisted p ds) s :=
  forms_iff.2 (keeps_bindAllHoisted (Invariant.kept_wellFormed htypes) ds)

end Eval

namespace Moment

variable {m m' : Moment} {interner : Interner} {refCount : Nat}

/-- All that the host and its functions give in an evaluation is well-formed. -/
def Answered (p : Program) (m : Moment) : Prop :=
  ∀ π x v, Reaches p m π x → x.Answers p v → v.WellFormed p.types

/-- **An evaluation in which all that the host gives is well-formed ends well-formed.** -/
theorem WellFormed.ends (htypes : p.types.Faithful p.arena (.builtin interner refCount) [])
    (h : m.WellFormed p.types) (hanswers : m.Answered p) : m.EndsWellFormed p :=
  endsWellFormed_iff.2
    ((Invariant.kept_wellFormed htypes).ends (Invariant.at_wellFormed_iff.2 h) hanswers)

/-- **All moments that such an evaluation comes to are well-formed.** -/
theorem WellFormed.of_reaches (htypes : p.types.Faithful p.arena (.builtin interner refCount) [])
    (h : m.WellFormed p.types) (hanswers : m.Answered p) {π : List Activity}
    (hr : Reaches p m π m') : m'.WellFormed p.types ∧ m'.Answered p := by
  obtain ⟨hat, hanswered⟩ := (Invariant.kept_wellFormed htypes).at_of_reaches
    (Invariant.at_wellFormed_iff.2 h) hanswers hr
  exact ⟨Invariant.at_wellFormed_iff.1 hat, hanswered⟩

end Moment

end SignalLang
