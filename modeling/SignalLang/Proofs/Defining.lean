import SignalLang.Proofs.Operands
import SignalLang.Proofs.Scoping

/-!
# Where names are bound

A run binds names in six places: the hoisted declarations of a block, its `let`s, those of a module,
what the pattern of an arm captures, the parameters of a closure and what the pattern of a handler
captures.  All but the `let`s bind several names at once, in a new scope.

* `Eval.defineEach` : binds names to the values of steps, one after the other.
  `Eval.bindAllHoisted_eq`, `Eval.defineAll_eq` : that is what hoisting does, and `Eval.defineAll`.
* `Eval.DefinesAmong` : one of these names is about to be bound.
* `Moment.Defines p m t n b` : what begins at the moment `m` comes to bind the name `n` to `b` in
  the current scope of the machine `t`.
-/

namespace SignalLang

variable {p : Program}

namespace Eval

/-- Binds names to the values of steps, one after the other, none of them as a variable. -/
def defineEach : List (Name × Eval Value) → Eval Unit
  | [] => pure ()
  | (n, x) :: rest => do
    let v ← x
    define n v false
    defineEach rest

theorem defineEach_append (xs ys : List (Name × Eval Value)) :
    defineEach (xs ++ ys) = defineEach xs >>= fun _ => defineEach ys := by
  induction xs with
  | nil => rfl
  | cons x xs ih => simp only [List.cons_append, defineEach, ih, bind_assoc]

theorem defineEach_singleton (n : Name) (x : Eval Value) :
    defineEach [(n, x)] = x >>= fun v => define n v false := by
  simp only [defineEach, bind_unit]

/-- Names are bound where all steps give values. -/
theorem exists_defineEach {xs : List (Name × Eval Value)}
    (h : ∀ x ∈ xs, ∀ s, ∃ v t, x.2 s = (.value v, t)) (s : Machine) :
    ∃ t, defineEach xs s = (.value (), t) := by
  induction xs generalizing s with
  | nil => exact ⟨s, rfl⟩
  | cons x xs ih =>
    obtain ⟨hx, h⟩ := List.forall_mem_cons.1 h
    obtain ⟨v, t, hx⟩ := hx s
    simp only [defineEach, Bind.bind, Eval.bind, hx]
    exact ih h _

/-! ### Values that are there -/

/-- The steps that give values which are there. -/
def given (bs : Bindings) : List (Name × Eval Value) := bs.map fun b => (b.1, pure b.2)

theorem map_fst_given (bs : Bindings) : (given bs).map Prod.fst = bs.map Prod.fst := by
  simp [given]

theorem defineAll_eq (bs : Bindings) : defineAll bs = defineEach (given bs) := by
  induction bs with
  | nil => rfl
  | cons b bs ih => simp only [defineAll, ih, given, List.map_cons, defineEach, pure_bind]

theorem exists_defineAll (bs : Bindings) (s : Machine) : ∃ t, defineAll bs s = (.value (), t) := by
  rw [defineAll_eq]
  refine exists_defineEach (fun x hx s => ?_) s
  obtain ⟨b, -, rfl⟩ := List.mem_map.1 hx
  exact ⟨b.2, s, rfl⟩

/-! ### Hoisted declarations -/

variable (p : Program)

/-- The value of an item of an import. -/
def imported (path : String) (item : Code.ImportItem) : Eval Value :=
  match Native.find? path (p.interner.text item.name) with
  | some f => pure (.native f)
  | none => faultAt (.unboundName (path ++ "/" ++ p.interner.text item.name)) item.span

/-- The names that a hoisted declaration binds, and how their values come about. -/
def hoistSteps (d : DeclId) : List (Name × Eval Value) :=
  match (p.arena.decl d).kind with
  | .imports path items => items.map fun item => (item.localName, imported p path item)
  | .function n params result body => [(n, closure (some n) params result body)]
  | .object n fields => [(n, typeValue p d fields.isEmpty false)]
  | .signal n fields _ => [(n, typeValue p d fields.isEmpty true)]
  | .option _ _ | .binding _ _ _ _ => []

/-- The same for all hoisted ones among some declarations. -/
def allHoistSteps (ds : List DeclId) : List (Name × Eval Value) :=
  (ds.filter fun d => (p.arena.decl d).kind.hoisted).flatMap (hoistSteps p)

variable {p}

theorem map_fst_hoistSteps {d : DeclId} (h : (p.arena.decl d).kind.hoisted) :
    (hoistSteps p d).map Prod.fst = (p.arena.decl d).kind.bound := by
  unfold hoistSteps
  cases hk : (p.arena.decl d).kind with
  | binding n isVariable type value =>
    rw [hk] at h
    cases h
  | imports path items => exact List.map_map
  | _ => rfl

theorem map_fst_allHoistSteps (ds : List DeclId) :
    (allHoistSteps p ds).map Prod.fst = Resolve.hoistedNames p.arena ds := by
  rw [allHoistSteps, List.map_flatMap, Resolve.hoistedNames]
  exact List.flatMap_congr fun d hd => map_fst_hoistSteps (List.mem_filter.1 hd).2

theorem quiet_imported (path : String) (item : Code.ImportItem) : Quiet (imported p path item) := by
  unfold imported
  split
  · exact quiet_pure _
  · exact quiet_faultAt _ _

theorem bindImport_eq (path : String) (items : List Code.ImportItem) :
    bindImport p path items =
      defineEach (items.map fun item => (item.localName, imported p path item)) := by
  induction items with
  | nil => rfl
  | cons item items ih =>
    simp only [bindImport, List.map_cons, defineEach, ih]
    cases hf : Native.find? path (p.interner.text item.name) with
    | some f => simp only [imported, hf, pure_bind]
    | none => simp only [imported, hf]; rfl

theorem bindHoisted_eq {d : DeclId} (h : (p.arena.decl d).kind.hoisted) :
    bindHoisted p d = defineEach (hoistSteps p d) := by
  unfold bindHoisted hoistSteps
  cases hk : (p.arena.decl d).kind with
  | imports path items => exact bindImport_eq path items
  | function n params result body => exact (defineEach_singleton _ _).symm
  | object n fields => exact (defineEach_singleton _ _).symm
  | signal n fields result => exact (defineEach_singleton _ _).symm
  | option n members => rfl
  | binding n isVariable type value =>
    rw [hk] at h
    cases h

/-- **Hoisting binds one name after the other.** -/
theorem bindAllHoisted_eq (ds : List DeclId) :
    bindAllHoisted p ds = defineEach (allHoistSteps p ds) := by
  induction ds with
  | nil => rfl
  | cons d ds ih =>
    simp only [bindAllHoisted, allHoistSteps, List.filter_cons] at ih ⊢
    split
    · rename_i h
      rw [ih, bindHoisted_eq h, List.flatMap_cons, defineEach_append]
    · exact ih

/-! ### One of several names -/

/-- With the machine `s` before them, some steps come to bind `n` to `v` at the machine `t`. -/
def DefinesAmong (xs : List (Name × Eval Value)) (s t : Machine) (n : Name) (v : Value) : Prop :=
  ∃ pre x post s', xs = pre ++ (n, x) :: post ∧ defineEach pre s = (.value (), s') ∧
    x s' = (.value v, t)

end Eval

/-- What begins at a moment comes to bind a name in the current scope of a machine.  (Not in the
evaluation of its parts, which are moments of their own.) -/
inductive Moment.Defines (p : Program) : Moment → Machine → Name → Binding → Prop
  | hoisted {fuel id s body t n v} (hk : (p.arena.expr id).kind = .block body)
      (h : Eval.DefinesAmong (Eval.allHoistSteps p (Eval.declsOf body)) s.inScope t n v) :
      Defines p ⟨fuel + 1, .expr id, s⟩ t n ⟨v, false⟩
  | value {fuel b last st rest s d n isVariable type e t v} (hst : st.kind = .decl d)
      (hd : (p.arena.decl d).kind = .binding n isVariable type e)
      (hv : Eval.expr p fuel e s = (.value v, t))
      (hc : Eval.checkDeclared p type v (p.arena.decl d).span t = (.value (), t)) :
      Defines p ⟨fuel, .stmts b last (st :: rest), s⟩ t n ⟨v, isVariable⟩
  | moduleValue {fuel d ds s n isVariable type e t v}
      (hd : (p.arena.decl d).kind = .binding n isVariable type e)
      (hv : Eval.expr p fuel e s = (.value v, t))
      (hc : Eval.checkDeclared p type v (p.arena.decl d).span t = (.value (), t)) :
      Defines p ⟨fuel, .lets (d :: ds), s⟩ t n ⟨v, isVariable⟩
  | arm {fuel b v a rest s pattern body bs t n w} (ha : a.kind = .is pattern body)
      (hm : v.matchPattern? pattern p.types = some bs)
      (h : Eval.DefinesAmong (Eval.given bs) s.inScope t n w) :
      Defines p ⟨fuel, .arms b (some v) (a :: rest), s⟩ t n ⟨w, false⟩
  | param {fuel c args span s calls t n v} (hlen : args.length = c.params.length)
      (hargs : Eval.checkArguments p c.params args s = (.value (), s))
      (hcalls : s.calls.push p.limits.callDepth ⟨Eval.callName p c, some span⟩ = .ok calls)
      (h : Eval.DefinesAmong (Eval.given ((c.params.map fun q => q.name).zip args))
        (s.inCall c calls) t n v) :
      Defines p ⟨fuel, .call (.closure c) args span, s⟩ t n ⟨v, false⟩
  | capture {fuel identity type fields s outer f bs t n v}
      (hm : s.handlers.findMatch? p.types (.signal identity type fields) = some (outer, f, bs))
      (h : Eval.DefinesAmong (Eval.given bs) (s.inHandler f outer) t n v) :
      Defines p ⟨fuel, .cause (.signal identity type fields), s⟩ t n ⟨v, false⟩

end SignalLang
