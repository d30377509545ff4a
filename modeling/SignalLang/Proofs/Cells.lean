import SignalLang.Proofs.Coverage

/-!
# Scopes that exist already

Names are bound in scopes that are new: those of a block, of an arm, of the body of a closure or of
a handler.  In a scope from before, all that an evaluation can change are the values of variables.

* `Binding.Becomes` : what can become of a binding; only the value of a variable changes.
* `Store.Keeps k s s'` : the first `k` scopes of `s` are the same in `s'`, but for values of
  variables.
* `Eval.Spares` : a step that keeps all scopes from before it; `Eval.SparesOuter` : one that can
  bind names in the current scope.
* `Eval.spares_expr` : **the evaluation of every expression spares the scopes from before it.**
-/

namespace SignalLang

/-- A binding stays as it is, or it is that of a variable and stays one. -/
def Binding.Becomes (b b' : Binding) : Prop := b' = b ∨ b.isVariable = true ∧ b'.isVariable = true

theorem Binding.Becomes.refl (b : Binding) : b.Becomes b := .inl rfl

theorem Binding.Becomes.trans {b₁ b₂ b₃ : Binding} (h : b₁.Becomes b₂) (h' : b₂.Becomes b₃) :
    b₁.Becomes b₃ := by
  rcases h with rfl | ⟨h₁, h₂⟩
  · exact h'
  · rcases h' with rfl | ⟨-, h₃⟩
    · exact .inr ⟨h₁, h₂⟩
    · exact .inr ⟨h₁, h₃⟩

/-! ### Stores -/

namespace Store

theorem cell_addScope (s : Store) (parent : Option ScopeId) (id : ScopeId) :
    (s.addScope parent).2.cell id =
      if id.index = s.cells.size then ⟨parent, []⟩ else s.cell id := by
  simp only [addScope, cell, Array.getD_eq_getD_getElem?, Array.getElem?_push]
  split <;> rfl

theorem size_addScope (s : Store) (parent : Option ScopeId) :
    (s.addScope parent).2.cells.size = s.cells.size + 1 := by
  simp [addScope]

theorem size_le_addScope (s : Store) (parent : Option ScopeId) :
    s.cells.size ≤ (s.addScope parent).2.cells.size := by
  rw [size_addScope]
  exact Nat.le_succ _

theorem cells_addInstance (s : Store) (isSignal : Bool) (type : TypeId)
    (fields : List (Name × Value)) : (s.addInstance isSignal type fields).2.cells = s.cells := by
  simp only [addInstance]
  split <;> rfl

theorem size_define (s : Store) (id : ScopeId) (n : Name) (v : Value) (isVariable : Bool) :
    (s.define id n v isVariable).cells.size = s.cells.size := by
  simp [define]

theorem binding?_of_size_le {s : Store} {id : ScopeId} (h : s.cells.size ≤ id.index) (n : Name) :
    s.binding? id n = none := by
  simp [binding?, cell, Array.getD_eq_getD_getElem?, Array.getElem?_eq_none h]

theorem lt_size_of_parent {s : Store} {c d : ScopeId} (h : (s.cell c).parent = some d) :
    c.index < s.cells.size := by
  refine Nat.lt_of_not_le fun hc => ?_
  simp [cell, Array.getD_eq_getD_getElem?, Array.getElem?_eq_none hc] at h

theorem lookup_putBinding (n m : Name) (b : Binding) (bs : List (Name × Binding)) :
    (putBinding n b bs).lookup m = if m = n then some b else bs.lookup m := by
  induction bs with
  | nil =>
    by_cases h : m = n
    · simp [putBinding, h]
    · simp [putBinding, List.lookup_cons, h, beq_eq_false_iff_ne.2 h]
  | cons c bs ih =>
    obtain ⟨k, d⟩ := c
    by_cases hk : k = n
    · subst hk
      by_cases h : m = k <;> simp [putBinding, List.lookup_cons, h, beq_eq_false_iff_ne.2]
    · by_cases h : m = k
      · subst h
        simp [putBinding, hk]
      · simp [putBinding, List.lookup_cons, hk, beq_eq_false_iff_ne.2 h, ih]

theorem cell_define (s : Store) (id c : ScopeId) (n : Name) (v : Value) (isVariable : Bool) :
    (s.define id n v isVariable).cell c =
      if c = id ∧ id.index < s.cells.size then
        { s.cell c with bindings := putBinding n ⟨v, isVariable⟩ (s.cell c).bindings }
      else s.cell c := by
  obtain ⟨i⟩ := id
  obtain ⟨j⟩ := c
  simp only [define, cell, Array.getD_eq_getD_getElem?, Array.getElem?_modify, ScopeId.mk.injEq]
  by_cases hij : i = j
  · subst hij
    by_cases hi : i < s.cells.size
    · simp [hi]
    · simp [hi]
  · simp [hij, Ne.symm hij]

theorem parent_define (s : Store) (id c : ScopeId) (n : Name) (v : Value) (isVariable : Bool) :
    ((s.define id n v isVariable).cell c).parent = (s.cell c).parent := by
  rw [cell_define]
  split <;> rfl

theorem binding?_define (s : Store) (id c : ScopeId) (n m : Name) (v : Value) (isVariable : Bool) :
    (s.define id n v isVariable).binding? c m =
      if c = id ∧ m = n ∧ id.index < s.cells.size then some ⟨v, isVariable⟩
      else s.binding? c m := by
  simp only [binding?, cell_define]
  by_cases h : c = id ∧ id.index < s.cells.size
  · rw [if_pos h, lookup_putBinding]
    simp [h.1, h.2]
  · rw [if_neg h, if_neg fun h' => h ⟨h'.1, h'.2.2⟩]

theorem binding?_addScope (s : Store) (parent : Option ScopeId) (c : ScopeId) (n : Name) :
    (s.addScope parent).2.binding? c n = s.binding? c n := by
  simp only [binding?, cell_addScope]
  split
  · rename_i h
    simp [cell, Array.getD_eq_getD_getElem?, Array.getElem?_eq_none (Nat.le_of_eq h.symm)]
  · rfl

/-- The first `k` scopes stay, with their names; only values of variables change. -/
structure Keeps (k : Nat) (s s' : Store) : Prop where
  size : s.cells.size ≤ s'.cells.size
  parent : ∀ c : ScopeId, c.index < k → (s'.cell c).parent = (s.cell c).parent
  binding : ∀ c : ScopeId, c.index < k → ∀ n,
    Option.Rel Binding.Becomes (s.binding? c n) (s'.binding? c n)

variable {k : Nat} {s s' s'' : Store}

theorem rel_becomes_refl (b : Option Binding) : Option.Rel Binding.Becomes b b := by
  cases b with
  | none => exact .none
  | some b => exact .some (.refl b)

theorem Keeps.refl (s : Store) : Keeps k s s :=
  ⟨Nat.le_refl _, fun _ _ => rfl, fun _ _ _ => rel_becomes_refl _⟩

theorem Keeps.trans (h : Keeps k s s') (h' : Keeps k s' s'') : Keeps k s s'' := by
  refine ⟨Nat.le_trans h.size h'.size, fun c hc => (h'.parent c hc).trans (h.parent c hc),
    fun c hc n => ?_⟩
  have hb := h.binding c hc n
  have hb' := h'.binding c hc n
  generalize s.binding? c n = b₁, s'.binding? c n = b₂, s''.binding? c n = b₃ at hb hb'
  cases hb with
  | none => exact hb'
  | some hb =>
    cases hb' with
    | some hb' => exact .some (hb.trans hb')

theorem Keeps.mono {j : Nat} (h : Keeps k s s') (hj : j ≤ k) : Keeps j s s' :=
  ⟨h.size, fun c hc => h.parent c (Nat.lt_of_lt_of_le hc hj),
    fun c hc => h.binding c (Nat.lt_of_lt_of_le hc hj)⟩

/-- A step that leaves the scopes alone keeps them. -/
theorem keeps_of_cells (h : s'.cells = s.cells) : Keeps k s s' := by
  refine ⟨by rw [h], fun c _ => by simp only [cell, h], fun c _ n => ?_⟩
  simp only [binding?, cell, h]
  exact rel_becomes_refl _

/-- A new scope comes behind all others. -/
theorem keeps_addScope (parent : Option ScopeId) : Keeps s.cells.size s (s.addScope parent).2 := by
  refine ⟨by rw [size_addScope]; omega, fun c hc => ?_, fun c _ n => ?_⟩
  · rw [cell_addScope, if_neg (by omega)]
  · rw [binding?_addScope]
    exact rel_becomes_refl _

/-- A name that is bound in another scope does not matter. -/
theorem keeps_define {id : ScopeId} (hid : k ≤ id.index) (n : Name) (v : Value)
    (isVariable : Bool) : Keeps k s (s.define id n v isVariable) := by
  refine ⟨by rw [size_define], fun c _ => parent_define .., fun c hc m => ?_⟩
  rw [binding?_define, if_neg]
  · exact rel_becomes_refl _
  · rintro ⟨rfl, -, -⟩
    omega

theorem owner_eq_ok {id found : ScopeId} {n : Name} (h : s.owner id n = .ok found) :
    ∃ v, s.binding? found n = some ⟨v, true⟩ := by
  unfold owner at h
  split at h
  · cases h
  · rename_i found' _
    cases hb : s.binding? found' n with
    | none => simp [hb] at h
    | some b =>
      obtain ⟨v, isVariable⟩ := b
      cases isVariable with
      | false => simp [hb] at h
      | true =>
        simp only [hb] at h
        cases h
        exact ⟨v, hb⟩

/-- A `set` changes the value of a variable. -/
theorem keeps_assign {id found : ScopeId} {n : Name} (h : s.owner id n = .ok found) (v : Value) :
    Keeps k s (s.define found n v true) := by
  obtain ⟨w, hw⟩ := owner_eq_ok h
  refine ⟨by rw [size_define], fun c _ => parent_define .., fun c _ m => ?_⟩
  rw [binding?_define]
  split
  · rename_i heq
    obtain ⟨rfl, rfl, -⟩ := heq
    rw [hw]
    exact .some (.inr ⟨rfl, rfl⟩)
  · exact rel_becomes_refl _

end Store

namespace Eval

variable {p : Program} {ev : Evaluator}

/-! ### Steps that leave the scopes alone -/

/-- A step that leaves the scopes alone. -/
def Quiet (x : Eval α) : Prop := ∀ s, (x s).2.store.cells = s.store.cells

theorem quiet_pure (a : α) : Quiet (pure a : Eval α) := fun _ => rfl

theorem quiet_fault (e : EvalProblem) : Quiet (fault e : Eval α) := fun _ => rfl

theorem quiet_faultAt (e : EvalProblem) (span : Span) : Quiet (faultAt e span : Eval α) :=
  fun _ => rfl

theorem Quiet.bind {x : Eval α} {f : α → Eval β} (hx : Quiet x) (hf : ∀ a, Quiet (f a)) :
    Quiet (x >>= f) := by
  intro s
  have h := hx s
  simp only [Bind.bind, Eval.bind]
  cases hr : x s with
  | mk r t =>
    rw [hr] at h
    cases r with
    | value a => exact (hf a t).trans h
    | _ => exact h

theorem quiet_checkType (v : Value) (expected : Ty) : Quiet (checkType p v expected) :=
  fun s => by rw [checkType_snd]

theorem quiet_fieldValues (fields : List FieldType) (args : List Value) :
    Quiet (fieldValues p fields args) := by
  induction fields generalizing args with
  | nil => exact quiet_pure []
  | cons f fields ih =>
    cases args with
    | nil => exact quiet_pure []
    | cons v args =>
      exact (quiet_checkType v f.type).bind fun _ => (ih args).bind fun _ => quiet_pure _

theorem quiet_construct (type : TypeId) (args : List Value) : Quiet (construct p type args) := by
  simp only [construct]
  split
  · exact quiet_fault _
  · exact (quiet_fieldValues _ _).bind fun values s =>
      s.store.cells_addInstance (p.types.isSignal type) type values

theorem quiet_callNative (f : NativeFunction) (args : List Value) :
    Quiet (callNative p f args) := fun s => by
  rw [callNative, snd_ofExcept]

theorem quiet_resume (type : TypeId) (v : Value) : Quiet (resume p type v) := by
  simp only [resume]
  split
  · exact quiet_pure _
  · exact (quiet_checkType v _).bind fun _ => quiet_pure v

theorem quiet_unhandled (type : TypeId) (signal : Value) : Quiet (unhandled p type signal) := by
  simp only [unhandled]
  cases p.host with
  | none => exact quiet_fault _
  | some h =>
    refine Quiet.bind (fun _ => rfl) fun answer => ?_
    cases answer with
    | some v => exact Quiet.bind (fun _ => rfl) fun _ => quiet_resume type v
    | none =>
      dsimp only
      split
      · exact Quiet.bind (fun _ => rfl) fun _ => Quiet.bind (fun _ => rfl) fun _ => quiet_pure _
      · exact quiet_fault _

theorem quiet_typeValue (d : DeclId) (fieldless isSignal : Bool) :
    Quiet (typeValue p d fieldless isSignal) := by
  unfold typeValue
  cases p.types.declType? d with
  | none => exact quiet_faultAt _ _
  | some type =>
    dsimp only
    split
    · exact quiet_pure _
    · split <;> exact quiet_pure _

theorem quiet_closure (name : Option Name) (params : List Code.Param) (result : Option TypeRefId)
    (body : ExprId) : Quiet (closure name params result body) :=
  fun _ => rfl

theorem quiet_checkDeclared (typeRef : Option TypeRefId) (v : Value) (span : Span) :
    Quiet (checkDeclared p typeRef v span) := by
  unfold checkDeclared
  split
  · exact quiet_pure ()
  · split
    · exact quiet_pure ()
    · exact quiet_faultAt _ _

theorem quiet_condition (v : Value) : Quiet (condition p v) := by
  unfold condition
  split
  · exact quiet_pure _
  · exact quiet_fault _

theorem quiet_ident (n : Name) : Quiet (ident p n) := by
  intro s
  simp only [ident]
  split <;> rfl

theorem quiet_member (receiver : Value) (field : Name) : Quiet (member p receiver field) := by
  unfold member
  split
  · exact quiet_pure _
  · exact quiet_fault _

theorem quiet_leaveFunction (v : Value) : Quiet (leaveFunction v) := by
  intro s
  cases htarget : s.returnTarget <;>
    simp only [leaveFunction, Bind.bind, Eval.bind, read, htarget] <;> rfl

theorem quiet_leaveLoop (v : Value) : Quiet (leaveLoop v) := by
  intro s
  cases htarget : s.loopTarget <;>
    simp only [leaveLoop, Bind.bind, Eval.bind, read, htarget] <;> rfl

/-! ### Steps that spare scopes -/

/-- A step that keeps all scopes that are there before it. -/
def Spares (x : Eval α) : Prop :=
  ∀ s : Machine, s.store.Keeps s.store.cells.size (x s).2.store

/-- A step that keeps all scopes from before the current one. -/
def SparesOuter (x : Eval α) : Prop :=
  ∀ k (s : Machine), k ≤ s.env.current.index → k ≤ s.store.cells.size →
    s.store.Keeps k (x s).2.store

theorem Quiet.spares {x : Eval α} (h : Quiet x) : Spares x := fun s => Store.keeps_of_cells (h s)

theorem Spares.outer {x : Eval α} (h : Spares x) : SparesOuter x :=
  fun _ s _ hk => (h s).mono hk

theorem Quiet.outer {x : Eval α} (h : Quiet x) : SparesOuter x := h.spares.outer

theorem spares_outOfFuel : Spares (outOfFuel : Eval α) := fun s => .refl s.store

/-- What comes behind a step that spares scopes keeps the scopes that the step leaves. -/
theorem keeps_bind {k : Nat} {x : Eval α} {f : α → Eval β} {s : Machine}
    (hx : s.store.Keeps k (x s).2.store)
    (hf : ∀ a t, x s = (.value a, t) → t.store.Keeps k (f a t).2.store) :
    s.store.Keeps k ((x >>= f) s).2.store := by
  simp only [Bind.bind, Eval.bind]
  cases hr : x s with
  | mk r t =>
    rw [hr] at hx
    cases r with
    | value a => exact hx.trans (hf a t hr)
    | _ => exact hx

theorem Spares.bind {x : Eval α} {f : α → Eval β} (hx : Spares x) (hf : ∀ a, Spares (f a)) :
    Spares (x >>= f) := by
  intro s
  refine keeps_bind (hx s) fun a t ht => (hf a t).mono ?_
  have hsize := (hx s).size
  rwa [ht] at hsize

/-- Behind a balanced step the current scope is the same one. -/
theorem SparesOuter.bind {x : Eval α} {f : α → Eval β} (hx : SparesOuter x) (hb : Balanced x)
    (hf : ∀ a, SparesOuter (f a)) : SparesOuter (x >>= f) := by
  intro k s hcur hk
  have hkeeps := hx k s hcur hk
  refine keeps_bind hkeeps fun a t ht => ?_
  have henv := (hb s).env
  have hsize := hkeeps.size
  rw [ht] at henv hsize
  exact hf a k t (by rw [henv]; exact hcur) (Nat.le_trans hk hsize)

theorem Spares.located {x : Eval α} (hx : Spares x) (span : Span) : Spares (located span x) := by
  intro s
  have h := hx s
  simp only [Eval.located]
  cases hr : x s with
  | mk r t =>
    rw [hr] at h
    cases r <;> exact h

/-- A new scope is not among those from before. -/
theorem SparesOuter.inScope {x : Eval α} (hx : SparesOuter x) : Spares (inScope x) := by
  intro s
  have hadd : s.store.Keeps s.store.cells.size s.inScope.store := Store.keeps_addScope _
  exact hadd.trans (hx s.store.cells.size s.inScope (Nat.le_refl _) hadd.size)

/-- The scope of a body is not among those from before. -/
theorem SparesOuter.inBody {x : Eval α} (hx : SparesOuter x) (s : Machine) (captured : ScopeId)
    (l r : Option FrameId) :
    s.store.Keeps s.store.cells.size (x (s.inBody captured l r)).2.store := by
  have hadd : s.store.Keeps s.store.cells.size (s.inBody captured l r).store :=
    Store.keeps_addScope _
  exact hadd.trans (hx s.store.cells.size _ (Nat.le_refl _) hadd.size)

theorem SparesOuter.withHandler {x : Eval α} (hx : SparesOuter x) (f : HandlerFrame) :
    SparesOuter (withHandler f x) := fun k s => hx k (s.install f)

theorem Spares.withOuterHandlers {x : Eval α} (hx : Spares x) (outer : Nat) :
    Spares (withOuterHandlers outer x) :=
  fun s => hx { s with handlers := (s.handlers.splitOff outer).2 }

theorem sparesOuter_define (n : Name) (v : Value) (isVariable : Bool) :
    SparesOuter (define n v isVariable) :=
  fun _ _ hcur _ => Store.keeps_define hcur n v isVariable

theorem sparesOuter_defineAll (bs : Bindings) : SparesOuter (defineAll bs) := by
  induction bs with
  | nil => exact (quiet_pure ()).outer
  | cons b bs ih => exact (sparesOuter_define _ _ _).bind (balanced_define _ _ _) fun _ => ih

/-! ### Calls and causes -/

theorem store_activation (frame : FrameId) (x : Eval Value) (s : Machine) :
    (activation frame x s).2.store = (x s).2.store := by
  simp only [activation]
  split <;> rename_i hr <;> rw [hr]

section

variable (hev : ∀ id, Spares (ev id))

include hev

theorem spares_callClosure (c : Closure) (args : List Value) (span : Span) :
    Spares (callClosure p ev c args span) := by
  unfold callClosure
  split
  · exact (quiet_fault _).spares
  · refine Spares.bind (Quiet.spares fun s => by rw [checkArguments_snd]) fun _ s => ?_
    simp only [Bind.bind, Eval.bind, pushCall]
    cases s.calls.push p.limits.callDepth ⟨callName p c, some span⟩ with
    | error e => exact .refl _
    | ok calls =>
      have hbody : SparesOuter (do
          defineAll ((c.params.map fun q => q.name).zip args)
          ev c.body) :=
        (sparesOuter_defineAll _).bind (balanced_defineAll _) fun _ => (hev c.body).outer
      have h := hbody.inBody { s with calls, activations := s.activations + 1 } c.captured none
        (some (.ofSerial s.activations))
      exact (store_activation (.ofSerial s.activations) (inContext _ none _ _) _).symm ▸ h

theorem spares_callValue (callee : Value) (args : List Value) (span : Span) :
    Spares (callValue p ev callee args span) := by
  unfold callValue
  split
  · exact spares_callClosure hev _ _ _
  · exact (quiet_callNative _ _).spares
  · exact (quiet_construct _ _).spares
  · split
    · exact (quiet_pure _).spares
    · exact (quiet_fault _).spares

theorem spares_runHandler (outer : Nat) (f : HandlerFrame) (bs : Bindings) :
    Spares (runHandler ev outer f bs) := by
  refine Spares.withOuterHandlers (fun s => ?_) outer
  have hbody : SparesOuter (do
      defineAll bs
      ev f.body) := (sparesOuter_defineAll bs).bind (balanced_defineAll bs) fun _ => (hev _).outer
  exact hbody.inBody s f.scope f.loopTarget f.returnTarget

theorem spares_cause (v : Value) : Spares (cause p ev v) := by
  unfold cause
  split
  · refine Spares.bind (Quiet.spares fun _ => rfl) fun found => ?_
    cases found with
    | some m =>
      exact (spares_runHandler hev m.1 m.2.1 m.2.2).bind fun _ => (quiet_resume _ _).spares
    | none => exact (quiet_unhandled _ _).spares
  · exact (quiet_fault _).spares

/-! ### Declarations and statements -/

omit hev in
theorem sparesOuter_bindImport (path : String) (items : List Code.ImportItem) :
    SparesOuter (bindImport p path items) := by
  induction items with
  | nil => exact (quiet_pure ()).outer
  | cons item rest ih =>
    simp only [bindImport]
    cases Native.find? path (p.interner.text item.name) with
    | some n => exact (sparesOuter_define _ _ _).bind (balanced_define _ _ _) fun _ => ih
    | none => exact (quiet_faultAt _ _).outer.bind (balanced_faultAt _ _) fun _ => ih

omit hev in
theorem sparesOuter_bindHoisted (d : DeclId) : SparesOuter (bindHoisted p d) := by
  unfold bindHoisted
  split
  · exact sparesOuter_bindImport _ _
  · exact (quiet_closure _ _ _ _).outer.bind (balanced_closure _ _ _ _) fun _ =>
      sparesOuter_define _ _ _
  · exact (quiet_typeValue _ _ _).outer.bind (balanced_typeValue _ _ _) fun _ =>
      sparesOuter_define _ _ _
  · exact (quiet_typeValue _ _ _).outer.bind (balanced_typeValue _ _ _) fun _ =>
      sparesOuter_define _ _ _
  · exact (quiet_pure ()).outer
  · exact (quiet_faultAt _ _).outer

omit hev in
theorem sparesOuter_bindAllHoisted (ds : List DeclId) : SparesOuter (bindAllHoisted p ds) := by
  induction ds with
  | nil => exact (quiet_pure ()).outer
  | cons d ds ih =>
    simp only [bindAllHoisted]
    split
    · exact (sparesOuter_bindHoisted d).bind (balanced_bindHoisted d) fun _ => ih
    · exact (quiet_pure ()).outer.bind (balanced_pure ()) fun _ => ih

theorem sparesOuter_bindLet (hb : ∀ id, Balanced (ev id)) (d : DeclId) :
    SparesOuter (bindLet p ev d) := by
  unfold bindLet
  split
  · exact (hev _).outer.bind (hb _) fun v => (quiet_checkDeclared _ v _).outer.bind
      (balanced_checkDeclared _ _ _) fun _ => sparesOuter_define _ _ _
  · exact (quiet_pure ()).outer

omit hev in
theorem spares_set (target : Name) (v : Value) (span : Span) : Spares (set p target v span) := by
  intro s
  simp only [set]
  cases howner : s.store.owner s.env.current target with
  | ok found => exact Store.keeps_assign howner v
  | error e => exact .refl _

theorem sparesOuter_stmts (hb : ∀ id, Balanced (ev id)) (last : Value) (body : List Code.Stmt) :
    SparesOuter (stmts p ev last body) := by
  induction body generalizing last with
  | nil => exact (quiet_pure last).outer
  | cons st rest ih =>
    simp only [stmts]
    split
    · exact (hev _).outer.bind (hb _) fun v => ih v
    · exact (sparesOuter_bindLet hev hb _).bind (balanced_bindLet hb _) fun _ => ih _
    · exact (hev _).outer.bind (hb _) fun v => (spares_set _ v _).outer.bind
        (balanced_set _ _ _) fun _ => ih _
    · exact SparesOuter.bind (Quiet.outer fun _ => rfl) (balanced_read _) fun f =>
        (ih _).withHandler f

theorem spares_block (hb : ∀ id, Balanced (ev id)) (body : List Code.Stmt) :
    Spares (block p ev body) :=
  ((sparesOuter_bindAllHoisted _).bind (balanced_bindAllHoisted _) fun _ =>
    sparesOuter_stmts hev hb _ body).inScope

/-! ### Branches and loops -/

theorem spares_arms (subject : Option Value) (options : List Code.Arm) :
    Spares (arms p ev subject options) := by
  induction options with
  | nil => exact (quiet_pure _).spares
  | cons a rest ih =>
    simp only [arms]
    split
    · refine (hev _).bind fun v => (quiet_condition v).spares.bind fun b => ?_
      split
      · exact hev _
      · exact ih
    · split
      · exact (quiet_faultAt _ _).spares
      · split
        · exact ((sparesOuter_defineAll _).bind (balanced_defineAll _) fun _ =>
            (hev _).outer).inScope
        · exact ih
    · exact hev _

theorem spares_branch (subject : Option ExprId) (options : List Code.Arm) :
    Spares (branch p ev subject options) := by
  cases subject with
  | none => exact spares_arms hev _ _
  | some e => exact (hev e).bind fun v => spares_arms hev _ _

theorem spares_rounds (frame : FrameId) (body : ExprId) (fuel done ticks : Nat) :
    Spares (rounds p ev frame body fuel done ticks) := by
  induction fuel generalizing done ticks with
  | zero => exact spares_outOfFuel
  | succ fuel ih =>
    intro s
    have h := hev body s
    simp only [rounds]
    generalize (if s.hostTicks = ticks then done else 0) = n
    split
    · exact .refl _
    · cases hr : ev body s with
      | mk r t =>
        rw [hr] at h
        cases r with
        | value v => exact h.trans ((ih _ _ t).mono h.size)
        | outOfFuel => exact h
        | interrupt i => cases i <;> exact h

theorem spares_loop (fuel : Nat) (body : ExprId) : Spares (loop p ev fuel body) :=
  Spares.bind (Quiet.spares fun _ => rfl) fun frame s =>
    spares_rounds hev frame body fuel 0 s.hostTicks { s with loopTarget := some frame }

/-! ### Expressions -/

theorem spares_arguments (es : List ExprId) : Spares (arguments ev es) := by
  induction es with
  | nil => exact (quiet_pure []).spares
  | cons e es ih => exact (hev e).bind fun v => ih.bind fun vs => (quiet_pure _).spares

theorem spares_optional (e : Option ExprId) : Spares (optional ev e) := by
  cases e with
  | none => exact (quiet_pure _).spares
  | some e => exact hev e

/-- Every construct spares the scopes from before it if its parts do. -/
theorem spares_node (hb : ∀ id, Balanced (ev id)) (fuel : Nat) (id : ExprId) :
    Spares (node p ev fuel id) := by
  simp only [node]
  cases (p.arena.expr id).kind with
  | group inner => exact (hev inner).located _
  | block body => exact (spares_block hev hb body).located _
  | function params result body => exact (quiet_closure _ _ _ _).spares
  | branch subject options => exact (spares_branch hev subject options).located _
  | loop body => exact (spares_loop hev fuel body).located _
  | cause payload => exact (hev payload).bind fun v => (spares_cause hev v).located _
  | ret value =>
    exact (spares_optional hev value).bind fun v => (quiet_leaveFunction v).spares
  | brk value => exact (spares_optional hev value).bind fun v => (quiet_leaveLoop v).spares
  | string text => exact (quiet_pure _).spares
  | number n => exact (quiet_pure _).spares
  | ident n => exact (quiet_ident n).spares.located _
  | call callee args =>
    exact (hev callee).bind fun f => (spares_arguments hev args).bind fun vs =>
      (spares_callValue hev f vs _).located _
  | member receiver field =>
    exact (hev receiver).bind fun v => (quiet_member v field).spares.located _
  | pipe subject callee args =>
    exact (hev subject).bind fun v => (hev callee).bind fun f =>
      (spares_arguments hev args).bind fun vs => (spares_callValue hev f _ _).located _

end

/-- **The evaluation of every expression spares the scopes from before it.** -/
theorem spares_expr (fuel : Nat) (id : ExprId) : Spares (expr p fuel id) := by
  induction fuel generalizing id with
  | zero => exact spares_outOfFuel
  | succ fuel ih => exact spares_node ih (balanced_expr fuel) fuel id

end Eval

end SignalLang
