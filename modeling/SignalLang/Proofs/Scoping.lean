import SignalLang.Proofs.Acceptance
import SignalLang.Proofs.Cells
import SignalLang.Proofs.Closures
import Mathlib.Data.List.Flatten

/-!
# What code finds in its scopes

Resolution knows the names in scope at a place as a context, evaluation as a chain of scopes in the
store.  This file says what the one means for the other, and what has to be true of everything that
refers to code and scopes: closures, handlers and the values in the store.

* `Store.Grows s s'` : scopes and bindings stay, but for the values of variables.
* `Store.Chain s c c'` : the scope `c'` is `c` or lies around it.
* `Scoping p` : which names a program can miss, and which it can bind as constants and variables.
* `Scoping.Shows g s scope ns c` : a scope inside of `scope` in which the names `ns` are bound
  binds, or sees around it, all that the context `c` has in scope.
* `Scoping.Fits g s c` : the closure `c` has an accepted body, and scopes that show what the body
  was accepted with.
* `Scoping.Holds g s v` : all closures in the value `v` fit; `Scoping.HoldsAll g s` : so do those in
  all that the store binds.  It stays so where the store grows.
-/

namespace SignalLang

/-! ### Names in contexts -/

namespace Resolve

namespace Context

variable {c c' : Context} {n : Name} {v : Bool}

/-- The name of a value is in scope, as that of a variable or not. -/
def Mentions (c : Context) (n : Name) (isVariable : Bool) : Prop :=
  ∃ s ∈ c.scopes, (n, isVariable) ∈ s.entries

theorem mentions_nested : c.nested.Mentions n v ↔ c.Mentions n v := by
  simp [Mentions, nested, scopes, Scope.entries, Scope.empty]

theorem mentions_calling : c.calling.Mentions n v ↔ c.Mentions n v := .rfl

theorem Adds.mentions {es : List (Name × Bool)} {ns : List Name} (h : c.Adds es ns c') :
    c'.Mentions n v ↔ (n, v) ∈ es ∨ c.Mentions n v := by
  simp only [Mentions, scopes, List.exists_mem_cons_iff, h.outer, h.entries.mem_iff,
    List.mem_append, or_assoc]

theorem mentions_of_value? {info : ValueInfo} (h : c.value? n = some info) :
    c.Mentions n (decide (info.kind = .variable)) := by
  obtain ⟨l₁, s, l₂, hscopes, hs, -⟩ := List.findSome?_eq_some_iff.1 h
  obtain ⟨k₁, k₂, hvalues, -⟩ := List.lookup_eq_some_iff.1 hs
  exact ⟨s, by simp [hscopes], List.mem_map.2 ⟨(n, info), by simp [hvalues], rfl⟩⟩

theorem IsVariable.mentions (h : c.IsVariable n) : c.Mentions n true := by
  obtain ⟨info, hinfo, hkind⟩ := h
  simpa [hkind] using mentions_of_value? hinfo

end Context

/-! ### Names of accepted scopes -/

/-- The name that a member of a scope binds with a `let`, and whether it is that of a variable. -/
def Item.letBinding? (arena : Arena) : Item → Option (Name × Bool)
  | .stmt _ => none
  | .decl d =>
    match (arena.decl d).kind with
    | .binding n isVariable _ _ => some (n, isVariable)
    | _ => none

/-- The names that the members of a scope bind with `let`s. -/
def letEntries (arena : Arena) (is : List Item) : List (Name × Bool) :=
  is.filterMap (Item.letBinding? arena)

@[inherit_doc letEntries]
def letNames (arena : Arena) (is : List Item) : List Name :=
  (letEntries arena is).map fun x => x.1

/-- The names that the hoisted ones among some declarations bind. -/
def hoistedNames (arena : Arena) (ds : List DeclId) : List Name :=
  (ds.filter fun d => (arena.decl d).kind.hoisted).flatMap fun d => (arena.decl d).kind.bound

variable {arena : Arena} {R : Context → ExprId → Prop} {order : BodyOrder} {c c' : Context}

theorem letEntries_cons (i : Item) (is : List Item) :
    letEntries arena (i :: is) = letEntries arena [i] ++ letEntries arena is := by
  cases h : i.letBinding? arena <;> simp [letEntries, h]

theorem letNames_cons (i : Item) (is : List Item) :
    letNames arena (i :: is) = letNames arena [i] ++ letNames arena is := by
  simp only [letNames, letEntries_cons i is, List.map_append]

theorem letBinding?_eq_some {i : Item} {n : Name} {v : Bool}
    (h : i.letBinding? arena = some (n, v)) :
    ∃ d type value, i = .decl d ∧ (arena.decl d).kind = .binding n v type value := by
  cases i with
  | stmt st => cases h
  | decl d =>
    simp only [Item.letBinding?] at h
    split at h
    · rename_i hk
      cases h
      exact ⟨d, _, _, rfl, hk⟩
    · cases h

/-- Only a `let` binds a name. -/
theorem letBinding?_eq_none {d : DeclId} (h : ∀ n v type value, (arena.decl d).kind ≠
    .binding n v type value) : (Item.decl d).letBinding? arena = none := by
  simp only [Item.letBinding?]

theorem AcceptsItem.adds {i : Item} (h : AcceptsItem arena R order c i c') :
    c.Adds (letEntries arena [i]) (letNames arena [i]) c' := by
  have hnone : ∀ i : Item, i.letBinding? arena = none →
      c.Adds (letEntries arena [i]) (letNames arena [i]) c := by
    intro i hi
    simpa [letNames, letEntries, hi] using Context.Adds.refl c
  cases h with
  | stmt => exact hnone _ rfl
  | binding hd _ hc => simpa [letNames, letEntries, Item.letBinding?, hd] using hc
  | function hd _ => exact hnone _ (letBinding?_eq_none (by simp [hd]))
  | other hd => exact hnone _ (letBinding?_eq_none fun _ _ _ _ hk => by simp [hk] at hd)

theorem AcceptsItems.adds {is : List Item} (h : AcceptsItems arena R order c is c') :
    c.Adds (letEntries arena is) (letNames arena is) c' := by
  induction h with
  | nil => exact .refl _
  | @cons _ _ _ i is hi _ ih =>
    rw [letEntries_cons, letNames_cons]
    exact hi.adds.trans ih

/-- A function in a block is accepted with the `let`s in front of it. -/
theorem AcceptsItems.function {is : List Item} (h : AcceptsItems arena R .inPlace c is c')
    {f : DeclId} (hf : .decl f ∈ is) {n : Name} {params : List Code.Param}
    {result : Option TypeRefId} {body : ExprId}
    (hk : (arena.decl f).kind = .function n params result body) :
    ∃ pre post cf, is = pre ++ .decl f :: post ∧ AcceptsItems arena R .inPlace c pre cf ∧
      AcceptsFunction R cf params body := by
  induction h with
  | nil => cases hf
  | @cons c _ _ i is hi _ ih =>
    rcases List.mem_cons.1 hf with rfl | hf
    · cases hi with
      | binding hd => cases hk.symm.trans hd
      | other hd => simp [hk] at hd
      | function hd h =>
        cases hk.symm.trans hd
        exact ⟨[], is, c, rfl, .nil, h rfl⟩
    · obtain ⟨pre, post, cf, rfl, hpre, h⟩ := ih hf
      exact ⟨i :: pre, post, cf, rfl, .cons hi hpre, h⟩

theorem bound_sublist_declared (kind : Code.DeclKind) : kind.bound.Sublist kind.declared := by
  cases kind <;> first | exact .refl _ | exact List.nil_sublist _

theorem hoistedDecls_map_decl (ds : List DeclId) :
    hoistedDecls arena (ds.map .decl) = ds.filter fun d => (arena.decl d).kind.hoisted := by
  induction ds with
  | nil => rfl
  | cons d ds ih =>
    simp only [hoistedDecls, List.map_cons, List.filterMap_cons, List.filter_cons] at ih ⊢
    by_cases hd : (arena.decl d).kind.hoisted <;> simp [hd, ih]

theorem hoistedDecls_ofStmt (body : List Code.Stmt) :
    hoistedDecls arena (body.map .ofStmt) =
      (Eval.declsOf body).filter fun d => (arena.decl d).kind.hoisted := by
  induction body with
  | nil => rfl
  | cons st body ih =>
    simp only [hoistedDecls, Eval.declsOf, List.map_cons, List.filterMap_cons] at ih ⊢
    cases hk : st.kind with
    | decl d =>
      by_cases hd : (arena.decl d).kind.hoisted <;> simp [Item.ofStmt, hk, hd, ih]
    | _ => simp [Item.ofStmt, hk, ih]

/-- The declaration that is a member of a scope. -/
def Item.decl? : Item → Option DeclId
  | .decl d => some d
  | .stmt _ => none

theorem declsOf_eq_filterMap (body : List Code.Stmt) :
    Eval.declsOf body = (body.map .ofStmt).filterMap Item.decl? := by
  rw [Eval.declsOf, List.filterMap_map]
  refine List.filterMap_congr fun st _ => ?_
  cases hk : st.kind <;> simp [Item.ofStmt, Item.decl?, hk]

/-- Members of a block in order are declarations in order. -/
theorem sublist_declsOf {body : List Code.Stmt} {pre post : List Item} {d f : DeclId}
    (h : body.map Item.ofStmt = pre ++ .decl f :: post) (hd : .decl d ∈ pre) :
    [d, f].Sublist (Eval.declsOf body) := by
  have hsub : [Item.decl d, .decl f].Sublist (pre ++ .decl f :: post) :=
    (List.singleton_sublist.2 hd).append (List.singleton_sublist.2 List.mem_cons_self)
  rw [declsOf_eq_filterMap, h]
  exact hsub.filterMap Item.decl?

/-- **The names that a new scope binds differ.** -/
theorem AcceptsScope.nodup {k : Known} {is : List Item}
    (h : AcceptsScope k R order c.nested is) :
    (((hoistedDecls k.arena is).flatMap fun d => (k.arena.decl d).kind.bound) ++
      letNames k.arena is).Nodup := by
  obtain ⟨hoists, items, -⟩ := h
  refine ((hoists.adds.trans items.adds).nodup_of_empty rfl).sublist
    (List.Sublist.append_right ?_ _)
  exact List.Sublist.flatMap_right _ fun d _ => bound_sublist_declared _

end Resolve

/-! ### Names in a module -/

namespace Arena

/-- A name is bound somewhere to a value that is no variable. -/
inductive BindsConstant (arena : Arena) : Name → Prop
  | hoisted {d n} (hd : (arena.decl d).kind.hoisted) (hn : n ∈ (arena.decl d).kind.bound) :
      BindsConstant arena n
  | value {d n type value} (hd : (arena.decl d).kind = .binding n false type value) :
      BindsConstant arena n
  | declParam {d name params result body q}
      (hd : (arena.decl d).kind = .function name params result body) (hq : q ∈ params) :
      BindsConstant arena q.name
  | param {id params result body q} (hk : (arena.expr id).kind = .function params result body)
      (hq : q ∈ params) : BindsConstant arena q.name
  | arm {id subject options a pattern body n}
      (hk : (arena.expr id).kind = .branch subject options) (ha : a ∈ options)
      (hp : a.kind = .is pattern body) (hn : n ∈ pattern.binding.toList) : BindsConstant arena n
  | handler {id body st pattern handler n} (hk : (arena.expr id).kind = .block body)
      (hst : st ∈ body) (hp : st.kind = .effect pattern handler)
      (hn : n ∈ pattern.binding.toList) : BindsConstant arena n

/-- A name is bound somewhere as that of a variable. -/
def BindsVariable (arena : Arena) (n : Name) : Prop :=
  ∃ d type value, (arena.decl d).kind = .binding n true type value

/-- In some block the name is bound with a `let` in front of a function. -/
def LetBeforeFunction (arena : Arena) (n : Name) : Prop :=
  ∃ id body d f, (arena.expr id).kind = .block body ∧ [d, f].Sublist (Eval.declsOf body) ∧
    (∃ isVariable type value, (arena.decl d).kind = .binding n isVariable type value) ∧
    ∃ name params result body, (arena.decl f).kind = .function name params result body

end Arena

/-! ### Stores that grow -/

namespace Store

/-- Scopes and bindings stay, but for the values of variables; more of them may be there. -/
structure Grows (s s' : Store) : Prop where
  size : s.cells.size ≤ s'.cells.size
  parent : ∀ c : ScopeId, c.index < s.cells.size → (s'.cell c).parent = (s.cell c).parent
  binding : ∀ c n b, s.binding? c n = some b → ∃ b', s'.binding? c n = some b' ∧ b.Becomes b'

variable {s s' s'' : Store}

theorem Grows.refl (s : Store) : s.Grows s :=
  ⟨Nat.le_refl _, fun _ _ => rfl, fun _ _ b hb => ⟨b, hb, .refl b⟩⟩

theorem Grows.trans (h : s.Grows s') (h' : s'.Grows s'') : s.Grows s'' := by
  refine ⟨Nat.le_trans h.size h'.size, fun c hc => ?_, fun c n b hb => ?_⟩
  · exact (h'.parent c (Nat.lt_of_lt_of_le hc h.size)).trans (h.parent c hc)
  · obtain ⟨b', hb', hbecomes⟩ := h.binding c n b hb
    obtain ⟨b'', hb'', hbecomes'⟩ := h'.binding c n b' hb'
    exact ⟨b'', hb'', hbecomes.trans hbecomes'⟩

/-- The binding of a constant stays as it is. -/
theorem Grows.binding_eq (h : s.Grows s') {c : ScopeId} {n : Name} {b : Binding}
    (hb : s.binding? c n = some b) (hv : b.isVariable = false) : s'.binding? c n = some b := by
  obtain ⟨b', hb', rfl | ⟨hv', -⟩⟩ := h.binding c n b hb
  · exact hb'
  · simp [hv] at hv'

theorem Grows.isSome (h : s.Grows s') {c : ScopeId} {n : Name} (hb : (s.binding? c n).isSome) :
    (s'.binding? c n).isSome := by
  obtain ⟨b, hb⟩ := Option.isSome_iff_exists.1 hb
  obtain ⟨b', hb', -⟩ := h.binding c n b hb
  rw [hb']
  rfl

theorem Keeps.grows (h : s.Keeps s.cells.size s') : s.Grows s' := by
  refine ⟨h.size, h.parent, fun c n b hb => ?_⟩
  by_cases hc : c.index < s.cells.size
  · have hrel := h.binding c hc n
    rw [hb] at hrel
    generalize hb' : s'.binding? c n = x at hrel
    cases hrel with
    | some hrel => exact ⟨_, rfl, hrel⟩
  · rw [binding?_of_size_le (by omega)] at hb
    cases hb

/-- To bind a name that is not bound changes no binding. -/
theorem grows_define {id : ScopeId} {n : Name} (h : s.binding? id n = none) (v : Value)
    (isVariable : Bool) : s.Grows (s.define id n v isVariable) := by
  refine ⟨by rw [size_define], fun c _ => parent_define .., fun c m b hb => ⟨b, ?_, .refl b⟩⟩
  rw [binding?_define, if_neg]
  · exact hb
  · rintro ⟨rfl, rfl, -⟩
    rw [h] at hb
    cases hb

/-- The scope `c'` is `c` or one of those around it.  Scopes are created behind those around
them. -/
inductive Chain (s : Store) : ScopeId → ScopeId → Prop
  | here {c} (hc : c.index < s.cells.size) : Chain s c c
  | outer {c c' c''} (hp : (s.cell c).parent = some c') (hlt : c'.index < c.index)
      (h : Chain s c' c'') : Chain s c c''

theorem Chain.lt_size {c c' : ScopeId} (h : s.Chain c c') : c.index < s.cells.size := by
  cases h with
  | here hc => exact hc
  | outer hp _ _ => exact lt_size_of_parent hp

theorem Chain.grows {c c' : ScopeId} (h : s.Chain c c') (hs : s.Grows s') : s'.Chain c c' := by
  induction h with
  | here hc => exact .here (Nat.lt_of_lt_of_le hc hs.size)
  | outer hp hlt _ ih => exact .outer ((hs.parent _ (lt_size_of_parent hp)).trans hp) hlt ih

theorem Chain.nearestWithin {c c' : ScopeId} (h : s.Chain c c') {n : Name}
    (hn : (s.binding? c' n).isSome) {length : Nat} (hlen : c.index < length) :
    ∃ found, s.nearestWithin n length c = some found ∧ (s.binding? found n).isSome := by
  induction h generalizing length with
  | @here c _ =>
    obtain ⟨length, rfl⟩ : ∃ k, length = k + 1 := ⟨length - 1, by omega⟩
    exact ⟨c, by simp [Store.nearestWithin, hn], hn⟩
  | @outer c _ _ hp hlt _ ih =>
    obtain ⟨length, rfl⟩ : ∃ k, length = k + 1 := ⟨length - 1, by omega⟩
    by_cases hc : (s.binding? c n).isSome
    · exact ⟨c, by simp [Store.nearestWithin, hc], hc⟩
    · obtain ⟨found, hfound, hb⟩ := ih hn (show _ < length by omega)
      exact ⟨found, by simp [Store.nearestWithin, hc, hp, hfound], hb⟩

theorem isSome_of_nearestWithin {c found : ScopeId} {n : Name} {length : Nat}
    (h : s.nearestWithin n length c = some found) : (s.binding? found n).isSome := by
  induction length generalizing c with
  | zero => cases h
  | succ length ih =>
    simp only [nearestWithin] at h
    split at h
    · rename_i hb
      cases h
      exact hb
    · split at h
      · exact ih h
      · cases h

/-- The nearest binding of a name is one. -/
theorem isSome_of_nearest? {c found : ScopeId} {n : Name} (h : s.nearest? c n = some found) :
    (s.binding? found n).isSome :=
  isSome_of_nearestWithin h

/-- A name that is bound in the chain of a scope has a nearest binding there. -/
theorem Chain.nearest? {c c' : ScopeId} (h : s.Chain c c') {n : Name}
    (hn : (s.binding? c' n).isSome) :
    ∃ found b, s.nearest? c n = some found ∧ s.binding? found n = some b := by
  obtain ⟨found, hfound, hb⟩ := h.nearestWithin hn h.lt_size
  obtain ⟨b, hb⟩ := Option.isSome_iff_exists.1 hb
  exact ⟨found, b, hfound, hb⟩

end Store

/-! ### What scopes show of a context -/

/-- What is known of the names of a program. -/
structure Scoping (p : Program) where
  /-- Names that may be unbound although they are in scope. -/
  missing : Name → Prop
  /-- Nothing is known of what is bound. -/
  anyMissing : Prop
  /-- Names that are going to be bound in a scope. -/
  promised : ScopeId → Name → Prop
  /-- Names of constants. -/
  constant : Name → Prop
  /-- Names of variables. -/
  changeable : Name → Prop
  /-- What the modules at the paths export. -/
  exported : String → Name → Prop
  missing_of_let : ∀ n, p.arena.LetBeforeFunction n → missing n
  constant_of_binds : ∀ n, p.arena.BindsConstant n → constant n
  changeable_of_binds : ∀ n, p.arena.BindsVariable n → changeable n
  find?_of_exported : ∀ path n, exported path n →
    (Native.find? path (p.interner.text n)).isSome ∨ anyMissing
  missing_of_anyMissing : anyMissing → ∀ n, missing n

namespace Scoping

variable {p : Program} (g : Scoping p)

/-- What is known of the module. -/
def known : Resolve.Known := ⟨p.arena, p.types.Declares, g.exported⟩

/-- An expression is accepted in a context. -/
def Accepts (c : Resolve.Context) (id : ExprId) : Prop := Resolve.Accepted g.known c id

/-- Nothing is known of the names, so that any of them may be missing, and be set. -/
def anyNames (p : Program) (exported : String → Name → Prop) : Scoping p where
  missing _ := True
  anyMissing := True
  promised _ _ := False
  constant _ := True
  changeable _ := True
  exported := exported
  missing_of_let _ _ := trivial
  constant_of_binds _ _ := trivial
  changeable_of_binds _ _ := trivial
  find?_of_exported _ _ _ := .inr trivial
  missing_of_anyMissing _ _ := trivial

/-- The same with other names that are going to be bound. -/
def promising (promised : ScopeId → Name → Prop) : Scoping p := { g with promised }

/-- The same where some more names are going to be bound in a scope. -/
def awaiting (scope : ScopeId) (ns : List Name) : Scoping p :=
  g.promising fun c n => g.promised c n ∨ c = scope ∧ n ∈ ns

/-- A name is bound in a scope or around it. -/
def Sees (s : Store) (scope : ScopeId) (n : Name) : Prop :=
  g.missing n ∨ ∃ c, s.Chain scope c ∧ ((s.binding? c n).isSome ∨ g.promised c n)

/-- A scope inside of `scope` in which the names `ns` are bound has all that a context has. -/
def Shows (s : Store) (scope : ScopeId) (ns : List Name) (c : Resolve.Context) : Prop :=
  ∀ n v, c.Mentions n v → (n ∈ ns ∨ g.Sees s scope n) ∧ (v = true → g.changeable n)

/-- A closure binds different names to its arguments, and the scope that it captured shows what its
body was accepted with. -/
structure Fits (s : Store) (c : Closure) : Prop where
  distinct : (c.params.map fun q => q.name).Nodup
  params : ∀ q ∈ c.params, g.constant q.name
  body : ∃ ctx, g.Accepts ctx c.body ∧ g.Shows s c.captured (c.params.map fun q => q.name) ctx

/-- All closures in a value fit. -/
def Holds (s : Store) (v : Value) : Prop := v.Only (g.Fits s)

/-- The scope of a handler shows what its body was accepted with. -/
structure FitsHandler (s : Store) (f : HandlerFrame) : Prop where
  captures : ∀ n ∈ f.pattern.binding.toList, g.constant n
  body : ∃ ctx, g.Accepts ctx f.body ∧ g.Shows s f.scope f.pattern.binding.toList ctx

/-- All values in a store fit, and only names of constants are bound as such. -/
def HoldsAll (s : Store) : Prop :=
  ∀ c n b, s.binding? c n = some b → g.Holds s b.value ∧ (b.isVariable = false → g.constant n)

variable {g} {s s' : Store} {scope : ScopeId} {ns : List Name} {c c' : Resolve.Context}

/-! ### In a store that has grown -/

theorem Sees.grows {n : Name} (h : g.Sees s scope n) (hs : s.Grows s') : g.Sees s' scope n :=
  h.imp_right fun ⟨c, hc, hn⟩ => ⟨c, hc.grows hs, hn.imp_left hs.isSome⟩

/-- A name that is seen and not bound may be missing, or is going to be bound. -/
theorem Sees.missing_or_promised {n : Name} (h : g.Sees s scope n)
    (hnone : s.nearest? scope n = none) : g.missing n ∨ ∃ c, g.promised c n := by
  rcases h with hmissing | ⟨c, hc, hb | hpromised⟩
  · exact .inl hmissing
  · obtain ⟨found, b, hfound, -⟩ := hc.nearest? hb
    rw [hnone] at hfound
    cases hfound
  · exact .inr ⟨c, hpromised⟩

theorem Shows.grows (h : g.Shows s scope ns c) (hs : s.Grows s') : g.Shows s' scope ns c :=
  fun n v hn => ⟨(h n v hn).1.imp_right fun h => h.grows hs, (h n v hn).2⟩

theorem Fits.grows {c : Closure} (h : g.Fits s c) (hs : s.Grows s') : g.Fits s' c :=
  let ⟨ctx, hbody, hshows⟩ := h.body
  ⟨h.distinct, h.params, ctx, hbody, hshows.grows hs⟩

theorem Holds.grows {v : Value} (h : g.Holds s v) (hs : s.Grows s') : g.Holds s' v :=
  h.mono fun _ h => h.grows hs

theorem FitsHandler.grows {f : HandlerFrame} (h : g.FitsHandler s f) (hs : s.Grows s') :
    g.FitsHandler s' f :=
  let ⟨ctx, hbody, hshows⟩ := h.body
  ⟨h.captures, ctx, hbody, hshows.grows hs⟩

/-! ### With other promises -/

section Promises

variable {q q' : ScopeId → Name → Prop}

/-- A promise can be dropped when it is kept. -/
theorem Sees.promising {n : Name} (h : (g.promising q).Sees s scope n)
    (hq : ∀ c n, q c n → q' c n ∨ (s.binding? c n).isSome ∨ g.missing n) :
    (g.promising q').Sees s scope n := by
  rcases h with h | ⟨c, hc, hn | hn⟩
  · exact .inl h
  · exact .inr ⟨c, hc, .inl hn⟩
  · rcases hq c n hn with hn | hn | hn
    · exact .inr ⟨c, hc, .inr hn⟩
    · exact .inr ⟨c, hc, .inl hn⟩
    · exact .inl hn

variable (hq : ∀ c n, q c n → q' c n ∨ (s.binding? c n).isSome ∨ g.missing n)

include hq

theorem Shows.promising (h : (g.promising q).Shows s scope ns c) :
    (g.promising q').Shows s scope ns c :=
  fun n v hn => ⟨(h n v hn).1.imp_right fun h => h.promising hq, (h n v hn).2⟩

theorem Fits.promising {c : Closure} (h : (g.promising q).Fits s c) : (g.promising q').Fits s c :=
  let ⟨ctx, hbody, hshows⟩ := h.body
  ⟨h.distinct, h.params, ctx, hbody, hshows.promising hq⟩

theorem Holds.promising {v : Value} (h : (g.promising q).Holds s v) : (g.promising q').Holds s v :=
  h.mono fun _ h => h.promising hq

theorem FitsHandler.promising {f : HandlerFrame} (h : (g.promising q).FitsHandler s f) :
    (g.promising q').FitsHandler s f :=
  let ⟨ctx, hbody, hshows⟩ := h.body
  ⟨h.captures, ctx, hbody, hshows.promising hq⟩

theorem HoldsAll.promising (h : (g.promising q).HoldsAll s) : (g.promising q').HoldsAll s :=
  fun c n b hb => ⟨(h c n b hb).1.promising hq, (h c n b hb).2⟩

end Promises

/-! ### In new scopes -/

/-- What was accepted in a context then fits into every scope. -/
theorem shows_anyNames {exported : String → Name → Prop} :
    (anyNames p exported).Shows s scope ns c :=
  fun _ _ _ => ⟨.inr (.inl trivial), fun _ => trivial⟩

theorem Shows.nested (h : g.Shows s scope ns c) : g.Shows s scope ns c.nested :=
  fun n v hn => h n v (Resolve.Context.mentions_nested.1 hn)

/-- What is added to a context has to be bound. -/
theorem Shows.adds {es : List (Name × Bool)} {ms : List Name} (h : g.Shows s scope ns c)
    (hc : c.Adds es ms c') (hes : ∀ n v, (n, v) ∈ es →
      (n ∈ ns ∨ g.Sees s scope n) ∧ (v = true → g.changeable n)) :
    g.Shows s scope ns c' := by
  intro n v hn
  rcases hc.mentions.1 hn with hn | hn
  · exact hes n v hn
  · exact h n v hn

/-- A new scope in which the names are bound sees the rest in the scopes around it. -/
theorem Shows.enter (h : g.Shows s scope ns c) (hs : s.Grows s') {new : ScopeId}
    (hp : (s'.cell new).parent = some scope) (hnew : s.cells.size ≤ new.index)
    (hns : ∀ n ∈ ns, (s'.binding? new n).isSome) : g.Shows s' new [] c := by
  refine fun n v hn => ⟨.inr ?_, (h n v hn).2⟩
  rcases (h n v hn).1 with hmem | hmissing | ⟨c, hc, hb⟩
  · exact .inr ⟨new, .here (Store.lt_size_of_parent hp), .inl (hns n hmem)⟩
  · exact .inl hmissing
  · have hlt : scope.index < new.index := Nat.lt_of_lt_of_le hc.lt_size hnew
    exact .inr ⟨c, .outer hp hlt (hc.grows hs), hb.imp_left hs.isSome⟩

theorem HoldsAll.grows (h : g.HoldsAll s) (hs : s.Grows s')
    (hsame : ∀ c n, s'.binding? c n = s.binding? c n) : g.HoldsAll s' := by
  intro c n b hb
  rw [hsame] at hb
  exact ⟨(h c n b hb).1.grows hs, (h c n b hb).2⟩

theorem HoldsAll.lookup? (h : g.HoldsAll s) {id : ScopeId} {n : Name} {v : Value}
    (hv : s.lookup? id n = some v) : g.Holds s v := by
  obtain ⟨b, hb, rfl⟩ := Option.map_eq_some_iff.1 hv
  obtain ⟨found, -, hb⟩ := Option.bind_eq_some_iff.1 hb
  exact (h found n b hb).1

theorem HoldsAll.define (h : g.HoldsAll s) {id : ScopeId} {n : Name} {v : Value}
    {isVariable : Bool} (hs : s.Grows (s.define id n v isVariable)) (hv : g.Holds s v)
    (hn : isVariable = false → g.constant n) : g.HoldsAll (s.define id n v isVariable) := by
  intro c m b hb
  rw [Store.binding?_define] at hb
  split at hb
  · rename_i heq
    cases hb
    exact ⟨hv.grows hs, heq.2.1 ▸ hn⟩
  · exact ⟨(h c m b hb).1.grows hs, (h c m b hb).2⟩

end Scoping

end SignalLang
