import SignalLang.Proofs.Enclosing
import SignalLang.Proofs.Entries
import Mathlib.Tactic.Abel

/-!
# Names of types

A written type that is a name stands for the type that the innermost scope around it declares with
that name.  Resolution visits the nodes of a module one after the other, each with the scopes around
it, and records what the written types among them stand for.

* `Arena.declaredIn?` : the declaration for which a name stands in some scopes.
* `TypeTable.Resolves` : what a written type stands for in some scopes is on record.
* `Findings.Reflects s done` : the findings `s` reflect that the nodes of `done` have been visited.
* `Resolve.Visits x new post` : the step `x` visits the nodes of `new`.
-/

namespace SignalLang

open Code (Node Scopes Occurrence)

/-! ### Meaning of names -/

namespace Arena

/-- The type that declarations give a name.  The last one counts. -/
def declared? (a : Arena) (ds : List DeclId) (n : Name) : Option DeclId :=
  (ds.filter fun d => Resolve.typeName? (a.decl d).kind = some n).getLast?

/-- The declared type for which a name stands: that of the innermost scope with one. -/
def declaredIn? (a : Arena) (scopes : Scopes) (n : Name) : Option DeclId :=
  scopes.findSome? fun ds => a.declared? ds n

@[simp] theorem declared?_nil (a : Arena) (n : Name) : a.declared? [] n = none := rfl

theorem declared?_concat (a : Arena) (ds : List DeclId) (d : DeclId) (n : Name) :
    a.declared? (ds ++ [d]) n =
      if Resolve.typeName? (a.decl d).kind = some n then some d else a.declared? ds n := by
  unfold declared?
  rw [List.filter_append, List.filter_singleton]
  split <;> simp_all

theorem declaredIn?_cons (a : Arena) (ds : List DeclId) (scopes : Scopes) (n : Name) :
    a.declaredIn? (ds :: scopes) n = (a.declared? ds n).or (a.declaredIn? scopes n) := by
  rw [declaredIn?, List.findSome?_cons]
  cases a.declared? ds n <;> rfl

@[simp] theorem declaredIn?_nil_cons (a : Arena) (scopes : Scopes) (n : Name) :
    a.declaredIn? ([] :: scopes) n = a.declaredIn? scopes n := by
  simp [declaredIn?_cons]

/-- Only hoisted declarations declare types. -/
theorem declared?_hoisted (a : Arena) (ds : List DeclId) (n : Name) :
    a.declared? (ds.filter fun d => (a.decl d).kind.hoisted) n = a.declared? ds n := by
  unfold declared?
  rw [List.filter_filter]
  congr 1
  refine List.filter_congr fun d _ => ?_
  cases (a.decl d).kind <;> simp [Resolve.typeName?, Code.DeclKind.hoisted]

end Arena

namespace TypeTable

section

variable (t : TypeTable) (a : Arena) (outer : Name → Option TypeId) (scopes : Scopes)

/-- A name stands for a place in the table: that of the type declared in the scopes, or else what it
stands for outside of the module, if anything. -/
def Denotes (n : Name) (place : Option TypeId) : Prop :=
  match a.declaredIn? scopes n with
  | some d => ∃ id, t.declType? d = some id ∧ place = some id
  | none => place = outer n

/-- What a written type stands for is on record: a name for the type that it denotes, or else for
the unknown type, and a function type for that of its parts. -/
def Resolves (r : TypeRefId) : Prop :=
  match (a.typeRef r).kind with
  | .named n => ∃ place, t.Denotes a outer scopes n place ∧
    t.resolved? r = some (.named (place.getD .unknown))
  | .function params result => ∃ tys ty,
    List.Forall₂ (fun q ty => t.resolved? q = some ty) params tys ∧
    t.resolved? result = some ty ∧ t.resolved? r = some (.function tys ty)

end

/-- What is to be known of a node has been found out: of a written type what it stands for, of a
declared type its place, and of a declared function its signature. -/
def Settled (t : TypeTable) (a : Arena) (outer : Name → Option TypeId) : Occurrence → Prop
  | (scopes, .typeRef r) => t.Resolves a outer scopes r
  | (_, .decl d) =>
    match (a.decl d).kind with
    | .object _ _ | .signal _ _ _ | .option _ _ => (t.declType? d).isSome
    | .function _ _ _ _ => (t.function? d).isSome
    | .binding _ _ _ _ | .imports _ _ => True
  | (_, .expr _) => True

variable {t t' : TypeTable} {a : Arena} {outer : Name → Option TypeId} {scopes : Scopes}

theorem Denotes.mono {n : Name} {place : Option TypeId} (h : t.Denotes a outer scopes n place)
    (hle : t.Le t') : t'.Denotes a outer scopes n place := by
  unfold Denotes at h ⊢
  split at h
  · obtain ⟨id, hid, hplace⟩ := h
    exact ⟨id, hle.declTypes hid, hplace⟩
  · exact h

theorem Resolves.mono {r : TypeRefId} (h : t.Resolves a outer scopes r) (hle : t.Le t') :
    t'.Resolves a outer scopes r := by
  unfold Resolves at h ⊢
  split at h
  · obtain ⟨place, hplace, hr⟩ := h
    exact ⟨place, hplace.mono hle, hle.refs hr⟩
  · obtain ⟨tys, ty, hparams, hresult, hr⟩ := h
    exact ⟨tys, ty, hparams.imp fun _ _ => hle.refs, hle.refs hresult, hle.refs hr⟩

theorem Le.isSome_declType? (h : t.Le t') {d : DeclId} (hd : (t.declType? d).isSome) :
    (t'.declType? d).isSome := by
  obtain ⟨id, hid⟩ := Option.isSome_iff_exists.1 hd
  exact Option.isSome_iff_exists.2 ⟨id, h.declTypes hid⟩

theorem Settled.mono {o : Occurrence} (h : t.Settled a outer o) (hle : t.Le t') :
    t'.Settled a outer o := by
  obtain ⟨scopes, x⟩ := o
  cases x with
  | expr id => trivial
  | typeRef r => exact Resolves.mono h hle
  | decl d =>
    simp only [Settled] at h ⊢
    split at h <;> first | exact hle.isSome_declType? h | exact hle.functions h | trivial

end TypeTable

/-- The error of a name without a type. -/
def ResolveError.isUnknownType (e : ResolveError) : Bool :=
  match e.problem with
  | .unknownType _ => true
  | _ => false

/-- The error at a written type: there is one if it is a name that is neither declared in the scopes
nor known outside of the module. -/
def Arena.unknownType? (a : Arena) (outer : Name → Option TypeId) : Occurrence → Option ResolveError
  | (scopes, .typeRef r) =>
    match (a.typeRef r).kind with
    | .named n =>
      if a.declaredIn? scopes n = none ∧ outer n = none then
        some ⟨.unknownType n, (a.typeRef r).span⟩
      else none
    | .function _ _ => none
  | _ => none

theorem TypeTable.Denotes.eq_none_iff {t : TypeTable} {a : Arena} {outer : Name → Option TypeId}
    {scopes : Scopes} {n : Name} {place : Option TypeId} (h : t.Denotes a outer scopes n place) :
    place = none ↔ a.declaredIn? scopes n = none ∧ outer n = none := by
  unfold Denotes at h
  split at h
  · rename_i d hd
    obtain ⟨id, -, rfl⟩ := h
    simp [hd]
  · rename_i hd
    simp [hd, h]

section

variable {t : TypeTable} {a : Arena} {outer : Name → Option TypeId} {pre : List DeclId}
  {gs : Scopes} {d : DeclId} {n : Name}

/-- A type that is declared last is the one that its name denotes. -/
theorem TypeTable.denotes_concat_self (hn : Resolve.typeName? (a.decl d).kind = some n)
    {id : TypeId} (hid : t.declType? d = some id) :
    t.Denotes a outer ((pre ++ [d]) :: gs) n (some id) := by
  have hd : a.declaredIn? ((pre ++ [d]) :: gs) n = some d := by
    rw [Arena.declaredIn?_cons, Arena.declared?_concat, if_pos hn, Option.some_or]
  rw [Denotes, hd]
  exact ⟨id, hid, rfl⟩

/-- It does not matter for other names. -/
theorem TypeTable.Denotes.concat {place : Option TypeId} (h : t.Denotes a outer (pre :: gs) n place)
    (hn : Resolve.typeName? (a.decl d).kind ≠ some n) :
    t.Denotes a outer ((pre ++ [d]) :: gs) n place := by
  rw [Denotes, Arena.declaredIn?_cons] at h ⊢
  rwa [Arena.declared?_concat, if_neg hn]

end

section

variable {t : TypeTable} {a : Arena} {outer outer' : Name → Option TypeId} {scopes : Scopes}
  {r : TypeRefId}

/-- Outside of the module, only the name that is written matters. -/
theorem TypeTable.Resolves.of_outer (h : t.Resolves a outer scopes r)
    (heq : ∀ n, (a.typeRef r).kind = .named n → outer n = outer' n) :
    t.Resolves a outer' scopes r := by
  unfold Resolves at h ⊢
  split at h
  · rename_i n hk
    simpa only [Denotes, heq n hk] using h
  · exact h

theorem Arena.unknownType?_congr (heq : ∀ n, (a.typeRef r).kind = .named n → outer n = outer' n) :
    a.unknownType? outer (scopes, .typeRef r) = a.unknownType? outer' (scopes, .typeRef r) := by
  unfold unknownType?
  dsimp only
  split
  · rename_i n hk
    rw [heq n hk]
  · rfl

end

namespace Resolve

/-! ### Findings -/

variable {a : Arena} {outer : Name → Option TypeId}

/-- The errors of unknown types so far. -/
def Findings.unknowns (s : Findings) : Multiset ResolveError :=
  s.errors.toList.filter ResolveError.isUnknownType

/-- The findings reflect that exactly the nodes of `done` have been visited. -/
structure Findings.Reflects (s : Findings) (a : Arena) (outer : Name → Option TypeId)
    (done : Multiset Occurrence) : Prop where
  size : s.table.refs.size = a.typeRefs.size
  settled : ∀ o ∈ done, s.table.Settled a outer o
  /-- Only declarations that were visited have a place. -/
  placed : ∀ d, (s.table.declType? d).isSome → .decl d ∈ done.map Prod.snd
  /-- Only written types that were visited are on record. -/
  resolved : ∀ r, (s.table.resolved? r).isSome → .typeRef r ∈ done.map Prod.snd
  entries : s.table.Catalogues a
  unknowns : s.unknowns = done.filterMap (a.unknownType? outer)

/-- One more node has been visited. -/
theorem Findings.Reflects.cons {s s' : Findings} {done : Multiset Occurrence}
    (h : s.Reflects a outer done) {o : Occurrence} (hle : s.table.Le s'.table)
    (hsize : s'.table.refs.size = s.table.refs.size) (ho : s'.table.Settled a outer o)
    (hplaced : ∀ d, (s'.table.declType? d).isSome → o.2 = .decl d ∨ (s.table.declType? d).isSome)
    (hresolved : ∀ r, (s'.table.resolved? r).isSome →
      o.2 = .typeRef r ∨ (s.table.resolved? r).isSome)
    (hentries : s'.table.Catalogues a)
    (hunknowns : s'.unknowns = ((a.unknownType? outer o).toList : Multiset _) + s.unknowns) :
    s'.Reflects a outer (o ::ₘ done) where
  size := hsize.trans h.size
  settled o' ho' := by
    rcases Multiset.mem_cons.1 ho' with rfl | ho'
    · exact ho
    · exact (h.settled o' ho').mono hle
  placed d hd := by
    rw [Multiset.map_cons, Multiset.mem_cons]
    exact (hplaced d hd).imp Eq.symm (h.placed d)
  resolved r hr := by
    rw [Multiset.map_cons, Multiset.mem_cons]
    exact (hresolved r hr).imp Eq.symm (h.resolved r)
  entries := hentries
  unknowns := by
    rw [hunknowns, h.unknowns, Multiset.filterMap_cons]
    cases a.unknownType? outer o <;> rfl

/-- From a table that says at least what `t` says, a step visits the nodes of `new`, if they are
among the nodes not visited yet; then `post` holds of the table and the result. -/
def Visits (a : Arena) (outer : Name → Option TypeId) (t : TypeTable) (x : Check α)
    (new : Multiset Occurrence) (post : TypeTable → α → Prop) : Prop :=
  ∀ s done, t.Le s.table → s.Reflects a outer done → (new + done).map Prod.snd ≤ a.nodes →
    (x s).2.Reflects a outer (new + done) ∧ s.table.Le (x s).2.table ∧
      post (x s).2.table (x s).1

section

variable {t : TypeTable} {α β : Type} {new new' : Multiset Occurrence} {post : TypeTable → β → Prop}

theorem visits_pure {r : β} (h : ∀ t', t.Le t' → post t' r) : Visits a outer t (pure r) 0 post := by
  intro s done ht hs _
  rw [zero_add]
  exact ⟨hs, .refl _, h _ ht⟩

theorem visits_skip {r : β} : Visits a outer t (pure r) 0 fun _ _ => True :=
  visits_pure fun _ _ => trivial

theorem Visits.bind {x : Check α} {f : α → Check β} {mid : TypeTable → α → Prop}
    (hx : Visits a outer t x new mid)
    (hf : ∀ r t', t.Le t' → mid t' r → Visits a outer t' (f r) new' post) :
    Visits a outer t (x >>= f) (new + new') post := by
  intro s done ht hs hnodes
  have heq : new + new' + done = new' + (new + done) := by abel
  rw [heq] at hnodes ⊢
  have hbefore : (new + done).map Prod.snd ≤ a.nodes :=
    (Multiset.map_le_map (Multiset.le_add_left _ _)).trans hnodes
  obtain ⟨hs₁, hle₁, hmid⟩ := hx s done ht hs hbefore
  obtain ⟨hs₂, hle₂, hpost⟩ := hf _ _ (ht.trans hle₁) hmid _ _ (.refl _) hs₁ hnodes
  exact ⟨hs₂, hle₁.trans hle₂, hpost⟩

/-- The second step does not depend on what the first one gives. -/
theorem Visits.andThen {x : Check α} {f : α → Check β} {mid : TypeTable → α → Prop}
    (hx : Visits a outer t x new mid) (hf : ∀ r t', t.Le t' → Visits a outer t' (f r) new' post) :
    Visits a outer t (x >>= f) (new + new') post :=
  hx.bind fun r t' hle _ => hf r t' hle

/-- The second step visits nothing. -/
theorem Visits.andQuiet {x : Check α} {f : α → Check β} {mid : TypeTable → α → Prop}
    (hx : Visits a outer t x new mid)
    (hf : ∀ r t', t.Le t' → mid t' r → Visits a outer t' (f r) 0 post) :
    Visits a outer t (x >>= f) new post := by
  simpa only [add_zero] using hx.bind hf

/-- The first step visits nothing. -/
theorem Visits.quietThen {x : Check α} {f : α → Check β} {mid : TypeTable → α → Prop}
    (hx : Visits a outer t x 0 mid)
    (hf : ∀ r t', t.Le t' → mid t' r → Visits a outer t' (f r) new post) :
    Visits a outer t (x >>= f) new post := by
  simpa only [zero_add] using hx.bind hf

/-- Nothing is left to do but to give a result. -/
theorem Visits.andPure {x : Check α} {f : α → β} {mid : TypeTable → α → Prop}
    (hx : Visits a outer t x new mid) :
    Visits a outer t (x >>= fun r => pure (f r)) new fun _ _ => True :=
  hx.andQuiet fun _ _ _ _ => visits_skip

theorem Visits.weaken {x : Check β} {post' : TypeTable → β → Prop}
    (hx : Visits a outer t x new post) (h : ∀ t' r, post t' r → post' t' r) :
    Visits a outer t x new post' := by
  intro s done ht hs hnodes
  obtain ⟨hs', hle, hpost⟩ := hx s done ht hs hnodes
  exact ⟨hs', hle, h _ _ hpost⟩

/-- Behind a step, the table says all that it said before. -/
theorem Visits.le {x : Check β} (hx : Visits a outer t x new post) :
    Visits a outer t x new fun t' r => t.Le t' ∧ post t' r := by
  intro s done ht hs hnodes
  obtain ⟨hs', hle, hpost⟩ := hx s done ht hs hnodes
  exact ⟨hs', hle, ht.trans hle, hpost⟩

/-- A step that visits nothing: it leaves the table alone, but for what types admit, and reports no
unknown type. -/
theorem visits_of_quiet {x : Check α} (hdecls : ∀ s, (x s).2.table.declTypes = s.table.declTypes)
    (hrefs : ∀ s, (x s).2.table.refs = s.table.refs)
    (hfunctions : ∀ s, (x s).2.table.functions = s.table.functions)
    (hentries : ∀ s, t.Le s.table → s.table.Catalogues a → (x s).2.table.Catalogues a)
    (hunknowns : ∀ s, (x s).2.unknowns = s.unknowns) :
    Visits a outer t x 0 fun _ _ => True := by
  intro s done ht hs _
  have hplace : ∀ d, (x s).2.table.declType? d = s.table.declType? d := fun d => by
    rw [TypeTable.declType?, hdecls, TypeTable.declType?]
  have href : ∀ r, (x s).2.table.resolved? r = s.table.resolved? r := fun r => by
    rw [TypeTable.resolved?, hrefs, TypeTable.resolved?]
  have hfunction : ∀ d, (x s).2.table.function? d = s.table.function? d := fun d => by
    rw [TypeTable.function?, hfunctions, TypeTable.function?]
  have hle : s.table.Le (x s).2.table :=
    ⟨fun h => (hplace _).trans h, fun h => (href _).trans h, fun h => by rwa [hfunction]⟩
  rw [zero_add]
  refine ⟨⟨by rw [hrefs, hs.size], fun o ho => (hs.settled o ho).mono hle, fun d hd => ?_,
    fun r hr => ?_, hentries s ht hs.entries, by rw [hunknowns, hs.unknowns]⟩, hle, trivial⟩
  · exact hs.placed d (by rwa [hplace] at hd)
  · exact hs.resolved r (by rwa [href] at hr)

theorem visits_report {problem : ResolveProblem} (span : Span)
    (h : ResolveError.isUnknownType ⟨problem, span⟩ = false) :
    Visits a outer t (report problem span) 0 fun _ _ => True :=
  visits_of_quiet (fun _ => rfl) (fun _ => rfl) (fun _ => rfl) (fun _ _ hs => hs) fun s => by
    change ((s.errors.push _).toList.filter _ : Multiset ResolveError) = _
    rw [Array.toList_push, List.filter_append, List.filter_singleton, h]
    simp [Findings.unknowns]

theorem visits_setKind {d : DeclId} {id : TypeId} (hid : t.declType? d = some id)
    {kind : TypeKind} (hkind : t.KindIs a d kind) :
    Visits a outer t (record fun t => t.setKind id kind) 0 fun _ _ => True :=
  visits_of_quiet (fun _ => rfl) (fun _ => rfl) (fun _ => rfl)
    (fun _ ht hs => hs.setKind (ht.declTypes hid) (hkind.mono ht)) fun _ => rfl

/-- A step that goes on from the table as it is. -/
theorem visits_table_bind {f : TypeTable → Check β}
    (hf : ∀ t', t.Le t' → Visits a outer t' (f t') new post) :
    Visits a outer t (table >>= f) new post :=
  fun s done ht => hf s.table ht s done (.refl _)

/-- A node about which there is nothing to find out can be visited along the way. -/
theorem Visits.cons {x : Check β} (hx : Visits a outer t x new post) {o : Occurrence}
    (ho : ∀ t : TypeTable, t.Settled a outer o) (herror : a.unknownType? outer o = none) :
    Visits a outer t x (o ::ₘ new) post := by
  intro s done ht hs hnodes
  rw [Multiset.cons_add, Multiset.map_cons] at hnodes
  obtain ⟨hs', hle, hpost⟩ := hx s done ht hs ((Multiset.le_cons_self _ _).trans hnodes)
  rw [Multiset.cons_add]
  exact ⟨hs'.cons (.refl _) rfl (ho _) (fun _ h => .inr h) (fun _ h => .inr h)
    hs'.entries (by rw [herror]; exact (zero_add _).symm), hle, hpost⟩

/-! ### Several steps -/

theorem visits_mapM {f : α → Check β} {new : α → Multiset Occurrence}
    {Q : TypeTable → α → β → Prop} (as : List α)
    (hQ : ∀ t t' r b, t.Le t' → Q t r b → Q t' r b)
    (hf : ∀ r ∈ as, ∀ t', t.Le t' → Visits a outer t' (f r) (new r) fun t' b => Q t' r b) :
    Visits a outer t (as.mapM f) (as.map new).sum fun t' bs => List.Forall₂ (Q t') as bs := by
  induction as generalizing t with
  | nil => exact visits_pure fun _ _ => .nil
  | cons r as ih =>
    obtain ⟨hr, has⟩ := List.forall_mem_cons.1 hf
    rw [List.mapM_cons, List.map_cons, List.sum_cons]
    refine (hr t (.refl _)).bind fun b t₁ hle₁ hb => ?_
    refine (ih fun r hr t' hle => has r hr t' (hle₁.trans hle)).andQuiet fun bs t₂ hle₂ hbs => ?_
    exact visits_pure fun t₃ hle₃ => .cons (hQ _ _ _ _ (hle₂.trans hle₃) hb)
      (hbs.imp fun _ _ => hQ _ _ _ _ hle₃)

theorem visits_forM {f : α → Check Unit} {new : α → Multiset Occurrence} (as : List α)
    (hf : ∀ r ∈ as, ∀ t', t.Le t' → Visits a outer t' (f r) (new r) fun _ _ => True) :
    Visits a outer t (as.forM f) (as.map new).sum fun _ _ => True := by
  induction as generalizing t with
  | nil => exact visits_skip
  | cons r as ih =>
    obtain ⟨hr, has⟩ := List.forall_mem_cons.1 hf
    have hrest : ∀ (u : Unit) t', t.Le t' →
        Visits a outer t' (as.forM f) (as.map new).sum fun _ _ => True :=
      fun _ t' hle => ih fun r hr t'' hle' => has r hr t'' (hle.trans hle')
    exact (hr t (.refl _)).andThen hrest

end

/-! ### Contexts -/

/-- In a context, names stand for the types that they denote in some scopes. -/
def Context.Sees (c : Context) (t : TypeTable) (a : Arena) (outer : Name → Option TypeId)
    (scopes : Scopes) : Prop :=
  ∀ n, t.Denotes a outer scopes n (c.type? n)

section

variable {t t' : TypeTable} {scopes : Scopes} {c c' : Context}

theorem Context.Sees.mono (h : c.Sees t a outer scopes) (hle : t.Le t') :
    c.Sees t' a outer scopes :=
  fun n => (h n).mono hle

/-- Only the types in scope matter. -/
theorem Context.Sees.of_types (h : c.Sees t a outer scopes) (heq : ∀ n, c'.type? n = c.type? n) :
    c'.Sees t a outer scopes := fun n => heq n ▸ h n

theorem Context.type?_nested (c : Context) (n : Name) : c.nested.type? n = c.type? n := by
  simp [Context.type?, Context.nested, Context.scopes, Scope.empty, List.findSome?_cons]

theorem Context.type?_addType (c : Context) (x : Name) (id : TypeId) (n : Name) :
    (c.addType x id).type? n = if n = x then some id else c.type? n := by
  simp only [Context.type?, Context.addType, Scope.addType, Context.scopes, List.findSome?_cons,
    List.lookup_cons]
  by_cases h : n = x
  · simp [h]
  · rw [beq_eq_false_iff_ne.2 h, if_neg h]

theorem Context.Sees.nested (h : c.Sees t a outer scopes) : c.nested.Sees t a outer scopes :=
  h.of_types c.type?_nested

/-- A scope that declares nothing does not matter. -/
theorem Context.Sees.nil_cons (h : c.Sees t a outer scopes) : c.Sees t a outer ([] :: scopes) := by
  intro n
  simpa only [TypeTable.Denotes, Arena.declaredIn?_nil_cons] using h n

theorem visits_declare (x : Name) (span : Span) (h : c.Sees t a outer scopes) :
    Visits a outer t (declare c x span) 0 fun t' c' => c'.Sees t' a outer scopes := by
  unfold declare
  split
  · exact (visits_report span rfl).quietThen fun _ t₁ hle₁ _ => visits_pure fun t₂ hle₂ =>
      h.mono (hle₁.trans hle₂)
  · exact visits_pure fun t₁ hle₁ => (h.mono hle₁).of_types fun _ => rfl

end

/-- Entering things one after the other into a context. -/
theorem visits_foldlM {α : Type} {t : TypeTable} {scopes : Scopes} {f : Context → α → Check Context}
    {new : α → Multiset Occurrence} (as : List α)
    (hf : ∀ r ∈ as, ∀ c t', t.Le t' → c.Sees t' a outer scopes →
      Visits a outer t' (f c r) (new r) fun t' c' => c'.Sees t' a outer scopes) {c : Context}
    (hc : c.Sees t a outer scopes) :
    Visits a outer t (as.foldlM f c) (as.map new).sum fun t' c' => c'.Sees t' a outer scopes := by
  induction as generalizing t c with
  | nil => exact visits_pure fun _ hle => hc.mono hle
  | cons r as ih =>
    obtain ⟨hr, has⟩ := List.forall_mem_cons.1 hf
    rw [List.foldlM_cons, List.map_cons, List.sum_cons]
    exact (hr c t (.refl _) hc).bind fun c' t' hle hc' =>
      ih (fun r hr c t'' hle' => has r hr c t'' (hle.trans hle')) hc'

theorem visits_foldlM_quiet {α : Type} {t : TypeTable} {scopes : Scopes}
    {f : Context → α → Check Context} (as : List α)
    (hf : ∀ r ∈ as, ∀ c t', t.Le t' → c.Sees t' a outer scopes →
      Visits a outer t' (f c r) 0 fun t' c' => c'.Sees t' a outer scopes) {c : Context}
    (hc : c.Sees t a outer scopes) :
    Visits a outer t (as.foldlM f c) 0 fun t' c' => c'.Sees t' a outer scopes := by
  simpa only [List.map_const', List.sum_replicate, nsmul_zero] using visits_foldlM as hf hc

/-! ### Written types -/

/-- What is visited next is a node, and was not visited before. -/
theorem mem_and_notMem_of_le {o : Occurrence} {done : Multiset Occurrence}
    (h : (o ::ₘ done).map Prod.snd ≤ a.nodes) : o.2 ∈ a.nodes ∧ o.2 ∉ done.map Prod.snd := by
  rw [Multiset.map_cons] at h
  have hnodup := Multiset.nodup_of_le h (Multiset.coe_nodup.2 a.nodup_nodes)
  exact ⟨Multiset.mem_coe.1 (Multiset.mem_of_le h (Multiset.mem_cons_self ..)),
    (Multiset.nodup_cons.1 hnodup).1⟩

theorem resolved?_recordRef_self {t : TypeTable} {r : TypeRefId} (h : r.index < t.refs.size)
    (ty : Ty) : (t.recordRef r ty).resolved? r = some ty := by
  simp [TypeTable.recordRef, TypeTable.resolved?, Array.getD_eq_getD_getElem?, h]

/-- What was on record stays if the written type is a new one. -/
theorem le_recordRef {t : TypeTable} {r : TypeRefId} (h : ¬(t.resolved? r).isSome) (ty : Ty) :
    t.Le (t.recordRef r ty) := by
  refine ⟨id, fun {r' ty'} hr' => ?_, id⟩
  have hne : r ≠ r' := by
    rintro rfl
    simp [hr'] at h
  have hindex : r.index ≠ r'.index := fun heq => hne (by cases r; cases r'; cases heq; rfl)
  simpa only [TypeTable.recordRef, TypeTable.resolved?, Array.getD_eq_getD_getElem?,
    Array.getElem?_setIfInBounds_ne hindex] using hr'

theorem isSome_resolved?_recordRef {t : TypeTable} {r r' : TypeRefId} {ty : Ty}
    (h : ((t.recordRef r ty).resolved? r').isSome) : r = r' ∨ (t.resolved? r').isSome := by
  by_cases hindex : r.index = r'.index
  · exact .inl (by cases r; cases r'; cases hindex; rfl)
  · simp only [TypeTable.recordRef, TypeTable.resolved?, Array.getD_eq_getD_getElem?,
      Array.getElem?_setIfInBounds_ne hindex] at h ⊢
    exact .inr h

section

variable {t : TypeTable} {scopes : Scopes} {c : Context}

/-- Records what a written type stands for, after its error if there is one. -/
theorem visits_recordRef {r : TypeRefId} {ty : Ty} {x : Check Unit}
    (htable : ∀ s, (x s).2.table = s.table)
    (hunknowns : ∀ s, (x s).2.unknowns =
      ((a.unknownType? outer (scopes, .typeRef r)).toList : Multiset _) + s.unknowns)
    (hty : ∀ t', t.Le t' → t'.resolved? r = some ty → t'.Resolves a outer scopes r) :
    Visits a outer t (do x; record (fun t => t.recordRef r ty); return ty) {(scopes, .typeRef r)}
      fun t' ty => t'.resolved? r = some ty := by
  intro s done ht hs hnodes
  rw [Multiset.singleton_add] at hnodes ⊢
  obtain ⟨hmem, hnew⟩ := mem_and_notMem_of_le hnodes
  have hsize : r.index < s.table.refs.size := hs.size ▸ Arena.mem_nodes_typeRef.1 hmem
  have hle : s.table.Le (s.table.recordRef r ty) :=
    le_recordRef (fun h => hnew (hs.resolved r h)) ty
  have hself := resolved?_recordRef_self hsize ty
  have hfinal : ((do x; record (fun t => t.recordRef r ty); return ty : Check Ty) s).2.table =
      s.table.recordRef r ty :=
    congrArg (fun t : TypeTable => t.recordRef r ty) (htable s)
  rw [hfinal]
  have hentries : (s.table.recordRef r ty).Catalogues a := hs.entries.of_types hle rfl rfl
  refine ⟨hs.cons (by rwa [hfinal]) ?_ ?_ (fun d hd => ?_) (fun r' hr' => ?_)
    (by rwa [hfinal]) (hunknowns s), hle, hself⟩
  · rw [hfinal]
    exact Array.size_setIfInBounds
  · rw [hfinal]
    exact hty _ (ht.trans hle) hself
  · rw [hfinal] at hd
    exact .inr hd
  · rw [hfinal] at hr'
    exact (isSome_resolved?_recordRef hr').imp_left (congrArg Node.typeRef)

/-- A written name is looked up in the context, and reported if it is unknown there. -/
theorem visits_named {part : TypeRefId → Check Ty} {r : TypeRefId} {n : Name}
    (hk : (a.typeRef r).kind = .named n) (hc : c.Sees t a outer scopes) :
    Visits a outer t (typeNode a c part r) {(scopes, .typeRef r)}
      fun t' ty => t'.resolved? r = some ty := by
  have hn := hc n
  have hsettled : ∀ t', t.Le t' → t'.resolved? r = some (.named ((c.type? n).getD .unknown)) →
      t'.Resolves a outer scopes r := by
    intro t' hle hr'
    rw [TypeTable.Resolves, hk]
    exact ⟨_, hn.mono hle, hr'⟩
  have herror : a.unknownType? outer (scopes, .typeRef r) =
      if c.type? n = none then some ⟨.unknownType n, (a.typeRef r).span⟩ else none := by
    simp only [Arena.unknownType?, hk, ← hn.eq_none_iff]
  simp only [typeNode, hk]
  cases hplace : c.type? n with
  | some place =>
    rw [hplace] at hsettled herror
    exact visits_recordRef (x := pure ()) (fun _ => rfl)
      (fun s => by rw [herror]; exact (zero_add _).symm) hsettled
  | none =>
    rw [hplace] at hsettled herror
    refine visits_recordRef (x := report (.unknownType n) (a.typeRef r).span) (fun _ => rfl)
      (fun s => ?_) hsettled
    rw [herror, if_pos rfl]
    change ((s.errors.push _).toList.filter _ : Multiset ResolveError) = _
    rw [Array.toList_push, List.filter_append, ← Multiset.coe_add, add_comm]
    rfl

/-- A written function type stands for that of what its parts stand for. -/
theorem visits_functionType {part : TypeRefId → Check Ty} {r result : TypeRefId}
    {params : List TypeRefId} (hk : (a.typeRef r).kind = .function params result)
    (hpart : ∀ q ∈ params ++ [result], ∀ t', t.Le t' →
      Visits a outer t' (part q) (a.occurrences scopes (.typeRef q))
        fun t' ty => t'.resolved? q = some ty) :
    Visits a outer t (typeNode a c part r)
      ((scopes, .typeRef r) ::ₘ a.written scopes (params.map .typeRef ++ [.typeRef result]))
      fun t' ty => t'.resolved? r = some ty := by
  obtain ⟨hparams, hresult⟩ := List.forall_mem_append.1 hpart
  -- the parts are visited first, and then the type itself
  have hnew : (scopes, .typeRef r) ::ₘ
      a.written scopes (params.map .typeRef ++ [.typeRef result]) =
        (params.map fun q => a.occurrences scopes (.typeRef q)).sum +
          (a.occurrences scopes (.typeRef result) + {(scopes, .typeRef r)}) := by
    rw [Arena.written_append, Arena.written_cons, Arena.written_nil, Arena.written_map,
      ← Multiset.singleton_add]
    abel
  simp only [typeNode, hk, hnew]
  refine (visits_mapM (Q := fun t' q ty => t'.resolved? q = some ty) params
    (fun _ _ _ _ hle => hle.refs) hparams).bind fun tys t₁ hle₁ htys => ?_
  refine (hresult result (List.mem_singleton_self _) t₁ hle₁).bind fun ty t₂ hle₂ hty => ?_
  refine visits_recordRef (x := pure ()) (fun _ => rfl) (fun s => ?_) fun t₃ hle₃ hr₃ => ?_
  · rw [Arena.unknownType?, hk]
    exact (zero_add _).symm
  · rw [TypeTable.Resolves, hk]
    exact ⟨tys, ty, htys.imp fun _ _ h => hle₃.refs (hle₂.refs h), hle₃.refs hty, hr₃⟩

variable (ha : a.Ranked)

include ha

theorem visits_typeWithin {depth : Nat} {r : TypeRefId} (hr : r.index < depth)
    (hc : c.Sees t a outer scopes) :
    Visits a outer t (typeWithin a c depth r) (a.occurrences scopes (.typeRef r))
      fun t' ty => t'.resolved? r = some ty := by
  induction depth generalizing r t with
  | zero => exact absurd hr (Nat.not_lt_zero _)
  | succ depth ih =>
    -- parts come before what they are parts of
    have hparts : ∀ q, .typeRef q ∈ a.children (.typeRef r) → q.index < depth := fun q hq =>
      Nat.lt_of_lt_of_le (ha _ _ hq) (Nat.le_of_lt_succ hr)
    rw [Arena.occurrences_eq ha, typeWithin]
    simp only [Arena.inside, Arena.children] at hparts ⊢
    cases hk : (a.typeRef r).kind with
    | named n =>
      rw [Code.TypeRefKind.children, Arena.written_nil]
      exact visits_named hk hc
    | function params result =>
      rw [hk, Code.TypeRefKind.children] at hparts
      refine visits_functionType hk fun q hq t' hle => ih (hparts q ?_) (hc.mono hle)
      simpa [List.mem_append] using hq

theorem visits_typeRef {r : TypeRefId} (hc : c.Sees t a outer scopes) :
    Visits a outer t (typeRef a c r) (a.occurrences scopes (.typeRef r))
      fun t' ty => t'.resolved? r = some ty := by
  intro s done ht hs hnodes
  -- what is visited is a node, so that its nesting is bounded
  have hmem : (scopes, .typeRef r) ∈ a.occurrences scopes (.typeRef r) + done :=
    Multiset.mem_add.2 (.inl (Arena.mem_occurrences_self ha _ _))
  have hr : r.index < a.typeRefs.size := Arena.mem_nodes_typeRef.1
    (Multiset.mem_coe.1 (Multiset.mem_of_le hnodes (Multiset.mem_map_of_mem Prod.snd hmem)))
  exact visits_typeWithin ha hr hc s done ht hs hnodes

theorem visits_typeRef? {r : Option TypeRefId} (hc : c.Sees t a outer scopes) :
    Visits a outer t (typeRef? a c r) (a.written scopes (r.toList.map .typeRef))
      fun _ _ => True := by
  cases r with
  | none => exact visits_skip
  | some r =>
    simp only [Option.toList_some, List.map_cons, List.map_nil, Arena.written_cons,
      Arena.written_nil, add_zero]
    exact (visits_typeRef ha hc).weaken fun _ _ _ => trivial

theorem visits_pattern {p : Code.Pattern} (hc : c.Sees t a outer scopes) :
    Visits a outer t (pattern a c p) (a.occurrences scopes (.typeRef p.typeRef))
      fun t' c' => c'.Sees t' a outer scopes := by
  refine (visits_typeRef ha hc).andQuiet fun ty t₁ hle₁ _ => ?_
  cases p.binding with
  | some n => exact visits_pure fun t₂ hle₂ => hc.mono (hle₁.trans hle₂)
  | none => exact visits_pure fun t₂ hle₂ => hc.mono (hle₁.trans hle₂)

end

end Resolve

end SignalLang
