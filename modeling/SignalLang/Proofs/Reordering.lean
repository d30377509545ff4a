import SignalLang.Proofs.CheckedInStep
import SignalLang.Proofs.SameTypes

/-!
# Steps in another order

Hoisting makes a step for every declaration of a scope, and a step only enters the names of its
declaration.  So the steps can be made in any order, as long as each of them does the same wherever
it is made.

* `Resolve.Enters ns c x` : behind the step `x`, there are some of the names `ns` in scope that were
  not there in `c`.
* `Resolve.foldl_clean` : **steps that report equally many errors in two orders report none in the
  second order if they report none in the first.**
* `Resolve.foldl_alike` : **names that differ stand for the same in whatever order they are
  entered.**
* `Resolve.foldl_rearranged` : both, for the steps of hoisting.
-/

namespace SignalLang

namespace Resolve

/-! ### Entering names -/

/-- All names of a scope are among some names. -/
structure Scope.Within (u : Scope) (ns : List Name) : Prop where
  types : ∀ x ∈ u.types, x.1 ∈ ns
  values : ∀ x ∈ u.values, x.1 ∈ ns
  declared : ∀ x ∈ u.declared, x.1 ∈ ns

/-- Behind a step, some of the names `ns` have been entered into the context `c`. -/
def Enters (ns : List Name) (c : Context) (x : Check Context) : Prop :=
  ∀ s, ∃ u : Scope, (x s).1 = c.enter u ∧ u.Within ns

section

variable {ns ms : List Name} {c : Context} {u v : Scope} {n : Name} {a : Arena}

theorem Scope.Within.mono (h : u.Within ns) (hsub : ∀ n ∈ ns, n ∈ ms) : u.Within ms :=
  ⟨fun x hx => hsub _ (h.types x hx), fun x hx => hsub _ (h.values x hx),
    fun x hx => hsub _ (h.declared x hx)⟩

theorem Scope.Within.append (hu : u.Within ns) (hv : v.Within ns) :
    Scope.Within ⟨v.types ++ u.types, v.values ++ u.values, v.declared ++ u.declared⟩ ns :=
  ⟨List.forall_mem_append.2 ⟨hv.types, hu.types⟩, List.forall_mem_append.2 ⟨hv.values, hu.values⟩,
    List.forall_mem_append.2 ⟨hv.declared, hu.declared⟩⟩

theorem enters_pure (hu : u.Within ns) : Enters ns c (pure (c.enter u)) := fun _ => ⟨u, rfl, hu⟩

theorem enters_same (c : Context) : Enters ns c (pure c) :=
  enters_pure (u := .empty) ⟨nofun, nofun, nofun⟩

theorem enters_addValue (c : Context) (info : ValueInfo) (hn : n ∈ ns) :
    Enters ns c (pure (c.addValue n info)) :=
  enters_pure (u := ⟨[], [(n, info)], []⟩) ⟨nofun, List.forall_mem_singleton.2 hn, nofun⟩

theorem Enters.bind {x : Check Context} {f : Context → Check Context} (hx : Enters ns c x)
    (hf : ∀ d, Enters ns d (f d)) : Enters ns c (x >>= f) := by
  intro s
  obtain ⟨u, heq, hu⟩ := hx s
  obtain ⟨v, heq', hv⟩ := hf (x s).1 (x s).2
  refine ⟨_, ?_, hu.append hv⟩
  change (f (x s).1 (x s).2).1 = _
  rw [heq', heq, Context.enter_enter]

/-- The first step is not about the context. -/
theorem enters_bind {x : Check α} {f : α → Check Context} (hf : ∀ r, Enters ns c (f r)) :
    Enters ns c (x >>= f) :=
  fun s => hf (x s).1 (x s).2

theorem Enters.mono {x : Check Context} (hx : Enters ns c x) (hsub : ∀ n ∈ ns, n ∈ ms) :
    Enters ms c x := by
  intro s
  obtain ⟨u, heq, hu⟩ := hx s
  exact ⟨u, heq, hu.mono hsub⟩

theorem enters_foldlM {α : Type} {f : Context → α → Check Context} (as : List α)
    (hf : ∀ x ∈ as, ∀ c, Enters ns c (f c x)) (c : Context) : Enters ns c (as.foldlM f c) := by
  induction as generalizing c with
  | nil => exact enters_same c
  | cons x as ih =>
    obtain ⟨hx, has⟩ := List.forall_mem_cons.1 hf
    rw [List.foldlM_cons]
    exact (hx c).bind fun d => ih has d

theorem enters_declare (c : Context) (span : Span) (hn : n ∈ ns) :
    Enters ns c (declare c n span) := by
  unfold declare
  split
  · exact enters_bind fun _ => enters_same c
  · exact enters_pure (u := ⟨[], [], [(n, span)]⟩)
      ⟨nofun, nofun, List.forall_mem_singleton.2 hn⟩

theorem enters_importDecl (imports : Imports) (interner : Interner) (c : Context) (d : DeclId) :
    Enters (a.decl d).kind.declared c (importDecl a imports interner c d) := by
  unfold importDecl
  cases hk : (a.decl d).kind with
  | imports path items =>
    refine enters_foldlM items (fun item hitem c => ?_) c
    have hn : item.localName ∈ (Code.DeclKind.imports path items).declared :=
      List.mem_map_of_mem hitem
    refine (enters_declare c item.span hn).bind fun e => ?_
    split
    · exact enters_addValue e _ hn
    · exact enters_bind fun _ => enters_addValue e _ hn
  | _ => exact enters_same c

theorem mem_declared_of_typeName? {kind : Code.DeclKind} (h : typeName? kind = some n) :
    n ∈ kind.declared := by
  cases kind <;> simp_all [typeName?, Code.DeclKind.declared, Code.DeclKind.name?]

theorem enters_placeType (c : Context) (d : DeclId) :
    Enters (a.decl d).kind.declared c (placeType a c d) := by
  simp only [placeType]
  split
  · rename_i n hn
    have hmem := mem_declared_of_typeName? hn
    refine (enters_declare c _ hmem).bind fun e => enters_bind fun s => enters_bind fun _ => ?_
    exact enters_pure (u := ⟨[(n, _)], [], []⟩) ⟨List.forall_mem_singleton.2 hmem, nofun, nofun⟩
  · exact enters_same c

theorem enters_defineType (c : Context) (d : DeclId) :
    Enters (a.decl d).kind.declared c (defineType a c d) := by
  refine enters_bind fun t => ?_
  split
  · exact enters_same c
  · cases hk : (a.decl d).kind with
    | object n fields =>
      exact enters_bind fun types => enters_bind fun _ =>
        enters_addValue c _ (List.mem_singleton_self n)
    | signal n fields result =>
      refine enters_bind fun types => ?_
      cases result with
      | some r =>
        exact enters_bind fun _ => enters_bind fun _ =>
          enters_addValue c _ (List.mem_singleton_self n)
      | none => exact enters_bind fun _ => enters_addValue c _ (List.mem_singleton_self n)
    | option n members => exact enters_bind fun _ => enters_bind fun _ => enters_same c
    | _ => exact enters_same c

theorem enters_functionDecl (c : Context) (d : DeclId) :
    Enters (a.decl d).kind.declared c (functionDecl a c d) := by
  unfold functionDecl
  dsimp only
  cases hk : (a.decl d).kind with
  | function n params result body =>
    have hn : n ∈ (Code.DeclKind.function n params result body).declared :=
      List.mem_singleton_self n
    refine (enters_declare c _ hn).bind fun e => ?_
    exact enters_bind fun _ => enters_bind fun _ => enters_bind fun _ => enters_addValue e _ hn
  | _ => exact enters_same c

end

/-! ### Single names -/

/-- In two contexts, one name stands for the same, up to the places that `R` relates. -/
structure Context.AlikeAt (R : TypeId → TypeId → Prop) (c c' : Context) (n : Name) : Prop where
  type : Option.Rel R (c.type? n) (c'.type? n)
  value : Option.Rel (ValueInfo.Alike R) (c.value? n) (c'.value? n)
  declared : c.current.declared.lookup n = c'.current.declared.lookup n

section

variable {R : TypeId → TypeId → Prop} {c c' d d' : Context} {n : Name} {u u' : Scope}
  {ns : List Name}

theorem Context.Alike.at (h : c.Alike R c') (n : Name) : c.AlikeAt R c' n :=
  ⟨h.types n, h.values n, h.declared n⟩

theorem Context.AlikeAt.enter (h : c.AlikeAt R c' n) (hu : u.Alike R u') :
    (c.enter u).AlikeAt R (c'.enter u') n where
  type := by
    rw [type?_enter, type?_enter]
    exact (rel_lookup hu.types n).or h.type
  value := by
    rw [value?_enter, value?_enter]
    exact (rel_lookup hu.values n).or h.value
  declared := by rw [declared_enter, declared_enter, hu.declared, h.declared]

theorem lookup_eq_none_of_notMem {α : Type} {xs : List (Name × α)} (hn : n ∉ ns)
    (hxs : ∀ x ∈ xs, x.1 ∈ ns) : xs.lookup n = none := by
  rw [List.lookup_eq_none_iff]
  intro x hx
  rw [bne_iff_ne]
  rintro rfl
  exact hn (hxs x hx)

/-- Other names do not matter. -/
theorem Context.AlikeAt.of_enter (h : c.AlikeAt R c' n) (hn : n ∉ ns) (hu : u.Within ns)
    (hu' : u'.Within ns) : (c.enter u).AlikeAt R (c'.enter u') n where
  type := by
    rw [type?_enter, type?_enter, lookup_eq_none_of_notMem hn hu.types,
      lookup_eq_none_of_notMem hn hu'.types]
    exact h.type
  value := by
    rw [value?_enter, value?_enter, lookup_eq_none_of_notMem hn hu.values,
      lookup_eq_none_of_notMem hn hu'.values]
    exact h.value
  declared := by
    rw [declared_enter, declared_enter, lookup_eq_none_of_notMem hn hu.declared,
      lookup_eq_none_of_notMem hn hu'.declared]
    exact h.declared

end

/-! ### Steps in two orders -/

section

variable {σ : Type} {F : σ → DeclId → σ} (size : σ → Nat) {ds ds' : List DeclId}

theorem size_le_foldl (hle : ∀ s d, size s ≤ size (F s d)) (ds : List DeclId) (s : σ) :
    size s ≤ size (ds.foldl F s) := by
  induction ds generalizing s with
  | nil => exact Nat.le_refl _
  | cons d ds ih => exact Nat.le_trans (hle s d) (ih _)

/-- **Steps that report equally many errors in two orders report none in the second order if they
report none in the first.** -/
theorem foldl_clean (hle : ∀ s d, size s ≤ size (F s d)) (hperm : ds.Perm ds') {s s' : σ}
    (hstep : ∀ d pre post pre' post', ds = pre ++ d :: post → ds' = pre' ++ d :: post' →
      size (F (pre.foldl F s) d) + size (pre'.foldl F s') =
        size (F (pre'.foldl F s') d) + size (pre.foldl F s))
    (hclean : size (ds.foldl F s) = size s) : size (ds'.foldl F s') = size s' := by
  have hquiet : ∀ d pre post, ds = pre ++ d :: post →
      size (F (pre.foldl F s) d) = size (pre.foldl F s) := by
    intro d pre post hds
    have hpre := size_le_foldl size hle pre s
    have hd := hle (pre.foldl F s) d
    have hpost := size_le_foldl size hle post (F (pre.foldl F s) d)
    rw [hds, List.foldl_append, List.foldl_cons] at hclean
    omega
  suffices h : ∀ pre' post', ds' = pre' ++ post' → size (pre'.foldl F s') = size s' from
    h ds' [] (List.append_nil _).symm
  intro pre'
  induction pre' using List.reverseRecOn with
  | nil => exact fun _ _ => rfl
  | append_singleton pre' d ih =>
    intro post' hds'
    rw [List.append_assoc, List.singleton_append] at hds'
    obtain ⟨pre, post, hds⟩ := List.append_of_mem
      (hperm.mem_iff.2 (hds' ▸ List.mem_append_right _ (List.mem_cons_self ..)) : d ∈ ds)
    have hd := hstep d pre post pre' post' hds hds'
    have hrest := ih _ hds'
    have hd' := hquiet d pre post hds
    rw [List.foldl_append, List.foldl_cons, List.foldl_nil]
    omega

end

section

variable {f : Context → DeclId → Check Context} {names : DeclId → List Name}
  {ds ds' : List DeclId}

/-- A step of resolution, with the context and the findings in one. -/
def stepping (f : Context → DeclId → Check Context) (p : Context × Findings) (d : DeclId) :
    Context × Findings :=
  f p.1 d p.2

theorem foldlM_eq_foldl (ds : List DeclId) (c : Context) (s : Findings) :
    ds.foldlM f c s = ds.foldl (stepping f) (c, s) := by
  induction ds generalizing c s with
  | nil => rfl
  | cons d ds ih =>
    rw [List.foldlM_cons, List.foldl_cons]
    exact ih _ _

theorem exists_enter_foldl (henters : ∀ c d, Enters (names d) c (f c d)) (ds : List DeclId)
    (p : Context × Findings) :
    ∃ u, (ds.foldl (stepping f) p).1 = p.1.enter u ∧ Scope.Within u (ds.flatMap names) := by
  have h := enters_foldlM ds (fun d hd c => (henters c d).mono fun n hn =>
    List.mem_flatMap.2 ⟨d, hd, hn⟩) p.1 p.2
  rwa [foldlM_eq_foldl] at h

/-- Steps for other names leave a name alone. -/
theorem alikeAt_foldl (henters : ∀ c d, Enters (names d) c (f c d)) {p p' : Context × Findings}
    {R : TypeId → TypeId → Prop} {n : Name} (hn : n ∉ ds.flatMap names)
    (hn' : n ∉ ds'.flatMap names) (hp : p.1.AlikeAt R p'.1 n) :
    (ds.foldl (stepping f) p).1.AlikeAt R (ds'.foldl (stepping f) p').1 n := by
  obtain ⟨u, heq, hu⟩ := exists_enter_foldl henters ds p
  obtain ⟨u', heq', hu'⟩ := exists_enter_foldl henters ds' p'
  have hmem : n ∉ ds.flatMap names ++ ds'.flatMap names := fun h =>
    (List.mem_append.1 h).elim hn hn'
  rw [heq, heq']
  exact hp.of_enter hmem (hu.mono fun _ => List.mem_append_left _)
    (hu'.mono fun _ => List.mem_append_right _)

/-- The names of one declaration are not among those of the others. -/
theorem notMem_flatMap_of_nodup {pre post : List DeclId} {d : DeclId}
    (h : ((pre ++ d :: post).flatMap names).Nodup) {n : Name} (hn : n ∈ names d) :
    n ∉ pre.flatMap names ∧ n ∉ post.flatMap names := by
  rw [List.flatMap_append, List.flatMap_cons, List.nodup_append, List.nodup_append] at h
  exact ⟨fun hpre => h.2.2 n hpre n (List.mem_append_left _ hn) rfl,
    fun hpost => h.2.1.2.2 n hn n hpost rfl⟩

/-- Before the step for a declaration, its names stand for what they stood for at first. -/
theorem alikeAt_before (henters : ∀ c d, Enters (names d) c (f c d)) {p p' : Context × Findings}
    {R : TypeId → TypeId → Prop} (hp : p.1.Alike R p'.1) {d : DeclId}
    {pre post pre' post' : List DeclId} (h : ((pre ++ d :: post).flatMap names).Nodup)
    (h' : ((pre' ++ d :: post').flatMap names).Nodup) {n : Name} (hn : n ∈ names d) :
    (pre.foldl (stepping f) p).1.AlikeAt R (pre'.foldl (stepping f) p').1 n :=
  alikeAt_foldl henters (notMem_flatMap_of_nodup h hn).1 (notMem_flatMap_of_nodup h' hn).1 (hp.at n)

/-- **Names that differ stand for the same in whatever order they are entered.** -/
theorem foldl_alike (henters : ∀ c d, Enters (names d) c (f c d)) (hperm : ds.Perm ds')
    (hnodup : (ds.flatMap names).Nodup) {p p' : Context × Findings} {R : TypeId → TypeId → Prop}
    (hp : p.1.Alike R p'.1)
    (hstep : ∀ d pre post pre' post', ds = pre ++ d :: post → ds' = pre' ++ d :: post' →
      ∀ n ∈ names d, (stepping f (pre.foldl (stepping f) p) d).1.AlikeAt R
        (stepping f (pre'.foldl (stepping f) p') d).1 n) :
    (ds.foldl (stepping f) p).1.Alike R (ds'.foldl (stepping f) p').1 := by
  have hperm' := hperm.flatMap_right names
  have hnodup' := hperm'.nodup_iff.1 hnodup
  have hat : ∀ n, (ds.foldl (stepping f) p).1.AlikeAt R (ds'.foldl (stepping f) p').1 n := by
    intro n
    by_cases hn : n ∈ ds.flatMap names
    · obtain ⟨d, hd, hnd⟩ := List.mem_flatMap.1 hn
      obtain ⟨pre, post, hds⟩ := List.append_of_mem hd
      obtain ⟨pre', post', hds'⟩ := List.append_of_mem (hperm.mem_iff.1 hd)
      have hbehind := hstep d pre post pre' post' hds hds' n hnd
      rw [hds] at hnodup
      rw [hds'] at hnodup'
      rw [hds, hds', List.foldl_append, List.foldl_append, List.foldl_cons, List.foldl_cons]
      exact alikeAt_foldl henters (notMem_flatMap_of_nodup hnodup hnd).2
        (notMem_flatMap_of_nodup hnodup' hnd).2 hbehind
    · exact alikeAt_foldl henters hn (fun h => hn (hperm'.mem_iff.2 h)) (hp.at n)
  obtain ⟨u, heq, -⟩ := exists_enter_foldl henters ds p
  obtain ⟨u', heq', -⟩ := exists_enter_foldl henters ds' p'
  refine ⟨fun n => (hat n).type, fun n => (hat n).value, fun n => (hat n).declared, ?_, ?_⟩
  · rw [heq, heq']
    exact hp.inLoop
  · rw [heq, heq']
    exact hp.inFunction

end

/-! ### Steps between others -/

/-- What is known around one of several steps: `s` and `e` are the findings before and behind all of
them, `r` and `r₁` those before and behind the one. -/
structure Between (a : Arena) (s r r₁ e : Findings) : Prop where
  before : r.Orderly a
  behind : r₁.Orderly a
  le : s.table.Le r.table
  step : r.table.Le r₁.table
  rest : r₁.table.Le e.table

section

variable {a : Arena} {outer : Name → Option TypeId} {f : Context → DeclId → Check Context}
  {names : DeclId → List Name} {ds ds' : List DeclId} {p p' : Context × Findings}

/-- The steps of hoisting can be made in any order, as long as each of them does the same wherever
it is made. -/
theorem foldl_rearranged (henters : ∀ c d, Enters (names d) c (f c d))
    (herrors : ∀ c d s, s.errors.size ≤ (f c d s).2.errors.size) (hperm : ds.Perm ds')
    (hnodup : (ds.flatMap names).Nodup) (hp : p.1.Alike (p.2.table.Same p'.2.table) p'.1)
    (hrun : ∀ d pre post, ds = pre ++ d :: post →
      Between a p.2 (pre.foldl (stepping f) p).2 (stepping f (pre.foldl (stepping f) p) d).2
        (ds.foldl (stepping f) p).2)
    (hrun' : ∀ d pre post, ds' = pre ++ d :: post →
      Between a p'.2 (pre.foldl (stepping f) p').2 (stepping f (pre.foldl (stepping f) p') d).2
        (ds'.foldl (stepping f) p').2)
    (hstep : ∀ d pre post pre' post', ds = pre ++ d :: post → ds' = pre' ++ d :: post' →
      let r := pre.foldl (stepping f) p
      let r' := pre'.foldl (stepping f) p'
      (∀ n ∈ names d, r.1.current.declared.lookup n = r'.1.current.declared.lookup n) →
        InStep a (.now r.2.table r'.2.table) (f r.1 d) (f r'.1 d) (Entered r.1 r'.1))
    (hclean : (ds.foldl (stepping f) p).2.errors.size = p.2.errors.size) :
    (ds'.foldl (stepping f) p').2.errors.size = p'.2.errors.size ∧
      (ds.foldl (stepping f) p).1.Alike
        ((ds.foldl (stepping f) p).2.table.Same (ds'.foldl (stepping f) p').2.table)
        (ds'.foldl (stepping f) p').1 := by
  have hnodup' := (hperm.flatMap_right names).nodup_iff.1 hnodup
  have hbefore : ∀ d pre post pre' post', ds = pre ++ d :: post → ds' = pre' ++ d :: post' →
      ∀ n ∈ names d, (pre.foldl (stepping f) p).1.AlikeAt (p.2.table.Same p'.2.table)
        (pre'.foldl (stepping f) p').1 n := fun d pre post pre' post' hds hds' n hn =>
    alikeAt_before henters hp (hds ▸ hnodup) (hds' ▸ hnodup') hn
  have hnow := fun d pre post pre' post' hds hds' =>
    (hstep d pre post pre' post' hds hds' fun n hn =>
      (hbefore d pre post pre' post' hds hds' n hn).declared).now (hrun d pre post hds).before
        (hrun' d pre' post' hds').before (hrun d pre post hds).behind.entries
        (hrun' d pre' post' hds').behind.entries
  have hle : ∀ d pre post pre' post', ds = pre ++ d :: post → ds' = pre' ++ d :: post' →
      ∀ b b', p.2.table.Same p'.2.table b b' →
        (ds.foldl (stepping f) p).2.table.Same (ds'.foldl (stepping f) p').2.table b b' := by
    intro d pre post pre' post' hds hds' b b' hb
    have h := hrun d pre post hds
    have h' := hrun' d pre' post' hds'
    exact hb.mono ((h.le.trans h.step).trans h.rest) ((h'.le.trans h'.step).trans h'.rest)
  refine ⟨?_, ?_⟩
  · exact foldl_clean (fun q : Context × Findings => q.2.errors.size)
      (fun q d => herrors q.1 d q.2) hperm
      (fun d pre post pre' post' hds hds' => (hnow d pre post pre' post' hds hds').1) hclean
  · cases ds with
    | nil =>
      rw [List.nil_perm.1 hperm]
      exact hp
    | cons d ds =>
      obtain ⟨pre', post', hds'⟩ := List.append_of_mem (hperm.mem_iff.1 (List.mem_cons_self ..))
      have hp' := hp.mono (hle d [] ds pre' post' rfl hds')
      refine foldl_alike henters hperm hnodup hp' fun d pre post pre' post' hds hds' n hn => ?_
      obtain ⟨-, π, hsame, u, u', heq, heq', hu⟩ := hnow d pre post pre' post' hds hds'
      have hu' := hu.mono fun b b' hb => (hsame b b' hb).mono (hrun d pre post hds).rest
        (hrun' d pre' post' hds').rest
      have hbefore' := alikeAt_before henters hp' (hds ▸ hnodup) (hds' ▸ hnodup') hn
      have henter := hbefore'.enter hu'
      rwa [← heq, ← heq'] at henter

end

end Resolve

end SignalLang
