import SignalLang.Proofs.CheckedInStep
import SignalLang.Proofs.Passes

/-!
# Rearranged modules

The declarations of a module may stand in any order, as long as the `let`s keep theirs.  If
resolution finds no error in the one order, it finds none in the other.

* `Resolve.Matched p p'` : the states `p` and `p'` of two resolutions are without errors, and names
  stand for the same in them.
* `Module.IsForest.matched_checked` : after each pass, the states of the two resolutions match.
* `Module.IsForest.resolve_rearranged` : **a rearranged module is without errors, too.**
-/

namespace SignalLang

open Code (Node Scopes Occurrence)

namespace Resolve

/-! ### States that match -/

/-- Two states of resolution without errors, in which names stand for the same. -/
structure Matched (p p' : Context × Findings) : Prop where
  errors : p.2.errors.size = 0
  errors' : p'.2.errors.size = 0
  alike : p.1.Alike (p.2.table.Same p'.2.table) p'.1

section

variable {a : Arena} {outer : Name → Option TypeId} {f : Context → DeclId → Check Context}
  {names : DeclId → List Name} {ds ds' : List DeclId} {p p' : Context × Findings}
  {scopes scopes' : List DeclId → Scopes} {new new' : DeclId → Multiset Occurrence}
  {done done' : Multiset Occurrence}

/-- States that match do so behind a pass, too, if every step does the same wherever it is made. -/
theorem Matched.foldl (h : Matched p p') (hpass : Pass a outer f scopes new ds done p)
    (hpass' : Pass a outer f scopes' new' ds' done' p')
    (henters : ∀ c d, Enters (names d) c (f c d))
    (herrors : ∀ c d s, s.errors.size ≤ (f c d s).2.errors.size) (hperm : ds.Perm ds')
    (hnodup : (ds.flatMap names).Nodup)
    (hstep : ∀ d pre post pre' post', ds = pre ++ d :: post → ds' = pre' ++ d :: post' →
      let r := pre.foldl (stepping f) p
      let r' := pre'.foldl (stepping f) p'
      Along a outer (scopes pre) ((pre.map new).sum + done) p.2 r →
      Along a outer (scopes' pre') ((pre'.map new').sum + done') p'.2 r' →
      (∀ n ∈ names d, r.1.current.declared.lookup n = r'.1.current.declared.lookup n) →
        InStep a (.now r.2.table r'.2.table) (f r.1 d) (f r'.1 d) (Entered r.1 r'.1))
    (hclean : (ds.foldl (stepping f) p).2.errors.size = 0) :
    Matched (ds.foldl (stepping f) p) (ds'.foldl (stepping f) p') := by
  obtain ⟨herrors', halike⟩ := foldl_rearranged henters herrors hperm hnodup h.alike hpass.between
    hpass'.between (fun d pre post pre' post' hds hds' =>
      hstep d pre post pre' post' hds hds' (hpass.along hds) (hpass'.along hds'))
    (hclean.trans h.errors.symm)
  exact ⟨hclean, herrors'.trans h.errors', halike⟩

/-- No step loses an error. -/
theorem errors_le_foldl (herrors : ∀ c d s, s.errors.size ≤ (f c d s).2.errors.size)
    (ds : List DeclId) (p : Context × Findings) :
    p.2.errors.size ≤ (ds.foldl (stepping f) p).2.errors.size :=
  size_le_foldl (fun q : Context × Findings => q.2.errors.size) (fun q d => herrors q.1 d q.2) ds p

end

/-- Steps that leave a faithful table with the types in scope do so one after the other. -/
theorem faithful_foldl {a : Arena} {base : TypeTable} {f : Context → DeclId → Check Context}
    (hf : ∀ c d n, c.Known n → Fills (·.Faithful a base []) n (f c d) (·.Faithful a base [])
      fun n' c' => c'.Known n') (ds : List DeclId) {p : Context × Findings}
    (htable : p.2.table.Faithful a base []) (hp : p.1.Known p.2.table.size) :
    (ds.foldl (stepping f) p).2.table.Faithful a base [] ∧
      (ds.foldl (stepping f) p).1.Known (ds.foldl (stepping f) p).2.table.size := by
  have h := fills_foldlM ds hf hp p.2 (Nat.le_refl _) htable
  rw [foldlM_eq_foldl] at h
  exact ⟨h.1, h.2.2⟩

/-! ### Errors -/

section

variable (a : Arena) (c : Context) (d : DeclId) (s : Findings)

theorem errors_le_importDecl (imports : Imports) (interner : Interner) :
    s.errors.size ≤ (importDecl a imports interner c d s).2.errors.size :=
  (checks_importDecl imports interner c d s).1.errors

theorem errors_le_placeType : s.errors.size ≤ (placeType a c d s).2.errors.size :=
  (checks_placeType c d s).1.errors

theorem errors_le_defineType : s.errors.size ≤ (defineType a c d s).2.errors.size := by
  cases hd : s.table.declType? d with
  | none => rw [defineType_of_declType? hd]
  | some id => exact (checksAt_defineType c d fun _ _ => hd ▸ rfl).1.errors

theorem errors_le_functionDecl : s.errors.size ≤ (functionDecl a c d s).2.errors.size :=
  (checks_functionDecl c d s).1.errors

theorem errors_le_letStep (g : Setting) (depth : Nat) :
    s.errors.size ≤ (letStep g (expr g depth) c d s).2.errors.size :=
  (checks_item (checks_expr g depth) .afterScope c (.decl d) s).1.errors

theorem errors_le_bodyStep (g : Setting) (depth : Nat) :
    s.errors.size ≤ (bodyStep g (expr g depth) c d s).2.errors.size :=
  (checks_declaredBody (checks_expr g depth) c (.decl d) s).1.errors

end

/-! ### `let`s and bodies -/

section

variable {g : Setting} {check : Checker} {π : Pairing} {c c' : Context}

theorem ChecksInStep.letStep (hcheck : ChecksInStep g check) (hw : π.Whole)
    (hc : c.Alike π.places c') (d : DeclId) :
    InStep g.arena π (letStep g check c d) (letStep g check c' d) (Entered c c') := by
  refine (hcheck.item .afterScope hw hc (.decl d) nofun).bind fun r r' π₁ _ h => ?_
  exact inStep_pure h.1

theorem ChecksInStep.lets (hcheck : ChecksInStep g check) (hw : π.Whole)
    (hc : c.Alike π.places c') (ds : List DeclId) :
    InStep g.arena π (ds.foldlM (Resolve.letStep g check) c)
      (ds.foldlM (Resolve.letStep g check) c') fun π₁ e e' => e.Alike π₁.places e' := by
  refine (inStep_foldlM (C := fun π₁ c c' => π₁.Whole ∧ c.Alike π₁.places c')
    (P := fun _ _ => True) ds (fun _ h => h) (fun d _ c c' π₁ _ ⟨hw, hc⟩ => ?_) ⟨hw, hc⟩).weaken
      fun _ _ _ _ h => h.1.2
  exact (hcheck.letStep hw hc d).weaken fun _ _ _ hle h =>
    ⟨⟨hw.mono hle, h.alike (hc.mono hle.places)⟩, trivial⟩

theorem ChecksInStep.bodyStep (hcheck : ChecksInStep g check) (hw : π.Whole)
    (hc : c.Alike π.places c') {d : DeclId} (hd : π.Signed g.arena d) :
    InStep g.arena π (bodyStep g check c d) (bodyStep g check c' d) (Entered c c') := by
  refine (hcheck.declaredBody hw hc (.decl d) fun _ h => ?_).andThen
    fun _ _ _ _ => inStep_pure (.refl c c')
  cases h
  exact hd

theorem enters_bodyStep (g : Setting) (check : Checker) (c : Context) (d : DeclId) :
    Enters [] c (Resolve.bodyStep g check c d) :=
  enters_bind fun _ => enters_same c

/-- The bodies of functions enter nothing. -/
theorem context_foldl_bodyStep (g : Setting) (check : Checker) (ds : List DeclId)
    (p : Context × Findings) : (ds.foldl (stepping (Resolve.bodyStep g check)) p).1 = p.1 := by
  induction ds generalizing p with
  | nil => rfl
  | cons d ds ih => exact ih _

/-- Only the `let`s matter before the bodies of functions are checked. -/
theorem foldl_letStep (g : Setting) (check : Checker) (ds : List DeclId) (p : Context × Findings) :
    ds.foldl (stepping (Resolve.letStep g check)) p =
      (ds.filter fun d => !(g.arena.decl d).kind.hoisted).foldl
        (stepping (Resolve.letStep g check)) p := by
  induction ds generalizing p with
  | nil => rfl
  | cons d ds ih =>
    rw [List.foldl_cons, ih, List.filter_cons]
    split
    · rfl
    · rename_i hd
      have hhoisted : (g.arena.decl d).kind.hoisted := by simpa using hd
      rw [stepping, letStep_of_hoisted g check hhoisted]
      rfl

end

/-- The hoisted declarations of an accepted scope declare different names. -/
theorem AcceptsScope.nodup_declared {k : Known} {R : Context → ExprId → Prop} {order : BodyOrder}
    {c : Context} {is : List Item} (h : AcceptsScope k R order c.nested is) :
    ((hoistedDecls k.arena is).flatMap fun d => (k.arena.decl d).kind.declared).Nodup := by
  obtain ⟨hoists, -, -⟩ := h
  exact hoists.adds.nodup_of_empty rfl

end Resolve

namespace Module

open Resolve

section

variable {m : Module} {ds : List DeclId} {imports : Imports} {interner : Interner}

theorem hoisted_perm (hperm : m.decls.Perm ds) : m.hoisted.Perm (m.rearranged ds).hoisted :=
  hperm.filter _

variable (hm : m.IsForest) (hperm : m.decls.Perm ds)
  (hclean : (m.checked imports interner).2.errors.size = 0)

include hclean

theorem errors_bound : (m.bound imports interner).2.errors.size = 0 :=
  Nat.le_zero.1 (hclean ▸ errors_le_foldl (fun c d s => errors_le_bodyStep c d s _ _) _ _)

theorem errors_signed : (m.signed imports interner).2.errors.size = 0 :=
  Nat.le_zero.1 (errors_bound hclean ▸
    errors_le_foldl (fun c d s => errors_le_letStep c d s _ _) _ _)

theorem errors_defined : (m.defined imports interner).2.errors.size = 0 :=
  Nat.le_zero.1 (errors_signed hclean ▸ errors_le_foldl (errors_le_functionDecl _) _ _)

theorem errors_placed : (m.placed imports interner).2.errors.size = 0 :=
  Nat.le_zero.1 (errors_defined hclean ▸ errors_le_foldl (errors_le_defineType _) _ _)

theorem errors_imported : (m.imported imports interner).2.errors.size = 0 :=
  Nat.le_zero.1 (errors_placed hclean ▸ errors_le_foldl (errors_le_placeType _) _ _)

theorem resolve_of_clean : m.resolve imports interner =
    ((m.checked imports interner).2.table, [], (internNames interner imports.prelude).2) := by
  rw [m.resolve_eq, Array.toList_eq_nil_iff.2 (Array.size_eq_zero_iff.1 hclean)]

include hm

/-- The hoisted declarations of a module without errors declare different names. -/
theorem IsForest.nodup_declared :
    (m.hoisted.flatMap fun d => (m.arena.decl d).kind.declared).Nodup := by
  have haccepted := accepted_of_resolve hm.numbered (resolve_of_clean hclean)
  rw [m.context_eq_nested] at haccepted
  have hnodup := haccepted.nodup_declared
  rwa [hoistedDecls_map_decl] at hnodup

/-- So the types that it declares have different names. -/
theorem IsForest.typeNamesDiffer : m.arena.TypeNamesDiffer m.decls := by
  have hpairwise := (List.nodup_flatMap.1 (hm.nodup_declared hclean)).2
  rw [hoisted, List.pairwise_filter] at hpairwise
  refine hpairwise.imp fun {d d'} h n hn hn' => ?_
  have hhoisted : ∀ {d}, typeName? (m.arena.decl d).kind = some n →
      (m.arena.decl d).kind.hoisted := fun {d} hd => by
    cases hk : (m.arena.decl d).kind <;> simp_all [typeName?, Code.DeclKind.hoisted]
  exact h (hhoisted hn) (hhoisted hn') (mem_declared_of_typeName? hn)
    (mem_declared_of_typeName? hn')

end

/-! ### Hoisted declarations -/

section

variable {m : Module} {ds : List DeclId} {imports : Imports} {interner : Interner}
  (hm : m.IsForest) (himports : imports.FromLibrary) (hperm : m.decls.Perm ds)
  (hclean : (m.checked imports interner).2.errors.size = 0)

/-- Around a module, values have builtin types. -/
theorem alike_of_value?_outerContext (himports : imports.FromLibrary) {R : TypeId → TypeId → Prop}
    (hR : ∀ id : TypeId, id.index ≤ TypeId.unknown.index → R id id) {n : Name} {info : ValueInfo}
    (h : (m.outerContext imports interner).value? n = some info) : info.Alike R info := by
  have hnamed : ∀ id : TypeId, id.index ≤ TypeId.unknown.index →
      (Ty.named id).Alike R (.named id) := fun id hid => .named (hR id hid)
  obtain ⟨scope, hscope, hlookup⟩ := List.exists_of_findSome?_eq_some h
  obtain rfl := List.mem_singleton.1 hscope
  obtain ⟨pre, post, hvalues, -⟩ := List.lookup_eq_some_iff.1 hlookup
  have hmem : (n, info) ∈ (builtinScope (.builtin interner m.arena.typeRefs.size)
      (internNames interner imports.prelude).1).values := hvalues ▸ by simp
  rcases List.mem_append.1 hmem with hmem | hmem
  · obtain ⟨x, hx, heq⟩ := List.mem_map.1 hmem
    obtain ⟨-, rfl⟩ := Prod.mk.inj heq
    obtain ⟨s, hs, -⟩ := exists_of_mem_internNames (List.mem_reverse.1 hx)
    obtain ⟨f, hf⟩ := himports.prelude _ hs
    exact ⟨rfl, .some (hf ▸ f.alike_signature hR)⟩
  · have hconstructor : ∀ id param : TypeId, id.index ≤ TypeId.unknown.index →
        param.index ≤ TypeId.unknown.index →
          (Ty.function [.named param] (.named id)).Alike R (.function [.named param] (.named id)) :=
      fun id param hid hparam => Ty.alike_function.2 ⟨.cons (hnamed _ hparam) .nil, hnamed _ hid⟩
    simp only [List.mem_cons, List.not_mem_nil, or_false] at hmem
    rcases hmem with h | h | h | h <;> obtain ⟨-, rfl⟩ := Prod.mk.inj h
    · exact ⟨rfl, .some (hconstructor .assumptionBroken .string (by decide) (by decide))⟩
    · exact ⟨rfl, .some (hconstructor .debug .anything (by decide) (by decide))⟩
    · exact ⟨rfl, .some (hnamed _ (by decide))⟩
    · exact ⟨rfl, .some (hnamed _ (by decide))⟩

/-- Nothing has been entered yet. -/
theorem matched_start (himports : imports.FromLibrary) :
    Matched (m.start imports interner) ((m.rearranged ds).start imports interner) := by
  have hself : ∀ {α : Type} {R : α → α → Prop} {x : Option α}, (∀ y, x = some y → R y y) →
      Option.Rel R x x := fun {α R x} h => by
    cases x with
    | none => exact .none
    | some y => exact .some (h y rfl)
  refine ⟨rfl, rfl, fun n => hself fun id hid => ?_, fun n => hself fun info hinfo => ?_,
    fun _ => rfl, rfl, rfl⟩
  · rw [start, m.context_eq_nested, Context.type?_nested] at hid
    exact TypeTable.same_of_builtin (index_outerContext hid)
  · rw [start, m.context_eq_nested, Context.value?_nested] at hinfo
    exact alike_of_value?_outerContext himports (fun _ => TypeTable.same_of_builtin) hinfo

include hm hperm hclean

include himports in
theorem matched_imported :
    Matched (m.imported imports interner) ((m.rearranged ds).imported imports interner) :=
  (matched_start himports).foldl (m.importing imports interner)
    ((m.rearranged ds).importing imports interner) (enters_importDecl imports _)
    (fun c d s => errors_le_importDecl m.arena c d s imports _) (hoisted_perm hperm)
    (hm.nodup_declared hclean)
    (fun d _ _ _ _ _ _ _ _ hn => inStep_importDecl himports _ d hn) (errors_imported hclean)

include himports in
theorem matched_placed :
    Matched (m.placed imports interner) ((m.rearranged ds).placed imports interner) :=
  (matched_imported hm himports hperm hclean).foldl (hm.placing imports interner)
    ((hm.rearranged hperm).placing imports interner) enters_placeType
    (errors_le_placeType m.arena) (hoisted_perm hperm) (hm.nodup_declared hclean)
    (fun d _ _ _ _ _ _ _ _ hn => (inStep_placeType d hn).weaken fun _ _ _ _ h => h.1)
    (errors_placed hclean)

omit hm hclean in
/-- In both modules, names denote the same types. -/
theorem sees_alike (hnames : m.arena.TypeNamesDiffer m.decls) {c c' : Context} {t t' : TypeTable}
    (hc : c.Sees t m.arena (m.outerContext imports interner).type? [m.decls])
    (hc' : c'.Sees t' m.arena ((m.rearranged ds).outerContext imports interner).type? [ds])
    (n : Name) : Option.Rel (t.Same t') (c.type? n) (c'.type? n) :=
  (hc n).alike (hc' n) (Arena.declaredIn?_perm hnames hperm [] n) fun _ => index_outerContext

include himports

theorem matched_defined :
    Matched (m.defined imports interner) ((m.rearranged ds).defined imports interner) := by
  have hm' := hm.rearranged hperm
  have hplaced := hm.along_placed imports interner
  have hplaced' := hm'.along_placed imports interner
  refine (matched_placed hm himports hperm hclean).foldl (hm.defining imports interner)
    (hm'.defining imports interner) enters_defineType (errors_le_defineType m.arena)
    (hoisted_perm hperm) (hm.nodup_declared hclean) (fun d pre post pre' post' hds hds' => ?_)
    (errors_defined hclean)
  intro r r' hr hr' hn
  cases htype : typeName? (m.arena.decl d).kind with
  | none =>
    rw [defineType_of_typeName? htype, defineType_of_typeName? htype]
    exact inStep_pure (.refl _ _)
  | some x =>
    refine inStep_defineType d (sees_alike hperm (hm.typeNamesDiffer hclean) hr.sees hr'.sees) ?_
    have hd := hr.le.isSome_declType? (hm.isSome_declType?_placed imports interner
      (hds ▸ by simp : d ∈ m.hoisted) (htype ▸ rfl))
    have hd' := hr'.le.isSome_declType? (hm'.isSome_declType?_placed imports interner
      (hds' ▸ by simp : d ∈ (m.rearranged ds).hoisted) (htype ▸ rfl))
    obtain ⟨id, hid⟩ := Option.isSome_iff_exists.1 hd
    obtain ⟨id', hid'⟩ := Option.isSome_iff_exists.1 hd'
    change Option.Rel _ (r.2.table.declType? d) (r'.2.table.declType? d)
    rw [hid, hid']
    exact .some (.inr ⟨d, hid, hid'⟩)

theorem matched_signed :
    Matched (m.signed imports interner) ((m.rearranged ds).signed imports interner) :=
  (matched_defined hm himports hperm hclean).foldl (hm.signing imports interner)
    ((hm.rearranged hperm).signing imports interner) enters_functionDecl
    (errors_le_functionDecl m.arena) (hoisted_perm hperm) (hm.nodup_declared hclean)
    (fun d _ _ _ _ _ _ hr hr' hn => (inStep_functionDecl d hn
      (sees_alike hperm (hm.typeNamesDiffer hclean) hr.sees hr'.sees)).weaken
        fun _ _ _ _ h => h.1)
    (errors_signed hclean)

end

/-! ### Types behind hoisting -/

section

variable (m : Module) (imports : Imports) (interner : Interner)

/-- Findings of the resolution of a module behind hoisting, with nothing left to define. -/
structure IsStage (s : Findings) : Prop where
  orderly : s.Orderly m.arena
  faithful : s.table.Faithful m.arena (.builtin interner m.arena.typeRefs.size) []
  le : s.table.Le (m.checked imports interner).2.table

end

section

variable {m : Module} {ds : List DeclId} (imports : Imports) (interner : Interner)
  (hm : m.IsForest)

include hm

/-- Behind hoisting, nothing is left to define. -/
theorem IsForest.filled_signed :
    (m.signed imports interner).2.table.Faithful m.arena
      (.builtin interner m.arena.typeRefs.size) [] ∧
    (m.signed imports interner).1.Known (m.signed imports interner).2.table.size := by
  have hbase : TypeId.unknown.index < (TypeTable.builtin interner m.arena.typeRefs.size).size := by
    rw [TypeTable.size_builtin]
    decide
  have hnodup : m.hoisted.Nodup := hm.owes.nodup_top.filter _
  have hhoist := fills_hoist hbase imports (m.setting imports interner).interner
    (m.known_context imports interner) hnodup (m.start imports interner).2 (Nat.le_refl _)
    (TypeTable.faithful_builtin interner m.arena.typeRefs.size m.arena)
  rw [hoist_eq_foldl] at hhoist
  exact ⟨hhoist.1, hhoist.2.2⟩

theorem IsForest.fillsAll_checker : FillsAll (m.setting imports interner)
    (.builtin interner m.arena.typeRefs.size) (m.checker imports interner) :=
  fillsAll_expr (by rw [TypeTable.size_builtin]; decide) hm.owes.nodup_decls _

/-- It stays so behind the `let`s. -/
theorem IsForest.filled_bound :
    (m.bound imports interner).2.table.Faithful m.arena
      (.builtin interner m.arena.typeRefs.size) [] ∧
    (m.bound imports interner).1.Known (m.bound imports interner).2.table.size := by
  have hcheck : FillsAll (m.setting imports interner) _ (m.checker imports interner) :=
    hm.fillsAll_checker imports interner
  obtain ⟨hfaithful, hknown⟩ := hm.filled_signed imports interner
  refine faithful_foldl (fun c d n hc => ?_) m.decls hfaithful hknown
  exact (hcheck.item (by rw [TypeTable.size_builtin]; decide) .afterScope hc (.decl d)).bind
    fun r n' _ hr => fills_pure fun n'' hle => hr.mono hle

/-- It stays so as bodies are checked. -/
theorem IsForest.filled_bodies (pre : List DeclId) :
    (pre.foldl (stepping (bodyStep (m.setting imports interner) (m.checker imports interner)))
      (m.bound imports interner)).2.table.Faithful m.arena
        (.builtin interner m.arena.typeRefs.size) [] := by
  have hcheck : FillsAll (m.setting imports interner) _ (m.checker imports interner) :=
    hm.fillsAll_checker imports interner
  obtain ⟨hfaithful, hknown⟩ := hm.filled_bound imports interner
  refine (faithful_foldl (fun c d n hc => ?_) pre hfaithful hknown).1
  exact (hcheck.declaredBody hc (.decl d)).andThen fun _ n' hle => fills_pure fun n'' hle' =>
    hc.mono (Nat.le_trans hle hle')

theorem IsForest.isStage_signed : m.IsStage imports interner (m.signed imports interner).2 :=
  have hbind := hm.binding imports interner
  ⟨hbind.start.reflects.orderly, (hm.filled_signed imports interner).1,
    hbind.behind.le.trans (hm.entering imports interner).behind.le⟩

theorem IsForest.isStage_bodies {pre post : List DeclId} (hds : m.decls = pre ++ post) :
    m.IsStage imports interner
      (pre.foldl (stepping (bodyStep (m.setting imports interner) (m.checker imports interner)))
        (m.bound imports interner)).2 where
  orderly := ((hm.entering imports interner).along hds).reflects.orderly
  faithful := hm.filled_bodies imports interner pre
  le := (hm.entering imports interner).le_behind hds

theorem IsForest.isStage_checked : m.IsStage imports interner (m.checked imports interner).2 :=
  hm.isStage_bodies imports interner (List.append_nil m.decls).symm

/-- The types of the parameters of declared functions are known behind hoisting. -/
theorem IsForest.isSome_resolved?_signed {d : DeclId} {x : Name} {params : List Code.Param}
    {result : Option TypeRefId} {body : ExprId} (hd : d ∈ m.decls)
    (hk : (m.arena.decl d).kind = .function x params result body) {q : Code.Param}
    (hq : q ∈ params) {r : TypeRefId} (hr : q.typeRef = some r) :
    ((m.signed imports interner).2.table.resolved? r).isSome := by
  have hmem : ([m.decls], Node.typeRef r) ∈ m.visitedSigned := by
    have hhoisted : d ∈ m.hoisted :=
      List.mem_filter.2 ⟨hd, by rw [hk]; rfl⟩
    obtain ⟨pre, post, hds⟩ := List.append_of_mem hhoisted
    have hwritten : ([m.decls], Node.typeRef r) ∈ Resolve.signing m.arena [m.decls] d := by
      simp only [Resolve.signing, hk]
      refine Multiset.mem_cons_of_mem (Arena.mem_written.2
        ⟨.typeRef r, List.mem_append_left _ (List.mem_flatMap.2 ⟨q, hq, ?_⟩),
          Arena.mem_occurrences_self hm.ranked _ _⟩)
      rw [Code.Param.children, hr]
      exact List.mem_singleton_self _
    simp [visitedSigned, hds, hwritten]
  have hsettled := (hm.binding imports interner).start.reflects.settled _ hmem
  simp only [TypeTable.Settled, TypeTable.Resolves] at hsettled
  split at hsettled
  · obtain ⟨place, -, hr⟩ := hsettled
    rw [hr]
    rfl
  · obtain ⟨tys, ty, -, -, hr⟩ := hsettled
    rw [hr]
    rfl

end

section

variable {m : Module} {ds : List DeclId} {imports : Imports} {interner : Interner}
  (hm : m.IsForest) (hperm : m.decls.Perm ds)
  (hclean : (m.checked imports interner).2.errors.size = 0)

include hm hperm hclean

/-- At two stages, written types stand for the same, as far as they are known in both. -/
theorem IsForest.refsAlike_stages {s s' : Findings} (h : m.IsStage imports interner s)
    (h' : (m.rearranged ds).IsStage imports interner s') : s.table.RefsAlike s'.table := by
  have hm' := hm.rearranged hperm
  have hend := hm.isStage_checked imports interner
  have hend' := hm'.isStage_checked imports interner
  exact .of_le h.faithful h'.faithful h.orderly.entries h'.orderly.entries hend.orderly.entries
    hend'.orderly.entries h.le h'.le (hm.refsAlike hperm (hm.typeNamesDiffer hclean)
      (m.resolve_eq imports interner) ((m.rearranged ds).resolve_eq imports interner))

/-- At two stages, all types of both admit the same. -/
theorem IsForest.whole_stages {s s' : Findings} (h : m.IsStage imports interner s)
    (h' : (m.rearranged ds).IsStage imports interner s') :
    (Pairing.now s.table s'.table).Whole :=
  fun _ _ _ _ hb => TypeTable.kinds_alike h.orderly.entries h'.orderly.entries h.faithful
    h'.faithful (hm.refsAlike_stages hperm hclean h h') hb

variable (himports : imports.FromLibrary)
  (hlets : (m.decls.filter fun d => !(m.arena.decl d).kind.hoisted) =
    ds.filter fun d => !(m.arena.decl d).kind.hoisted)

include himports hlets

theorem matched_bound :
    Matched (m.bound imports interner) ((m.rearranged ds).bound imports interner) := by
  have hm' := hm.rearranged hperm
  have hsigned := matched_signed hm himports hperm hclean
  have hstage := hm.isStage_signed imports interner
  have hstage' := hm'.isStage_signed imports interner
  have hcheck : ChecksInStep (m.setting imports interner) (m.checker imports interner) :=
    checksInStep_expr himports _
  have hstep := hcheck.lets (hm.whole_stages hperm hclean hstage hstage') hsigned.alike
    (m.decls.filter fun d => !(m.arena.decl d).kind.hoisted)
  -- both modules check the same `let`s
  have hbound : (m.decls.filter fun d => !(m.arena.decl d).kind.hoisted).foldlM
      (letStep (m.setting imports interner) (m.checker imports interner))
      (m.signed imports interner).1 (m.signed imports interner).2 = m.bound imports interner := by
    rw [foldlM_eq_foldl]
    exact (foldl_letStep ..).symm
  have hbound' : (m.decls.filter fun d => !(m.arena.decl d).kind.hoisted).foldlM
      (letStep (m.setting imports interner) (m.checker imports interner))
      ((m.rearranged ds).signed imports interner).1
      ((m.rearranged ds).signed imports interner).2 = (m.rearranged ds).bound imports interner := by
    rw [foldlM_eq_foldl, hlets]
    exact (foldl_letStep ..).symm
  have hentries := (hm.entering imports interner).start.reflects.entries
  have hentries' := (hm'.entering imports interner).start.reflects.entries
  rw [← hbound] at hentries
  rw [← hbound'] at hentries'
  obtain ⟨herrors, π, hsame, halike⟩ := hstep.now hstage.orderly hstage'.orderly hentries hentries'
  rw [hbound, hbound'] at herrors hsame halike
  rw [errors_bound hclean, hsigned.errors, hsigned.errors'] at herrors
  exact ⟨errors_bound hclean, herrors.symm, halike.mono hsame⟩

theorem matched_checked :
    Matched (m.checked imports interner) ((m.rearranged ds).checked imports interner) := by
  have hm' := hm.rearranged hperm
  have hbound := matched_bound hm hperm hclean himports hlets
  have hcheck : ChecksInStep (m.setting imports interner) (m.checker imports interner) :=
    checksInStep_expr himports _
  have hnodup : (m.decls.flatMap fun _ => ([] : List Name)).Nodup := by
    rw [List.flatMap_eq_nil_iff.2 fun _ _ => rfl]
    exact .nil
  refine hbound.foldl (hm.entering imports interner) (hm'.entering imports interner)
    (enters_bodyStep _ _) (fun c d s => errors_le_bodyStep c d s _ _) hperm hnodup
    (fun d pre post pre' post' hds hds' => ?_) hclean
  intro r r' hr hr' _
  have hstage := hm.isStage_bodies imports interner hds
  have hstage' := hm'.isStage_bodies imports interner hds'
  have hcontext : r.1 = (m.bound imports interner).1 := context_foldl_bodyStep ..
  have hcontext' : r'.1 = ((m.rearranged ds).bound imports interner).1 :=
    context_foldl_bodyStep ..
  have halike : r.1.Alike (r.2.table.Same r'.2.table) r'.1 := by
    rw [hcontext, hcontext']
    exact hbound.alike.mono fun _ _ h => h.mono hr.le hr'.le
  refine hcheck.bodyStep (hm.whole_stages hperm hclean hstage hstage') halike ?_
  intro x params result body hk q hq ref href
  have hd : d ∈ m.decls := hds ▸ by simp
  obtain ⟨ty, hty⟩ := Option.isSome_iff_exists.1
    (hm.isSome_resolved?_signed imports interner hd hk hq href)
  obtain ⟨ty', hty'⟩ := Option.isSome_iff_exists.1
    (hm'.isSome_resolved?_signed imports interner (hperm.mem_iff.1 hd) hk hq href)
  have hend := hr.le.refs ((hm.binding imports interner).behind.le.refs hty)
  have hend' := hr'.le.refs ((hm'.binding imports interner).behind.le.refs hty')
  change Option.Rel _ (r.2.table.resolved? ref) (r'.2.table.resolved? ref)
  rw [hend, hend']
  exact .some (hm.refsAlike_stages hperm hclean hstage hstage' ref ty ty' hend hend')

end

section

variable {m : Module} {ds : List DeclId} {imports : Imports} {interner interner' : Interner}
  {types : TypeTable}

theorem clean_of_resolve (hres : m.resolve imports interner = (types, [], interner')) :
    (m.checked imports interner).2.errors.size = 0 := by
  rw [m.resolve_eq] at hres
  exact congrArg List.length (Prod.mk.inj (Prod.mk.inj hres).2).1

/-- **A rearranged module is without errors, too.** -/
theorem IsForest.resolve_rearranged (hm : m.IsForest) (himports : imports.FromLibrary)
    (hperm : m.decls.Perm ds)
    (hlets : (m.decls.filter fun d => !(m.arena.decl d).kind.hoisted) =
      ds.filter fun d => !(m.arena.decl d).kind.hoisted)
    (hres : m.resolve imports interner = (types, [], interner')) :
    ∃ types', (m.rearranged ds).resolve imports interner = (types', [], interner') := by
  have hclean := clean_of_resolve hres
  obtain rfl : (internNames interner imports.prelude).2 = interner' := by
    rw [m.resolve_eq] at hres
    exact (Prod.mk.inj (Prod.mk.inj hres).2).2
  exact ⟨_, resolve_of_clean (matched_checked hm hperm hclean himports hlets).errors'⟩

end

end Module

end SignalLang
