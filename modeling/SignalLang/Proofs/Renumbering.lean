import SignalLang.Proofs.Renaming
import SignalLang.Proofs.SameTypes

/-!
# Renumbered types

The declarations of a module in another order give its types other places.  Places that no type has
are moved as well, behind the types of the other table, so that different places stay different.

* `TypeTable.newPlace t t'` : where the type at a place of `t` is in `t'`.
* `Module.IsForest.retypes` : **in whatever order declarations stand, the types of the module are
  those at the new places.**
-/

namespace SignalLang

namespace TypeTable

/-- The place in `t'` of what is at a place in `t`. -/
def newPlace (t t' : TypeTable) (b : TypeId) : TypeId :=
  match (t.get b).decl with
  | some d => (t'.declType? d).getD b
  | none => if b.index < t.size then b else ⟨t'.size + (b.index - t.size)⟩

section

variable {a : Arena} {t t' : TypeTable} {b b' : TypeId}

theorem newPlace_of_size_le (hb : t.size ≤ b.index) :
    t.newPlace t' b = ⟨t'.size + (b.index - t.size)⟩ := by
  rw [newPlace, Faithful.get_of_size_le hb]
  exact if_neg (Nat.not_lt.2 hb)

variable (h : t.Catalogues a) (h' : t'.Catalogues a)
  (hd : ∀ d, Option.Rel (t.Same t') (t.declType? d) (t'.declType? d))

include h

theorem newPlace_of_builtin (hb : b.index ≤ TypeId.unknown.index) : t.newPlace t' b = b := by
  rw [newPlace, h.decl_eq_none hb]
  exact if_pos (Nat.lt_of_le_of_lt hb h.builtin)

include hd

/-- A type is the one at its new place. -/
theorem same_newPlace (hb : b.index < t.size) : t.Same t' b (t.newPlace t' b) := by
  by_cases hbuiltin : b.index ≤ TypeId.unknown.index
  · rw [newPlace_of_builtin h hbuiltin]
    exact same_of_builtin hbuiltin
  · obtain ⟨d, hplace⟩ := h.declared (Nat.lt_of_not_le hbuiltin) hb
    have hrel := hd d
    rw [hplace] at hrel
    simp only [newPlace, h.stem hplace]
    generalize t'.declType? d = place' at hrel ⊢
    cases hrel with
    | some hsame => exact hsame

theorem newPlace_eq_of_same (hb : t.Same t' b b') : t.newPlace t' b = b' :=
  (same_newPlace h hd (hb.lt_size h)).right_unique h hb

include h'

theorem newPlace_injective : Function.Injective (t.newPlace t') := by
  have hlt : ∀ {b}, b.index < t.size → (t.newPlace t' b).index < t'.size :=
    fun hb => (same_newPlace h hd hb).symm.lt_size h'
  intro b c heq
  rcases Nat.lt_or_ge b.index t.size with hb | hb <;>
    rcases Nat.lt_or_ge c.index t.size with hc | hc
  · have hsame := same_newPlace h hd hb
    rw [heq] at hsame
    exact (same_newPlace h hd hc).symm.right_unique h' hsame.symm |>.symm
  · have hindex := hlt hb
    rw [heq, newPlace_of_size_le hc] at hindex
    exact absurd hindex (Nat.not_lt.2 (Nat.le_add_right _ _))
  · have hindex := hlt hc
    rw [← heq, newPlace_of_size_le hb] at hindex
    exact absurd hindex (Nat.not_lt.2 (Nat.le_add_right _ _))
  · rw [newPlace_of_size_le hb, newPlace_of_size_le hc, TypeId.mk.injEq] at heq
    cases b
    cases c
    exact congrArg TypeId.mk (by simp only at *; omega)

end

end TypeTable

/-! ### Renamings -/

/-- Types move from the places of one table to those of another; identities stay. -/
def Renaming.ofTables {a : Arena} {t t' : TypeTable} (h : t.Catalogues a) (h' : t'.Catalogues a)
    (hd : ∀ d, Option.Rel (t.Same t') (t.declType? d) (t'.declType? d)) : Renaming where
  type := t.newPlace t'
  identity := id
  type_injective := TypeTable.newPlace_injective h h' hd
  identity_injective := Function.injective_id
  type_builtin _ := TypeTable.newPlace_of_builtin h

section

variable {m : Module} {ds : List DeclId} {imports : Imports} {interner interner' : Interner}
  {types types' : TypeTable} {errors errors' : List ResolveError}
  (hm : m.IsForest) (hperm : m.decls.Perm ds) (hnames : m.arena.TypeNamesDiffer m.decls)
  (hres : m.resolve imports interner = (types, errors, interner'))
  (hres' : (m.rearranged ds).resolve imports interner = (types', errors', interner'))

/-- The new places of types if the declarations of a module stand in another order. -/
def Module.IsForest.renumbering : Renaming :=
  .ofTables (hm.reflects hres).entries ((hm.rearranged hperm).reflects hres').entries
    (hm.declTypes_alike hperm hres hres')

include hnames in
/-- **In whatever order declarations stand, the types of a module are those at the new places.** -/
theorem Module.IsForest.retypes : (hm.renumbering hperm hres hres').Retypes types types' := by
  have h := (hm.reflects hres).entries
  have h' := ((hm.rearranged hperm).reflects hres').entries
  have hd := hm.declTypes_alike hperm hres hres'
  have hplaces : ∀ b b', types.Same types' b b' →
      (hm.renumbering hperm hres hres').Places b b' :=
    fun _ _ hb => TypeTable.newPlace_eq_of_same h hd hb
  have hout : ∀ {b : TypeId}, types.size ≤ b.index →
      types'.get (types.newPlace types' b) = types.get b := fun {b} hb => by
    rw [TypeTable.newPlace_of_size_le hb, TypeTable.Faithful.get_of_size_le hb,
      TypeTable.Faithful.get_of_size_le (Nat.le_add_right _ _)]
  constructor
  · intro b
    change ((types.get b).kind).Alike _ (types'.get (types.newPlace types' b)).kind
    rcases Nat.lt_or_ge b.index types.size with hb | hb
    · exact (hm.kinds_alike hperm hnames hres hres' (TypeTable.same_newPlace h hd hb)).mono hplaces
    · rw [hout hb, TypeTable.Faithful.get_of_size_le hb]
      exact .unknown
  · intro b
    change (types'.get (types.newPlace types' b)).name = (types.get b).name
    rcases Nat.lt_or_ge b.index types.size with hb | hb
    · rcases TypeTable.same_newPlace h hd hb with ⟨heq, hbuiltin⟩ | ⟨d, hplace, hplace'⟩
      · have hbase : b.index < (TypeTable.builtin interner m.arena.typeRefs.size).size := by
          rw [TypeTable.size_builtin]
          exact Nat.lt_succ_of_le hbuiltin
        rw [← heq, (hm.faithful hres).kept b hbase,
          ((hm.rearranged hperm).faithful hres').kept b hbase]
      · exact Option.some.inj ((h'.name hplace').symm.trans (h.name hplace))
    · rw [hout hb]
  · exact fun ref => (hm.refs_alike hperm hnames hres hres' ref).mono fun _ _ hty => hty.mono hplaces
  · intro d
    change types'.declType? d = (types.declType? d).map (types.newPlace types')
    have hrel := hd d
    generalize types.declType? d = place, types'.declType? d = place' at hrel
    cases hrel with
    | none => rfl
    | some hsame => rw [Option.map_some, TypeTable.newPlace_eq_of_same h hd hsame]

end

end SignalLang
