import SignalLang.Proofs.InStep
import SignalLang.Proofs.TypeReferences

/-!
# The same types at other places

If the declarations at the top level of a module stand in another order, its types get other places.
Apart from that, the tables of the two modules say the same.

* `TypeTable.Same t t' b b'` : the type at `b` in the table `t` is the one at `b'` in `t'`.
* `Pairing.now t t'` : all that corresponds in two tables.
* `Module.IsForest.refs_alike`, `Module.IsForest.kinds_alike` : **in whatever order declarations
  stand, written types stand for the same types, and these admit the same.**
-/

namespace SignalLang

open Code (Node Scopes)
open Resolve (typeName?)

namespace TypeTable

/-- The type at `b` in the table `t` is the one at `b'` in the table `t'`: a builtin type, or that
of one declaration. -/
def Same (t t' : TypeTable) (b b' : TypeId) : Prop :=
  b = b' ∧ b.index ≤ TypeId.unknown.index ∨
    ∃ d, t.declType? d = some b ∧ t'.declType? d = some b'

variable {a : Arena} {t t' t₁ t₁' : TypeTable} {b b' : TypeId}

theorem same_of_builtin {id : TypeId} (h : id.index ≤ TypeId.unknown.index) : t.Same t' id id :=
  .inl ⟨rfl, h⟩

theorem Same.mono (h : t.Same t' b b') (hle : t.Le t₁) (hle' : t'.Le t₁') : t₁.Same t₁' b b' :=
  h.imp_right fun ⟨d, hd, hd'⟩ => ⟨d, hle.declTypes hd, hle'.declTypes hd'⟩

theorem Same.symm (h : t.Same t' b b') : t'.Same t b' b := by
  rcases h with ⟨rfl, hb⟩ | ⟨d, hd, hd'⟩
  · exact .inl ⟨rfl, hb⟩
  · exact .inr ⟨d, hd', hd⟩

theorem Same.right_unique (h : t.Catalogues a) {b₁ : TypeId} (hb : t.Same t' b b')
    (hb₁ : t.Same t' b b₁) : b' = b₁ := by
  rcases hb with ⟨rfl, hb⟩ | ⟨d, hd, hd'⟩
  · rcases hb₁ with ⟨rfl, -⟩ | ⟨d, hd, -⟩
    · rfl
    · exact absurd hb (Nat.not_le.2 (h.behind hd))
  · rcases hb₁ with ⟨rfl, hb⟩ | ⟨d₁, hd₁, hd₁'⟩
    · exact absurd hb (Nat.not_le.2 (h.behind hd))
    · cases (h.stem hd).symm.trans (h.stem hd₁)
      exact Option.some.inj (hd'.symm.trans hd₁')

theorem biUnique_same (h : t.Catalogues a) (h' : t'.Catalogues a) :
    Relator.BiUnique (t.Same t') :=
  ⟨fun _ _ _ hb hb₁ => hb.symm.right_unique h' hb₁.symm, fun _ _ _ hb hb₁ => hb.right_unique h hb₁⟩

theorem Same.lt_size (h : t.Catalogues a) (hb : t.Same t' b b') : b.index < t.size := by
  rcases hb with ⟨-, hb⟩ | ⟨d, hd, -⟩
  · exact Nat.lt_of_le_of_lt hb h.builtin
  · exact h.lt_size hd

/-- A builtin type has no declaration. -/
theorem Catalogues.decl_eq_none (h : t.Catalogues a) (hb : b.index ≤ TypeId.unknown.index) :
    (t.get b).decl = none := by
  by_contra hne
  obtain ⟨d, hd⟩ := Option.ne_none_iff_exists'.1 hne
  exact absurd hb (Nat.not_le.2 (h.behind (h.place hd)))

/-- What is the same type later is so now, if both tables have it. -/
theorem Same.of_le (h : t.Catalogues a) (h' : t'.Catalogues a) (h₁ : t₁.Catalogues a)
    (h₁' : t₁'.Catalogues a) (hle : t.Le t₁) (hle' : t'.Le t₁') (hb : t₁.Same t₁' b b')
    (hlt : b.index < t.size) (hlt' : b'.index < t'.size) : t.Same t' b b' := by
  rcases hb with ⟨rfl, hb⟩ | ⟨d, hd, hd'⟩
  · exact .inl ⟨rfl, hb⟩
  · obtain ⟨e, he⟩ := h.declared (h₁.behind hd) hlt
    obtain ⟨e', he'⟩ := h'.declared (h₁'.behind hd') hlt'
    cases (h₁.stem hd).symm.trans (h₁.stem (hle.declTypes he))
    cases (h₁'.stem hd').symm.trans (h₁'.stem (hle'.declTypes he'))
    exact .inr ⟨d, he, he'⟩

/-- Types of both tables that are alike later are so now. -/
theorem alike_of_le (h : t.Catalogues a) (h' : t'.Catalogues a) (h₁ : t₁.Catalogues a)
    (h₁' : t₁'.Catalogues a) (hle : t.Le t₁) (hle' : t'.Le t₁') {ty ty' : Ty}
    (hty : ty.Alike (t₁.Same t₁') ty') (hbelow : ty.Below t.size) (hbelow' : ty'.Below t'.size) :
    ty.Alike (t.Same t') ty' := by
  induction hty with
  | named hb =>
    cases hbelow with
    | named hlt =>
      cases hbelow' with
      | named hlt' => exact .named (hb.of_le h h' h₁ h₁' hle hle' hlt hlt')
  | function hlength _ _ ihparams ihresult =>
    cases hbelow with
    | function hparams hresult =>
      cases hbelow' with
      | function hparams' hresult' =>
        refine .function hlength (fun x hx => ?_) (ihresult hresult hresult')
        exact ihparams x hx (hparams _ (List.of_mem_zip hx).1) (hparams' _ (List.of_mem_zip hx).2)

end TypeTable

/-! ### What types admit -/

namespace TypeTable

variable {a : Arena} {t t' t₁ t₁' : TypeTable} {b b' : TypeId}

/-- Builtin types admit the same in every table. -/
theorem alike_builtin {R : TypeId → TypeId → Prop}
    (hR : ∀ id : TypeId, id.index ≤ TypeId.unknown.index → R id id) (interner : Interner)
    (refCount : Nat) (id : TypeId) :
    ((builtin interner refCount).get id).kind.Alike R ((builtin interner refCount).get id).kind := by
  have hnamed : ∀ id : TypeId, id.index ≤ TypeId.unknown.index →
      (Ty.named id).Alike R (.named id) := fun id hid => .named (hR id hid)
  obtain ⟨i⟩ := id
  match i with
  | 0 | 1 | 2 => exact .primitive
  | 3 => exact .anything
  | 4 => exact .anySignal
  | 5 | 6 => exact .object .nil
  | 7 => exact .option (.cons (hnamed _ (by decide)) (.cons (hnamed _ (by decide)) .nil))
  | 8 | 9 => exact .signal (.cons ⟨rfl, hnamed _ (by decide)⟩ .nil) (hnamed _ (by decide))
  | 10 => exact .unknown
  | i + 11 => exact .unknown

/-- What two tables say of the written types is alike. -/
def RefsAlike (t t' : TypeTable) : Prop :=
  ∀ r ty ty', t.resolved? r = some ty → t'.resolved? r = some ty' → ty.Alike (t.Same t') ty'

theorem RefsAlike.of_le {base : TypeTable} (hf : t.Faithful a base []) (hf' : t'.Faithful a base [])
    (h : t.Catalogues a) (h' : t'.Catalogues a) (h₁ : t₁.Catalogues a) (h₁' : t₁'.Catalogues a)
    (hle : t.Le t₁) (hle' : t'.Le t₁') (hrefs : t₁.RefsAlike t₁') : t.RefsAlike t' :=
  fun r ty ty' hty hty' =>
    alike_of_le h h' h₁ h₁' hle hle' (hrefs r ty ty' (hle.refs hty) (hle'.refs hty'))
      (hf.refs r ty hty) (hf'.refs r ty' hty')

theorem fieldsAre_alike (hrefs : t.RefsAlike t') {fs : List Code.Field}
    {types types' : List FieldType} (h : t.FieldsAre fs types) (h' : t'.FieldsAre fs types') :
    List.Forall₂ (FieldType.Alike (t.Same t')) types types' := by
  induction h generalizing types' with
  | nil =>
    cases h'
    exact .nil
  | cons hf _ ih =>
    cases h' with
    | cons hf' h' => exact .cons ⟨hf.1.symm.trans hf'.1, hrefs _ _ _ hf.2 hf'.2⟩ (ih h')

/-- The same declaration admits the same. -/
theorem kindIs_alike (hrefs : t.RefsAlike t') {d : DeclId} {kind kind' : TypeKind}
    (h : t.KindIs a d kind) (h' : t'.KindIs a d kind') : kind.Alike (t.Same t') kind' := by
  unfold KindIs at h h'
  split at h
  · rename_i hk
    rw [hk] at h'
    cases kind' with
    | object types' => exact .object (fieldsAre_alike hrefs h h')
    | _ => exact False.elim h'
  · rename_i result _ _ hk
    rw [hk] at h'
    cases kind' with
    | signal types' ty' =>
      refine .signal (fieldsAre_alike hrefs h.1 h'.1) ?_
      have hresult := h.2
      have hresult' := h'.2
      cases result with
      | some r => exact hrefs r _ _ hresult hresult'
      | none =>
        rw [hresult, hresult']
        exact .named (same_of_builtin (by decide))
    | _ => exact False.elim h'
  · rename_i hk
    rw [hk] at h'
    cases kind' with
    | option tys' =>
      refine .option ?_
      clear hk
      induction h generalizing tys' with
      | nil =>
        cases h'
        exact .nil
      | cons hr _ ih =>
        cases h' with
        | cons hr' h' => exact .cons (hrefs _ _ _ hr hr') (ih _ h')
    | _ => exact False.elim h'
  · exact h.elim

/-- In two tables the same types admit the same. -/
theorem kinds_alike {interner : Interner} {refCount : Nat} (h : t.Catalogues a)
    (h' : t'.Catalogues a) (hf : t.Faithful a (.builtin interner refCount) [])
    (hf' : t'.Faithful a (.builtin interner refCount) []) (hrefs : t.RefsAlike t')
    (hb : t.Same t' b b') : (t.get b).kind.Alike (t.Same t') (t'.get b').kind := by
  -- an entry that has the shape of a declaration does not await what it admits
  have hkindIs : ∀ {t : TypeTable} {d id}, t.Catalogues a →
      t.Faithful a (.builtin interner refCount) [] → t.declType? d = some id →
        t.KindIs a d (t.get id).kind := by
    intro t d id h hf hid
    refine (h.kind hid).resolve_left fun hunknown => ?_
    have hshapes := hf.shapes hid
    rw [hunknown] at hshapes
    cases hk : (a.decl d).kind <;> rw [hk] at hshapes <;> exact hshapes
  rcases hb with ⟨rfl, hb⟩ | ⟨d, hd, hd'⟩
  · have hlt : b.index < (builtin interner refCount).size := Nat.lt_succ_of_le hb
    rw [hf.kept b hlt, hf'.kept b hlt]
    exact alike_builtin (fun id hid => same_of_builtin hid) interner refCount b
  · exact kindIs_alike hrefs (hkindIs h hf hd) (hkindIs h' hf' hd')

end TypeTable

/-! ### Pairings of tables -/

namespace Resolve

/-- All that corresponds in two tables. -/
def Pairing.now (t t' : TypeTable) : Pairing where
  places := t.Same t'
  kinds b := ∀ b', t.Same t' b b' → (t.get b).kind.Alike (t.Same t') (t'.get b').kind
  refs r := Option.Rel (Ty.Alike (t.Same t')) (t.resolved? r) (t'.resolved? r)
  decls d := Option.Rel (t.Same t') (t.declType? d) (t'.declType? d)

/-- The table knows all written types and declares types as it should. -/
structure Findings.Orderly (s : Findings) (a : Arena) : Prop where
  size : s.table.refs.size = a.typeRefs.size
  entries : s.table.Catalogues a

theorem Findings.Reflects.orderly {s : Findings} {a : Arena} {outer : Name → Option TypeId}
    {done : Multiset Code.Occurrence} (h : s.Reflects a outer done) : s.Orderly a :=
  ⟨h.size, h.entries⟩

variable {a : Arena} {s s' : Findings}

theorem Pairing.holds_now (hs : s.Orderly a) (hs' : s'.Orderly a) :
    (Pairing.now s.table s'.table).Holds a s.table s'.table where
  unique := TypeTable.biUnique_same hs.entries hs'.entries
  builtin _ hid := TypeTable.same_of_builtin hid
  below hb := ⟨hb.lt_size hs.entries, hb.symm.lt_size hs'.entries⟩
  stems hb := by
    rcases hb with ⟨rfl, hb⟩ | ⟨d, hd, hd'⟩
    · rw [hs.entries.decl_eq_none hb, hs'.entries.decl_eq_none hb]
    · rw [hs.entries.stem hd, hs'.entries.stem hd']
  kinds hb hkind := hkind _ hb
  refs _ hr := hr
  decls _ hd := hd
  refs_size := hs.size
  refs_size' := hs'.size

/-- Places that are paired are those of the same type. -/
theorem Pairing.Holds.same {π : Pairing} {t t' : TypeTable} (h : π.Holds a t t')
    (ht : t.Catalogues a) (ht' : t'.Catalogues a) {b b' : TypeId} (hb : π.places b b') :
    t.Same t' b b' := by
  rcases Nat.lt_or_ge TypeId.unknown.index b.index with hlt | hle
  · obtain ⟨d, hd⟩ := ht.declared hlt (h.below hb).1
    exact .inr ⟨d, hd, ht'.place ((h.stems hb).symm.trans (ht.stem hd))⟩
  · exact .inl ⟨h.unique.2 (h.builtin b hle) hb, hle⟩

/-- Two steps in step from where things stand. -/
theorem InStep.now {x x' : Check α} {post : Pairing → α → α → Prop}
    (h : InStep a (.now s.table s'.table) x x' post) (hs : s.Orderly a) (hs' : s'.Orderly a)
    (ht : (x s).2.table.Catalogues a) (ht' : (x' s').2.table.Catalogues a) :
    (x s).2.errors.size + s'.errors.size = (x' s').2.errors.size + s.errors.size ∧
      ∃ π, (∀ b b', π.places b b' → (x s).2.table.Same (x' s').2.table b b') ∧
        post π (x s).1 (x' s').1 := by
  obtain ⟨π, -, hholds, herrors, hpost⟩ := h s s' (Pairing.holds_now hs hs')
  exact ⟨herrors, π, fun _ _ hb => hholds.same ht ht' hb, hpost⟩

end Resolve

/-! ### Scopes of rearranged modules -/

section

variable {a : Arena} {ds ds' : List DeclId}

/-- The types that some declarations declare have different names. -/
def Arena.TypeNamesDiffer (a : Arena) (ds : List DeclId) : Prop :=
  ds.Pairwise fun d d' => ∀ n, typeName? (a.decl d).kind = some n → typeName? (a.decl d').kind ≠ some n

theorem Arena.declared?_perm (h : a.TypeNamesDiffer ds) (hperm : ds.Perm ds') (n : Name) :
    a.declared? ds' n = a.declared? ds n := by
  unfold Arena.declared?
  have hfilter := hperm.filter fun d => typeName? (a.decl d).kind = some n
  have hpair := List.Pairwise.filter (fun d => decide (typeName? (a.decl d).kind = some n)) h
  have hmem : ∀ d ∈ ds.filter fun d => typeName? (a.decl d).kind = some n,
      typeName? (a.decl d).kind = some n := fun d hd => of_decide_eq_true (List.mem_filter.1 hd).2
  -- at most one declaration declares the name
  generalize ds.filter (fun d => decide (typeName? (a.decl d).kind = some n)) = found
    at hfilter hpair hmem
  match found with
  | [] => rw [List.nil_perm.1 hfilter]
  | [d] => rw [List.perm_singleton.1 hfilter.symm]
  | d :: e :: _ =>
    have hne := (List.pairwise_cons.1 hpair).1 e (List.mem_cons_self ..) n
      (hmem d (List.mem_cons_self ..))
    exact absurd (hmem e (List.mem_cons_of_mem _ (List.mem_cons_self ..))) hne

theorem Arena.declaredIn?_perm (h : a.TypeNamesDiffer ds) (hperm : ds.Perm ds') (inner : Scopes)
    (n : Name) : a.declaredIn? (inner ++ [ds']) n = a.declaredIn? (inner ++ [ds]) n := by
  induction inner with
  | nil =>
    rw [List.nil_append, List.nil_append, declaredIn?_cons, declaredIn?_cons, declared?_perm h hperm]
  | cons gs inner ih => rw [List.cons_append, List.cons_append, declaredIn?_cons, declaredIn?_cons, ih]

/-- In a rearranged module, the same scopes are around a node, but for the outermost one. -/
theorem Module.Encloses.rearranged {m : Module} {gs : Scopes} {x : Node} (h : m.Encloses gs x)
    (hperm : m.decls.Perm ds) :
    ∃ inner, gs = inner ++ [m.decls] ∧ (m.rearranged ds).Encloses (inner ++ [ds]) x := by
  induction h with
  | top hd => exact ⟨[], rfl, .top (hperm.mem_iff.1 hd)⟩
  | @inner scopes x y _ hy ih =>
    obtain ⟨inner, rfl, hx⟩ := ih
    cases x with
    | expr id => exact ⟨(m.arena.expr id).kind.decls :: inner, rfl, hx.inner hy⟩
    | decl d => exact ⟨inner, rfl, hx.inner hy⟩
    | typeRef r => exact ⟨inner, rfl, hx.inner hy⟩

end

/-! ### Tables of rearranged modules -/

/-- A name that stands for the same declaration denotes the same type. -/
theorem TypeTable.Denotes.alike {a : Arena} {t t' : TypeTable} {outer : Name → Option TypeId}
    {gs gs' : Scopes} {n : Name} {place place' : Option TypeId} (h : t.Denotes a outer gs n place)
    (h' : t'.Denotes a outer gs' n place') (heq : a.declaredIn? gs' n = a.declaredIn? gs n)
    (houter : ∀ id, outer n = some id → id.index ≤ TypeId.unknown.index) :
    Option.Rel (t.Same t') place place' := by
  rw [Denotes] at h h'
  rw [heq] at h'
  cases hd : a.declaredIn? gs n with
  | some d =>
    rw [hd] at h h'
    obtain ⟨id, hid, rfl⟩ := h
    obtain ⟨id', hid', rfl⟩ := h'
    exact .some (.inr ⟨d, hid, hid'⟩)
  | none =>
    rw [hd] at h h'
    obtain rfl : place = outer n := h
    obtain rfl : place' = outer n := h'
    cases hn : outer n with
    | none => exact .none
    | some id => exact .some (TypeTable.same_of_builtin (houter id hn))

/-- What is found for the same things is alike. -/
theorem forall₂_of_rel {α β : Type} {R : β → β → Prop} {f f' : α → Option β} {xs : List α}
    {ys ys' : List β} (h : List.Forall₂ (fun x y => f x = some y) xs ys)
    (h' : List.Forall₂ (fun x y => f' x = some y) xs ys')
    (hR : ∀ x ∈ xs, Option.Rel R (f x) (f' x)) : List.Forall₂ R ys ys' := by
  induction h generalizing ys' with
  | nil =>
    cases h'
    exact .nil
  | @cons x y xs ys hxy _ ih =>
    cases h' with
    | cons hxy' h' =>
      obtain ⟨hx, hxs⟩ := List.forall_mem_cons.1 hR
      rw [hxy, hxy'] at hx
      cases hx with
      | some hx => exact .cons hx (ih h' hxs)

/-- What a written type stands for is alike in scopes that declare the same, if that is so of its
parts. -/
theorem TypeTable.Resolves.alike {a : Arena} {t t' : TypeTable} {outer : Name → Option TypeId}
    {gs gs' : Scopes} {r : TypeRefId} (h : t.Resolves a outer gs r)
    (h' : t'.Resolves a outer gs' r) (heq : ∀ n, a.declaredIn? gs' n = a.declaredIn? gs n)
    (houter : ∀ n id, outer n = some id → id.index ≤ TypeId.unknown.index)
    (hparts : ∀ params result, (a.typeRef r).kind = .function params result →
      ∀ q ∈ params ++ [result],
        Option.Rel (Ty.Alike (t.Same t')) (t.resolved? q) (t'.resolved? q)) :
    Option.Rel (Ty.Alike (t.Same t')) (t.resolved? r) (t'.resolved? r) := by
  simp only [Resolves] at h h'
  cases hk : (a.typeRef r).kind with
  | named n =>
    simp only [hk] at h h'
    obtain ⟨place, hplace, hr⟩ := h
    obtain ⟨place', hplace', hr'⟩ := h'
    rw [hr, hr']
    refine .some (.named ?_)
    cases hplace.alike hplace' (heq n) (houter n) with
    | none => exact TypeTable.same_of_builtin (Nat.le_refl _)
    | some h => exact h
  | function params result =>
    simp only [hk] at h h'
    obtain ⟨tys, ty, htys, hty, hr⟩ := h
    obtain ⟨tys', ty', htys', hty', hr'⟩ := h'
    obtain ⟨hparams, hresult⟩ := List.forall_mem_append.1 (hparts params result hk)
    rw [List.forall_mem_singleton, hty, hty'] at hresult
    rw [hr, hr']
    cases hresult with
    | some hresult =>
      exact .some (Ty.alike_function.2 ⟨forall₂_of_rel htys htys' hparams, hresult⟩)

/-- Out of range, no written type stands for anything. -/
theorem TypeTable.resolved?_of_size_le {t : TypeTable} {r : TypeRefId}
    (h : t.refs.size ≤ r.index) : t.resolved? r = none := by
  rw [resolved?, Array.getD_eq_getD_getElem?, Array.getElem?_eq_none h]
  rfl

/-- Around a module, names stand for builtin types. -/
theorem Module.index_outerContext {m : Module} {imports : Imports} {interner : Interner} {n : Name}
    {id : TypeId} (h : (m.outerContext imports interner).type? n = some id) :
    id.index ≤ TypeId.unknown.index := by
  have hknown : (m.outerContext imports interner).Known TypeTable.builtinNames.length :=
    List.forall_mem_singleton.2 fun x hx => by
      obtain ⟨i, hi, rfl⟩ := List.mem_map.1 hx
      exact List.mem_range.1 (List.mem_reverse.1 hi)
  exact Nat.le_of_lt (hknown.type? h)

section

variable {m : Module} {ds : List DeclId} {imports : Imports} {interner interner' : Interner}
  {types types' : TypeTable} {errors errors' : List ResolveError}
  (hm : m.IsForest) (hperm : m.decls.Perm ds) (hnames : m.arena.TypeNamesDiffer m.decls)
  (hres : m.resolve imports interner = (types, errors, interner'))
  (hres' : (m.rearranged ds).resolve imports interner = (types', errors', interner'))

include hm hperm hres hres'

/-- A declared type has a place in both tables or in none. -/
theorem Module.IsForest.declTypes_alike (d : DeclId) :
    Option.Rel (types.Same types') (types.declType? d) (types'.declType? d) := by
  have hplaced : ∀ {ds' : List DeclId} {t : TypeTable} {es}, m.decls.Perm ds' →
      (m.rearranged ds').resolve imports interner = (t, es, interner') →
      ((t.declType? d).isSome ↔ d.index < m.arena.decls.size ∧
        (typeName? (m.arena.decl d).kind).isSome) := by
    intro ds' t es hds ht
    have hforest := hm.rearranged hds
    have hreflects := hforest.reflects ht
    constructor
    · intro hd
      have hmem := hreflects.placed d hd
      rw [hforest.map_snd_occurrences] at hmem
      obtain ⟨id, hid⟩ := Option.isSome_iff_exists.1 hd
      exact ⟨Arena.mem_nodes_decl.1 hmem, Option.isSome_iff_exists.2 ⟨_, hreflects.entries.name hid⟩⟩
    · exact fun ⟨hlt, hn⟩ => (hforest.settled ht hlt).1 hn
  have h := hplaced (.refl _) hres
  have h' := hplaced hperm hres'
  cases hd : types.declType? d with
  | none =>
    rw [hd] at h
    have hnone : ¬(types'.declType? d).isSome := fun hsome => by simpa using h.2 (h'.1 hsome)
    rw [Option.not_isSome_iff_eq_none.1 hnone]
    exact .none
  | some id =>
    rw [hd] at h
    obtain ⟨id', hid'⟩ := Option.isSome_iff_exists.1 (h'.2 (h.1 rfl))
    rw [hid']
    exact .some (.inr ⟨d, hd, hid'⟩)

include hnames

/-- In whatever order declarations stand, written types stand for the same. -/
theorem Module.IsForest.refs_alike (r : TypeRefId) :
    Option.Rel (Ty.Alike (types.Same types')) (types.resolved? r) (types'.resolved? r) := by
  have hforest' := hm.rearranged hperm
  have hreflects := hm.reflects hres
  have hreflects' := hforest'.reflects hres'
  induction hi : r.index using Nat.strong_induction_on generalizing r with
  | _ i ih =>
    subst hi
    by_cases hr : r.index < m.arena.typeRefs.size
    case pos =>
      -- the written type has been resolved in scopes that differ in the outermost one only
      obtain ⟨scopes, hscopes, -⟩ := hm.exists_scopes
      have hencloses := (hscopes _ _).2 ⟨Arena.mem_nodes_typeRef.2 hr, rfl⟩
      obtain ⟨inner, hinner, hencloses'⟩ := hencloses.rearranged hperm
      have hresolves := hreflects.settled _ ((Module.encloses_iff hm.ranked).1 hencloses)
      have hresolves' := hreflects'.settled _ ((Module.encloses_iff hforest'.ranked).1 hencloses')
      rw [hinner] at hresolves
      refine TypeTable.Resolves.alike hresolves hresolves'
        (Arena.declaredIn?_perm hnames hperm inner) (fun _ _ => Module.index_outerContext)
        fun params result hk q hq => ih q.index ?_ q rfl
      have hparts := hm.numbered.types r
      rw [hk] at hparts
      exact hparts q hq
    case neg =>
      have hle := Nat.le_of_not_lt hr
      rw [TypeTable.resolved?_of_size_le (hreflects.size.trans_le hle),
        TypeTable.resolved?_of_size_le (hreflects'.size.trans_le hle)]
      exact .none

theorem Module.IsForest.refsAlike : types.RefsAlike types' := by
  intro r ty ty' hty hty'
  have h := hm.refs_alike hperm hnames hres hres' r
  rw [hty, hty'] at h
  cases h with
  | some h => exact h

/-- In whatever order declarations stand, the same types admit the same. -/
theorem Module.IsForest.kinds_alike {b b' : TypeId} (hb : types.Same types' b b') :
    (types.get b).kind.Alike (types.Same types') (types'.get b').kind :=
  TypeTable.kinds_alike (hm.reflects hres).entries ((hm.rearranged hperm).reflects hres').entries
    (hm.faithful hres) ((hm.rearranged hperm).faithful hres')
    (hm.refsAlike hperm hnames hres hres') hb

end

end SignalLang
