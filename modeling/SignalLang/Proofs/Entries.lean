import SignalLang.Proofs.Tables

/-!
# Entries of declared types

What the table says of a declared type is what its declaration says: the entry has the name of the
declaration and admits what is written there.

* `TypeTable.Le t t'` : the table `t'` says all that `t` says.
* `TypeTable.KindIs a d kind` : `kind` is what is written in the declaration `d`.
* `TypeTable.Catalogues a` : every entry of a declared type says what its declaration says.
-/

namespace SignalLang

open Resolve (typeName?)

namespace TypeTable

/-- The table `t'` says all that `t` says of declarations and written types. -/
structure Le (t t' : TypeTable) : Prop where
  declTypes : ∀ {d id}, t.declType? d = some id → t'.declType? d = some id
  refs : ∀ {r ty}, t.resolved? r = some ty → t'.resolved? r = some ty
  functions : ∀ {d}, (t.function? d).isSome → (t'.function? d).isSome

theorem Le.refl (t : TypeTable) : t.Le t := ⟨id, id, id⟩

theorem Le.trans {t t' t'' : TypeTable} (h : t.Le t') (h' : t'.Le t'') : t.Le t'' :=
  ⟨fun hd => h'.declTypes (h.declTypes hd), fun hr => h'.refs (h.refs hr),
    fun hf => h'.functions (h.functions hf)⟩

section

variable (t : TypeTable) (a : Arena)

/-- Fields of the written names have the written types. -/
def FieldsAre (fs : List Code.Field) (types : List FieldType) : Prop :=
  List.Forall₂ (fun f ty => f.name = ty.name ∧ t.resolved? f.typeRef = some ty.type) fs types

/-- What is written in the declaration of a type. -/
def KindIs (d : DeclId) (kind : TypeKind) : Prop :=
  match (a.decl d).kind, kind with
  | .object _ fs, .object types => t.FieldsAre fs types
  | .signal _ fs result, .signal types ty => t.FieldsAre fs types ∧
    match result with
    | some r => t.resolved? r = some ty
    | none => ty = .action
  | .option _ members, .option tys => List.Forall₂ (fun r ty => t.resolved? r = some ty) members tys
  | _, _ => False

/-- Behind the builtin types, there are the declared ones, whose places and entries belong together.
An entry has the name of its declaration and admits what is written there, or nothing yet. -/
structure Catalogues : Prop where
  builtin : TypeId.unknown.index < t.size
  declared : ∀ {id : TypeId}, TypeId.unknown.index < id.index → id.index < t.size →
    ∃ d, t.declType? d = some id
  behind : ∀ {d id}, t.declType? d = some id → TypeId.unknown.index < id.index
  stem : ∀ {d id}, t.declType? d = some id → (t.get id).decl = some d
  place : ∀ {d id}, (t.get id).decl = some d → t.declType? d = some id
  name : ∀ {d id}, t.declType? d = some id → typeName? (a.decl d).kind = some (t.get id).name
  kind : ∀ {d id}, t.declType? d = some id →
    (t.get id).kind = .unknown ∨ t.KindIs a d (t.get id).kind

end

variable {t t' : TypeTable} {a : Arena} {d : DeclId}

theorem FieldsAre.mono {fs : List Code.Field} {types : List FieldType} (h : t.FieldsAre fs types)
    (hle : t.Le t') : t'.FieldsAre fs types :=
  List.Forall₂.imp (fun _ _ hf => ⟨hf.1, hle.refs hf.2⟩) h

theorem KindIs.mono {kind : TypeKind} (h : t.KindIs a d kind) (hle : t.Le t') :
    t'.KindIs a d kind := by
  unfold KindIs at h ⊢
  split at h
  · exact h.mono hle
  · refine ⟨h.1.mono hle, ?_⟩
    have hresult := h.2
    split at hresult
    · exact hle.refs hresult
    · exact hresult
  · exact h.imp fun _ _ => hle.refs
  · exact h.elim

theorem decl_get_setKind (t : TypeTable) (id id' : TypeId) (kind : TypeKind) :
    ((t.setKind id kind).get id').decl = (t.get id').decl := by
  simp only [setKind, get, Array.getD_eq_getD_getElem?, Array.getElem?_modify]
  split
  · cases t.types[id'.index]? <;> rfl
  · rfl

namespace Catalogues

/-- Nothing has changed but what written types and functions stand for. -/
theorem of_types (h : t.Catalogues a) (hle : t.Le t') (htypes : t'.types = t.types)
    (hdecls : t'.declTypes = t.declTypes) : t'.Catalogues a := by
  have hget : ∀ id, t'.get id = t.get id := fun id => by rw [get, htypes, get]
  have hplace : ∀ d, t'.declType? d = t.declType? d := fun d => by rw [declType?, hdecls, declType?]
  have hsize : t'.size = t.size := by rw [size, htypes, size]
  constructor
  case builtin =>
    rw [hsize]
    exact h.builtin
  case declared =>
    intro id hid hlt
    obtain ⟨d, hd⟩ := h.declared hid (hsize ▸ hlt)
    exact ⟨d, (hplace d).trans hd⟩
  case behind =>
    intro d id hid
    exact h.behind (hplace d ▸ hid)
  case stem =>
    intro d id hid
    rw [hget]
    exact h.stem (hplace d ▸ hid)
  case place =>
    intro d id hid
    rw [hplace]
    exact h.place (hget id ▸ hid)
  case name =>
    intro d id hid
    rw [hget]
    exact h.name (hplace d ▸ hid)
  case kind =>
    intro d id hid
    rw [hget]
    exact (h.kind (hplace d ▸ hid)).imp_right fun hkind => hkind.mono hle

/-- A declared type has a place in the table. -/
theorem lt_size (h : t.Catalogues a) {id : TypeId} (hid : t.declType? d = some id) :
    id.index < t.size := by
  by_contra hlt
  have hstem := h.stem hid
  rw [Faithful.get_of_size_le (Nat.le_of_not_lt hlt)] at hstem
  cases hstem

/-- A type that has a place when one more is declared is the new one, or it had its place before. -/
theorem declType?_push_cases (h : t.Catalogues a) {n : Name} {d' : DeclId} {id : TypeId}
    (hid : (t.push ⟨n, .unknown, some d⟩).2.declType? d' = some id) :
    (d' = d ∧ id = ⟨t.size⟩) ∨
      (t.declType? d' = some id ∧ (t.push ⟨n, .unknown, some d⟩).2.get id = t.get id) := by
  rw [t.declType?_push n .unknown d] at hid
  split at hid
  · rename_i heq
    cases hid
    exact .inl ⟨heq, rfl⟩
  · exact .inr ⟨hid, Resolve.get_push (h.lt_size hid)⟩

/-- A declared type gets its place. -/
theorem push (h : t.Catalogues a) {n : Name} (hn : typeName? (a.decl d).kind = some n)
    (hd : t.declType? d = none) : (t.push ⟨n, .unknown, some d⟩).2.Catalogues a := by
  have hself := t.get_push_self ⟨n, .unknown, some d⟩
  have hplace := t.declType?_push n .unknown d
  have hne : ∀ {d' id}, t.declType? d' = some id → d' ≠ d := by
    rintro d' id hid rfl
    rw [hd] at hid
    cases hid
  have hsize : (t.push ⟨n, .unknown, some d⟩).2.size = t.size + 1 := Array.size_push ..
  constructor
  case builtin =>
    rw [hsize]
    exact Nat.lt_succ_of_lt h.builtin
  case declared =>
    intro id hid hlt
    by_cases hid' : id.index < t.size
    · obtain ⟨d', hd'⟩ := h.declared hid hid'
      exact ⟨d', by rw [hplace, if_neg (hne hd'), hd']⟩
    · have heq : id = ⟨t.size⟩ := by
        cases id
        exact congrArg TypeId.mk (by simp only [hsize] at *; omega)
      exact ⟨d, by rw [hplace, if_pos rfl, heq]⟩
  case behind =>
    intro d' id hid
    obtain ⟨-, rfl⟩ | ⟨hid, -⟩ := h.declType?_push_cases hid
    · exact h.builtin
    · exact h.behind hid
  case stem =>
    intro d' id hid
    obtain ⟨rfl, rfl⟩ | ⟨hid, hget⟩ := h.declType?_push_cases hid
    · rw [hself]
    · rw [hget]
      exact h.stem hid
  case place =>
    -- the entry is an old one, the new one, or none at all
    intro d' id hid
    rw [hplace]
    by_cases hlt : id.index < t.size
    · rw [Resolve.get_push hlt] at hid
      have hid' := h.place hid
      rw [if_neg (hne hid'), hid']
    · by_cases heq : id = ⟨t.size⟩
      · rw [heq, hself] at hid
        cases hid
        rw [if_pos rfl, heq]
      · have hindex : id.index ≠ t.size := fun hi => heq (by cases id; cases hi; rfl)
        rw [Faithful.get_of_size_le (by omega)] at hid
        cases hid
  case name =>
    intro d' id hid
    obtain ⟨rfl, rfl⟩ | ⟨hid, hget⟩ := h.declType?_push_cases hid
    · rw [hself, hn]
    · rw [hget]
      exact h.name hid
  case kind =>
    intro d' id hid
    obtain ⟨-, rfl⟩ | ⟨hid, hget⟩ := h.declType?_push_cases hid
    · rw [hself]
      exact .inl rfl
    · rw [hget]
      exact h.kind hid

/-- A declared type gets what it admits. -/
theorem setKind (h : t.Catalogues a) {id : TypeId} (hid : t.declType? d = some id) {kind : TypeKind}
    (hkind : t.KindIs a d kind) : (t.setKind id kind).Catalogues a := by
  have hget := get_setKind (t := t) kind (h.lt_size hid)
  have hsize := Resolve.size_setKind t id kind
  constructor
  case builtin =>
    rw [hsize]
    exact h.builtin
  case declared =>
    intro id' hid' hlt
    exact h.declared hid' (hsize ▸ hlt)
  case behind => exact h.behind
  case stem =>
    intro d' id' hid'
    rw [decl_get_setKind]
    exact h.stem hid'
  case place =>
    intro d' id' hid'
    rw [decl_get_setKind] at hid'
    exact h.place hid'
  case name =>
    intro d' id' hid'
    rw [Resolve.name_get_setKind]
    exact h.name hid'
  case kind =>
    intro d' id' hid'
    rw [hget]
    split
    · rename_i heq
      -- two declarations do not share a place
      have hd := (h.stem hid').symm.trans (heq ▸ h.stem hid)
      cases hd
      exact .inr hkind
    · exact h.kind hid'

end Catalogues

/-- No builtin type stems from a declaration. -/
theorem catalogues_builtin (interner : Interner) (refCount : Nat) (a : Arena) :
    (builtin interner refCount).Catalogues a := by
  have hnone : ∀ {d id}, (builtin interner refCount).declType? d ≠ some id := fun {d id} => by
    simp [builtin, declType?]
  constructor
  case builtin =>
    rw [size_builtin]
    decide
  case declared =>
    intro id hid hlt
    rw [size_builtin] at hlt
    exact absurd hid (Nat.not_lt.2 (Nat.le_of_lt_succ hlt))
  case place =>
    intro d id hid
    rw [(builtin_entries interner refCount id).1] at hid
    cases hid
  -- all else is about declared types
  all_goals exact fun hid => absurd hid hnone

end TypeTable

end SignalLang
