import SignalLang.Proofs.Tables
import SignalLang.Value.Matching

/-!
# Well-formed values

An instance of an object or signal has the fields that its type declares, in that order, and each of
them is of its declared type.  Nothing in a value itself says so: it is the evaluator that makes
instances in this form only.

* `Value.WellFormed t v` : all instances in `v` have the form that the table `t` declares.
* `Value.WellFormed.nominal` : the nominal type of a well-formed value tells what kind it is of.
-/

namespace SignalLang

/-- All instances in a value have the form that the table declares: fields of the declared names in
the order of the declaration, each of them well-formed and of its declared type.  A constructor is
that of an object or signal with fields. -/
inductive Value.WellFormed (t : TypeTable) : Value → Prop
  | number (n) : WellFormed t (.number n)
  | string (s) : WellFormed t (.string s)
  | action : WellFormed t .action
  | closure (c) : WellFormed t (.closure c)
  | native (f) : WellFormed t (.native f)
  | constructor {type types} (hne : types ≠ []) (hkind : (t.get type).kind = .object types ∨
      ∃ result, (t.get type).kind = .signal types result) : WellFormed t (.constructor type)
  | object {identity type types fields} (hkind : (t.get type).kind = .object types)
      (hnames : fields.map Prod.fst = types.map fun f => f.name)
      (hfields : ∀ x ∈ fields, WellFormed t x.2)
      (htypes : ∀ x ∈ fields.zip types, x.1.2.hasType t x.2.type) :
      WellFormed t (.object identity type fields)
  | signal {identity type types result fields} (hkind : (t.get type).kind = .signal types result)
      (hnames : fields.map Prod.fst = types.map fun f => f.name)
      (hfields : ∀ x ∈ fields, WellFormed t x.2)
      (htypes : ∀ x ∈ fields.zip types, x.1.2.hasType t x.2.type) :
      WellFormed t (.signal identity type fields)

/-- A type that values can have as their own: neither a collection of types nor unknown. -/
def TypeKind.isOwn : TypeKind → Bool
  | .primitive | .object _ | .signal _ _ => true
  | .anything | .anySignal | .option _ | .unknown => false

/-! ### What a faithful table says -/

namespace Code.DeclKind.Shapes

variable {n : Name} {fields : List Code.Field} {result : Option TypeRefId} {entry : TypeKind}

theorem object (h : (Code.DeclKind.object n fields).Shapes entry) : ∃ types,
    entry = .object types ∧ types.map (fun f => f.name) = fields.map fun f => f.name := by
  cases entry with
  | object types => exact ⟨types, rfl, h⟩
  | _ => cases h

theorem signal (h : (Code.DeclKind.signal n fields result).Shapes entry) : ∃ types result,
    entry = .signal types result ∧ types.map (fun f => f.name) = fields.map fun f => f.name := by
  cases entry with
  | signal types result => exact ⟨types, result, rfl, h⟩
  | _ => cases h

end Code.DeclKind.Shapes

namespace TypeTable.Faithful

variable {t : TypeTable} {arena : Arena} {interner : Interner} {refCount : Nat}

/-- The builtin types are those of every table. -/
theorem kind_builtin (h : t.Faithful arena (.builtin interner refCount) []) {id : TypeId}
    (hid : id.index < 11) : (t.get id).kind = ((builtin interner refCount).get id).kind :=
  congrArg TypeDef.kind (h.kept id hid)

/-- Nothing in the table is unknown but the unknown type. -/
theorem eq_unknown (h : t.Faithful arena (.builtin interner refCount) []) {id : TypeId}
    (hid : id.index < t.size) (hk : (t.get id).kind = .unknown) : id = .unknown := by
  by_cases hlt : id.index < 11
  · rw [h.kind_builtin hlt] at hk
    obtain ⟨i⟩ := id
    match i with
    | 10 => rfl
    | 0 | 1 | 2 | 3 | 4 | 5 | 6 | 7 | 8 | 9 => cases hk
    | i + 11 => exact absurd hlt (Nat.not_lt.2 (Nat.le_add_left _ _))
  · obtain ⟨d, hd, hshape | ⟨hmem, -⟩⟩ := h.declared id (Nat.not_lt.1 hlt) hid
    · rw [hk] at hshape
      cases hdecl : (arena.decl d).kind <;> simp [hdecl, Code.DeclKind.Shapes] at hshape
    · cases hmem

end TypeTable.Faithful

namespace Value.WellFormed

variable {t : TypeTable} {arena : Arena} {interner : Interner} {refCount : Nat} {v : Value}

theorem boolean (h : t.Faithful arena (.builtin interner refCount) []) (b : Bool) :
    (Value.boolean b).WellFormed t := by
  have hkind : (t.get (if b then .trueAnswer else .falseAnswer)).kind = .object [] := by
    cases b
    · exact h.kind_builtin (show TypeId.falseAnswer.index < 11 by decide)
    · exact h.kind_builtin (show TypeId.trueAnswer.index < 11 by decide)
  exact .object hkind rfl (by simp) (by simp)

/-- The nominal type of a well-formed value is one that values can have, and says whether the value
is a signal.  The value cannot be called. -/
theorem nominal (h : t.Faithful arena (.builtin interner refCount) []) (hv : v.WellFormed t)
    {id : TypeId} (hid : v.type? = some id) :
    (t.get id).kind.isOwn ∧ v.isSignal = t.isSignal id ∧ v.arity? t = none := by
  cases hv with
  | number n =>
    cases hid
    have hk : (t.get .number).kind = .primitive := h.kind_builtin (by decide)
    exact ⟨by rw [hk]; rfl, by simp [isSignal, TypeTable.isSignal, hk], rfl⟩
  | string s =>
    cases hid
    have hk : (t.get .string).kind = .primitive := h.kind_builtin (by decide)
    exact ⟨by rw [hk]; rfl, by simp [isSignal, TypeTable.isSignal, hk], rfl⟩
  | action =>
    cases hid
    have hk : (t.get .action).kind = .primitive := h.kind_builtin (by decide)
    exact ⟨by rw [hk]; rfl, by simp [isSignal, TypeTable.isSignal, hk], rfl⟩
  | object hk =>
    cases hid
    exact ⟨by rw [hk]; rfl, by simp [isSignal, TypeTable.isSignal, hk], rfl⟩
  | signal hk =>
    cases hid
    exact ⟨by rw [hk]; rfl, by simp [isSignal, TypeTable.isSignal, hk], rfl⟩
  | closure c => cases hid
  | native n => cases hid
  | constructor _ _ => cases hid

end Value.WellFormed

end SignalLang
