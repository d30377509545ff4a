import SignalLang.Native.Apply
import Mathlib

/-!
# Equality of values is an equivalence up to undefined numbers

Values are compared by what they contain, except that closures equal only themselves and that an
instance equals itself without being looked into.  The undefined number is the only one that does
not equal itself.

Instances that are one and the same have the same contents.  Where contents are not told by the
value itself but by its identity, this is said with a heap, which knows the instance of each
identity.

* `Value.PartOf u v` : the value `u` is `v` or stands somewhere in its fields.
* `Value.LivesIn heap v` : each instance in `v` that has an identity is the one in the heap.
* `Value.equal_iff_of_fields?` : two instances are equal if they are one and the same, or of one
  type with fields that are equal one by one.
* `Value.equal_equivalence` : **equality is symmetric and transitive, and reflexive where there is
  no undefined number.**
-/

namespace SignalLang

/-! ### Numbers -/

namespace Number

theorem beq_comm (x y : Float) : (x == y) = (y == x) := by
  rw [Bool.eq_iff_iff, Float.beq_iff_ne_nan_and_eq, Float.beq_iff_ne_nan_and_eq]
  grind

theorem beq_trans {x y z : Float} (h : (x == y) = true) (h' : (y == z) = true) :
    (x == z) = true := by
  rw [Float.beq_iff_ne_nan_and_eq] at h h' ⊢
  grind

/-- The undefined number is the one that does not equal itself. -/
theorem beq_self_iff (x : Float) : (x == x) = true ↔ x.isNaN = false := by
  rw [Float.beq_self_iff, Float.isNaN_eq_decide_eq_nan, decide_eq_false_iff_not]

end Number

namespace Value

/-! ### Parts of values -/

/-- The identity of an instance, if it has one. -/
def identity? : Value → Option Identity
  | .object identity _ _ => identity
  | .signal identity _ _ => identity
  | _ => none

/-- A value is part of itself and of all values in whose fields it stands. -/
inductive PartOf (u : Value) : Value → Prop
  | self : PartOf u u
  | field {v fields n w} (hv : v.fields? = some fields) (hw : (n, w) ∈ fields)
      (h : PartOf u w) : PartOf u v

/-- Each instance in a value that has an identity is the one that the heap knows by it. -/
def LivesIn (heap : Identity → Value) (v : Value) : Prop :=
  ∀ u i, u.PartOf v → u.identity? = some i → heap i = u

/-- There is an undefined number in a value. -/
def HoldsNaN (v : Value) : Prop := ∃ x : Float, x.isNaN = true ∧ (number x).PartOf v

variable {heap : Identity → Value} {u v w : Value} {fields fields' : List (Name × Value)}
  {f : Name × Value}

theorem PartOf.trans (h : u.PartOf v) (h' : v.PartOf w) : u.PartOf w := by
  induction h' with
  | self => exact h
  | field hv hw _ ih => exact .field hv hw ih

/-- The value of a field is part of an instance. -/
theorem partOf_of_mem (hv : v.fields? = some fields) (hf : f ∈ fields) : f.2.PartOf v :=
  .field hv hf .self

theorem LivesIn.of_partOf (h : v.LivesIn heap) (hu : u.PartOf v) : u.LivesIn heap :=
  fun t i ht => h t i (ht.trans hu)

theorem LivesIn.of_mem (h : v.LivesIn heap) (hv : v.fields? = some fields) (hf : f ∈ fields) :
    f.2.LivesIn heap :=
  h.of_partOf (partOf_of_mem hv hf)

theorem identity?_of_atom (hv : v.fields? = none) : v.identity? = none := by
  cases v <;> first | rfl | cases hv

/-- What is no instance lives in every heap. -/
theorem livesIn_of_atom (hv : v.fields? = none) : v.LivesIn heap := by
  intro u i hu hi
  cases hu with
  | self => cases (identity?_of_atom hv).symm.trans hi
  | field hfields => cases hv.symm.trans hfields

/-- An instance lives in a heap that knows it by its identity, if its fields do. -/
theorem livesIn_of_fields? (hv : v.fields? = some fields)
    (hself : ∀ i, v.identity? = some i → heap i = v) (hall : ∀ f ∈ fields, f.2.LivesIn heap) :
    v.LivesIn heap := by
  intro u i hu hi
  cases hu with
  | self => exact hself i hi
  | field hfields hf hu =>
    cases hv.symm.trans hfields
    exact hall _ hf u i hu hi

theorem HoldsNaN.of_partOf (h : u.HoldsNaN) (hu : u.PartOf v) : v.HoldsNaN := by
  obtain ⟨x, hx, hpart⟩ := h
  exact ⟨x, hx, hpart.trans hu⟩

mutual

/-- **Induction on values**: what holds of an instance if it holds of its fields, and of all that is
no instance, holds of all values. -/
theorem fields_induction {P : Value → Prop}
    (ih : ∀ v, (∀ fields, v.fields? = some fields → ∀ f ∈ fields, P f.2) → P v) (v : Value) :
    P v := by
  cases v with
  | object identity type fields =>
    refine ih _ ?_
    rintro _ ⟨⟩
    exact fields_induction_all ih fields
  | signal identity type fields =>
    refine ih _ ?_
    rintro _ ⟨⟩
    exact fields_induction_all ih fields
  | _ => exact ih _ nofun

theorem fields_induction_all {P : Value → Prop}
    (ih : ∀ v, (∀ fields, v.fields? = some fields → ∀ f ∈ fields, P f.2) → P v)
    (fields : List (Name × Value)) : ∀ f ∈ fields, P f.2 := by
  match fields with
  | [] => nofun
  | (_, v) :: fields =>
    exact List.forall_mem_cons.2 ⟨fields_induction ih v, fields_induction_all ih fields⟩

end

/-! ### Equality, case by case -/

/-- Equality of values that are no instances. -/
inductive SameAtom : Value → Value → Prop
  | number {x y} (h : (x == y) = true) : SameAtom (.number x) (.number y)
  | string (s) : SameAtom (.string s) (.string s)
  | action : SameAtom .action .action
  | closure {c d} (h : c.identity = d.identity) : SameAtom (.closure c) (.closure d)
  | native {f g} (h : f.name = g.name) : SameAtom (.native f) (.native g)
  | constructor (type) : SameAtom (.constructor type) (.constructor type)

/-- The same name with equal values. -/
def SameField (f g : Name × Value) : Prop := f.1 = g.1 ∧ f.2.equal g.2 = true

theorem equal_iff_of_atom (hv : v.fields? = none) : v.equal w = true ↔ SameAtom v w := by
  constructor
  · intro h
    cases v with
    | object => cases hv
    | signal => cases hv
    | number x =>
      cases w with
      | number y => exact .number h
      | _ => cases h
    | string s =>
      cases w with
      | string t =>
        obtain rfl : s = t := eq_of_beq h
        exact .string s
      | _ => cases h
    | action =>
      cases w with
      | action => exact .action
      | _ => cases h
    | closure c =>
      cases w with
      | closure d => exact .closure (eq_of_beq h)
      | _ => cases h
    | native f =>
      cases w with
      | native g => exact .native (eq_of_beq h)
      | _ => cases h
    | constructor s =>
      cases w with
      | constructor t =>
        obtain rfl : s = t := eq_of_beq h
        exact .constructor s
      | _ => cases h
  · intro h
    cases h with
    | number h => exact h
    | closure h => exact beq_iff_eq.2 h
    | native h => exact beq_iff_eq.2 h
    | action => rfl
    | _ => exact beq_self_eq_true _

theorem SameAtom.fields? (h : SameAtom v w) : w.fields? = none := by
  cases h <;> rfl

theorem equalFields_iff : equalFields fields fields' = true ↔
    List.Forall₂ SameField fields fields' := by
  induction fields generalizing fields' with
  | nil => cases fields' <;> simp [equalFields]
  | cons f fields ih =>
    cases fields' with
    | nil => simp [equalFields]
    | cons g fields' => simp [equalFields, SameField, ih, and_assoc]

/-- **Two instances are equal if they are one and the same, or else of one type with equal
fields.** -/
theorem equal_iff_of_fields? (hv : v.fields? = some fields) : v.equal w = true ↔
    ∃ fields', w.fields? = some fields' ∧ v.isSignal = w.isSignal ∧
      (sameIdentity v.identity? w.identity? = true ∨
        v.type? = w.type? ∧ List.Forall₂ SameField fields fields') := by
  cases v <;> cases hv <;> cases w <;>
    simp [equal, Value.fields?, isSignal, identity?, type?, equalFields_iff]

theorem sameIdentity_eq_true_iff {i j : Option Identity} :
    sameIdentity i j = true ↔ ∃ k, i = some k ∧ j = some k := by
  cases i <;> cases j <;> simp [sameIdentity]
  exact eq_comm

theorem sameIdentity_comm (i j : Option Identity) : sameIdentity i j = sameIdentity j i := by
  rw [Bool.eq_iff_iff, sameIdentity_eq_true_iff, sameIdentity_eq_true_iff]
  simp only [and_comm]

/-- Two instances that are one and the same are the same value. -/
theorem eq_of_sameIdentity (hv : v.LivesIn heap) (hw : w.LivesIn heap)
    (h : sameIdentity v.identity? w.identity? = true) : v = w := by
  obtain ⟨i, hi, hj⟩ := sameIdentity_eq_true_iff.1 h
  exact (hv v i .self hi).symm.trans (hw w i .self hj)

/-! ### The laws of equality -/

theorem forall₂_imp_of_mem {R S : α → β → Prop} {xs : List α} {ys : List β}
    (h : List.Forall₂ R xs ys) (himp : ∀ x ∈ xs, ∀ y ∈ ys, R x y → S x y) :
    List.Forall₂ S xs ys := by
  rw [List.forall₂_iff_zip] at h ⊢
  exact ⟨h.1, fun hxy => himp _ (List.of_mem_zip hxy).1 _ (List.of_mem_zip hxy).2 (h.2 hxy)⟩

theorem equal_symm (h : v.equal w = true) : w.equal v = true := by
  induction v using fields_induction generalizing w with
  | ih v ih =>
    cases hv : v.fields? with
    | none =>
      have hatom := (equal_iff_of_atom hv).1 h
      refine (equal_iff_of_atom hatom.fields?).2 ?_
      cases hatom with
      | @number x y hxy => exact .number ((Number.beq_comm y x).trans hxy)
      | closure hidentity => exact .closure hidentity.symm
      | string s => exact .string s
      | action => exact .action
      | native hname => exact .native hname.symm
      | constructor type => exact .constructor type
    | some fields =>
      obtain ⟨fields', hw, hkind, h⟩ := (equal_iff_of_fields? hv).1 h
      refine (equal_iff_of_fields? hw).2 ⟨fields, hv, hkind.symm, ?_⟩
      rcases h with h | ⟨htype, h⟩
      · exact .inl ((sameIdentity_comm _ _).trans h)
      · refine .inr ⟨htype.symm, (forall₂_imp_of_mem h ?_).flip⟩
        exact fun f hf g _ hfg => ⟨hfg.1.symm, ih fields hv f hf hfg.2⟩

theorem equal_comm (v w : Value) : v.equal w = w.equal v :=
  Bool.eq_iff_iff.2 ⟨equal_symm, equal_symm⟩

/-- Fields that are equal to the same fields are equal, if this goes for their values. -/
theorem forall₂_sameField_trans {fields'' : List (Name × Value)}
    (htrans : ∀ f ∈ fields, ∀ g ∈ fields', ∀ h ∈ fields'', f.2.equal g.2 = true →
      g.2.equal h.2 = true → f.2.equal h.2 = true)
    (h : List.Forall₂ SameField fields fields') (h' : List.Forall₂ SameField fields' fields'') :
    List.Forall₂ SameField fields fields'' := by
  induction h generalizing fields'' with
  | nil => exact h'
  | @cons f g fields fields' hfg _ ih =>
    cases h' with
    | @cons _ k _ fields'' hgk h' =>
      refine .cons ⟨hfg.1.trans hgk.1, htrans f List.mem_cons_self g List.mem_cons_self k
        List.mem_cons_self hfg.2 hgk.2⟩ (ih (fun a ha b hb c hc => ?_) h')
      exact htrans a (.tail _ ha) b (.tail _ hb) c (.tail _ hc)

theorem equal_trans (hu : u.LivesIn heap) (hv : v.LivesIn heap) (hw : w.LivesIn heap)
    (huv : u.equal v = true) (hvw : v.equal w = true) : u.equal w = true := by
  induction u using fields_induction generalizing v w with
  | ih u ih =>
    cases hfields : u.fields? with
    | none =>
      have hatom := (equal_iff_of_atom hfields).1 huv
      have hatom' := (equal_iff_of_atom hatom.fields?).1 hvw
      refine (equal_iff_of_atom hfields).2 ?_
      cases hatom with
      | number h =>
        cases hatom' with
        | number h' => exact .number (Number.beq_trans h h')
      | closure h =>
        cases hatom' with
        | closure h' => exact .closure (h.trans h')
      | native h =>
        cases hatom' with
        | native h' => exact .native (h.trans h')
      | _ => exact hatom'
    | some fields =>
      obtain ⟨fields', hfields', hkind, h⟩ := (equal_iff_of_fields? hfields).1 huv
      obtain ⟨fields'', hfields'', hkind', h'⟩ := (equal_iff_of_fields? hfields').1 hvw
      -- what is one and the same with `v` is `v`, so that there is nothing to compose
      rcases h with h | ⟨htype, h⟩
      · rw [eq_of_sameIdentity hu hv h]
        exact hvw
      rcases h' with h' | ⟨htype', h'⟩
      · rw [← eq_of_sameIdentity hv hw h']
        exact huv
      refine (equal_iff_of_fields? hfields).2 ⟨fields'', hfields'', hkind.trans hkind',
        .inr ⟨htype.trans htype', forall₂_sameField_trans (fun f hf g hg k hk => ?_) h h'⟩⟩
      exact ih fields hfields f hf (hu.of_mem hfields hf) (hv.of_mem hfields' hg)
        (hw.of_mem hfields'' hk)

theorem equal_self (h : ¬ v.HoldsNaN) : v.equal v = true := by
  induction v using fields_induction with
  | ih v ih =>
    cases hv : v.fields? with
    | none =>
      refine (equal_iff_of_atom hv).2 ?_
      cases v with
      | object => cases hv
      | signal => cases hv
      | number x =>
        refine .number ((Number.beq_self_iff x).2 (Bool.eq_false_iff.2 fun hx => ?_))
        exact h ⟨x, hx, .self⟩
      | string s => exact .string s
      | action => exact .action
      | closure c => exact .closure rfl
      | native f => exact .native rfl
      | constructor type => exact .constructor type
    | some fields =>
      refine (equal_iff_of_fields? hv).2 ⟨fields, hv, rfl, .inr ⟨rfl, ?_⟩⟩
      refine List.forall₂_same.2 fun f hf => ⟨rfl, ih fields hv f hf fun hnan => ?_⟩
      exact h (hnan.of_partOf (partOf_of_mem hv hf))

/-- **Equality is an equivalence up to undefined numbers.**  It is symmetric; it is transitive, on
values that live in one heap, whichever instances they share and whatever they hold; and every value
without an undefined number in it equals itself.  The function `equals` of programs tells exactly
this. -/
theorem equal_equivalence (heap : Identity → Value) :
    (∀ v w : Value, v.equal w = w.equal v) ∧
    (∀ u v w : Value, u.LivesIn heap → v.LivesIn heap → w.LivesIn heap →
      u.equal v = true → v.equal w = true → u.equal w = true) ∧
    (∀ v : Value, ¬ v.HoldsNaN → v.equal v = true) ∧
    ∀ v w : Value, Native.equals.apply [v, w] = .ok (.boolean (v.equal w)) :=
  ⟨equal_comm, fun _ _ _ => equal_trans, fun _ => equal_self, fun _ _ => rfl⟩

/-- An instance with a number as its only field. -/
def box (i : Identity) (x : Float) : Value := .object (some i) ⟨11⟩ [(.empty, .number x)]

/-- A box lives in a heap that knows it. -/
theorem box_livesIn {i : Identity} {x : Float} (h : heap i = box i x) :
    (box i x).LivesIn heap := by
  refine livesIn_of_fields? rfl ?_ (List.forall_mem_singleton.2 (livesIn_of_atom rfl))
  rintro _ ⟨⟩
  exact h

/-- A pair that holds a box of the undefined number twice. -/
def boxTwice (i : Identity) : Value :=
  .object (some i) ⟨12⟩ [(.empty, box ⟨0⟩ Float.nan),
    ({ Name.empty with index := 1 }, box ⟨0⟩ Float.nan)]

/-- Three pairs that share a box of the undefined number. -/
theorem boxTwice_equal_trans :
    ∃ heap : Identity → Value, (boxTwice ⟨1⟩).LivesIn heap ∧ (boxTwice ⟨2⟩).LivesIn heap ∧
      (boxTwice ⟨3⟩).LivesIn heap ∧ (boxTwice ⟨1⟩).HoldsNaN ∧
      (boxTwice ⟨1⟩).equal (boxTwice ⟨3⟩) = true ∧ ¬ (boolean true).HoldsNaN ∧
      (boolean true).equal (boolean true) = true := by
  let heap : Identity → Value := fun i => if i = ⟨0⟩ then box ⟨0⟩ Float.nan else boxTwice i
  have hbox : (box ⟨0⟩ Float.nan).LivesIn heap := box_livesIn (if_pos rfl)
  have hpair : ∀ i : Identity, i ≠ ⟨0⟩ → (boxTwice i).LivesIn heap := by
    intro i hi
    refine livesIn_of_fields? rfl ?_
      (List.forall_mem_cons.2 ⟨hbox, List.forall_mem_singleton.2 hbox⟩)
    rintro _ ⟨⟩
    exact if_neg hi
  have h₁ := hpair ⟨1⟩ (by decide)
  have h₂ := hpair ⟨2⟩ (by decide)
  have h₃ := hpair ⟨3⟩ (by decide)
  have hnan : (boxTwice ⟨1⟩).HoldsNaN :=
    ⟨Float.nan, by decide, .field rfl (.head _) (.field rfl (.head _) .self)⟩
  have htrue : ¬ (boolean true).HoldsNaN := by
    rintro ⟨x, -, hx⟩
    cases hx with
    | field hv hw => cases hv; cases hw
  exact ⟨heap, h₁, h₂, h₃, hnan,
    (equal_equivalence heap).2.1 _ _ _ h₁ h₂ h₃ (by decide) (by decide), htrue,
    (equal_equivalence heap).2.2.1 _ htrue⟩

end Value

end SignalLang
