import SignalLang.Proofs.ValueEquality

/-!
# Shared instances

An instance equals itself without being looked into.  So the comparison of two values can depend on
which instances they share, and not only on what they contain.  This makes a difference only where
an instance that they share holds an undefined number.

* `Value.contents v` : the value `v` without the identities of its instances.
* `Value.SharesNaN v w` : an instance that is part of both values holds an undefined number.
* `Value.equal_of_equal_contents` : values with equal contents are equal.
* `Value.equal_eq_of_contents_eq` : **which instances are shared makes no difference, except for
  those that hold an undefined number.**
-/

namespace SignalLang

namespace Value

/-! ### Contents -/

mutual

/-- The value with no identity for any instance, so that all comparison is by contents. -/
def contents : Value → Value
  | .object _ type fields => .object none type (contentsFields fields)
  | .signal _ type fields => .signal none type (contentsFields fields)
  | v => v

@[inherit_doc contents]
def contentsFields : List (Name × Value) → List (Name × Value)
  | [] => []
  | (n, v) :: fields => (n, contents v) :: contentsFields fields

end

/-- An instance that is part of both values holds an undefined number. -/
def SharesNaN (v w : Value) : Prop :=
  ∃ u : Value, u.PartOf v ∧ u.PartOf w ∧ u.identity?.isSome ∧ u.HoldsNaN

variable {heap : Identity → Value} {u v w : Value} {fields : List (Name × Value)}

theorem contentsFields_eq_map (fields : List (Name × Value)) :
    contentsFields fields = fields.map fun f => (f.1, f.2.contents) := by
  induction fields with
  | nil => rfl
  | cons f fields ih => rw [contentsFields, ih, List.map_cons]

theorem fields?_contents (v : Value) :
    v.contents.fields? = v.fields?.map fun fields => fields.map fun f => (f.1, f.2.contents) := by
  cases v <;> simp [contents, Value.fields?, contentsFields_eq_map]

theorem isSignal_contents (v : Value) : v.contents.isSignal = v.isSignal := by
  cases v <;> rfl

theorem type?_contents (v : Value) : v.contents.type? = v.type? := by
  cases v <;> rfl

theorem identity?_contents (v : Value) : v.contents.identity? = none := by
  cases v <;> rfl

theorem contents_of_atom (hv : v.fields? = none) : v.contents = v := by
  cases v <;> first | rfl | cases hv

/-- The contents of an instance are compared by type and fields. -/
theorem equal_contents_iff_of_fields? (hv : v.fields? = some fields) :
    v.contents.equal w.contents = true ↔ ∃ fields', w.fields? = some fields' ∧
      v.isSignal = w.isSignal ∧ v.type? = w.type? ∧
      List.Forall₂ (fun f g => f.1 = g.1 ∧ f.2.contents.equal g.2.contents = true)
        fields fields' := by
  have hv' : v.contents.fields? = some (fields.map fun f => (f.1, f.2.contents)) := by
    rw [fields?_contents, hv]
    rfl
  rw [equal_iff_of_fields? hv']
  simp only [fields?_contents, isSignal_contents, type?_contents, identity?_contents,
    sameIdentity, Option.map_eq_some_iff, Bool.false_eq_true, false_or]
  constructor
  · rintro ⟨_, ⟨fields', hw, rfl⟩, hkind, htype, h⟩
    rw [List.forall₂_map_left_iff, List.forall₂_map_right_iff] at h
    exact ⟨fields', hw, hkind, htype, h⟩
  · rintro ⟨fields', hw, hkind, htype, h⟩
    refine ⟨_, ⟨fields', hw, rfl⟩, hkind, htype, ?_⟩
    rwa [List.forall₂_map_left_iff, List.forall₂_map_right_iff]

/-- Something with an undefined number in it does not equal its own contents. -/
theorem equal_contents_self_iff : v.contents.equal v.contents = true ↔ ¬ v.HoldsNaN := by
  induction v using fields_induction with
  | ih v ih =>
    cases hv : v.fields? with
    | none =>
      rw [contents_of_atom hv]
      refine ⟨fun h => ?_, equal_self⟩
      rintro ⟨x, hx, hpart⟩
      cases hpart with
      | self => exact Bool.eq_false_iff.1 ((Number.beq_self_iff x).1 h) hx
      | field hfields => cases hv.symm.trans hfields
    | some fields =>
      rw [equal_contents_iff_of_fields? hv]
      constructor
      · rintro ⟨_, hfields', -, -, h⟩ ⟨x, hx, hpart⟩
        cases hv.symm.trans hfields'
        cases hpart with
        | self => cases hv
        | field hfields hf hpart =>
          cases hv.symm.trans hfields
          exact (ih fields hv _ hf).1 (List.forall₂_same.1 h _ hf).2 ⟨x, hx, hpart⟩
      · intro h
        refine ⟨fields, hv, rfl, rfl, List.forall₂_same.2 fun f hf => ⟨rfl, ?_⟩⟩
        exact (ih fields hv f hf).2 fun hnan => h (hnan.of_partOf (partOf_of_mem hv hf))

/-! ### What sharing does -/

/-- Sharing makes values equal, never different. -/
theorem equal_of_equal_contents (h : v.contents.equal w.contents = true) : v.equal w = true := by
  induction v using fields_induction generalizing w with
  | ih v ih =>
    cases hv : v.fields? with
    | none =>
      rw [contents_of_atom hv] at h
      have hw : w.contents.fields? = none := ((equal_iff_of_atom hv).1 h).fields?
      rw [fields?_contents, Option.map_eq_none_iff] at hw
      rwa [contents_of_atom hw] at h
    | some fields =>
      obtain ⟨fields', hw, hkind, htype, h⟩ := (equal_contents_iff_of_fields? hv).1 h
      refine (equal_iff_of_fields? hv).2 ⟨fields', hw, hkind, .inr ⟨htype, ?_⟩⟩
      exact forall₂_imp_of_mem h fun f hf g _ hfg => ⟨hfg.1, ih fields hv f hf hfg.2⟩

theorem SharesNaN.of_mem {fields' : List (Name × Value)} {f g : Name × Value}
    (hv : v.fields? = some fields) (hf : f ∈ fields) (hw : w.fields? = some fields')
    (hg : g ∈ fields') (h : f.2.SharesNaN g.2) : v.SharesNaN w := by
  obtain ⟨u, hu, hu', h⟩ := h
  exact ⟨u, .field hv hf hu, .field hw hg hu', h⟩

/-- **Values that share no instance with an undefined number in it are compared by their
contents.** -/
theorem equal_iff_equal_contents (hv : v.LivesIn heap) (hw : w.LivesIn heap)
    (hshares : ¬ v.SharesNaN w) : v.equal w = true ↔ v.contents.equal w.contents = true := by
  refine ⟨fun h => ?_, equal_of_equal_contents⟩
  induction v using fields_induction generalizing w with
  | ih v ih =>
    cases hfields : v.fields? with
    | none =>
      have hatom := ((equal_iff_of_atom hfields).1 h).fields?
      rwa [contents_of_atom hfields, contents_of_atom hatom]
    | some fields =>
      obtain ⟨fields', hfields', hkind, h⟩ := (equal_iff_of_fields? hfields).1 h
      rcases h with h | ⟨htype, h⟩
      · -- one and the same instance, which holds no undefined number
        obtain rfl := eq_of_sameIdentity hv hw h
        obtain ⟨i, hi, -⟩ := sameIdentity_eq_true_iff.1 h
        exact equal_contents_self_iff.2 fun hnan =>
          hshares ⟨v, .self, .self, by rw [hi]; rfl, hnan⟩
      · refine (equal_contents_iff_of_fields? hfields).2 ⟨fields', hfields', hkind, htype, ?_⟩
        refine forall₂_imp_of_mem h fun f hf g hg hfg => ⟨hfg.1, ?_⟩
        exact ih fields hfields f hf (hv.of_mem hfields hf) (hw.of_mem hfields' hg)
          (fun hnan => hshares (hnan.of_mem hfields hf hfields' hg)) hfg.2

/-- **Which instances two values share makes no difference to their comparison, except for those
that hold an undefined number.**  A value that differs from another one only in which instances it
shares compares alike with every third one, unless it or the other one shares an instance with that
one in which there is an undefined number.  With such an instance there is a difference: it equals
itself, and not a copy of it. -/
theorem equal_eq_of_contents_eq (heap : Identity → Value) :
    (∀ v v' w : Value, v.LivesIn heap → v'.LivesIn heap → w.LivesIn heap →
      v.contents = v'.contents → ¬ v.SharesNaN w → ¬ v'.SharesNaN w → v.equal w = v'.equal w) ∧
    ∀ v v' : Value, v.LivesIn heap → v'.LivesIn heap → v.contents = v'.contents →
      v.identity?.isSome → v.HoldsNaN → ¬ v'.SharesNaN v →
      v.equal v = true ∧ v'.equal v = false := by
  constructor
  · intro v v' w hv hv' hw hsame hshares hshares'
    rw [Bool.eq_iff_iff, equal_iff_equal_contents hv hw hshares,
      equal_iff_equal_contents hv' hw hshares', hsame]
  · intro v v' hv hv' hsame hi hnan hshares
    constructor
    · obtain ⟨fields, hfields⟩ : ∃ fields, v.fields? = some fields := by
        cases v <;> first | exact ⟨_, rfl⟩ | cases hi
      obtain ⟨i, hi⟩ := Option.isSome_iff_exists.1 hi
      exact (equal_iff_of_fields? hfields).2 ⟨fields, hfields, rfl,
        .inl (sameIdentity_eq_true_iff.2 ⟨i, hi, hi⟩)⟩
    · rw [← Bool.not_eq_true, equal_iff_equal_contents hv' hv hshares, ← hsame,
        equal_contents_self_iff]
      exact not_not_intro hnan

theorem partOf_box {i : Identity} {x : Float} (h : u.PartOf (box i x)) :
    u = box i x ∨ u = .number x := by
  cases h with
  | self => exact .inl rfl
  | field hfields hf hpart =>
    cases hfields
    cases List.mem_singleton.1 hf
    cases hpart with
    | self => exact .inr rfl
    | field hfields => cases hfields

/-- Different boxes share no instance. -/
theorem not_sharesNaN_box {i j : Identity} (hij : i ≠ j) (x y : Float) :
    ¬ (box i x).SharesNaN (box j y) := by
  rintro ⟨u, hu, hu', hidentity, -⟩
  rcases partOf_box hu with rfl | rfl
  · rcases partOf_box hu' with heq | heq
    · simp [box, hij] at heq
    · cases heq
  · cases hidentity

/-- Two boxes of one compare alike with the first of them.  A box of the undefined number equals
itself, and not another box of the undefined number. -/
theorem box_equal_box :
    ∃ heap : Identity → Value, (∀ x ∈ [box ⟨0⟩ 1, box ⟨1⟩ 1, box ⟨2⟩ Float.nan, box ⟨3⟩ Float.nan],
        x.LivesIn heap) ∧
      (box ⟨0⟩ 1).contents = (box ⟨1⟩ 1).contents ∧
      (box ⟨0⟩ 1).equal (box ⟨0⟩ 1) = (box ⟨1⟩ 1).equal (box ⟨0⟩ 1) ∧
      (box ⟨2⟩ Float.nan).contents = (box ⟨3⟩ Float.nan).contents ∧
      (box ⟨2⟩ Float.nan).equal (box ⟨2⟩ Float.nan) = true ∧
      (box ⟨3⟩ Float.nan).equal (box ⟨2⟩ Float.nan) = false := by
  let heap : Identity → Value := fun i => box i (if i.index < 2 then 1 else Float.nan)
  have h₀ : (box ⟨0⟩ 1).LivesIn heap := box_livesIn rfl
  have h₁ : (box ⟨1⟩ 1).LivesIn heap := box_livesIn rfl
  have h₂ : (box ⟨2⟩ Float.nan).LivesIn heap := box_livesIn rfl
  have h₃ : (box ⟨3⟩ Float.nan).LivesIn heap := box_livesIn rfl
  have hplain : ¬ (box ⟨0⟩ 1).SharesNaN (box ⟨0⟩ 1) := by
    rintro ⟨u, hu, -, -, x, hx, hpart⟩
    rcases partOf_box (hpart.trans hu) with heq | heq
    · cases heq
    · cases heq
      exact absurd hx (by decide)
  have hnan : (box ⟨2⟩ Float.nan).HoldsNaN :=
    ⟨Float.nan, by decide, .field rfl (.head _) .self⟩
  refine ⟨heap, by simp [h₀, h₁, h₂, h₃], rfl, ?_, rfl, ?_⟩
  · exact (equal_eq_of_contents_eq heap).1 _ _ _ h₀ h₁ h₀ rfl hplain
      (not_sharesNaN_box (by decide) _ _)
  · exact (equal_eq_of_contents_eq heap).2 _ _ h₂ h₃ rfl rfl hnan
      (not_sharesNaN_box (by decide) _ _)

end Value

end SignalLang
