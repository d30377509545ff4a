import SignalLang.Resolve.Context
import Mathlib.Data.List.Forall2

/-!
# Types that are alike

Two tables of types can have the same types at different places.  Where a relation says which places
belong together, types and what entries admit are compared part by part, and compatibility does not
depend on the numbering.

* `Ty.Alike R`, `TypeKind.Alike R` : the same up to the places that `R` relates.
* `TypeTable.Paired R t t'` : the places that `R` relates have entries that are alike.
* `TypeTable.Paired.accepts_eq` : **compatibility of types does not depend on their places.**
-/

theorem Option.Rel.mono {α β : Type} {r r' : α → β → Prop} {x : Option α} {y : Option β}
    (h : Option.Rel r x y) (hr : ∀ u v, r u v → r' u v) : Option.Rel r' x y := by
  cases h with
  | some h => exact .some (hr _ _ h)
  | none => exact .none

theorem Option.Rel.or {α β : Type} {r : α → β → Prop} {x z : Option α} {y w : Option β}
    (h : Option.Rel r x y) (h' : Option.Rel r z w) : Option.Rel r (x.or z) (y.or w) := by
  cases h with
  | some h => exact .some h
  | none => simpa using h'

namespace SignalLang

variable {R R' : TypeId → TypeId → Prop}

/-! ### Types -/

/-- The types are the same, up to the places that `R` relates. -/
inductive Ty.Alike (R : TypeId → TypeId → Prop) : Ty → Ty → Prop
  | named {id id'} (h : R id id') : Alike R (.named id) (.named id')
  | function {params params' result result'} (hlength : params.length = params'.length)
    (hparams : ∀ x ∈ params.zip params', Alike R x.1 x.2) (hresult : Alike R result result') :
    Alike R (.function params result) (.function params' result')

/-- The fields have the same name and types that are alike. -/
def FieldType.Alike (R : TypeId → TypeId → Prop) (f f' : FieldType) : Prop :=
  f.name = f'.name ∧ f.type.Alike R f'.type

/-- What is admitted is the same, up to the places that `R` relates. -/
inductive TypeKind.Alike (R : TypeId → TypeId → Prop) : TypeKind → TypeKind → Prop
  | primitive : Alike R .primitive .primitive
  | anything : Alike R .anything .anything
  | anySignal : Alike R .anySignal .anySignal
  | object {fields fields'} (h : List.Forall₂ (FieldType.Alike R) fields fields') :
    Alike R (.object fields) (.object fields')
  | signal {fields fields' result result'} (h : List.Forall₂ (FieldType.Alike R) fields fields')
    (hresult : result.Alike R result') : Alike R (.signal fields result) (.signal fields' result')
  | option {members members'} (h : List.Forall₂ (Ty.Alike R) members members') :
    Alike R (.option members) (.option members')
  | unknown : Alike R .unknown .unknown

namespace Ty

theorem alike_function {params params' : List Ty} {result result' : Ty} :
    (Ty.function params result).Alike R (.function params' result') ↔
      List.Forall₂ (Ty.Alike R) params params' ∧ result.Alike R result' := by
  rw [List.forall₂_iff_zip]
  constructor
  · rintro (_ | ⟨hlength, hparams, hresult⟩)
    exact ⟨⟨hlength, fun h => hparams _ h⟩, hresult⟩
  · rintro ⟨⟨hlength, hparams⟩, hresult⟩
    exact .function hlength (fun x hx => hparams hx) hresult

theorem Alike.mono {t u : Ty} (h : t.Alike R u) (hR : ∀ a b, R a b → R' a b) : t.Alike R' u := by
  induction h with
  | named h => exact .named (hR _ _ h)
  | function hlength _ _ ihparams ihresult => exact .function hlength ihparams ihresult

/-- Two lists of one length are paired at every position. -/
theorem mem_zip_getElem {ts us : List Ty} {i : Nat} (h : i < ts.length) (h' : i < us.length) :
    (ts[i], us[i]) ∈ ts.zip us := by
  have hi : i < (ts.zip us).length := by
    rw [List.length_zip]
    omega
  exact List.mem_iff_getElem.2 ⟨i, hi, List.getElem_zip⟩

theorem Alike.flip {t u : Ty} (h : t.Alike R u) : u.Alike (flip R) t := by
  induction h with
  | named h => exact .named h
  | function hlength _ _ ihparams ihresult =>
    refine .function hlength.symm (fun x hx => ?_) ihresult
    obtain ⟨i, hi, rfl⟩ := List.mem_iff_getElem.1 hx
    rw [List.length_zip] at hi
    rw [List.getElem_zip]
    exact ihparams _ (mem_zip_getElem (by omega) (by omega))

theorem rightUnique_alike (hR : Relator.RightUnique R) : Relator.RightUnique (Ty.Alike R) := by
  intro t u u' h h'
  induction h generalizing u' with
  | named h =>
    cases h' with
    | named h' => rw [hR h h']
  | @function params params' _ _ hlength _ _ ihparams ihresult =>
    cases h' with
    | @function _ params'' _ _ hlength' hparams' hresult' =>
      have hparams : params' = params'' := by
        refine List.ext_getElem (hlength.symm.trans hlength') fun i hi hi' => ?_
        have hi₀ : i < params.length := hlength ▸ hi
        exact ihparams _ (mem_zip_getElem hi₀ hi) (hparams' _ (mem_zip_getElem hi₀ hi'))
      rw [hparams, ihresult hresult']

theorem biUnique_alike (hR : Relator.BiUnique R) : Relator.BiUnique (Ty.Alike R) :=
  ⟨fun _ _ _ h h' => rightUnique_alike hR.1.flip h.flip h'.flip, rightUnique_alike hR.2⟩

end Ty

theorem TypeKind.Alike.mono {k k' : TypeKind} (h : k.Alike R k') (hR : ∀ a b, R a b → R' a b) :
    k.Alike R' k' := by
  have hfield : ∀ f f' : FieldType, f.Alike R f' → f.Alike R' f' :=
    fun f f' hf => ⟨hf.1, hf.2.mono hR⟩
  cases h with
  | object h => exact .object (h.imp hfield)
  | signal h hresult => exact .signal (h.imp hfield) (hresult.mono hR)
  | option h => exact .option (h.imp fun _ _ ht => ht.mono hR)
  | _ => constructor

/-! ### Tables -/

namespace TypeTable

/-- The places that `R` relates belong together: each to at most one, the builtin ones to
themselves, and what their entries admit is alike. -/
structure Paired (R : TypeId → TypeId → Prop) (t t' : TypeTable) : Prop where
  unique : Relator.BiUnique R
  builtin : ∀ id : TypeId, id.index ≤ TypeId.unknown.index → R id id
  kinds : ∀ {a b}, R a b → (t.get a).kind.Alike R (t'.get b).kind

namespace Paired

variable {t t' : TypeTable} (h : Paired R t t') {a b : TypeId}

include h

theorem isSignal_eq (hab : R a b) : t'.isSignal b = t.isSignal a := by
  have hkind := h.kinds hab
  unfold isSignal
  generalize (t.get a).kind = k, (t'.get b).kind = k' at hkind ⊢
  cases hkind <;> rfl

theorem fields (hab : R a b) : List.Forall₂ (FieldType.Alike R) (t.fields a) (t'.fields b) := by
  have hkind := h.kinds hab
  unfold TypeTable.fields
  generalize (t.get a).kind = k, (t'.get b).kind = k' at hkind ⊢
  cases hkind <;> first | assumption | exact .nil

theorem signalResult (hab : R a b) : (t.signalResult a).Alike R (t'.signalResult b) := by
  have hkind := h.kinds hab
  have haction : Ty.action.Alike R Ty.action := .named (h.builtin _ (by decide))
  unfold TypeTable.signalResult
  generalize (t.get a).kind = k, (t'.get b).kind = k' at hkind ⊢
  cases hkind <;> assumption

theorem eq_iff {u u' v v' : Ty} (hu : u.Alike R u') (hv : v.Alike R v') : u' = v' ↔ u = v :=
  (Relator.rel_eq (Ty.biUnique_alike h.unique) hu hv).symm

theorem isUnknown_eq {u u' : Ty} (hu : u.Alike R u') : u'.isUnknown = u.isUnknown :=
  decide_eq_decide.2 (h.eq_iff hu (.named (h.builtin _ (Nat.le_refl _))))

omit h in
/-- What is tested of the arguments in pairs comes out the same. -/
theorem all_zip_eq {f f' : Ty × Ty → Bool} {us us' vs vs' : List Ty}
    (hf : ∀ {u u' v v'}, Ty.Alike R u u' → Ty.Alike R v v' → f' (u', v') = f (u, v))
    (hus : List.Forall₂ (Ty.Alike R) us us') (hvs : List.Forall₂ (Ty.Alike R) vs vs') :
    (us'.zip vs').all f' = (us.zip vs).all f := by
  induction hus generalizing vs vs' with
  | nil => rfl
  | cons hu _ ih =>
    cases hvs with
    | nil => rfl
    | cons hv hvs =>
      simp only [List.zip_cons_cons, List.all_cons, hf hu hv, ih hvs]

omit h in
theorem compatibleBy_eq {accept accept' : Ty → Ty → Bool}
    (haccept : ∀ {u u' v v'}, Ty.Alike R u u' → Ty.Alike R v v' → accept' u' v' = accept u v)
    {ps qs ps' qs' : List Ty} {r q r' q' : Ty} (hps : List.Forall₂ (Ty.Alike R) ps ps')
    (hqs : List.Forall₂ (Ty.Alike R) qs qs') (hr : r.Alike R r') (hq : q.Alike R q') :
    compatibleBy accept' ⟨ps', r'⟩ ⟨qs', q'⟩ = compatibleBy accept ⟨ps, r⟩ ⟨qs, q⟩ := by
  simp only [compatibleBy, Signature.arity, hps.length_eq, hqs.length_eq, haccept hr hq]
  rw [all_zip_eq (f := fun x => accept x.2 x.1) (fun hu hv => haccept hv hu) hps hqs]

theorem acceptsWithin_eq (depth : Nat) {u u' v v' : Ty} (hu : u.Alike R u') (hv : v.Alike R v') :
    t'.acceptsWithin depth u' v' = t.acceptsWithin depth u v := by
  have heq : ∀ {u u' v v' : Ty}, u.Alike R u' → v.Alike R v' → (u' == v') = (u == v) :=
    fun hu hv => Bool.eq_iff_iff.2 (by simpa using h.eq_iff hu hv)
  induction depth generalizing u u' v v' with
  | zero => simp only [acceptsWithin, h.isUnknown_eq hu, h.isUnknown_eq hv, heq hu hv]
  | succ depth ih =>
    simp only [acceptsWithin, h.isUnknown_eq hu, h.isUnknown_eq hv, heq hu hv]
    congr 1
    cases hu with
    | @named a b hab =>
      have hkind := h.kinds hab
      have hsignal : v'.named?.any t'.isSignal = v.named?.any t.isSignal := by
        cases hv with
        | named hcd => exact h.isSignal_eq hcd
        | function => rfl
      dsimp only
      generalize (t.get a).kind = k, (t'.get b).kind = k' at hkind ⊢
      cases hkind with
      | anySignal => exact hsignal
      | option hms =>
        -- the members are tried in the same order
        dsimp only
        induction hms with
        | nil => rfl
        | cons hm _ ihms => simp only [List.any_cons, ih hm hv, ihms]
      | _ => rfl
    | function hlength hparams hresult =>
      have hps := Ty.alike_function.1 (.function hlength hparams hresult)
      cases hv with
      | named => rfl
      | function hlength' hparams' hresult' =>
        have hqs := Ty.alike_function.1 (.function hlength' hparams' hresult')
        exact compatibleBy_eq ih hps.1 hqs.1 hresult hresult'

/-- **Compatibility of types does not depend on their places.** -/
theorem accepts_eq {u u' v v' : Ty} (hu : u.Alike R u') (hv : v.Alike R v') :
    t'.accepts u' v' = t.accepts u v :=
  h.acceptsWithin_eq maxNesting hu hv

end Paired

end TypeTable

end SignalLang
