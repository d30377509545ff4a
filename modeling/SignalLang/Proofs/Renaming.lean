import SignalLang.Handler
import SignalLang.Native.Apply
import SignalLang.Proofs.Alike
import SignalLang.Value.Display

/-!
# Renamed values

The places of types and the identities of instances tell values apart, but no program sees them.  So
nothing that is computed from values depends on how types and identities are numbered.

* `Renaming` : other places for types and other identities, the builtin types apart.
* `Value.rename` : the value with its types and identities renamed.
* `Renaming.Retypes r t t'` : the types of the table `t` have their new places in `t'`.
* `Value.equal_rename`, `Value.display_rename`, `Value.hasType_rename`, `Native.apply_rename` :
  **comparison, text, types and native functions do not depend on the numbering.**
-/

namespace SignalLang

/-- Other places for types and other identities.  The builtin types stay where they are. -/
structure Renaming where
  type : TypeId → TypeId
  identity : Identity → Identity
  type_injective : Function.Injective type
  identity_injective : Function.Injective identity
  type_builtin : ∀ id : TypeId, id.index ≤ TypeId.unknown.index → type id = id

namespace Renaming

/-- The second place is the new one of the first. -/
def Places (r : Renaming) (b b' : TypeId) : Prop := r.type b = b'

variable (r : Renaming)

theorem places_self (b : TypeId) : r.Places b (r.type b) := rfl

theorem type_eq_iff {b : TypeId} {id : TypeId} (hid : id.index ≤ TypeId.unknown.index) :
    r.type b = id ↔ b = id :=
  ⟨fun h => r.type_injective (h.trans (r.type_builtin id hid).symm),
    fun h => h ▸ r.type_builtin id hid⟩

theorem alike_action_iff {ty ty' : Ty} (h : ty.Alike r.Places ty') :
    ty' = .action ↔ ty = .action := by
  cases h with
  | @named id id' h =>
    obtain rfl : r.type id = id' := h
    rw [Ty.action, Ty.named.injEq, Ty.named.injEq]
    exact r.type_eq_iff (by decide)
  | function => exact ⟨nofun, nofun⟩

end Renaming

/-! ### Values -/

namespace Value

mutual

/-- The value with its types and identities renamed. -/
def rename (r : Renaming) : Value → Value
  | .number n => .number n
  | .string s => .string s
  | .action => .action
  | .object identity type fields =>
    .object (identity.map r.identity) (r.type type) (renameFields r fields)
  | .signal identity type fields =>
    .signal (identity.map r.identity) (r.type type) (renameFields r fields)
  | .closure c => .closure { c with identity := r.identity c.identity }
  | .native n => .native n
  | .constructor type => .constructor (r.type type)

/-- The fields with the types and identities of their values renamed. -/
def renameFields (r : Renaming) : List (Name × Value) → List (Name × Value)
  | [] => []
  | (n, v) :: rest => (n, rename r v) :: renameFields r rest

end

section

variable (r : Renaming)

theorem renameFields_eq_map (fields : List (Name × Value)) :
    renameFields r fields = fields.map fun f => (f.1, f.2.rename r) := by
  induction fields with
  | nil => rfl
  | cons f fields ih => rw [renameFields, ih, List.map_cons]

@[simp] theorem rename_boolean (b : Bool) : (boolean b).rename r = boolean b := by
  have htrue := r.type_builtin .trueAnswer (by decide)
  have hfalse := r.type_builtin .falseAnswer (by decide)
  cases b <;> simp [boolean, rename, renameFields, htrue, hfalse]

theorem fields?_rename (v : Value) : (v.rename r).fields? = v.fields?.map (renameFields r) := by
  cases v <;> rfl

theorem isEmpty_renameFields (fields : List (Name × Value)) :
    (renameFields r fields).isEmpty = fields.isEmpty := by
  cases fields <;> rfl

theorem lookup_renameFields (fields : List (Name × Value)) (n : Name) :
    (renameFields r fields).lookup n = (fields.lookup n).map (rename r) := by
  induction fields with
  | nil => rfl
  | cons f fields ih =>
    rw [renameFields, List.lookup_cons, List.lookup_cons]
    cases n == f.1 with
    | true => rfl
    | false => exact ih

theorem field?_rename (v : Value) (n : Name) :
    (v.rename r).field? n = (v.field? n).map (rename r) := by
  rw [field?, field?, fields?_rename]
  cases v.fields? with
  | none => rfl
  | some fields => exact lookup_renameFields r fields n

@[simp] theorem isSignal_rename (v : Value) : (v.rename r).isSignal = v.isSignal := by
  cases v <;> rfl

theorem type?_rename (v : Value) : (v.rename r).type? = v.type?.map r.type := by
  cases v with
  | number n => exact congrArg some (r.type_builtin .number (by decide)).symm
  | string s => exact congrArg some (r.type_builtin .string (by decide)).symm
  | action => exact congrArg some (r.type_builtin .action (by decide)).symm
  | _ => rfl

theorem bool?_rename (v : Value) : (v.rename r).bool? = v.bool? := by
  have hanswer : ∀ type, bool?.answer? (r.type type) = bool?.answer? type := fun type => by
    simp only [bool?.answer?, r.type_eq_iff (show TypeId.trueAnswer.index ≤ _ by decide),
      r.type_eq_iff (show TypeId.falseAnswer.index ≤ _ by decide)]
  cases v <;> first | rfl | exact hanswer _

@[simp] theorem number?_rename (v : Value) : (v.rename r).number? = v.number? := by
  cases v <;> rfl

@[simp] theorem string?_rename (v : Value) : (v.rename r).string? = v.string? := by
  cases v <;> rfl

@[simp] theorem kindName_rename (v : Value) : (v.rename r).kindName = v.kindName := by
  cases v <;> rfl

/-! ### Comparison -/

mutual

/-- Different values stay different. -/
theorem rename_inj {v w : Value} (h : v.rename r = w.rename r) : v = w := by
  have hidentity : Function.Injective (Option.map r.identity) :=
    Option.map_injective r.identity_injective
  match v, w with
  | .action, .action => rfl
  | .number _, .number _ | .string _, .string _ | .native _, .native _ =>
    simpa only [rename] using h
  | .object i s fs, .object j t gs | .signal i s fs, .signal j t gs =>
    simp only [rename, object.injEq, signal.injEq] at h
    rw [hidentity h.1, r.type_injective h.2.1, renameFields_inj h.2.2]
  | .closure c, .closure d =>
    simp only [rename, closure.injEq, Closure.mk.injEq] at h
    cases c
    cases d
    simp only [closure.injEq, Closure.mk.injEq]
    exact ⟨r.identity_injective h.1, h.2⟩
  | .constructor s, .constructor t =>
    simp only [rename, constructor.injEq] at h
    rw [r.type_injective h]

theorem renameFields_inj {fs gs : List (Name × Value)} (h : renameFields r fs = renameFields r gs) :
    fs = gs := by
  match fs, gs with
  | [], [] => rfl
  | (m, v) :: fs, (n, w) :: gs =>
    simp only [renameFields, List.cons.injEq, Prod.mk.injEq] at h
    rw [h.1.1, rename_inj h.1.2, renameFields_inj h.2]

end

theorem sameIdentity_map (i j : Option Identity) :
    sameIdentity (i.map r.identity) (j.map r.identity) = sameIdentity i j := by
  cases i with
  | none => rfl
  | some i =>
    cases j with
    | none => rfl
    | some j => simpa [sameIdentity] using r.identity_injective.eq_iff

mutual

/-- **Comparison does not depend on the numbering.** -/
theorem equal_rename (v w : Value) : (v.rename r).equal (w.rename r) = v.equal w := by
  have htype : ∀ s t, (r.type s == r.type t) = (s == t) := fun s t =>
    Bool.eq_iff_iff.2 (by simpa using r.type_injective.eq_iff)
  cases v with
  | object i s fs =>
    cases w with
    | object j t gs => simp only [rename, equal, sameIdentity_map, htype, equalFields_rename fs gs]
    | _ => rfl
  | signal i s fs =>
    cases w with
    | signal j t gs => simp only [rename, equal, sameIdentity_map, htype, equalFields_rename fs gs]
    | _ => rfl
  | closure c =>
    cases w with
    | closure d =>
      simp only [rename, equal]
      exact Bool.eq_iff_iff.2 (by simpa using r.identity_injective.eq_iff)
    | _ => rfl
  | constructor s =>
    cases w with
    | constructor t => exact htype s t
    | _ => rfl
  | _ => cases w <;> rfl

theorem equalFields_rename (fs gs : List (Name × Value)) :
    equalFields (renameFields r fs) (renameFields r gs) = equalFields fs gs := by
  match fs, gs with
  | [], [] => rfl
  | [], _ :: _ => rfl
  | _ :: _, [] => rfl
  | (m, v) :: fs, (n, w) :: gs =>
    simp only [renameFields, equalFields, equal_rename v w, equalFields_rename fs gs]

end

end

end Value

/-! ### Native functions -/

namespace Native

section

variable (r : Renaming)

theorem numberArg_rename (v : Value) : numberArg (v.rename r) = numberArg v := by
  rw [numberArg, numberArg, v.number?_rename, v.kindName_rename]

theorem stringArg_rename (v : Value) : stringArg (v.rename r) = stringArg v := by
  rw [stringArg, stringArg, v.string?_rename, v.kindName_rename]

theorem unary_rename (n : Native) {f : Value → Except EvalProblem Value}
    (hf : ∀ v, f (v.rename r) = (f v).map (Value.rename r)) (args : List Value) :
    n.unary f (args.map (Value.rename r)) = (n.unary f args).map (Value.rename r) := by
  match args with
  | [] => rfl
  | [v] => exact hf v
  | _ :: _ :: args => simp [unary, Except.map]

theorem binary_rename (n : Native) {f : Value → Value → Except EvalProblem Value}
    (hf : ∀ v w, f (v.rename r) (w.rename r) = (f v w).map (Value.rename r)) (args : List Value) :
    n.binary f (args.map (Value.rename r)) = (n.binary f args).map (Value.rename r) := by
  match args with
  | [] => rfl
  | [_] => rfl
  | [v, w] => exact hf v w
  | _ :: _ :: _ :: args => simp [binary, Except.map]

theorem onNumbers_rename (n : Native) {f : Float → Float → Value}
    (hf : ∀ a b, (f a b).rename r = f a b) (args : List Value) :
    n.onNumbers f (args.map (Value.rename r)) = (n.onNumbers f args).map (Value.rename r) := by
  refine n.binary_rename r (fun v w => ?_) args
  rw [numberArg_rename, numberArg_rename]
  cases numberArg v with
  | error e => rfl
  | ok a =>
    cases numberArg w with
    | error e => rfl
    | ok b => exact congrArg Except.ok (hf a b).symm

/-- **What native functions compute does not depend on the numbering.** -/
theorem apply_rename (n : Native) (args : List Value) :
    n.apply (args.map (Value.rename r)) = (n.apply args).map (Value.rename r) := by
  cases n with
  | equals =>
    refine binary_rename r .equals (fun v w => ?_) args
    rw [v.equal_rename r w]
    exact congrArg Except.ok (Value.rename_boolean r _).symm
  | add => exact onNumbers_rename r .add (fun _ _ => rfl) args
  | subtract => exact onNumbers_rename r .subtract (fun _ _ => rfl) args
  | multiply => exact onNumbers_rename r .multiply (fun _ _ => rfl) args
  | atLeast => exact onNumbers_rename r .atLeast (fun _ _ => Value.rename_boolean r _) args
  | append =>
    refine binary_rename r .append (fun v w => ?_) args
    rw [stringArg_rename, stringArg_rename]
    cases stringArg v with
    | error e => rfl
    | ok a => cases stringArg w <;> rfl
  | numberToString =>
    refine unary_rename r .numberToString (fun v => ?_) args
    rw [numberArg_rename]
    cases numberArg v <;> rfl

end

end Native

/-! ### Tables -/

/-- The types of the table `t` have their new places in the table `t'`. -/
structure Renaming.Retypes (r : Renaming) (t t' : TypeTable) : Prop where
  kinds : ∀ b, (t.get b).kind.Alike r.Places (t'.get (r.type b)).kind
  names : ∀ b, (t'.get (r.type b)).name = (t.get b).name
  refs : ∀ ref, Option.Rel (Ty.Alike r.Places) (t.resolved? ref) (t'.resolved? ref)
  declTypes : ∀ d, t'.declType? d = (t.declType? d).map r.type

section

variable {r : Renaming} {t t' : TypeTable} (h : r.Retypes t t')

include h

theorem Renaming.Retypes.paired : TypeTable.Paired r.Places t t' where
  unique := ⟨fun _ _ _ hb hb' => r.type_injective (hb.trans hb'.symm),
    fun _ _ _ hb hb' => hb.symm.trans hb'⟩
  builtin := r.type_builtin
  kinds hb := hb ▸ h.kinds _

theorem Renaming.Retypes.fields (b : TypeId) :
    List.Forall₂ (FieldType.Alike r.Places) (t.fields b) (t'.fields (r.type b)) :=
  h.paired.fields (r.places_self b)

theorem Renaming.Retypes.length_fields (b : TypeId) :
    (t'.fields (r.type b)).length = (t.fields b).length :=
  (h.fields b).length_eq.symm

/-- The text of a type does not depend on its place. -/
theorem Renaming.Retypes.display (interner : Interner) {ty ty' : Ty}
    (hty : ty.Alike r.Places ty') : t'.display interner ty' = t.display interner ty := by
  induction hty with
  | @named id id' hid =>
    obtain rfl : r.type id = id' := hid
    simp only [TypeTable.display, h.names, r.type_eq_iff (Nat.le_refl _)]
  | @function params params' result result' hlength hparams _ ihparams ihresult =>
    have heq : t'.displayAll interner params' = t.displayAll interner params := by
      have hall : List.Forall₂ (fun u u' => t'.display interner u' = t.display interner u) params
          params' := List.forall₂_iff_zip.2 ⟨hlength, fun hx => ihparams _ hx⟩
      clear hlength hparams ihparams ihresult
      induction hall with
      | nil => rfl
      | cons hu _ ih => simp only [TypeTable.displayAll, hu, ih]
    simp only [TypeTable.display, heq, ihresult]

namespace Value

theorem typeName_rename (interner : Interner) (v : Value) :
    (v.rename r).typeName t' interner = v.typeName t interner := by
  rw [typeName, typeName, type?_rename]
  cases v.type? with
  | none => rfl
  | some id => exact congrArg interner.text (h.names id)

omit h

mutual

/-- **The text of a value does not depend on the numbering.** -/
theorem display_rename (h : r.Retypes t t') (interner : Interner) (v : Value) :
    (v.rename r).display t' interner = v.display t interner := by
  cases v with
  | object i type fields =>
    simp only [rename, display, displayInstance_rename h interner type fields]
  | signal i type fields =>
    simp only [rename, display, displayInstance_rename h interner type fields]
  | constructor type => simp only [rename, display, h.names]
  | _ => rfl

theorem displayInstance_rename (h : r.Retypes t t') (interner : Interner) (type : TypeId)
    (fields : List (Name × Value)) :
    displayInstance t' interner (r.type type) (renameFields r fields) =
      displayInstance t interner type fields := by
  match fields with
  | [] => simp only [renameFields, displayInstance, h.names]
  | (n, v) :: rest =>
    simp only [renameFields, displayInstance, h.names, display_rename h interner v,
      displayRest_rename h interner rest]

theorem displayRest_rename (h : r.Retypes t t') (interner : Interner)
    (fields : List (Name × Value)) :
    displayRest t' interner (renameFields r fields) = displayRest t interner fields := by
  match fields with
  | [] => rfl
  | (n, v) :: rest =>
    simp only [renameFields, displayRest, display_rename h interner v,
      displayRest_rename h interner rest]

end

include h

theorem arity?_rename (v : Value) : (v.rename r).arity? t' = v.arity? t := by
  cases v with
  | constructor type => exact congrArg some (h.length_fields type)
  | _ => rfl

theorem matchesWithin_rename (v : Value) (depth : Nat) {ty ty' : Ty}
    (hty : ty.Alike r.Places ty') :
    (v.rename r).matchesWithin t' depth ty' = v.matchesWithin t depth ty := by
  have htype : ∀ id, ((v.rename r).type? == some (r.type id)) = (v.type? == some id) := by
    intro id
    rw [type?_rename]
    cases v.type? with
    | none => rfl
    | some type => exact Bool.eq_iff_iff.2 (by simpa using r.type_injective.eq_iff)
  induction depth generalizing ty ty' with
  | zero =>
    cases hty with
    | @named id id' hid =>
      obtain rfl : r.type id = id' := hid
      have hkind := h.kinds id
      simp only [matchesWithin]
      generalize (t.get id).kind = k, (t'.get (r.type id)).kind = k' at hkind ⊢
      cases hkind <;> first | rfl | exact v.isSignal_rename r | exact htype id
    | function hlength => simp only [matchesWithin, arity?_rename h, hlength]
  | succ depth ih =>
    cases hty with
    | @named id id' hid =>
      obtain rfl : r.type id = id' := hid
      have hkind := h.kinds id
      simp only [matchesWithin]
      generalize (t.get id).kind = k, (t'.get (r.type id)).kind = k' at hkind ⊢
      cases hkind with
      | anySignal => exact v.isSignal_rename r
      | option hms =>
        dsimp only
        induction hms with
        | nil => rfl
        | cons hm _ ihms => simp only [List.any_cons, ih hm, ihms]
      | anything | unknown => rfl
      | _ => exact htype id
    | function hlength => simp only [matchesWithin, arity?_rename h, hlength]

/-- **Whether a value is of a type does not depend on the numbering.** -/
theorem hasType_rename (v : Value) {ty ty' : Ty} (hty : ty.Alike r.Places ty') :
    (v.rename r).hasType t' ty' = v.hasType t ty :=
  matchesWithin_rename h v _ hty

theorem matchPattern?_rename (p : Code.Pattern) (v : Value) :
    (v.rename r).matchPattern? p t' = (v.matchPattern? p t).map (renameFields r) := by
  have hrefs := h.refs p.typeRef
  unfold matchPattern?
  generalize t.resolved? p.typeRef = ty, t'.resolved? p.typeRef = ty' at hrefs
  cases hrefs with
  | none => rfl
  | some hty =>
    dsimp only
    rw [hasType_rename h v hty]
    split
    · cases p.binding <;> rfl
    · rfl

end Value

end

end SignalLang
