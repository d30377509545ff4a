import SignalLang.Proofs.Instances
import SignalLang.Proofs.OptionChains

/-!
# Tests of types

Resolution asks whether a type accepts another one, evaluation whether a value is of a type.  On a
value and its nominal type the two answers are the same, up to the bounds on the nesting of options:
resolution looks through one option more.

* `TypeTable.acceptsWithin_iff_chain` : resolution follows the same chains of options as evaluation.
* `TypeTable.accepts_iff_hasType` : **a type accepts the type of a value exactly if the value is of
  that type, or 65 options lead to the type of the value or to the unknown type.**
* `TypeTable.accepts_iff_hasType_of_options_le` : in a table with at most 64 options, the tests
  agree.
-/

namespace SignalLang

namespace TypeTable

section

variable {t : TypeTable} {arena : Arena} {interner : Interner} {refCount : Nat} {v : Value}
  {id : TypeId}

variable (h : t.Faithful arena (.builtin interner refCount) []) (hv : v.WellFormed t)
  (hid : v.type? = some id)

include h hv hid

theorem ne_unknown : id ≠ .unknown := by
  rintro rfl
  obtain ⟨hown, -⟩ := hv.nominal h hid
  rw [h.kind_builtin (show TypeId.unknown.index < 11 by decide)] at hown
  cases hown

/-- Apart from options, both tests are the same. -/
theorem acceptsWithin_iff_of_not_isOption {ty : Ty} (hbelow : ty.Below t.size)
    (hty : ¬ t.IsOption ty) (depth : Nat) :
    t.acceptsWithin (depth + 1) ty (.named id) ↔ v.matchesWithin t 0 ty := by
  obtain ⟨hown, hsignal, harity⟩ := hv.nominal h hid
  have hne := ne_unknown h hv hid
  cases ty with
  | function params result =>
    simp [acceptsWithin, Value.matchesWithin, harity, Ty.isUnknown, Ty.unknown, hne]
  | named place =>
    have hplace : place = id → (t.get place).kind.isOwn := fun heq => heq ▸ hown
    have hunknown : (t.get .unknown).kind = .unknown := h.kind_builtin (by decide)
    cases hk : (t.get place).kind with
    | option members => exact absurd ⟨place, members, rfl, hk⟩ hty
    | unknown =>
      cases hbelow with
      | named hlt =>
        obtain rfl := h.eq_unknown hlt hk
        simp [acceptsWithin, Value.matchesWithin, hk, Ty.isUnknown, Ty.unknown]
    | anything => simp [acceptsWithin, Value.matchesWithin, hk]
    | anySignal =>
      have hne' : place ≠ id := fun heq => by simpa [hk, TypeKind.isOwn] using hplace heq
      have hplace' : place ≠ .unknown := fun heq => by simp [heq, hunknown] at hk
      simp [acceptsWithin, Value.matchesWithin, hk, Ty.isUnknown, Ty.unknown, hne, hne', hplace',
        hsignal, Ty.named?]
    | primitive | object types | signal types result =>
      have hplace' : place ≠ .unknown := fun heq => by simp [heq, hunknown] at hk
      simpa [acceptsWithin, Value.matchesWithin, hk, Ty.isUnknown, Ty.unknown, hne, hplace', hid]
        using eq_comm

theorem acceptsWithin_option {place : TypeId} {members : List Ty}
    (hk : (t.get place).kind = .option members) (depth : Nat) :
    t.acceptsWithin (depth + 1) (.named place) (.named id) ↔
      ∃ ty ∈ members, t.acceptsWithin depth ty (.named id) := by
  obtain ⟨hown, -⟩ := hv.nominal h hid
  have hne := ne_unknown h hv hid
  have hne' : place ≠ id := by
    rintro rfl
    rw [hk] at hown
    cases hown
  have hunknown : (t.get .unknown).kind = .unknown := h.kind_builtin (by decide)
  have hplace : place ≠ .unknown := fun heq => by simp [heq, hunknown] at hk
  simp [acceptsWithin, hk, Ty.isUnknown, Ty.unknown, hne, hne', hplace]

/-- **Resolution follows the same chains of options as evaluation**, and admits at the end of a
chain of full length the type itself and the unknown one. -/
theorem acceptsWithin_iff_chain {ty : Ty} (hbelow : ty.Below t.size) (depth : Nat) :
    t.acceptsWithin depth ty (.named id) ↔
      (∃ n < depth, ∃ last, t.Chain n ty last ∧ v.matchesWithin t 0 last) ∨
        ∃ last, t.Chain depth ty last ∧ (last = .named id ∨ last = .unknown) := by
  have hne := ne_unknown h hv hid
  induction depth generalizing ty with
  | zero =>
    have hiff : t.acceptsWithin 0 ty (.named id) ↔ ty = .named id ∨ ty = .unknown := by
      have hne' : Ty.named id ≠ .unknown := fun heq => hne (Ty.named.inj heq)
      simpa [acceptsWithin, Ty.isUnknown, hne'] using or_comm
    rw [hiff]
    constructor
    · exact fun hty => .inr ⟨ty, .nil ty, hty⟩
    · rintro (⟨n, hn, -⟩ | ⟨last, hchain, hlast⟩)
      · exact absurd hn (Nat.not_lt_zero n)
      · cases hchain
        exact hlast
  | succ depth ih =>
    by_cases hty : t.IsOption ty
    · obtain ⟨place, members, rfl, hk⟩ := hty
      have hzero : ¬ v.matchesWithin t 0 (.named place) := by simp [Value.matchesWithin, hk]
      have hmembers : ∀ m ∈ members, m.Below t.size := fun m hm =>
        h.entries place m (by rw [hk]; exact hm)
      rw [acceptsWithin_option h hv hid hk]
      constructor
      · rintro ⟨m, hm, haccepts⟩
        rcases (ih (hmembers m hm)).1 haccepts with ⟨n, hn, last, hchain, hlast⟩ |
          ⟨last, hchain, hlast⟩
        · exact .inl ⟨n + 1, by omega, last, .cons trivial hk hm hchain, hlast⟩
        · exact .inr ⟨last, .cons trivial hk hm hchain, hlast⟩
      · rintro (⟨n, hn, last, hchain, hlast⟩ | ⟨last, hchain, hlast⟩)
        · cases n with
          | zero =>
            cases hchain
            exact absurd hlast hzero
          | succ n =>
            obtain ⟨m, hm, hchain⟩ := (chain_succ_iff hk).1 hchain
            exact ⟨m, hm, (ih (hmembers m hm)).2 (.inl ⟨n, by omega, last, hchain, hlast⟩)⟩
        · obtain ⟨m, hm, hchain⟩ := (chain_succ_iff hk).1 hchain
          exact ⟨m, hm, (ih (hmembers m hm)).2 (.inr ⟨last, hchain, hlast⟩)⟩
    · rw [acceptsWithin_iff_of_not_isOption h hv hid hbelow hty]
      constructor
      · exact fun hmatch => .inl ⟨0, Nat.succ_pos _, ty, .nil ty, hmatch⟩
      · rintro (⟨n, -, last, hchain, hlast⟩ | ⟨last, hchain, hlast⟩)
        · obtain ⟨-, rfl⟩ := eq_of_chain hty hchain
          exact hlast
        · exact absurd (eq_of_chain hty hchain).1 (Nat.succ_ne_zero depth)

/-- Resolution looks through one option more than evaluation. -/
theorem accepts_iff_of_faithful (hbelow : ty.Below t.size) :
    t.accepts ty (.named id) ↔ v.hasType t ty ∨
      ∃ last, t.Chain 65 ty last ∧ (last = .named id ∨ last = .unknown) := by
  rw [accepts, maxNesting, acceptsWithin_iff_chain h hv hid hbelow, Value.hasType,
    Value.maxOptions, Value.matchesWithin_iff_chain]
  simp only [Nat.lt_succ_iff]

/-- A value is of its own type. -/
theorem matchesWithin_type? : v.matchesWithin t 0 (.named id) := by
  obtain ⟨hown, -⟩ := hv.nominal h hid
  cases hk : (t.get id).kind <;> simp_all [Value.matchesWithin, TypeKind.isOwn]

end

/-! ### Modules -/

section

variable {file : Tree.File} {interner₀ interner interner' : Interner} {m : Module}
  {imports : Imports} {types : TypeTable} {errors : List ResolveError} {ty : Ty} {v : Value}
  {id : TypeId}

/-- **A type accepts the type of a value exactly if the value is of that type, or 65 options lead to
the type of the value or to the unknown type.**  That is all that the bounds on the nesting of
options do: resolution looks through 65 of them, evaluation through 64. -/
theorem accepts_iff_hasType (hm : Module.ofTree file interner₀ = (.ok m, interner))
    (hres : m.resolve imports interner = (types, errors, interner'))
    (hbelow : ty.Below types.size) (hv : v.WellFormed types) (hid : v.type? = some id) :
    types.accepts ty (.named id) ↔ v.hasType types ty ∨
      ∃ last, types.Chain 65 ty last ∧ (last = .named id ∨ last = .unknown) :=
  accepts_iff_of_faithful (Module.faithful_of_resolve hm hres) hv hid hbelow

/-- `option a { b } option b { c } …`, where the last one of `n` options lists `String`. -/
def nestedOptions (n : Nat) : Tree.File :=
  let name (i : Nat) : String := .singleton (.ofNat ('0'.toNat + i))
  ⟨"", (List.range n).map fun i => .option (name i)
    [.named (if i + 1 < n then name (i + 1) else "String") .dummy] .dummy⟩

/-- The first of 65 options that are nested accepts strings, but no string is of it. -/
theorem nestedOptions_accept_more : ∃ m interner types interner',
    (Module.ofTree (nestedOptions 65) .new = (.ok m, interner) ∧
      m.resolve .core interner = (types, [], interner')) ∧
    types.accepts (.named ⟨11⟩) .string ∧ ¬ (Value.string "a").hasType types (.named ⟨11⟩) ∧
    ∃ last, types.Chain 65 (.named ⟨11⟩) last ∧ (last = .string ∨ last = .unknown) := by
  have hok : ((nestedOptions 65).resolved? .core).any fun (_, types, _) =>
      11 < types.size ∧ types.accepts (.named ⟨11⟩) .string ∧
        ¬ (Value.string "a").hasType types (.named ⟨11⟩) := by decide +kernel
  obtain ⟨⟨m, types, interner'⟩, hok, htests⟩ := (Option.any_eq_true _ _).1 hok
  obtain ⟨interner, hm, hres⟩ := Tree.File.of_resolved? hok
  obtain ⟨hsize, haccepts, hnot⟩ := of_decide_eq_true htests
  refine ⟨m, interner, types, interner', ⟨hm, hres⟩, haccepts, hnot, ?_⟩
  exact ((accepts_iff_hasType hm hres (.named hsize) (.string "a") rfl).1
    haccepts).resolve_left hnot

/-- In a table with at most 64 options, a type accepts the type of a value exactly if the value is
of that type, however the options list each other. -/
theorem accepts_iff_hasType_of_options_le
    (hm : Module.ofTree file interner₀ = (.ok m, interner))
    (hres : m.resolve imports interner = (types, errors, interner'))
    (hbelow : ty.Below types.size) (hv : v.WellFormed types) (hid : v.type? = some id)
    (hoptions : types.options.length ≤ 64) :
    types.accepts ty (.named id) ↔ v.hasType types ty := by
  have h := Module.faithful_of_resolve hm hres
  rw [accepts_iff_of_faithful h hv hid hbelow, or_iff_left_of_imp]
  rintro ⟨last, hchain, hlast⟩
  obtain ⟨n, hn, hchain⟩ := hchain.exists_le
  refine Value.matchesWithin_iff_chain.2 ⟨n, Nat.le_trans hn hoptions, last, hchain, ?_⟩
  rcases hlast with rfl | rfl
  · exact matchesWithin_type? h hv hid
  · have hk : (types.get .unknown).kind = .unknown := h.kind_builtin (by decide)
    simp [Value.matchesWithin, Ty.unknown, hk]

end

end TypeTable

end SignalLang
