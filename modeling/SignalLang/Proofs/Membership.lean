import SignalLang.Proofs.Resolution
import SignalLang.Proofs.OptionChains

/-!
# Members of a type

An option may list other options, itself among them, so what is of a type is an inductive matter,
and the test that evaluation makes is a search with a bound.

* `TypeTable.Admits t v ty` : the type `ty` admits the value `v`, and is no option.
* `TypeTable.Member t v ty` : options lead from `ty`, in any number of steps, to a type that admits
  `v`.
* `TypeTable.hasType_iff_chain_and_member` : **the test finds the chains of at most 64 steps, and
  those are all there need be in a table with at most 64 options.**
-/

namespace SignalLang

namespace TypeTable

/-- A type that is no option admits a value: `Anything` and the unknown type admit every one,
`AnySignal` every signal, a function type what takes as many arguments, and any other type the
values whose type it is. -/
inductive Admits (t : TypeTable) (v : Value) : Ty → Prop
  | anything {id} (hk : (t.get id).kind = .anything) : Admits t v (.named id)
  | unknown {id} (hk : (t.get id).kind = .unknown) : Admits t v (.named id)
  | anySignal {id} (hk : (t.get id).kind = .anySignal) (hv : v.isSignal) : Admits t v (.named id)
  | primitive {id} (hk : (t.get id).kind = .primitive) (hv : v.type? = some id) :
    Admits t v (.named id)
  | object {id fields} (hk : (t.get id).kind = .object fields) (hv : v.type? = some id) :
    Admits t v (.named id)
  | signal {id fields result} (hk : (t.get id).kind = .signal fields result)
    (hv : v.type? = some id) : Admits t v (.named id)
  | function {params result} (hv : v.arity? t = some params.length) :
    Admits t v (.function params result)

/-- A value is of a type: the type admits it, or the type is an option with a member of which the
value is.  Nothing bounds the number of options on the way. -/
inductive Member (t : TypeTable) (v : Value) : Ty → Prop
  | admitted {ty} (h : t.Admits v ty) : Member t v ty
  | option {id members ty} (hk : (t.get id).kind = .option members) (hty : ty ∈ members)
    (h : Member t v ty) : Member t v (.named id)

variable {t : TypeTable} {v : Value} {ty last : Ty}

theorem Admits.not_isOption (h : t.Admits v ty) : ¬ t.IsOption ty := by
  rintro ⟨id, members, rfl, hk⟩
  cases h <;> simp_all

/-- Without any option to look through, the test asks whether the type admits the value. -/
theorem matchesWithin_zero_iff_admits : v.matchesWithin t 0 ty ↔ t.Admits v ty := by
  constructor
  · intro h
    cases ty with
    | function params result => exact .function (by simpa [Value.matchesWithin] using h)
    | named id =>
      cases hk : (t.get id).kind with
      | anything => exact .anything hk
      | unknown => exact .unknown hk
      | option members => simp [Value.matchesWithin, hk] at h
      | anySignal => exact .anySignal hk (by simpa [Value.matchesWithin, hk] using h)
      | primitive => exact .primitive hk (by simpa [Value.matchesWithin, hk] using h)
      | object fields => exact .object hk (by simpa [Value.matchesWithin, hk] using h)
      | signal fields result => exact .signal hk (by simpa [Value.matchesWithin, hk] using h)
  · intro h
    cases h <;> simp_all [Value.matchesWithin]

/-- To be of a type is to be admitted at the end of some chain of options. -/
theorem member_iff_chain : t.Member v ty ↔ ∃ n last, t.Chain n ty last ∧ t.Admits v last := by
  constructor
  · intro h
    induction h with
    | @admitted ty h => exact ⟨0, ty, .nil ty, h⟩
    | option hk hty _ ih =>
      obtain ⟨n, last, hchain, hlast⟩ := ih
      exact ⟨n + 1, last, .cons trivial hk hty hchain, hlast⟩
  · rintro ⟨n, last, hchain, hlast⟩
    induction hchain with
    | nil ty => exact .admitted hlast
    | cons _ hk hty _ ih => exact .option hk hty (ih hlast)

/-- The test finds the chains of at most 64 steps, and no others. -/
theorem hasType_iff_chain : v.hasType t ty ↔
    ∃ n ≤ 64, ∃ last, t.Chain n ty last ∧ t.Admits v last := by
  rw [Value.hasType, Value.maxOptions, Value.matchesWithin_iff_chain]
  simp only [matchesWithin_zero_iff_admits]

/-- In a table with at most 64 options, no chain need be longer, since those that pass an option
twice can be cut short. -/
theorem hasType_iff_member (hoptions : t.options.length ≤ 64) :
    v.hasType t ty ↔ t.Member v ty := by
  rw [hasType_iff_chain, member_iff_chain]
  constructor
  · rintro ⟨n, -, last, hchain, hlast⟩
    exact ⟨n, last, hchain, hlast⟩
  · rintro ⟨n, last, hchain, hlast⟩
    obtain ⟨n', hn', hshort⟩ := hchain.exists_le
    exact ⟨n', Nat.le_trans hn' hoptions, last, hshort, hlast⟩

/-- **A value passes the test of a type exactly if a chain of at most 64 steps, each from an option
to one of its members, leads from the type to one that is no option and admits the value.**  In a
table with at most 64 options, that is to be of the type, however the options list each other or
themselves. -/
theorem hasType_iff_chain_and_member (t : TypeTable) (v : Value) (ty : Ty) :
    (v.hasType t ty ↔
      ∃ n ≤ 64, ∃ last, t.Chain n ty last ∧ ¬ t.IsOption last ∧ t.Admits v last) ∧
    (t.options.length ≤ 64 → (v.hasType t ty ↔ t.Member v ty)) := by
  refine ⟨hasType_iff_chain.trans ?_, hasType_iff_member⟩
  constructor
  · rintro ⟨n, hn, last, hchain, hlast⟩
    exact ⟨n, hn, last, hchain, hlast.not_isOption, hlast⟩
  · rintro ⟨n, hn, last, hchain, -, hlast⟩
    exact ⟨n, hn, last, hchain, hlast⟩

/-- `option A { A, B } option B { A, String }`: both options list `A`, one of them itself. -/
def cyclicOptions : Tree.File :=
  let named (s : String) : Tree.TypeExpr := .named s .dummy
  ⟨"", [.option "A" [named "A", named "B"] .dummy, .option "B" [named "A", named "String"] .dummy]⟩

/-- Strings are of the option `A`, and numbers are not, though there are chains of any length. -/
theorem cyclicOptions_member : ∃ m interner types interner',
    (Module.ofTree cyclicOptions .new = (.ok m, interner) ∧
      m.resolve .core interner = (types, [], interner')) ∧
    types.options.length ≤ 64 ∧
    types.Member (.string "a") (.named ⟨11⟩) ∧ ¬ types.Member (.number 1) (.named ⟨11⟩) := by
  have hok : (cyclicOptions.resolved? .core).any fun (_, types, _) =>
      types.options.length ≤ 64 ∧ (Value.string "a").hasType types (.named ⟨11⟩) ∧
        ¬ (Value.number 1).hasType types (.named ⟨11⟩) := by decide +kernel
  obtain ⟨⟨m, types, interner'⟩, hok, htests⟩ := (Option.any_eq_true _ _).1 hok
  obtain ⟨interner, hm, hres⟩ := Tree.File.of_resolved? hok
  obtain ⟨hoptions, hstring, hnumber⟩ := of_decide_eq_true htests
  exact ⟨m, interner, types, interner', ⟨hm, hres⟩, hoptions,
    ((hasType_iff_chain_and_member types _ _).2 hoptions).1 hstring,
    fun h => hnumber (((hasType_iff_chain_and_member types _ _).2 hoptions).2 h)⟩

end TypeTable

end SignalLang
