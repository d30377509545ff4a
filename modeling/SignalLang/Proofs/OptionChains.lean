import SignalLang.Value.Matching
import Mathlib.Data.List.Basic

/-!
# Chains of options

An option lists other types, which can be options again, also itself.  To find out whether a value
is of such a type, one looks for a chain of options that leads to a type without members.

* `TypeTable.Chain t n ty last` : `n` steps lead from the type `ty` over options to `last`.
* `Value.matchesWithin_iff_chain` : **a value is of a type if a chain of bounded length leads to a
  type that admits it.**
* `TypeTable.Chain.exists_le` : chains that visit an option twice can do without.
-/

namespace SignalLang

namespace TypeTable

/-- A type is an option. -/
def IsOption (t : TypeTable) (ty : Ty) : Prop :=
  ∃ id members, ty = .named id ∧ (t.get id).kind = .option members

/-- `n` steps, each from an option in `options` to one of its members, lead from the type `ty` to
`last`. -/
inductive ChainIn (t : TypeTable) (options : TypeId → Prop) : Nat → Ty → Ty → Prop
  | nil (ty) : ChainIn t options 0 ty ty
  | cons {n id members ty last} (hid : options id) (hk : (t.get id).kind = .option members)
    (hty : ty ∈ members) (h : ChainIn t options n ty last) :
    ChainIn t options (n + 1) (.named id) last

/-- `n` steps, each from an option to one of its members, lead from the type `ty` to `last`. -/
abbrev Chain (t : TypeTable) : Nat → Ty → Ty → Prop := t.ChainIn fun _ => True

/-- The options of a table. -/
def options (t : TypeTable) : List TypeId :=
  ((List.range t.size).map fun i => (⟨i⟩ : TypeId)).filter fun id =>
    match (t.get id).kind with
    | .option _ => true
    | _ => false

variable {t : TypeTable} {n : Nat} {ty last : Ty}

theorem chain_succ_iff {id : TypeId} {members : List Ty} (hk : (t.get id).kind = .option members) :
    t.Chain (n + 1) (.named id) last ↔ ∃ ty ∈ members, t.Chain n ty last := by
  constructor
  · intro h
    cases h with
    | cons _ hk' hty h =>
      cases hk.symm.trans hk'
      exact ⟨_, hty, h⟩
  · rintro ⟨ty, hty, h⟩
    exact .cons trivial hk hty h

/-- No chain goes on from a type that is no option. -/
theorem eq_of_chain (hty : ¬ t.IsOption ty) (h : t.Chain n ty last) : n = 0 ∧ last = ty := by
  cases h with
  | nil => exact ⟨rfl, rfl⟩
  | cons _ hk _ _ => exact absurd ⟨_, _, rfl, hk⟩ hty

theorem mem_options {id : TypeId} {members : List Ty} (hk : (t.get id).kind = .option members) :
    id ∈ t.options := by
  have hid : id.index < t.size := by
    refine Nat.lt_of_not_le fun hle => ?_
    simp [get, Array.getD_eq_getD_getElem?, Array.getElem?_eq_none hle] at hk
  refine List.mem_filter.2 ⟨List.mem_map.2 ⟨id.index, List.mem_range.2 hid, rfl⟩, ?_⟩
  rw [hk]

/-! ### Short chains -/

theorem ChainIn.mono {options options' : TypeId → Prop} (h : t.ChainIn options n ty last)
    (hsub : ∀ id, options id → options' id) : t.ChainIn options' n ty last := by
  induction h with
  | nil ty => exact .nil ty
  | cons hid hk hty _ ih => exact .cons (hsub _ hid) hk hty ih

/-- A chain either avoids an option, or it does so behind its last visit. -/
theorem ChainIn.avoids {options : TypeId → Prop} (h : t.ChainIn options n ty last) (id : TypeId) :
    t.ChainIn (fun i => options i ∧ i ≠ id) n ty last ∨
      ∃ members ty' n', (t.get id).kind = .option members ∧ ty' ∈ members ∧
        t.ChainIn (fun i => options i ∧ i ≠ id) n' ty' last := by
  induction h with
  | nil ty => exact .inl (.nil ty)
  | @cons n i members ty last hi hk hty _ ih =>
    rcases ih with ih | ih
    · by_cases hne : i = id
      · subst hne
        exact .inr ⟨members, ty, n, hk, hty, ih⟩
      · exact .inl (.cons ⟨hi, hne⟩ hk hty ih)
    · exact .inr ih

/-- Along some options, no more steps are needed than there are options. -/
theorem ChainIn.exists_le_length {options : List TypeId} (h : t.ChainIn (· ∈ options) n ty last) :
    ∃ n' ≤ options.length, t.ChainIn (· ∈ options) n' ty last := by
  induction hlen : options.length generalizing options n ty with
  | zero =>
    cases h with
    | nil => exact ⟨0, Nat.le_refl _, .nil _⟩
    | cons hid => simp [List.length_eq_zero_iff.1 hlen] at hid
  | succ k ih =>
    cases h with
    | nil => exact ⟨0, Nat.zero_le _, .nil _⟩
    | @cons n id members ty _ hid hk hty h =>
      -- behind the last visit of `id`, there is one option less
      obtain ⟨ty', n', hty', h'⟩ : ∃ ty' n', ty' ∈ members ∧
          t.ChainIn (fun i => i ∈ options ∧ i ≠ id) n' ty' last := by
        rcases h.avoids id with h | ⟨members', ty', n', hk', hty', h⟩
        · exact ⟨ty, n, hty, h⟩
        · cases hk.symm.trans hk'
          exact ⟨ty', n', hty', h⟩
      have hsub : ∀ i, i ∈ options ∧ i ≠ id → i ∈ options.erase id := fun i hi =>
        (List.mem_erase_of_ne hi.2).2 hi.1
      have hlen' : (options.erase id).length = k := by
        rw [List.length_erase_of_mem hid, hlen]
        rfl
      obtain ⟨n'', hle, h''⟩ := ih (h'.mono hsub) hlen'
      exact ⟨n'' + 1, by omega, .cons hid hk hty' (h''.mono fun i hi => List.mem_of_mem_erase hi)⟩

/-- **No more steps are needed than there are options in the table.** -/
theorem Chain.exists_le (h : t.Chain n ty last) :
    ∃ n' ≤ t.options.length, t.Chain n' ty last := by
  have hin : t.ChainIn (· ∈ t.options) n ty last := by
    induction h with
    | nil ty => exact .nil ty
    | cons _ hk hty _ ih => exact .cons (mem_options hk) hk hty ih
  obtain ⟨n', hle, h'⟩ := hin.exists_le_length
  exact ⟨n', hle, h'.mono fun _ _ => trivial⟩

end TypeTable

/-! ### Values -/

namespace Value

variable {t : TypeTable} {v : Value}

theorem matchesWithin_option {id : TypeId} {members : List Ty}
    (hk : (t.get id).kind = .option members) (depth : Nat) :
    v.matchesWithin t (depth + 1) (.named id) ↔ ∃ ty ∈ members, v.matchesWithin t depth ty := by
  simp [matchesWithin, hk]

/-- The bound makes a difference to options only. -/
theorem matchesWithin_eq_zero {ty : Ty} (hty : ¬ t.IsOption ty) (depth : Nat) :
    v.matchesWithin t depth ty = v.matchesWithin t 0 ty := by
  cases ty with
  | function params result => simp [matchesWithin]
  | named id =>
    cases hk : (t.get id).kind with
    | option members => exact absurd ⟨id, members, rfl, hk⟩ hty
    | _ => simp [matchesWithin, hk]

/-- **A value is of a type, looking through some levels of options, if a chain of at most as many
steps leads to a type that admits it.** -/
theorem matchesWithin_iff_chain {depth : Nat} {ty : Ty} :
    v.matchesWithin t depth ty ↔
      ∃ n ≤ depth, ∃ last, t.Chain n ty last ∧ v.matchesWithin t 0 last := by
  by_cases hty : t.IsOption ty
  · obtain ⟨id, members, rfl, hk⟩ := hty
    have hzero : ¬ v.matchesWithin t 0 (.named id) := by simp [matchesWithin, hk]
    cases depth with
    | zero =>
      refine ⟨fun h => absurd h hzero, ?_⟩
      rintro ⟨n, hn, last, h, hlast⟩
      obtain rfl := Nat.le_zero.1 hn
      cases h
      exact hlast
    | succ depth =>
      rw [matchesWithin_option hk]
      constructor
      · rintro ⟨ty, hty, h⟩
        obtain ⟨n, hn, last, h, hlast⟩ := matchesWithin_iff_chain.1 h
        exact ⟨n + 1, by omega, last, .cons trivial hk hty h, hlast⟩
      · rintro ⟨n, hn, last, h, hlast⟩
        cases n with
        | zero =>
          cases h
          exact absurd hlast hzero
        | succ n =>
          obtain ⟨ty, hty, h⟩ := (TypeTable.chain_succ_iff hk).1 h
          exact ⟨ty, hty, matchesWithin_iff_chain.2 ⟨n, by omega, last, h, hlast⟩⟩
  · rw [matchesWithin_eq_zero hty]
    constructor
    · exact fun h => ⟨0, Nat.zero_le _, ty, .nil ty, h⟩
    · rintro ⟨n, -, last, h, hlast⟩
      obtain ⟨-, rfl⟩ := TypeTable.eq_of_chain hty h
      exact hlast
termination_by depth

end Value

end SignalLang
