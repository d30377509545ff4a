import SignalLang.Proofs.Assignment

/-!
# Chains of scopes

Scopes refer to each other in two ways: as the scope around another one, and through the closures
that they bind, which may well have captured the scope that binds them.  Reading and writing a name
follows the first way only.  So what matters is that the chain from a scope outwards has an end.

* `Store.ChainFrom s c cs` : from `c` outwards the scopes are `cs`, and no scope is around the last
  one.
* `Store.lookupWithin`, `Store.assignHolding` : the recursions along a chain that read and write a
  name, where a bound on their depth can run out, and where a write keeps each scope that it has
  come through to itself.
* `Store.ChainFrom.nodup` : **a chain that has an end visits no scope twice.**
* `Store.ChainFrom.lookupWithin_eq`, `Store.ChainFrom.assignHolding_eq` : **along such a chain both
  recursions end, and a write never comes to a scope that it holds already.**
* `Store.ChainFrom.lookup?_last` : what the last scope of a chain binds is visible from the first.
-/

namespace SignalLang

namespace Store

/-! ### The recursions -/

/-- The value of a name, by a recursion along the chain that goes on for `length` scopes at most;
`none` if that is not enough. -/
def lookupWithin (s : Store) (n : Name) : Nat → ScopeId → Option (Option Value)
  | 0, _ => none
  | length + 1, c =>
    match s.binding? c n with
    | some b => some (some b.value)
    | none =>
      match (s.cell c).parent with
      | some d => s.lookupWithin n length d
      | none => some none

/-- An assignment, by a recursion along the chain that goes on for `length` scopes at most.  Each
scope is held until the recursion returns; `none` if it comes to one of the scopes that are held, or
if the length is not enough. -/
def assignHolding (s : Store) (n : Name) (v : Value) :
    Nat → List ScopeId → ScopeId → Option (Except AssignError Store)
  | 0, _, _ => none
  | length + 1, held, c =>
    if c ∈ held then none
    else
      match s.binding? c n with
      | some b => some (if b.isVariable then .ok (s.define c n v true) else .error .immutable)
      | none =>
        match (s.cell c).parent with
        | some d => s.assignHolding n v length (c :: held) d
        | none => some (.error .undefined)

/-! ### Chains -/

/-- The scopes from `c` outwards, up to one that has no scope around it. -/
inductive ChainFrom (s : Store) : ScopeId → List ScopeId → Prop
  | last {c} (hc : c.index < s.cells.size) (hp : (s.cell c).parent = none) : ChainFrom s c [c]
  | outer {c d cs} (hp : s.Outer c d) (h : ChainFrom s d cs) : ChainFrom s c (c :: cs)

variable {s : Store} {c d r : ScopeId} {cs cs' : List ScopeId} {n : Name} {length : Nat}

namespace ChainFrom

theorem unique (h : s.ChainFrom c cs) (h' : s.ChainFrom c cs') : cs = cs' := by
  induction h generalizing cs' with
  | last hc hp =>
    cases h' with
    | last => rfl
    | outer hp' => cases hp.symm.trans hp'
  | outer hp _ ih =>
    cases h' with
    | last _ hp' => cases hp'.symm.trans hp
    | outer hp' h' =>
      cases hp.symm.trans hp'
      rw [ih h']

theorem lt_size (h : s.ChainFrom c cs) : ∀ d ∈ cs, d.index < s.cells.size := by
  induction h with
  | last hc _ => simpa using hc
  | outer hp _ ih => exact List.forall_mem_cons.2 ⟨lt_size_of_parent hp, ih⟩

theorem ne_nil (h : s.ChainFrom c cs) : cs ≠ [] := by
  cases h <;> simp

theorem head_mem (h : s.ChainFrom c cs) : c ∈ cs := by
  cases h <;> exact List.mem_cons_self

/-- The chain from a scope of a chain is the rest of it. -/
theorem of_mem (h : s.ChainFrom c cs) (hd : d ∈ cs) : ∃ ds, ds <:+ cs ∧ s.ChainFrom d ds := by
  induction h with
  | last hc hp =>
    cases List.mem_singleton.1 hd
    exact ⟨_, List.suffix_rfl, .last hc hp⟩
  | outer hp h ih =>
    rcases List.mem_cons.1 hd with rfl | hd
    · exact ⟨_, List.suffix_rfl, .outer hp h⟩
    · obtain ⟨ds, hsuffix, hds⟩ := ih hd
      exact ⟨ds, hsuffix.trans (List.suffix_cons _ _), hds⟩

/-- **A chain that has an end visits no scope twice.**  From a scope that came up again, the rest of
the chain would be as long as the whole. -/
theorem nodup (h : s.ChainFrom c cs) : cs.Nodup := by
  induction h with
  | last => simp
  | @outer c d cs hp h ih =>
    refine List.nodup_cons.2 ⟨fun hmem => ?_, ih⟩
    obtain ⟨ds, hsuffix, hds⟩ := h.of_mem hmem
    have hle := hsuffix.length_le
    rw [hds.unique (.outer hp h), List.length_cons] at hle
    omega

theorem length_le (h : s.ChainFrom c cs) : cs.length ≤ s.cells.size :=
  length_le_size h.nodup h.lt_size

/-- A chain stays where the scopes around its scopes stay. -/
theorem mono (h : s.ChainFrom c cs) {s' : Store} (hsize : s.cells.size ≤ s'.cells.size)
    (hparent : ∀ d : ScopeId, d.index < s.cells.size → (s'.cell d).parent = (s.cell d).parent) :
    s'.ChainFrom c cs := by
  induction h with
  | last hc hp => exact .last (Nat.lt_of_lt_of_le hc hsize) ((hparent _ hc).trans hp)
  | outer hp _ ih => exact .outer ((hparent _ (lt_size_of_parent hp)).trans hp) ih

/-! ### Searching along a chain -/

theorem nearestWithin_eq (h : s.ChainFrom c cs) (hlength : cs.length ≤ length) :
    s.nearestWithin n length c = cs.find? fun d => (s.binding? d n).isSome := by
  induction h generalizing length with
  | last _ hp =>
    obtain ⟨length, rfl⟩ := Nat.exists_eq_add_of_lt hlength
    simp only [Store.nearestWithin, hp, List.find?_cons, List.find?_nil]
    split <;> simp_all
  | @outer c d cs hp h ih =>
    obtain ⟨length, rfl⟩ := Nat.exists_eq_add_of_lt hlength
    rw [Outer] at hp
    simp only [Store.nearestWithin, hp, List.find?_cons]
    split
    · simp_all
    · rw [ih (by omega)]
      simp_all

theorem nearest?_eq (h : s.ChainFrom c cs) :
    s.nearest? c n = cs.find? fun d => (s.binding? d n).isSome :=
  h.nearestWithin_eq h.length_le

theorem nearest?_self (h : s.ChainFrom c cs) {b : Binding} (hb : s.binding? c n = some b) :
    s.nearest? c n = some c := by
  rw [h.nearest?_eq]
  cases h <;> simp [hb]

/-- Where a scope does not bind a name, the search goes on from the scope around it. -/
theorem nearest?_outer (h : s.ChainFrom d cs) (hp : s.Outer c d) (hb : s.binding? c n = none) :
    s.nearest? c n = s.nearest? d n := by
  rw [(outer hp h).nearest?_eq, h.nearest?_eq, List.find?_cons_of_neg (by simp [hb])]

theorem nearest?_none (hc : c.index < s.cells.size) (hp : (s.cell c).parent = none)
    (hb : s.binding? c n = none) : s.nearest? c n = none := by
  rw [(last hc hp).nearest?_eq, List.find?_cons_of_neg (by simp [hb]), List.find?_nil]

theorem lookup?_self (h : s.ChainFrom c cs) {b : Binding} (hb : s.binding? c n = some b) :
    s.lookup? c n = some b.value := by
  simp [lookup?, h.nearest?_self hb, hb]

theorem lookup?_outer (h : s.ChainFrom d cs) (hp : s.Outer c d) (hb : s.binding? c n = none) :
    s.lookup? c n = s.lookup? d n := by
  simp only [lookup?, h.nearest?_outer hp hb]

theorem assign_self (h : s.ChainFrom c cs) {b : Binding} (hb : s.binding? c n = some b)
    (v : Value) : s.assign c n v =
      if b.isVariable then .ok (s.define c n v true) else .error .immutable := by
  simp only [assign, owner, h.nearest?_self hb, hb]
  split <;> rfl

theorem assign_outer (h : s.ChainFrom d cs) (hp : s.Outer c d) (hb : s.binding? c n = none)
    (v : Value) : s.assign c n v = s.assign d n v := by
  simp only [assign, owner, h.nearest?_outer hp hb]

/-- **Looking a name up comes to an end**, at the latest at the end of the chain. -/
theorem lookupWithin_eq (h : s.ChainFrom c cs) (hlength : cs.length ≤ length) :
    s.lookupWithin n length c = some (s.lookup? c n) := by
  induction h generalizing length with
  | @last c hc hp =>
    obtain ⟨length, rfl⟩ := Nat.exists_eq_add_of_lt hlength
    cases hb : s.binding? c n with
    | some b => simp [Store.lookupWithin, hb, (last hc hp).lookup?_self hb]
    | none => simp [Store.lookupWithin, hb, hp, lookup?, nearest?_none hc hp hb]
  | @outer c d cs hp h ih =>
    obtain ⟨length, rfl⟩ := Nat.exists_eq_add_of_lt hlength
    cases hb : s.binding? c n with
    | some b => simp [Store.lookupWithin, hb, (outer hp h).lookup?_self hb]
    | none =>
      have hrest : s.lookupWithin n (cs.length + length) d = some (s.lookup? d n) := ih (by omega)
      rw [h.lookup?_outer hp hb, ← hrest]
      rw [Outer] at hp
      simp [Store.lookupWithin, hb, hp]

/-- **So does assigning a value to it, and it never comes to a scope that it holds already.** -/
theorem assignHolding_eq (h : s.ChainFrom c cs) (v : Value) {held : List ScopeId}
    (hheld : ∀ d ∈ cs, d ∉ held) (hlength : cs.length ≤ length) :
    s.assignHolding n v length held c = some (s.assign c n v) := by
  have hnodup := h.nodup
  induction h generalizing length held with
  | @last c hc hp =>
    obtain ⟨length, rfl⟩ := Nat.exists_eq_add_of_lt hlength
    have hfree : c ∉ held := hheld c List.mem_cons_self
    cases hb : s.binding? c n with
    | some b => simp [Store.assignHolding, hfree, hb, (last hc hp).assign_self hb]
    | none =>
      simp [Store.assignHolding, hfree, hb, hp, assign, owner, nearest?_none hc hp hb, Except.map]
  | @outer c d cs hp h ih =>
    obtain ⟨length, rfl⟩ := Nat.exists_eq_add_of_lt hlength
    obtain ⟨hc, hnodup⟩ := List.nodup_cons.1 hnodup
    obtain ⟨hfree, hheld⟩ := List.forall_mem_cons.1 hheld
    cases hb : s.binding? c n with
    | some b => simp [Store.assignHolding, hfree, hb, (outer hp h).assign_self hb]
    | none =>
      -- no scope of the rest is `c`, so holding `c` as well does not matter
      have hrest : s.assignHolding n v (cs.length + length) (c :: held) d =
          some (s.assign d n v) := by
        refine ih (fun e he hmem => ?_) (by omega) hnodup
        rcases List.mem_cons.1 hmem with rfl | hmem
        · exact hc he
        · exact hheld e he hmem
      rw [h.assign_outer hp hb, ← hrest]
      rw [Outer] at hp
      simp [Store.assignHolding, hfree, hb, hp]

/-- What the last scope of a chain binds is visible unless another scope of the chain binds it. -/
theorem lookup?_last (h : s.ChainFrom c cs) (hr : cs.getLast? = some r)
    (hfree : ∀ d ∈ cs, d ≠ r → s.binding? d n = none) {b : Binding}
    (hb : s.binding? r n = some b) : s.lookup? c n = some b.value := by
  induction h with
  | @last c hc hp =>
    obtain rfl : c = r := by simpa using hr
    exact (last hc hp).lookup?_self hb
  | @outer c d cs hp h ih =>
    by_cases hcr : c = r
    · subst hcr
      exact (outer hp h).lookup?_self hb
    · obtain ⟨hc, hfree⟩ := List.forall_mem_cons.1 hfree
      rw [h.lookup?_outer hp (hc hcr)]
      refine ih ?_ hfree
      rwa [List.getLast?_cons_of_ne_nil h.ne_nil] at hr

end ChainFrom

end Store

end SignalLang
