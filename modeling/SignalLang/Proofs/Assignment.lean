import SignalLang.Proofs.Cells
import Mathlib.Data.List.Nodup
import Mathlib.Data.List.Perm.Subperm
import Mathlib.Logic.Relation

/-!
# Assignment

A `set` changes the nearest binding of a name.  Scopes are shared: a scope lies on the chains of all
scopes, closures and handlers that were created inside it.  So a `set` through one chain is seen
through others, namely through those whose nearest binding of the name is the same one.

* `Store.Outer s c d` : the scope around `c` is `d`; `Store.Acyclic s` : no scope lies around
  itself.
* `Store.Nearest s n c d` : on the chain from `c` outwards, `d` is the first scope that binds `n`.
* `Store.nearest?_eq_some_iff`, `Store.nearest?_eq_none_iff` : in an acyclic store, the search along
  a chain of bounded length misses nothing.
* `Store.lookup?_define_variable` : what each chain sees of a changed variable.
* `Store.assign_changes_one_binding` : **a `set` changes what is seen of one binding, and is refused
  where that is not the binding of a variable.**
-/

namespace SignalLang

open Relation (ReflTransGen TransGen)

namespace Store

/-! ### Chains -/

/-- The scope around `c` is `d`. -/
def Outer (s : Store) (c d : ScopeId) : Prop := (s.cell c).parent = some d

/-- No scope lies around itself. -/
def Acyclic (s : Store) : Prop := ∀ c, ¬ TransGen s.Outer c c

/-- On the chain from a scope outwards, the first scope that binds a name. -/
inductive Nearest (s : Store) (n : Name) : ScopeId → ScopeId → Prop
  | here {c} (h : (s.binding? c n).isSome) : Nearest s n c c
  | outer {c c' d} (hc : s.binding? c n = none) (hp : s.Outer c c') (h : Nearest s n c' d) :
      Nearest s n c d

variable {s : Store} {n : Name} {c d : ScopeId}

/-- Scopes that were created behind those around them do not lie around themselves. -/
theorem acyclic_of_lt (h : ∀ c d, s.Outer c d → d.index < c.index) : s.Acyclic := by
  have hlt : ∀ {c d}, TransGen s.Outer c d → d.index < c.index := by
    intro c d hcd
    induction hcd with
    | single hp => exact h _ _ hp
    | tail _ hp ih => exact Nat.lt_trans (h _ _ hp) ih
  exact fun c hc => Nat.lt_irrefl _ (hlt hc)

theorem lt_size_of_isSome (h : (s.binding? c n).isSome) : c.index < s.cells.size := by
  by_contra hc
  rw [binding?_of_size_le (Nat.le_of_not_lt hc)] at h
  cases h

theorem Nearest.isSome (h : s.Nearest n c d) : (s.binding? d n).isSome := by
  induction h with
  | here h => exact h
  | outer _ _ _ ih => exact ih

theorem Nearest.around (h : s.Nearest n c d) : ReflTransGen s.Outer c d := by
  induction h with
  | here => exact .refl
  | outer _ hp _ ih => exact .head hp ih

/-- A name that is bound somewhere on a chain has a nearest binding. -/
theorem exists_nearest (h : ReflTransGen s.Outer c d) (hd : (s.binding? d n).isSome) :
    ∃ e, s.Nearest n c e := by
  induction h using ReflTransGen.head_induction_on with
  | refl => exact ⟨d, .here hd⟩
  | @head c c' hp _ ih =>
    cases hc : s.binding? c n with
    | some b => exact ⟨c, .here (by rw [hc]; rfl)⟩
    | none =>
      obtain ⟨e, he⟩ := ih
      exact ⟨e, .outer hc hp he⟩

/-! ### The search along a chain -/

theorem nearest_of_nearestWithin {length : Nat} (h : s.nearestWithin n length c = some d) :
    s.Nearest n c d := by
  induction length generalizing c with
  | zero => cases h
  | succ length ih =>
    simp only [nearestWithin] at h
    split at h
    · rename_i hc
      cases h
      exact .here hc
    · rename_i hc
      split at h
      · rename_i parent hp
        exact .outer (Option.not_isSome_iff_eq_none.1 hc) hp (ih h)
      · cases h

/-- Different scopes are at most as many as there are. -/
theorem length_le_size {cs : List ScopeId} (hnodup : cs.Nodup)
    (hcs : ∀ c ∈ cs, c.index < s.cells.size) : cs.length ≤ s.cells.size := by
  have hinj : Function.Injective ScopeId.index := fun a b h => by
    cases a
    cases b
    exact congrArg ScopeId.mk h
  have hsub : cs.map ScopeId.index ⊆ List.range s.cells.size := by
    intro i hi
    obtain ⟨c, hc, rfl⟩ := List.mem_map.1 hi
    exact List.mem_range.2 (hcs c hc)
  simpa using ((hnodup.map hinj).subperm hsub).length_le

/-- The search gets to the nearest binding: the scopes `inside`, which it has come through, are
different ones, and so are those that it still has to come through. -/
theorem Nearest.nearestWithin (ha : s.Acyclic) (h : s.Nearest n c d) {inside : List ScopeId}
    {length : Nat} (hnodup : inside.Nodup)
    (hinside : ∀ b ∈ inside, b.index < s.cells.size ∧ TransGen s.Outer b c)
    (hlength : s.cells.size ≤ inside.length + length) : s.nearestWithin n length c = some d := by
  induction h generalizing inside length with
  | @here c hc =>
    have hnew : c ∉ inside := fun hmem => ha c (hinside c hmem).2
    have hle := length_le_size (List.nodup_cons.2 ⟨hnew, hnodup⟩) (List.forall_mem_cons.2
      ⟨lt_size_of_isSome hc, fun b hb => (hinside b hb).1⟩)
    rw [List.length_cons] at hle
    obtain ⟨length, rfl⟩ := Nat.exists_eq_add_of_lt (show 0 < length by omega)
    simp [Store.nearestWithin, hc]
  | @outer c c' d hc hp _ ih =>
    have hnew : c ∉ inside := fun hmem => ha c (hinside c hmem).2
    have hall : ∀ b ∈ c :: inside, b.index < s.cells.size := List.forall_mem_cons.2
      ⟨lt_size_of_parent hp, fun b hb => (hinside b hb).1⟩
    have hle := length_le_size (List.nodup_cons.2 ⟨hnew, hnodup⟩) hall
    rw [List.length_cons] at hle
    obtain ⟨length, rfl⟩ := Nat.exists_eq_add_of_lt (show 0 < length by omega)
    have hrest : s.nearestWithin n length c' = some d := by
      refine ih (List.nodup_cons.2 ⟨hnew, hnodup⟩) (fun b hb => ⟨hall b hb, ?_⟩) ?_
      · rcases List.mem_cons.1 hb with rfl | hb
        · exact .single hp
        · exact .tail (hinside b hb).2 hp
      · rw [List.length_cons]
        omega
    rw [Outer] at hp
    simp [Store.nearestWithin, hc, hp, hrest]

/-- **The search of an acyclic store finds the nearest binding.** -/
theorem nearest?_eq_some_iff (ha : s.Acyclic) : s.nearest? c n = some d ↔ s.Nearest n c d :=
  ⟨nearest_of_nearestWithin, fun h => h.nearestWithin ha List.nodup_nil (by simp) (by simp)⟩

/-- It finds nothing where nothing on the chain binds the name. -/
theorem nearest?_eq_none_iff (ha : s.Acyclic) :
    s.nearest? c n = none ↔ ∀ d, ReflTransGen s.Outer c d → s.binding? d n = none := by
  constructor
  · intro h d hd
    by_contra hb
    obtain ⟨e, he⟩ := exists_nearest hd (Option.isSome_iff_ne_none.2 hb)
    rw [(nearest?_eq_some_iff ha).2 he] at h
    cases h
  · intro h
    by_contra hb
    obtain ⟨d, hd⟩ := Option.ne_none_iff_exists'.1 hb
    have hnearest := nearest_of_nearestWithin hd
    have hsome := hnearest.isSome
    rw [h d hnearest.around] at hsome
    cases hsome

/-! ### Changed variables -/

section

variable {found : ScopeId} {w : Value}

/-- The nearest bindings of names are where they were. -/
theorem nearest?_define_variable (hb : s.binding? found n = some ⟨w, true⟩) (v : Value)
    (t : ScopeId) (m : Name) : (s.define found n v true).nearest? t m = s.nearest? t m := by
  have hbound : ∀ c, ((s.define found n v true).binding? c m).isSome = (s.binding? c m).isSome := by
    intro c
    rw [binding?_define]
    split
    · rename_i h
      obtain ⟨rfl, rfl, -⟩ := h
      rw [hb]
      rfl
    · rfl
  have hwithin : ∀ length t, (s.define found n v true).nearestWithin m length t =
      s.nearestWithin m length t := by
    intro length
    induction length with
    | zero => exact fun _ => rfl
    | succ length ih =>
      intro t
      simp only [Store.nearestWithin, hbound, parent_define, ih]
  rw [nearest?, nearest?, size_define, hwithin]

/-- A chain sees the new value of a variable if the nearest binding on it is that of the
variable. -/
theorem lookup?_define_variable (hb : s.binding? found n = some ⟨w, true⟩) (v : Value)
    (t : ScopeId) (m : Name) : (s.define found n v true).lookup? t m =
      if m = n ∧ s.nearest? t m = some found then some v else s.lookup? t m := by
  have hlt : found.index < s.cells.size := lt_size_of_isSome (by rw [hb]; rfl)
  simp only [lookup?, nearest?_define_variable hb]
  cases s.nearest? t m with
  | none => simp
  | some c =>
    simp only [Option.bind_some, binding?_define, hlt, and_true, Option.some.injEq]
    by_cases h : c = found ∧ m = n
    · rw [if_pos h, if_pos h.symm]
      rfl
    · rw [if_neg h, if_neg fun h' => h h'.symm]

/-- Variables stay variables, and constants constants. -/
theorem isVariable_define_variable (hb : s.binding? found n = some ⟨w, true⟩) (v : Value)
    (c : ScopeId) (m : Name) :
    ((s.define found n v true).binding? c m).map (fun b => b.isVariable) =
      (s.binding? c m).map fun b => b.isVariable := by
  rw [binding?_define]
  split
  · rename_i h
    obtain ⟨rfl, rfl, -⟩ := h
    rw [hb]
    rfl
  · rfl

end

/-! ### Assignment -/

/-- What an assignment does follows from the nearest binding. -/
theorem assign_cases (s : Store) (c : ScopeId) (n : Name) (v : Value) :
    (s.nearest? c n = none ∧ s.assign c n v = .error .undefined) ∨
    (∃ d w, s.nearest? c n = some d ∧ s.binding? d n = some ⟨w, false⟩ ∧
      s.assign c n v = .error .immutable) ∨
    (∃ d w, s.nearest? c n = some d ∧ s.binding? d n = some ⟨w, true⟩ ∧
      s.assign c n v = .ok (s.define d n v true)) := by
  cases hd : s.nearest? c n with
  | none => exact .inl ⟨rfl, by simp [assign, owner, hd, Except.map]⟩
  | some d =>
    obtain ⟨⟨w, isVariable⟩, hb⟩ :=
      Option.isSome_iff_exists.1 (nearest_of_nearestWithin hd).isSome
    cases isVariable with
    | false => exact .inr (.inl ⟨d, w, rfl, hb, by simp [assign, owner, hd, hb, Except.map]⟩)
    | true => exact .inr (.inr ⟨d, w, rfl, hb, by simp [assign, owner, hd, hb, Except.map]⟩)

end Store

/-- The `set` of a program assigns in the innermost scope, and is an error that changes nothing
where the assignment is refused. -/
theorem Eval.set_eq_assign (p : Program) (target : Name) (v : Value) (span : Span) (m : Machine) :
    set p target v span m =
      match m.store.assign m.env.current target v with
      | .ok store => (.value (), { m with store })
      | .error e =>
        (.interrupt (.fault (.newAt (assignProblem (p.interner.text target) e) span)), m) := by
  simp only [set, Store.assign]
  cases m.store.owner m.env.current target <;> rfl

namespace Store

/-- **A `set` changes one binding, which other chains may share.**  In an acyclic store, the
assignment of a value to a name, from any scope,

* gives the value to the name as it is seen from every scope whose nearest binding of the name is
  the same as for the scope of the assignment, leaves all else that is seen from any scope as it
  was, and makes no constant of a variable and no variable of a constant,
* is refused as that of a constant exactly if the nearest binding is that of a constant, whatever
  is bound further outwards,
* is refused as that of an unbound name exactly if no scope of the chain binds the name,
* and changes nothing that is seen from any scope where a program is refused it. -/
theorem assign_changes_one_binding {s : Store} (ha : s.Acyclic) (c : ScopeId) (n : Name)
    (v : Value) :
    (∀ s', s.assign c n v = .ok s' →
      (∀ t, (∃ d, s.Nearest n c d ∧ s.Nearest n t d) → s'.lookup? t n = some v) ∧
      (∀ t m, (m = n → ¬ ∃ d, s.Nearest n c d ∧ s.Nearest n t d) →
        s'.lookup? t m = s.lookup? t m) ∧
      ∀ d m, (s'.binding? d m).map (fun b => b.isVariable) =
        (s.binding? d m).map fun b => b.isVariable) ∧
    (s.assign c n v = .error .immutable ↔
      ∃ d w, s.Nearest n c d ∧ s.binding? d n = some ⟨w, false⟩) ∧
    (s.assign c n v = .error .undefined ↔
      ∀ d, ReflTransGen s.Outer c d → s.binding? d n = none) ∧
    ∀ (p : Program) (m : Machine) (span : Span) (e : AssignError), m.store = s →
      m.env.current = c → s.assign c n v = .error e →
      ∀ t k, (Eval.set p n v span m).2.store.lookup? t k = s.lookup? t k := by
  simp only [← nearest?_eq_none_iff ha, ← nearest?_eq_some_iff ha]
  refine ⟨?_, ?_, ?_, ?_⟩
  · intro s' hs'
    obtain ⟨-, h⟩ | ⟨_, _, -, -, h⟩ | ⟨d, w, hd, hb, h⟩ := s.assign_cases c n v
    · cases h.symm.trans hs'
    · cases h.symm.trans hs'
    · cases h.symm.trans hs'
      refine ⟨fun t ht => ?_, fun t m ht => ?_, isVariable_define_variable hb v⟩
      · obtain ⟨_, hc, ht⟩ := ht
        cases hd.symm.trans hc
        rw [lookup?_define_variable hb, if_pos ⟨rfl, ht⟩]
      · rw [lookup?_define_variable hb, if_neg]
        rintro ⟨rfl, hm⟩
        exact ht rfl ⟨d, hd, hm⟩
  · obtain ⟨hd, h⟩ | ⟨d, w, hd, hb, h⟩ | ⟨d, w, hd, hb, h⟩ := s.assign_cases c n v
    · simp [h, hd]
    · simp [h, hd, hb]
    · simp [h, hd, hb]
  · obtain ⟨hd, h⟩ | ⟨d, w, hd, hb, h⟩ | ⟨d, w, hd, hb, h⟩ := s.assign_cases c n v
    · simp [h, hd]
    · simp [h, hd]
    · simp [h, hd]
  · rintro p m span e rfl rfl h t k
    rw [Eval.set_eq_assign, h]

/-- A scope that binds a name as a variable, two scopes inside it, the second of which binds the
name as a constant, and a scope inside that one. -/
def shadowing : Store where
  cells := #[⟨none, [(.empty, ⟨.action, true⟩)]⟩, ⟨some ⟨0⟩, []⟩,
    ⟨some ⟨0⟩, [(.empty, ⟨.action, false⟩)]⟩, ⟨some ⟨2⟩, []⟩]
  nextIdentity := 0

/-- A `set` through the first inner scope is seen from the outer one and not through the shadow; one
from behind the shadow is refused, although the outer binding is that of a variable. -/
theorem shadowing_assign :
    shadowing.Acyclic ∧
    (∃ s', shadowing.assign ⟨1⟩ .empty (.string "new") = .ok s' ∧
      s'.lookup? ⟨0⟩ .empty = some (.string "new") ∧ s'.lookup? ⟨3⟩ .empty = some .action) ∧
    shadowing.assign ⟨3⟩ .empty (.string "new") = .error .immutable := by
  have ha : shadowing.Acyclic := by
    refine acyclic_of_lt fun c d hp => ?_
    have hlt : c.index < 4 := lt_size_of_parent hp
    obtain ⟨i⟩ := c
    obtain rfl | rfl | rfl | rfl : i = 0 ∨ i = 1 ∨ i = 2 ∨ i = 3 := by simp only at hlt; omega
    all_goals cases hp <;> decide
  have hnear : ∀ {c d}, shadowing.nearest? c .empty = some d → shadowing.Nearest .empty c d :=
    (nearest?_eq_some_iff ha).1
  have hfar : shadowing.nearest? ⟨3⟩ .empty = some ⟨2⟩ := by decide
  refine ⟨ha, ⟨_, rfl, ?_, ?_⟩, ?_⟩
  · exact ((assign_changes_one_binding ha ⟨1⟩ .empty (.string "new")).1 _ rfl).1 ⟨0⟩
      ⟨⟨0⟩, hnear (by decide), hnear (by decide)⟩
  · refine (((assign_changes_one_binding ha ⟨1⟩ .empty (.string "new")).1 _ rfl).2.1 ⟨3⟩ _
      fun _ => ?_).trans rfl
    rintro ⟨d, hd, hd'⟩
    rw [← nearest?_eq_some_iff ha] at hd hd'
    rw [hfar] at hd'
    cases hd'
    exact absurd hd (by decide)
  · exact (assign_changes_one_binding ha ⟨3⟩ .empty (.string "new")).2.1.2
      ⟨⟨2⟩, .action, hnear hfar, rfl⟩

end Store

end SignalLang
