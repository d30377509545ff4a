import SignalLang.Proofs.Enclosing

/-!
# What is around a node

Every node of a module is written in one other node, or at the top level.  So the nodes around it
are determined, and with them the loop or function that a `break` or `return` leaves.

* `Module.Under m around x` : the node `x` is written in the first node of `around`, which is
  written in the second one, and so on up to the top level.
* `Module.IsForest.exists_around` : **the nodes around each node are determined.**
* `Arena.below` : a node and all that is written inside, without an order.
* `Module.IsForest.sum_below` : below the declarations of a module, every node stands once.
-/

namespace SignalLang

open Code (Node)

/-- The nodes around a node of a module, the innermost first. -/
inductive Module.Under (m : Module) : List Node → Node → Prop
  | top {d} (hd : d ∈ m.decls) : m.Under [] (.decl d)
  | inner {around x y} (h : m.Under around x) (hy : y ∈ m.arena.children x) :
    m.Under (x :: around) y

/-! ### One place for each node -/

namespace Arena

variable {a : Arena} {live : List Node} {x y z : Node}

/-- What refers to something is a node. -/
theorem mem_nodes_of_mem_children (hx : x ∈ a.children y) : y ∈ a.nodes := by
  by_contra hy
  rw [children_of_notMem hy] at hx
  cases hx

/-- No node is referred to by two others. -/
theorem Owes.eq_of_mem_children (h : a.Owes live) (hy : x ∈ a.children y)
    (hz : x ∈ a.children z) : y = z := by
  have hnodup := (List.nodup_append.1 h.nodup).1
  rw [refs_eq, List.nodup_flatMap] at hnodup
  by_contra hne
  have : Std.Symm (Function.onFun List.Disjoint a.children) := ⟨fun _ _ h => List.Disjoint.symm h⟩
  exact hnodup.2.forall (mem_nodes_of_mem_children hy) (mem_nodes_of_mem_children hz) hne hy hz

/-- A node at the top level is not referred to by any other. -/
theorem Owes.notMem_children (h : a.Owes live) (hx : x ∈ live) : x ∉ a.children y := by
  intro hy
  have href : x ∈ a.refs := by
    rw [refs_eq]
    exact List.mem_flatMap.2 ⟨y, mem_nodes_of_mem_children hy, hy⟩
  exact (List.nodup_append.1 h.nodup).2.2 x href x hx rfl

end Arena

namespace Module

variable {m : Module} {around around' : List Node} {x : Node}

namespace IsForest

theorem mem_nodes_of_under (hm : m.IsForest) (h : m.Under around x) : x ∈ m.arena.nodes := by
  cases h with
  | top hd => exact hm.owes.mem_iff.1 (List.mem_append_right _ (List.mem_map_of_mem hd))
  | inner _ hy => exact hm.owes.mem_nodes hy

theorem eq_of_under (hm : m.IsForest) (h : m.Under around x) (h' : m.Under around' x) :
    around = around' := by
  induction h generalizing around' with
  | top hd =>
    cases h' with
    | top _ => rfl
    | inner _ hy => exact absurd hy (hm.owes.notMem_children (List.mem_map_of_mem hd))
  | inner _ hy ih =>
    cases h' with
    | top hd => exact absurd hy (hm.owes.notMem_children (List.mem_map_of_mem hd))
    | inner h' hz =>
      obtain rfl := hm.owes.eq_of_mem_children hy hz
      rw [ih h']

/-- Every node stands somewhere. -/
theorem exists_under (hm : m.IsForest) (hx : x ∈ m.arena.nodes) : ∃ around, m.Under around x := by
  obtain ⟨scopes, hscopes, -⟩ := hm.exists_scopes
  have hencloses := (hscopes (scopes x) x).2 ⟨hx, rfl⟩
  generalize scopes x = gs at hencloses
  clear hx hscopes
  induction hencloses with
  | top hd => exact ⟨[], .top hd⟩
  | inner _ hy ih =>
    obtain ⟨around, h⟩ := ih
    exact ⟨_, h.inner hy⟩

/-- **The nodes around each node are determined.** -/
theorem exists_around (hm : m.IsForest) : ∃ around : Node → List Node,
    ∀ xs x, m.Under xs x ↔ x ∈ m.arena.nodes ∧ xs = around x := by
  have hex : ∀ x, ∃ xs, x ∈ m.arena.nodes → m.Under xs x := fun x => by
    by_cases hx : x ∈ m.arena.nodes
    · obtain ⟨xs, h⟩ := hm.exists_under hx
      exact ⟨xs, fun _ => h⟩
    · exact ⟨[], fun h => absurd h hx⟩
  choose around haround using hex
  refine ⟨around, fun xs x => ⟨fun h => ?_, ?_⟩⟩
  · have hx := hm.mem_nodes_of_under h
    exact ⟨hx, hm.eq_of_under h (haround x hx)⟩
  · rintro ⟨hx, rfl⟩
    exact haround x hx

end IsForest

end Module

/-! ### Counting what is written in a node -/

namespace Arena

variable {a : Arena}

/-- A node and all that is written inside. -/
def below (a : Arena) (x : Node) : Multiset Node := (a.occurrences [] x).map Prod.snd

theorem below_eq (h : a.Ranked) (x : Node) :
    a.below x = x ::ₘ ((a.children x).map a.below).sum := by
  simp only [below, occurrences_eq h [] x, Multiset.map_cons, map_snd_written]
  rfl

end Arena

/-- Below the declarations of a module, every node stands once. -/
theorem Module.IsForest.sum_below {m : Module} (hm : m.IsForest) :
    (m.decls.map fun d => m.arena.below (.decl d)).sum = m.arena.nodes := by
  rw [← hm.owes.map_snd_written hm.ranked [], Arena.map_snd_written, List.map_map]
  rfl

end SignalLang
