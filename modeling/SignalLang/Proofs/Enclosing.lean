import SignalLang.Proofs.Forest
import Mathlib.Algebra.BigOperators.Group.Multiset.Basic

/-!
# Enclosing scopes

The declarations of a module, and those of each block, are in scope in all that is written inside.
Every node of a module is written at one place, so that the scopes around it are determined.

* `Module.Encloses m scopes x` : `scopes` are the scopes around the node `x`.
* `Arena.occurrences` : a node and all that is written inside, each with the scopes around it.
* `Module.map_snd_occurrences` : **every node of a module occurs exactly once.**
-/

namespace SignalLang

open Code (Node)

/-- What the scopes around a place declare, the innermost first. -/
abbrev Code.Scopes := List (List DeclId)

/-- A node, with the scopes around it. -/
abbrev Code.Occurrence := Code.Scopes × Node

open Code (Scopes Occurrence)

namespace Arena

variable {a : Arena}

/-- The nodes to which a node refers. -/
def children (a : Arena) : Node → List Node
  | .expr id => (a.expr id).kind.children
  | .decl d => (a.decl d).kind.children
  | .typeRef r => (a.typeRef r).kind.children

/-- The scopes around what is written in a node.  Every expression opens a scope, but only blocks
declare something in it. -/
def inside (a : Arena) (scopes : Scopes) : Node → Scopes
  | .expr id => (a.expr id).kind.decls :: scopes
  | .decl _ | .typeRef _ => scopes

end Arena

/-- The scopes around a node of a module. -/
inductive Module.Encloses (m : Module) : Scopes → Node → Prop
  | top {d} (hd : d ∈ m.decls) : m.Encloses [m.decls] (.decl d)
  | inner {scopes x y} (h : m.Encloses scopes x) (hy : y ∈ m.arena.children x) :
    m.Encloses (m.arena.inside scopes x) y

namespace Arena

variable {a : Arena}

/-! ### Ranks -/

/-- A bound on the nesting of what is written in a node.  A declaration ranks between its expression
and the block around it. -/
def rank (a : Arena) : Node → Nat
  | .typeRef r => r.index
  | .decl d =>
    match (a.decl d).kind.subexprs with
    | [] => a.typeRefs.size
    | e :: _ => a.typeRefs.size + 2 * e.index + 2
  | .expr id => a.typeRefs.size + 2 * id.index + 1

/-- Nodes have a higher rank than those to which they refer. -/
def Ranked (a : Arena) : Prop := ∀ x, ∀ y ∈ a.children x, a.rank y < a.rank x

theorem mem_subexprs_of_mem_children {kind : Code.ExprKind} {e : ExprId}
    (h : Node.expr e ∈ kind.children) : e ∈ kind.subexprs := by
  cases kind with
  | block body =>
    obtain ⟨st, hst, he⟩ := List.mem_flatMap.1 h
    refine List.mem_flatMap.2 ⟨st, hst, ?_⟩
    cases hk : st.kind <;> simp_all
  | branch subject arms =>
    rcases List.mem_append.1 h with h | h
    · exact List.mem_append_left _ (by simpa using h)
    · obtain ⟨arm, harm, he⟩ := List.mem_flatMap.1 h
      refine List.mem_append_right _ (List.mem_flatMap.2 ⟨arm, harm, ?_⟩)
      cases hk : arm.kind <;> simp_all
  | _ => simp_all

theorem mem_decls_of_mem_children {kind : Code.ExprKind} {d : DeclId}
    (h : Node.decl d ∈ kind.children) : d ∈ kind.decls := by
  cases kind with
  | block body =>
    obtain ⟨st, hst, hd⟩ := List.mem_flatMap.1 h
    refine mem_declsOf.2 ⟨st, hst, ?_⟩
    cases hk : st.kind <;> simp_all
  | branch subject arms =>
    rcases List.mem_append.1 h with h | h
    · simp at h
    · obtain ⟨arm, -, hd⟩ := List.mem_flatMap.1 h
      cases hk : arm.kind <;> simp_all
  | _ => simp_all

/-- A declaration refers to expressions and written types only. -/
theorem mem_children_decl {kind : Code.DeclKind} {y : Node} (h : y ∈ kind.children) :
    (∃ e ∈ kind.subexprs, y = .expr e) ∨ ∃ r, y = .typeRef r := by
  cases kind <;> simp_all <;> aesop

theorem mem_nodes_expr {id : ExprId} : .expr id ∈ a.nodes ↔ id.index < a.exprs.size := by
  obtain ⟨i⟩ := id
  simp [nodes]

theorem mem_nodes_decl {d : DeclId} : .decl d ∈ a.nodes ↔ d.index < a.decls.size := by
  obtain ⟨i⟩ := d
  simp [nodes]

theorem mem_nodes_typeRef {r : TypeRefId} : .typeRef r ∈ a.nodes ↔ r.index < a.typeRefs.size := by
  obtain ⟨i⟩ := r
  simp [nodes]

/-- What was never numbered refers to nothing. -/
theorem children_of_notMem {x : Node} (h : x ∉ a.nodes) : a.children x = [] := by
  cases x with
  | expr id => simp [children, expr, Array.getD_eq_getD_getElem?, mt mem_nodes_expr.2 h]
  | decl d => simp [children, decl, Array.getD_eq_getD_getElem?, mt mem_nodes_decl.2 h]
  | typeRef r => simp [children, typeRef, Array.getD_eq_getD_getElem?, mt mem_nodes_typeRef.2 h]

theorem refs_eq (a : Arena) : a.refs = a.nodes.flatMap a.children := by
  have hlist : ∀ {α : Type} (xs : Array α) (f : α → List Node) (get : Nat → α)
      (_ : ∀ i (h : i < xs.size), get i = xs[i]),
      xs.toList.flatMap f = (List.range xs.size).flatMap fun i => f (get i) := by
    intro α xs f get hget
    have hxs : xs.toList = (List.range xs.size).map get :=
      List.ext_getElem (by simp) fun i hi _ => by simp [hget i (by simpa using hi)]
    rw [hxs, List.flatMap_map]
  simp only [refs, nodes, List.flatMap_append, List.flatMap_map]
  congr 1
  · congr 1
    · exact hlist a.exprs _ (fun i => a.expr ⟨i⟩) fun i h => by
        simp [expr, Array.getD_eq_getD_getElem?, h]
    · exact hlist a.decls _ (fun i => a.decl ⟨i⟩) fun i h => by
        simp [decl, Array.getD_eq_getD_getElem?, h]
  · exact hlist a.typeRefs _ (fun i => a.typeRef ⟨i⟩) fun i h => by
      simp [typeRef, Array.getD_eq_getD_getElem?, h]

/-- Nodes refer to nodes. -/
theorem Owes.mem_nodes {live : List Node} (h : a.Owes live) {x y : Node} (hy : y ∈ a.children x) :
    y ∈ a.nodes := by
  have hx : x ∈ a.nodes := by
    by_contra hx
    rw [children_of_notMem hx] at hy
    cases hy
  refine h.mem_iff.1 (List.mem_append_left _ ?_)
  rw [refs_eq]
  exact List.mem_flatMap.2 ⟨x, hx, hy⟩

theorem Owes.ranked {live : List Node} (h : a.Owes live) (hnum : a.Numbered) : a.Ranked := by
  intro x y hy
  have hmem := h.mem_nodes hy
  cases x with
  | typeRef r =>
    have hparts : ∀ q ∈ (a.typeRef r).kind.parts, q.index < r.index := hnum.types r
    simp only [children] at hy
    cases hk : (a.typeRef r).kind with
    | named n => simp [hk] at hy
    | function params result =>
      rw [hk] at hy hparts
      simp only [Code.TypeRefKind.children, List.mem_append, List.mem_map,
        List.mem_singleton] at hy
      rcases hy with ⟨q, hq, rfl⟩ | rfl
      · exact hparts q (List.mem_append_left _ hq)
      · exact hparts result (List.mem_append_right _ (List.mem_singleton_self _))
  | decl d =>
    rcases mem_children_decl hy with ⟨e, he, rfl⟩ | ⟨r, rfl⟩
    · have hsingle : (a.decl d).kind.subexprs = [e] := by
        cases hk : (a.decl d).kind <;> simp_all
      simp only [rank, hsingle]
      omega
    · have hr := mem_nodes_typeRef.1 hmem
      simp only [rank]
      split <;> omega
  | expr id =>
    cases y with
    | expr e =>
      have hlt := hnum.exprs id e (mem_subexprs_of_mem_children hy)
      simp only [rank]
      omega
    | decl d =>
      obtain ⟨-, hsub⟩ := hnum.decls id d (mem_decls_of_mem_children hy)
      simp only [rank]
      split
      · omega
      · rename_i e es hsubexprs
        have hlt := hsub e (by rw [hsubexprs]; exact List.mem_cons_self ..)
        omega
    | typeRef r =>
      have hr := mem_nodes_typeRef.1 hmem
      simp only [rank]
      omega

/-! ### Occurrences -/

/-- A node and all that is written inside to at most some depth, with the scopes around it. -/
def occurrencesWithin (a : Arena) : Nat → Scopes → Node → Multiset Occurrence
  | 0, _, _ => 0
  | depth + 1, scopes, x =>
    (scopes, x) ::ₘ ((a.children x).map (a.occurrencesWithin depth (a.inside scopes x))).sum

/-- A node and all that is written inside, with the scopes around it. -/
def occurrences (a : Arena) (scopes : Scopes) (x : Node) : Multiset Occurrence :=
  a.occurrencesWithin (a.rank x + 1) scopes x

/-- Several nodes of the same scopes, and all that is written inside. -/
def written (a : Arena) (scopes : Scopes) (xs : List Node) : Multiset Occurrence :=
  (xs.map (a.occurrences scopes)).sum

@[simp] theorem written_nil (scopes : Scopes) : a.written scopes [] = 0 := rfl

@[simp] theorem written_cons (scopes : Scopes) (x : Node) (xs : List Node) :
    a.written scopes (x :: xs) = a.occurrences scopes x + a.written scopes xs := by
  simp [written]

@[simp] theorem written_append (scopes : Scopes) (xs ys : List Node) :
    a.written scopes (xs ++ ys) = a.written scopes xs + a.written scopes ys := by
  simp [written]

theorem written_map {α : Type} (scopes : Scopes) (f : α → Node) (xs : List α) :
    a.written scopes (xs.map f) = (xs.map fun x => a.occurrences scopes (f x)).sum := by
  rw [written, List.map_map]
  rfl

theorem written_flatMap {α : Type} (scopes : Scopes) (f : α → List Node) (xs : List α) :
    a.written scopes (xs.flatMap f) = (xs.map fun x => a.written scopes (f x)).sum := by
  induction xs with
  | nil => rfl
  | cons x xs ih => rw [List.flatMap_cons, written_append, ih, List.map_cons, List.sum_cons]

/-- Any depth beyond the rank is deep enough. -/
theorem occurrencesWithin_eq (h : a.Ranked) {depth depth' : Nat} {scopes : Scopes} {x : Node}
    (hdepth : a.rank x < depth) (hdepth' : a.rank x < depth') :
    a.occurrencesWithin depth scopes x = a.occurrencesWithin depth' scopes x := by
  induction depth generalizing depth' scopes x with
  | zero => exact absurd hdepth (Nat.not_lt_zero _)
  | succ depth ih =>
    obtain ⟨depth', rfl⟩ := Nat.exists_eq_succ_of_ne_zero (Nat.ne_zero_of_lt hdepth')
    simp only [occurrencesWithin]
    congr 2
    refine List.map_congr_left fun y hy => ?_
    have hrank := h x y hy
    exact ih (by omega) (by omega)

/-- A node occurs, and what is written inside. -/
theorem occurrences_eq (h : a.Ranked) (scopes : Scopes) (x : Node) :
    a.occurrences scopes x = (scopes, x) ::ₘ a.written (a.inside scopes x) (a.children x) := by
  simp only [occurrences, occurrencesWithin, written]
  congr 2
  refine List.map_congr_left fun y hy => ?_
  exact occurrencesWithin_eq h (h x y hy) (Nat.lt_succ_self _)

theorem mem_occurrences_self (h : a.Ranked) (scopes : Scopes) (x : Node) :
    (scopes, x) ∈ a.occurrences scopes x := by
  rw [occurrences_eq h]
  exact Multiset.mem_cons_self ..

theorem mem_written {scopes : Scopes} {xs : List Node} {o : Occurrence} :
    o ∈ a.written scopes xs ↔ ∃ x ∈ xs, o ∈ a.occurrences scopes x := by
  induction xs with
  | nil => simp
  | cons x xs ih => simp [ih]

/-- What is written in something that occurs occurs, too. -/
theorem mem_occurrences_of_mem_children (h : a.Ranked) {scopes : Scopes} {x : Node}
    {o : Occurrence} (ho : o ∈ a.occurrences scopes x) {y : Node} (hy : y ∈ a.children o.2) :
    (a.inside o.1 o.2, y) ∈ a.occurrences scopes x := by
  induction hr : a.rank x using Nat.strong_induction_on generalizing scopes x with
  | _ rank ih =>
    rw [occurrences_eq h] at ho ⊢
    refine Multiset.mem_cons_of_mem (mem_written.2 ?_)
    rcases Multiset.mem_cons.1 ho with rfl | ho
    · exact ⟨y, hy, mem_occurrences_self h _ _⟩
    · obtain ⟨z, hz, ho⟩ := mem_written.1 ho
      exact ⟨z, hz, ih _ (hr ▸ h x z hz) ho rfl⟩

/-- The scopes do not matter for which nodes occur. -/
theorem map_snd_occurrencesWithin (depth : Nat) (scopes scopes' : Scopes) (x : Node) :
    (a.occurrencesWithin depth scopes x).map Prod.snd =
      (a.occurrencesWithin depth scopes' x).map Prod.snd := by
  induction depth generalizing scopes scopes' x with
  | zero => rfl
  | succ depth ih =>
    simp only [occurrencesWithin, Multiset.map_cons]
    congr 1
    induction a.children x with
    | nil => rfl
    | cons y ys ihys =>
      simp only [List.map_cons, List.sum_cons, Multiset.map_add, ihys]
      rw [ih]

theorem map_snd_written (scopes : Scopes) (xs : List Node) :
    (a.written scopes xs).map Prod.snd =
      (xs.map fun x => (a.occurrences [] x).map Prod.snd).sum := by
  induction xs with
  | nil => rfl
  | cons x xs ih =>
    rw [written_cons, Multiset.map_add, ih, List.map_cons, List.sum_cons]
    exact congrArg (· + _) (map_snd_occurrencesWithin _ _ _ _)

/-- **In what is referred to at top level, every node occurs exactly once.** -/
theorem Owes.map_snd_written (h : a.Ranked) {live : List Node} (howes : a.Owes live)
    (scopes : Scopes) : (a.written scopes live).map Prod.snd = a.nodes := by
  let below (x : Node) : Multiset Node := (a.occurrences [] x).map Prod.snd
  have hbelow : ∀ x, below x = x ::ₘ ((a.children x).map below).sum := fun x => by
    simp only [below, occurrences_eq h [] x, Multiset.map_cons, Arena.map_snd_written]
  -- what is below all nodes, counted in two ways: with the nodes first, or by who refers to them
  have hnodes : ∀ xs : List Node, (xs.map below).sum =
      (xs : Multiset Node) + ((xs.flatMap a.children).map below).sum := by
    intro xs
    induction xs with
    | nil => rfl
    | cons x xs ih =>
      rw [List.map_cons, List.sum_cons, ih, hbelow, List.flatMap_cons, List.map_append,
        List.sum_append, ← Multiset.cons_coe, Multiset.cons_add, Multiset.cons_add]
      exact congrArg (x ::ₘ ·) (add_left_comm _ _ _)
  have hrefs : (a.nodes.map below).sum =
      ((a.nodes.flatMap a.children).map below).sum + (live.map below).sum := by
    rw [← refs_eq, ← List.sum_append, ← List.map_append]
    exact (howes.symm.map below).sum_eq
  rw [Arena.map_snd_written]
  refine add_left_cancel (hrefs.symm.trans ((hnodes a.nodes).trans (add_comm _ _)))

end Arena

/-! ### Modules -/

namespace Module

variable {m : Module}

/-- All nodes of a module, with the scopes around them. -/
def occurrences (m : Module) : Multiset Occurrence :=
  m.arena.written [m.decls] (m.decls.map .decl)

theorem encloses_iff (h : m.arena.Ranked) {scopes : Scopes} {x : Node} :
    m.Encloses scopes x ↔ (scopes, x) ∈ m.occurrences := by
  constructor
  · intro hx
    induction hx with
    | @top d hd =>
      exact Arena.mem_written.2 ⟨.decl d, List.mem_map_of_mem hd, Arena.mem_occurrences_self h _ _⟩
    | @inner scopes x y _ hy ih =>
      obtain ⟨z, hz, hx⟩ := Arena.mem_written.1 ih
      exact Arena.mem_written.2 ⟨z, hz, Arena.mem_occurrences_of_mem_children h hx hy⟩
  · -- what encloses a node encloses all that is written inside it
    have hinner : ∀ scopes x, m.Encloses scopes x → ∀ o ∈ m.arena.occurrences scopes x,
        m.Encloses o.1 o.2 := by
      intro scopes x hx o ho
      induction hr : m.arena.rank x using Nat.strong_induction_on generalizing scopes x with
      | _ rank ih =>
        rw [Arena.occurrences_eq h] at ho
        rcases Multiset.mem_cons.1 ho with rfl | ho
        · exact hx
        · obtain ⟨y, hy, ho⟩ := Arena.mem_written.1 ho
          exact ih _ (hr ▸ h x y hy) _ y (hx.inner hy) ho rfl
    intro hmem
    obtain ⟨y, hy, hmem⟩ := Arena.mem_written.1 hmem
    obtain ⟨d, hd, rfl⟩ := List.mem_map.1 hy
    exact hinner _ _ (.top hd) _ hmem

variable {file : Tree.File} {interner interner' : Interner}

theorem IsForest.ranked (hm : m.IsForest) : m.arena.Ranked := hm.owes.ranked hm.numbered

theorem IsForest.map_snd_occurrences (hm : m.IsForest) :
    m.occurrences.map Prod.snd = m.arena.nodes :=
  hm.owes.map_snd_written hm.ranked _

/-- **Every node of a module occurs exactly once.** -/
theorem map_snd_occurrences (hm : Module.ofTree file interner = (.ok m, interner')) :
    m.occurrences.map Prod.snd = m.arena.nodes :=
  (isForest_of_ofTree hm).map_snd_occurrences

/-- The scopes around each node are determined. -/
theorem IsForest.exists_scopes (hm : m.IsForest) :
    ∃ scopes : Node → Scopes, (∀ gs x, m.Encloses gs x ↔ x ∈ m.arena.nodes ∧ gs = scopes x) ∧
      m.occurrences = m.arena.nodes.map fun x => (scopes x, x) := by
  have hocc := hm.map_snd_occurrences
  have hranked := hm.ranked
  have hex : ∀ x, ∃ gs, x ∈ m.arena.nodes → (gs, x) ∈ m.occurrences := by
    intro x
    by_cases hx : x ∈ m.arena.nodes
    · rw [← Multiset.mem_coe, ← hocc] at hx
      obtain ⟨⟨gs, y⟩, hmem, rfl⟩ := Multiset.mem_map.1 hx
      exact ⟨gs, fun _ => hmem⟩
    · exact ⟨[], fun h => absurd h hx⟩
  choose scopes hscopes using hex
  have hnodup : (m.occurrences.map Prod.snd).Nodup := by
    rw [hocc]
    exact m.arena.nodup_nodes
  have hiff : ∀ gs x, (gs, x) ∈ m.occurrences ↔ x ∈ m.arena.nodes ∧ gs = scopes x := by
    intro gs x
    constructor
    · intro hmem
      have hx : x ∈ m.arena.nodes := by
        rw [← Multiset.mem_coe, ← hocc]
        exact Multiset.mem_map_of_mem Prod.snd hmem
      exact ⟨hx, congrArg Prod.fst
        (Multiset.inj_on_of_nodup_map hnodup _ hmem _ (hscopes x hx) rfl)⟩
    · rintro ⟨hx, rfl⟩
      exact hscopes x hx
  refine ⟨scopes, fun gs x => (encloses_iff hranked).trans (hiff gs x), ?_⟩
  have hself : m.occurrences.map (fun o => (scopes o.2, o.2)) = m.occurrences := by
    refine (Multiset.map_congr rfl fun o ho => ?_).trans (Multiset.map_id _)
    exact Prod.ext ((hiff o.1 o.2).1 ho).2.symm rfl
  rw [← hself, ← Multiset.map_coe, ← hocc, Multiset.map_map]
  rfl

/-- The scopes around each node are determined. -/
theorem exists_scopes (hm : Module.ofTree file interner = (.ok m, interner')) :
    ∃ scopes : Node → Scopes, (∀ gs x, m.Encloses gs x ↔ x ∈ m.arena.nodes ∧ gs = scopes x) ∧
      m.occurrences = m.arena.nodes.map fun x => (scopes x, x) :=
  (isForest_of_ofTree hm).exists_scopes

end Module

end SignalLang
