import SignalLang.Proofs.Reordering

/-!
# The passes of resolution

Resolution goes through the declarations of a module six times: it enters the imports, gives the
types their places, defines them, enters the functions, checks the `let`s and checks the bodies of
the functions.  Each time it makes one step for every declaration.

* `Resolve.Pass` : one time through some declarations.
* `Pass.between` : what is known around each of its steps.
* `Module.resolve_eq` : resolution is six passes, one after the other.
* `Module.importing`, `IsForest.placing`, `IsForest.defining`, `IsForest.signing`,
  `IsForest.binding`, `IsForest.entering` : **the passes of a module visit its nodes.**
-/

namespace SignalLang

open Code (Node Scopes Occurrence)

namespace Resolve

/-! ### Going through declarations -/

/-- While steps are made from the findings `s` on, the nodes of `done` have been visited, and the
names in scope stand for what they denote in `scopes`. -/
structure Along (a : Arena) (outer : Name → Option TypeId) (scopes : Scopes)
    (done : Multiset Occurrence) (s : Findings) (q : Context × Findings) : Prop where
  reflects : q.2.Reflects a outer done
  sees : q.1.Sees q.2.table a outer scopes
  le : s.table.Le q.2.table

/-- From `p` on, the step `f` is made for the declarations `ds`, one after the other.  It visits the
nodes of `new`, and behind the ones for `pre`, names denote what they denote in `scopes pre`. -/
structure Pass (a : Arena) (outer : Name → Option TypeId) (f : Context → DeclId → Check Context)
    (scopes : List DeclId → Scopes) (new : DeclId → Multiset Occurrence) (ds : List DeclId)
    (done : Multiset Occurrence) (p : Context × Findings) : Prop where
  visits : ∀ pre d post, ds = pre ++ d :: post → ∀ c t, p.2.table.Le t →
    c.Sees t a outer (scopes pre) →
      Visits a outer t (f c d) (new d) fun t' c' => c'.Sees t' a outer (scopes (pre ++ [d]))
  start : Along a outer (scopes []) done p.2 p
  nodes : ((ds.map new).sum + done).map Prod.snd ≤ a.nodes

namespace Pass

variable {a : Arena} {outer : Name → Option TypeId} {f : Context → DeclId → Check Context}
  {scopes : List DeclId → Scopes} {new : DeclId → Multiset Occurrence} {ds : List DeclId}
  {done : Multiset Occurrence} {p : Context × Findings}

theorem segment (h : Pass a outer f scopes new ds done p) (pre mid post : List DeclId)
    (hds : ds = pre ++ (mid ++ post)) {q : Context × Findings}
    (hq : Along a outer (scopes pre) ((pre.map new).sum + done) p.2 q) :
    Along a outer (scopes (pre ++ mid)) (((pre ++ mid).map new).sum + done) p.2
      (mid.foldl (stepping f) q) ∧ q.2.table.Le (mid.foldl (stepping f) q).2.table := by
  induction mid generalizing pre q with
  | nil =>
    rw [List.append_nil]
    exact ⟨hq, .refl _⟩
  | cons d mid ih =>
    have hsum : ((pre ++ [d]).map new).sum + done = new d + ((pre.map new).sum + done) := by
      rw [List.map_append, List.map_singleton, List.sum_append, List.sum_singleton]
      abel
    have hds' : ds = pre ++ [d] ++ (mid ++ post) := by rw [hds, List.append_assoc]; rfl
    have hnodes : (new d + ((pre.map new).sum + done)).map Prod.snd ≤ a.nodes := by
      have hle := Multiset.le_add_right ((pre ++ [d]).map new).sum ((mid ++ post).map new).sum
      rw [← List.sum_append, ← List.map_append, ← hds'] at hle
      rw [← hsum]
      exact (Multiset.map_le_map (add_le_add_left hle _)).trans h.nodes
    obtain ⟨hreflects, hle, hsees⟩ := h.visits pre d _ hds q.1 q.2.table hq.le hq.sees q.2 _
      (.refl _) hq.reflects hnodes
    have hnext : Along a outer (scopes (pre ++ [d])) (((pre ++ [d]).map new).sum + done) p.2
        (stepping f q d) := ⟨hsum ▸ hreflects, hsees, hq.le.trans hle⟩
    obtain ⟨hend, hle'⟩ := ih _ hds' hnext
    rw [List.append_assoc] at hend
    exact ⟨hend, hle.trans hle'⟩

/-- What is known behind some of the steps. -/
theorem along (h : Pass a outer f scopes new ds done p) {pre post : List DeclId}
    (hds : ds = pre ++ post) :
    Along a outer (scopes pre) ((pre.map new).sum + done) p.2 (pre.foldl (stepping f) p) := by
  have hstart : Along a outer (scopes []) ((([] : List DeclId).map new).sum + done) p.2 p := by
    rw [List.map_nil, List.sum_nil, zero_add]
    exact h.start
  exact (h.segment [] pre post hds hstart).1

/-- What is known behind all steps. -/
theorem behind (h : Pass a outer f scopes new ds done p) :
    Along a outer (scopes ds) ((ds.map new).sum + done) p.2 (ds.foldl (stepping f) p) :=
  h.along (List.append_nil ds).symm

/-- Behind the other steps, the table still says all that it says behind some. -/
theorem le_behind (h : Pass a outer f scopes new ds done p) {pre post : List DeclId}
    (hds : ds = pre ++ post) :
    (pre.foldl (stepping f) p).2.table.Le (ds.foldl (stepping f) p).2.table := by
  have hle := (h.segment pre post [] (by rw [hds, List.append_nil]) (h.along hds)).2
  rwa [← List.foldl_append, ← hds] at hle

/-- What is known around one of the steps. -/
theorem between (h : Pass a outer f scopes new ds done p) (d : DeclId) (pre post : List DeclId)
    (hds : ds = pre ++ d :: post) :
    Between a p.2 (pre.foldl (stepping f) p).2 (stepping f (pre.foldl (stepping f) p) d).2
      (ds.foldl (stepping f) p).2 := by
  have hbefore := h.along hds
  obtain ⟨hbehind, hstep⟩ := h.segment pre [d] post hds hbefore
  have hrest := (h.segment (pre ++ [d]) post [] (by rw [hds]; simp) hbehind).2
  rw [hds, List.foldl_append, List.foldl_cons]
  exact ⟨hbefore.reflects.orderly, hbehind.reflects.orderly, hbefore.le, hstep, hrest⟩

end Pass

/-! ### The passes of a module -/

/-- Checks a `let` of a module. -/
def letStep (g : Setting) (check : Checker) (c : Context) (d : DeclId) : Check Context := do
  let (c, _) ← item g check .afterScope c (.decl d)
  return c

/-- Checks the body of a function of a module. -/
def bodyStep (g : Setting) (check : Checker) (c : Context) (d : DeclId) : Check Context := do
  declaredBody g check c (.decl d)
  return c

section

variable (g : Setting) (check : Checker)

theorem hoist_eq_foldl (a : Arena) (imports : Imports) (interner : Interner) (c : Context)
    (ds : List DeclId) (s : Findings) : hoist a imports interner c ds s =
      ds.foldl (stepping (functionDecl a)) (ds.foldl (stepping (defineType a))
        (ds.foldl (stepping (placeType a)) (ds.foldl (stepping (importDecl a imports interner))
          (c, s)))) := by
  let p₁ : Context × Findings := ds.foldlM (importDecl a imports interner) c s
  let p₂ : Context × Findings := ds.foldlM (placeType a) p₁.1 p₁.2
  let p₃ : Context × Findings := ds.foldlM (defineType a) p₂.1 p₂.2
  have h₁ : p₁ = ds.foldl (stepping (importDecl a imports interner)) (c, s) :=
    foldlM_eq_foldl ds c s
  have h₂ : p₂ = ds.foldl (stepping (placeType a)) p₁ := foldlM_eq_foldl ds p₁.1 p₁.2
  have h₃ : p₃ = ds.foldl (stepping (defineType a)) p₂ := foldlM_eq_foldl ds p₂.1 p₂.2
  rw [← h₁, ← h₂, ← h₃]
  exact foldlM_eq_foldl ds p₃.1 p₃.2

/-- What is behind the `let`s does not depend on what came last. -/
theorem items_eq_foldl (c : Context) (last : Option Ty) (ds : List DeclId) (s : Findings) :
    ((items g check .afterScope c last (ds.map .decl) s).1.1,
      (items g check .afterScope c last (ds.map .decl) s).2) =
        ds.foldl (stepping (letStep g check)) (c, s) := by
  induction ds generalizing c last s with
  | nil => rfl
  | cons d ds ih => exact ih _ _ _

theorem forM_eq_foldl (c : Context) (ds : List DeclId) (s : Findings) :
    (c, ((ds.map Item.decl).forM (declaredBody g check c) s).2) =
      ds.foldl (stepping (bodyStep g check)) (c, s) := by
  induction ds generalizing s with
  | nil => rfl
  | cons d ds ih => exact ih _

/-- Only `let`s are checked before the bodies of functions. -/
theorem letStep_of_hoisted {d : DeclId} (h : (g.arena.decl d).kind.hoisted) (c : Context) :
    letStep g check c d = pure c := by
  have hitem : item g check .afterScope c (.decl d) = pure (c, some .action) := by
    simp only [item]
    cases hk : (g.arena.decl d).kind with
    | binding => simp [hk, Code.DeclKind.hoisted] at h
    | _ => rfl
  rw [letStep, hitem]
  rfl

end

end Resolve

namespace Module

open Resolve

section

variable (m : Module) (imports : Imports) (interner : Interner)

/-- What the check of a module reads. -/
def setting : Setting := ⟨m.arena, (internNames interner imports.prelude).2, imports⟩

/-- How the expressions of a module are checked. -/
def checker : Checker := Resolve.expr (m.setting imports interner) m.arena.exprs.size

/-- The declarations of a module that are hoisted. -/
def hoisted : List DeclId := m.decls.filter fun d => (m.arena.decl d).kind.hoisted

/-- Nothing has been entered. -/
def start : Context × Findings :=
  (m.context imports interner, ⟨.builtin interner m.arena.typeRefs.size, #[]⟩)

/-- Behind the imports. -/
def imported : Context × Findings :=
  m.hoisted.foldl (stepping (importDecl m.arena imports (m.setting imports interner).interner))
    (m.start imports interner)

/-- All types have their places. -/
def placed : Context × Findings :=
  m.hoisted.foldl (stepping (placeType m.arena)) (m.imported imports interner)

/-- All types are defined. -/
def defined : Context × Findings :=
  m.hoisted.foldl (stepping (defineType m.arena)) (m.placed imports interner)

/-- All functions have been entered. -/
def signed : Context × Findings :=
  m.hoisted.foldl (stepping (functionDecl m.arena)) (m.defined imports interner)

/-- Behind the `let`s. -/
def bound : Context × Findings :=
  m.decls.foldl (stepping (letStep (m.setting imports interner) (m.checker imports interner)))
    (m.signed imports interner)

/-- All bodies have been checked. -/
def checked : Context × Findings :=
  m.decls.foldl (stepping (bodyStep (m.setting imports interner) (m.checker imports interner)))
    (m.bound imports interner)

/-- Resolution makes six passes, one after the other. -/
theorem resolve_eq : m.resolve imports interner =
    ((m.checked imports interner).2.table, (m.checked imports interner).2.errors.toList,
      (internNames interner imports.prelude).2) := by
  let g := m.setting imports interner
  let check := m.checker imports interner
  let items := m.decls.map Item.decl
  let p := m.start imports interner
  let q := hoist m.arena imports g.interner p.1 (hoistedDecls m.arena items) p.2
  let r := Resolve.items g check .afterScope q.1 (some .action) items q.2
  have hresolve : m.resolve imports interner =
      ((items.forM (declaredBody g check r.1.1) r.2).2.table,
        (items.forM (declaredBody g check r.1.1) r.2).2.errors.toList, g.interner) := rfl
  have hq : q = m.signed imports interner := by
    change hoist _ _ _ _ (hoistedDecls m.arena (m.decls.map Item.decl)) _ = _
    rw [hoistedDecls_map_decl]
    exact hoist_eq_foldl ..
  have hr : (r.1.1, r.2) = m.bound imports interner := by
    rw [bound, ← hq]
    exact items_eq_foldl g check q.1 _ m.decls q.2
  have hchecked : (r.1.1, (items.forM (declaredBody g check r.1.1) r.2).2) =
      m.checked imports interner := by
    rw [checked, ← hr]
    exact forM_eq_foldl g check r.1.1 m.decls r.2
  rw [hresolve, ← hchecked]
  rfl

end

/-! ### What the passes visit -/

section

variable (m : Module)

/-- What has been visited when all types have their places. -/
def visitedPlaced : Multiset Occurrence := (m.hoisted.map (placing m.arena [m.decls])).sum

/-- What has been visited when all types are defined. -/
def visitedDefined : Multiset Occurrence :=
  (m.hoisted.map (defining m.arena [m.decls])).sum + m.visitedPlaced

/-- What has been visited when all functions have been entered. -/
def visitedSigned : Multiset Occurrence :=
  (m.hoisted.map (signing m.arena [m.decls])).sum + m.visitedDefined

/-- What has been visited behind the `let`s. -/
def visitedBound : Multiset Occurrence :=
  (m.decls.map fun d => passing m.arena [m.decls] (.decl d)).sum + m.visitedSigned

/-- What has been visited when all bodies have been checked. -/
def visitedChecked : Multiset Occurrence :=
  (m.decls.map fun d => entering m.arena [m.decls] (.decl d)).sum + m.visitedBound

theorem importing (imports : Imports) (interner : Interner) :
    Pass m.arena (m.outerContext imports interner).type?
    (importDecl m.arena imports (m.setting imports interner).interner) (fun _ => [[]])
    (fun _ => 0) m.hoisted 0 (m.start imports interner) where
  visits _ d _ _ _ _ _ hc := visits_importDecl imports _ hc d
  start := ⟨TypeTable.reflects_builtin _ _ _, m.sees_context imports interner _, .refl _⟩
  nodes := by
    have hnone : (m.hoisted.map fun _ => (0 : Multiset Occurrence)).sum = 0 := by simp
    rw [hnone, add_zero, Multiset.map_zero]
    exact Multiset.zero_le _

end

section

variable {m : Module} (imports : Imports) (interner : Interner)

/-- In the end, everything has been visited. -/
theorem IsForest.visitedChecked_eq (hm : m.IsForest) : m.visitedChecked = m.occurrences := by
  have hitems := visited_items [m.decls] hm.ranked (m.decls.map .decl)
  rw [m.sum_written_nodes, hoistedDecls_map_decl, List.map_map, List.map_map] at hitems
  rw [hitems, visitedChecked, visitedBound, visitedSigned, visitedDefined, visitedPlaced, hoisted]
  simp only [Function.comp_def]
  abel

/-- What has been visited at some time are nodes of the module. -/
theorem IsForest.nodes_of_le (hm : m.IsForest) {done : Multiset Occurrence}
    (h : done ≤ m.visitedChecked) : done.map Prod.snd ≤ m.arena.nodes := by
  rw [hm.visitedChecked_eq] at h
  exact (Multiset.map_le_map h).trans hm.map_snd_occurrences.le

theorem visitedBound_le : m.visitedBound ≤ m.visitedChecked := Multiset.le_add_left _ _

theorem visitedSigned_le : m.visitedSigned ≤ m.visitedChecked :=
  (Multiset.le_add_left _ _).trans visitedBound_le

theorem visitedDefined_le : m.visitedDefined ≤ m.visitedChecked :=
  (Multiset.le_add_left _ _).trans visitedSigned_le

theorem visitedPlaced_le : m.visitedPlaced ≤ m.visitedChecked :=
  (Multiset.le_add_left _ _).trans visitedDefined_le

variable (hm : m.IsForest)

include hm

theorem IsForest.placing : Pass m.arena (m.outerContext imports interner).type?
    (placeType m.arena) (fun pre => [pre]) (Resolve.placing m.arena [m.decls]) m.hoisted 0
    (m.imported imports interner) where
  visits _ d _ _ _ _ _ hc := (visits_placeType hc d).weaken fun _ _ h => h.1
  start := by
    have h := (m.importing imports interner).behind
    simp only [List.map_const', List.sum_replicate, nsmul_zero, add_zero] at h
    exact ⟨h.reflects, h.sees, .refl _⟩
  nodes := by
    rw [add_zero]
    exact hm.nodes_of_le visitedPlaced_le

/-- Behind the first round, names denote what they denote in the whole module. -/
theorem IsForest.along_placed : Along m.arena (m.outerContext imports interner).type? [m.decls]
    m.visitedPlaced (m.placed imports interner).2 (m.placed imports interner) := by
  have h := (hm.placing imports interner).behind
  rw [add_zero] at h
  refine ⟨h.reflects, fun n => ?_, .refl _⟩
  have hn := h.sees n
  -- only hoisted declarations declare types
  rwa [TypeTable.Denotes, Arena.declaredIn?_cons, hoisted, Arena.declared?_hoisted,
    ← Arena.declaredIn?_cons] at hn

/-- Behind the first round, all types have their places. -/
theorem IsForest.isSome_declType?_placed {d : DeclId} (hd : d ∈ m.hoisted)
    (hn : (typeName? (m.arena.decl d).kind).isSome) :
    ((m.placed imports interner).2.table.declType? d).isSome := by
  have hmem : ([m.decls], Node.decl d) ∈ m.visitedPlaced := by
    obtain ⟨pre, post, hds⟩ := List.append_of_mem hd
    simp [visitedPlaced, hds, Resolve.placing, hn]
  have hsettled := (hm.along_placed imports interner).reflects.settled
    _ hmem
  simp only [TypeTable.Settled] at hsettled
  cases hk : (m.arena.decl d).kind <;> simp_all [typeName?]

theorem IsForest.defining : Pass m.arena (m.outerContext imports interner).type?
    (defineType m.arena) (fun _ => [m.decls]) (Resolve.defining m.arena [m.decls]) m.hoisted
    m.visitedPlaced (m.placed imports interner) where
  visits pre d post hds _ _ hle hc := visits_defineType hm.ranked hc d fun hn =>
    hle.isSome_declType? (hm.isSome_declType?_placed imports interner (hds ▸ by simp) hn)
  start := hm.along_placed imports interner
  nodes := hm.nodes_of_le visitedDefined_le

theorem IsForest.signing : Pass m.arena (m.outerContext imports interner).type?
    (functionDecl m.arena) (fun _ => [m.decls]) (Resolve.signing m.arena [m.decls]) m.hoisted
    m.visitedDefined (m.defined imports interner) where
  visits _ d _ _ _ _ _ hc := visits_functionDecl hm.ranked hc d
  start :=
    have h := (hm.defining imports interner).behind
    ⟨h.reflects, h.sees, .refl _⟩
  nodes := hm.nodes_of_le visitedSigned_le

theorem IsForest.visitsBelow_checker : VisitsBelow (m.setting imports interner)
    (m.outerContext imports interner).type? (m.checker imports interner)
    (m.arena.typeRefs.size + 2 * m.arena.exprs.size + 1) :=
  visitsBelow_expr hm.ranked m.arena.exprs.size

theorem IsForest.binding : Pass m.arena (m.outerContext imports interner).type?
    (letStep (m.setting imports interner) (m.checker imports interner)) (fun _ => [m.decls])
    (fun d => passing m.arena [m.decls] (.decl d)) m.decls m.visitedSigned
    (m.signed imports interner) where
  visits _ d _ _ c t _ hc := by
    have hcheck : VisitsBelow (m.setting imports interner) _ (m.checker imports interner) _ :=
      hm.visitsBelow_checker imports interner
    have hitem := hcheck.item hm.ranked .afterScope hc (.decl d) (hm.rank_lt d)
    simp only [reduceCtorEq, if_false, add_zero] at hitem
    exact hitem.andQuiet fun r t' _ hr => visits_pure fun _ hle => hr.mono hle
  start :=
    have h := (hm.signing imports interner).behind
    ⟨h.reflects, h.sees, .refl _⟩
  nodes := hm.nodes_of_le visitedBound_le

theorem IsForest.entering : Pass m.arena (m.outerContext imports interner).type?
    (bodyStep (m.setting imports interner) (m.checker imports interner)) (fun _ => [m.decls])
    (fun d => Resolve.entering m.arena [m.decls] (.decl d)) m.decls m.visitedBound
    (m.bound imports interner) where
  visits _ d _ _ _ _ _ hc := by
    have hcheck : VisitsBelow (m.setting imports interner) _ (m.checker imports interner) _ :=
      hm.visitsBelow_checker imports interner
    exact (hcheck.declaredBody hm.ranked hc (hm.rank_lt d)).andQuiet fun _ _ hle _ =>
      visits_pure fun _ hle' => hc.mono (hle.trans hle')
  start :=
    have h := (hm.binding imports interner).behind
    ⟨h.reflects, h.sees, .refl _⟩
  nodes := hm.nodes_of_le (le_refl m.visitedChecked)

end

end Module

end SignalLang
