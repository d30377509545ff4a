import SignalLang.Proofs.HoistedTypes
import SignalLang.Proofs.Translation

/-!
# Written types of a module

Resolution visits every node of a module exactly once, some when the declarations of a scope are
hoisted and the others when expressions are checked.  So every written type is on record with what
it stands for where it is written, and every name without a type is reported once.

* `Resolve.visited_items` : what is visited in a scope is what is written in its members.
* `Resolve.visitsBelow_expr` : checking an expression visits everything that is written in it.
* `Module.typesResolved_of_resolve` : **written types are resolved completely and lexically.**
-/

namespace SignalLang

open Code (Node Scopes Occurrence)

namespace Resolve

variable {a : Arena} {outer : Name → Option TypeId}

/-! ### Expressions -/

section

/-- The nodes that make up a member of a scope. -/
def Item.nodes : Item → List Node
  | .decl d => [.decl d]
  | .stmt st =>
    match st.kind with
    | .decl _ => []
    | kind => kind.children

theorem Item.nodes_ofStmt (st : Code.Stmt) : (Item.ofStmt st).nodes = st.kind.children := by
  cases hs : st.kind <;> simp [Item.ofStmt, Item.nodes, hs]

variable (a) (scopes : Scopes)

/-- What is visited with a member of a scope before the deferred bodies. -/
def passing : Item → Multiset Occurrence
  | .stmt st => a.written scopes (Item.stmt st).nodes
  | .decl d =>
    match (a.decl d).kind with
    | .binding _ _ _ _ | .imports _ _ => a.occurrences scopes (.decl d)
    | _ => 0

/-- What is visited with the body of a declared function. -/
def entering : Item → Multiset Occurrence
  | .stmt _ => 0
  | .decl d =>
    match (a.decl d).kind with
    | .function _ _ _ body => a.occurrences scopes (.expr body)
    | _ => 0

/-- What is visited with the declaration of a member of a scope. -/
def Item.declaring (f : DeclId → Multiset Occurrence) : Item → Multiset Occurrence
  | .decl d => f d
  | .stmt _ => 0

/-- Declarations that are hoisted are members of the scope. -/
theorem sum_hoistedDecls {f : DeclId → Multiset Occurrence}
    (hf : ∀ d, ¬(a.decl d).kind.hoisted → f d = 0) (is : List Item) :
    ((hoistedDecls a is).map f).sum = (is.map fun i => i.declaring f).sum := by
  induction is with
  | nil => rfl
  | cons i is ih =>
    rw [List.map_cons, List.sum_cons, ← ih]
    cases i with
    | stmt st => simp [hoistedDecls, Item.declaring]
    | decl d =>
      by_cases hd : (a.decl d).kind.hoisted
      · simp [hoistedDecls, Item.declaring, hd]
      · simp [hoistedDecls, Item.declaring, hd, hf d hd]

variable {a} (ha : a.Ranked)

include ha

/-- With a member of a scope, everything is visited that is written in it. -/
theorem visited_item (i : Item) : a.written scopes i.nodes =
    i.declaring (placing a scopes) + (i.declaring (defining a scopes) +
      i.declaring (signing a scopes)) + (passing a scopes i + entering a scopes i) := by
  cases i with
  | stmt st => simp [passing, entering, Item.declaring]
  | decl d =>
    simp only [Item.nodes, Item.declaring, Arena.written_cons, Arena.written_nil, add_zero,
      Arena.occurrences_eq ha scopes (.decl d), Arena.inside, placing, defining, signing, passing,
      entering, Arena.children]
    cases (a.decl d).kind <;> simp [typeName?, add_assoc]

/-- What is visited in a scope, in the order in which that happens. -/
theorem visited_items (is : List Item) : (is.map fun i => a.written scopes i.nodes).sum =
    ((hoistedDecls a is).map (placing a scopes)).sum +
      (((hoistedDecls a is).map (defining a scopes)).sum +
        ((hoistedDecls a is).map (signing a scopes)).sum) +
      ((is.map (passing a scopes)).sum + (is.map (entering a scopes)).sum) := by
  have hplacing : ∀ d, ¬(a.decl d).kind.hoisted → placing a scopes d = 0 := fun d hd => by
    simp only [placing]
    cases hk : (a.decl d).kind <;> simp_all [Code.DeclKind.hoisted, typeName?]
  have hdefining : ∀ d, ¬(a.decl d).kind.hoisted → defining a scopes d = 0 := fun d hd => by
    simp only [defining]
    cases hk : (a.decl d).kind <;> simp_all [Code.DeclKind.hoisted, typeName?]
  have hsigning : ∀ d, ¬(a.decl d).kind.hoisted → signing a scopes d = 0 := fun d hd => by
    simp only [signing]
    cases hk : (a.decl d).kind <;> simp_all [Code.DeclKind.hoisted]
  rw [sum_hoistedDecls a hplacing, sum_hoistedDecls a hdefining, sum_hoistedDecls a hsigning]
  simp only [visited_item scopes ha, List.sum_map_add]

end

section

variable {g : Setting} {check : Checker} {n : Nat} {t : TypeTable} {c : Context} {scopes : Scopes}

/-- Checking an expression of a low rank visits everything that is written in it. -/
def VisitsBelow (g : Setting) (outer : Name → Option TypeId) (check : Checker) (n : Nat) : Prop :=
  ∀ {c id scopes t}, g.arena.rank (.expr id) < n → c.Sees t g.arena outer scopes →
    Visits g.arena outer t (check c id) (g.arena.occurrences scopes (.expr id)) fun _ _ => True

theorem visits_assignable (expected found : Ty) (span : Span) :
    Visits g.arena outer t (assignable expected found span) 0 fun _ _ => True := by
  refine visits_table_bind fun t' _ => ?_
  split
  · exact visits_skip
  · split <;> exact visits_report span rfl

theorem visits_functionArguments (args : List (Ty × Option Ty × ExprId)) :
    Visits g.arena outer t (functionArguments g.arena args) 0 fun _ _ => True := by
  induction args generalizing t with
  | nil => exact visits_skip
  | cons arg args ih =>
    unfold functionArguments
    split
    · exact visits_skip
    · rename_i heq
      cases heq
      exact (visits_assignable _ _ _).quietThen fun _ _ _ _ => ih
    · rename_i heq
      cases heq
      exact ih

theorem visits_setTarget (c : Context) (target : Name) (span : Span) :
    Visits g.arena outer t (setTarget c target span) 0 fun _ _ => True := by
  unfold setTarget
  split
  · exact visits_report span rfl
  · split
    · exact visits_skip
    · exact visits_report span rfl

variable (hcheck : VisitsBelow g outer check n)

include hcheck

theorem VisitsBelow.optional (hc : c.Sees t g.arena outer scopes) {e : Option ExprId}
    (hrank : ∀ y ∈ e.toList.map Node.expr, g.arena.rank y < n) :
    Visits g.arena outer t (optional check c e) (g.arena.written scopes (e.toList.map .expr))
      fun _ _ => True := by
  cases e with
  | none => exact visits_skip
  | some e =>
    simp only [Option.toList_some, List.map_cons, List.map_nil, Arena.written_cons,
      Arena.written_nil, add_zero]
    exact (hcheck (hrank _ (List.mem_singleton_self _)) hc).andPure

theorem VisitsBelow.checkAll (hc : c.Sees t g.arena outer scopes) {es : List ExprId}
    (hrank : ∀ y ∈ es.map Node.expr, g.arena.rank y < n) :
    Visits g.arena outer t (checkAll check c es) (g.arena.written scopes (es.map .expr))
      fun _ _ => True := by
  induction es generalizing t with
  | nil => exact visits_skip
  | cons e es ih =>
    obtain ⟨he, hes⟩ := List.forall_mem_cons.1 hrank
    rw [List.map_cons, Arena.written_cons]
    exact (hcheck he hc).andThen fun _ t₁ hle₁ => (ih (hc.mono hle₁) hes).andPure

theorem VisitsBelow.functionBody (hc : c.Sees t g.arena outer scopes) (params : List Code.Param)
    {body : ExprId} (hbody : g.arena.rank (.expr body) < n) :
    Visits g.arena outer t (functionBody check c params body)
      (g.arena.occurrences scopes (.expr body)) fun _ _ => True := by
  have hparam : ∀ p ∈ params, ∀ (c : Context) t', t.Le t' → c.Sees t' g.arena outer scopes →
      Visits g.arena outer t' (parameter c p) 0 fun t' c' => c'.Sees t' g.arena outer scopes :=
    fun p _ c t' _ hc => (visits_declare p.name p.span hc).quietThen fun c₁ t₁ _ hc₁ =>
      visits_table_bind fun t₂ hle₂ => visits_pure fun _ hle₃ => hc₁.mono (hle₂.trans hle₃)
  have hinner : c.nested.calling.Sees t g.arena outer scopes := hc.nested
  exact (visits_foldlM_quiet params hparam hinner).quietThen fun c₁ t₁ _ hc₁ =>
    (hcheck hbody hc₁).andPure

/-- What leaves a function or a loop. -/
theorem VisitsBelow.leaving (hc : c.Sees t g.arena outer scopes) {value : Option ExprId}
    (hrank : ∀ y ∈ value.toList.map Node.expr, g.arena.rank y < n) {misplaced : Prop}
    [Decidable misplaced] {problem : ResolveProblem} (span : Span)
    (hproblem : ResolveError.isUnknownType ⟨problem, span⟩ = false) :
    Visits g.arena outer t (do
      if misplaced then report problem span
      Resolve.optional check c value
      return (none : Option Ty)) (g.arena.written scopes (value.toList.map .expr))
      fun _ _ => True := by
  have hvalue : ∀ t', t.Le t' → Visits g.arena outer t' (do
      Resolve.optional check c value
      return (none : Option Ty)) (g.arena.written scopes (value.toList.map .expr))
      fun _ _ => True :=
    fun t' hle => (hcheck.optional (hc.mono hle) hrank).andPure
  split
  · exact (visits_report span hproblem).quietThen fun _ t' hle _ => hvalue t' hle
  · exact hvalue t (.refl _)

variable (ha : g.arena.Ranked)

theorem VisitsBelow.call (hc : c.Sees t g.arena outer scopes) {callee : ExprId}
    {args : List ExprId} (hcallee : g.arena.rank (.expr callee) < n)
    (hargs : ∀ y ∈ args.map Node.expr, g.arena.rank y < n) (span : Span) :
    Visits g.arena outer t (call g check c callee args span)
      (g.arena.written scopes (args.map .expr) + g.arena.occurrences scopes (.expr callee))
      fun _ _ => True := by
  refine (hcheck.checkAll hc hargs).andThen fun types t₁ hle₁ => ?_
  refine (hcheck hcallee (hc.mono hle₁)).andQuiet fun ty t₂ _ _ => ?_
  have hend : ∀ {t' : TypeTable} {types : List (Ty × Option Ty × ExprId)} {r : Option Ty},
      Visits g.arena outer t' (do functionArguments g.arena types; return r) 0 fun _ _ => True :=
    (visits_functionArguments _).andPure
  dsimp only
  split
  · exact visits_skip
  · split
    · split
      · exact (visits_report _ rfl).quietThen fun _ _ _ _ => hend
      · exact hend
    · exact visits_skip

include ha

theorem VisitsBelow.binding (hc : c.Sees t g.arena outer scopes) (d : DeclId) (x : Name)
    (isVariable : Bool) (type : Option TypeRefId) {value : ExprId}
    (hvalue : g.arena.rank (.expr value) < n) :
    Visits g.arena outer t (binding g check c d x isVariable type value)
      (g.arena.written scopes (type.toList.map .typeRef ++ [.expr value]))
      fun t' c' => c'.Sees t' g.arena outer scopes := by
  have hdone : ∀ info t', t.Le t' → Visits g.arena outer t' (do
      let c ← declare c x (g.arena.decl d).span
      return c.addValue x info) 0 fun t' c' => c'.Sees t' g.arena outer scopes := by
    intro info t' hle
    exact (visits_declare x _ (hc.mono hle)).quietThen fun c₁ t₁ _ hc₁ => visits_pure
      fun _ hle₂ => hc₁.mono hle₂
  rw [Arena.written_append, Arena.written_cons, Arena.written_nil, add_zero, add_comm]
  refine (hcheck hvalue hc).andThen fun found t₁ hle₁ => ?_
  cases type with
  | none => exact hdone _ t₁ hle₁
  | some r =>
    refine (visits_typeRef? (r := some r) ha (hc.mono hle₁)).andQuiet fun expected t₂ hle₂ _ => ?_
    cases found with
    | none => exact hdone _ t₂ (hle₁.trans hle₂)
    | some found =>
      exact (visits_assignable _ _ _).quietThen fun _ t₃ hle₃ _ =>
        hdone _ t₃ (hle₁.trans (hle₂.trans hle₃))

/-- The body behind a pattern. -/
theorem VisitsBelow.guarded (hc : c.Sees t g.arena outer scopes) (p : Code.Pattern) {body : ExprId}
    (hbody : g.arena.rank (.expr body) < n) {r : α} :
    Visits g.arena outer t (do
      let inner ← pattern g.arena c.nested p
      let _ ← check inner body
      return r) (g.arena.written scopes [.typeRef p.typeRef, .expr body]) fun _ _ => True := by
  rw [Arena.written_cons, Arena.written_cons, Arena.written_nil, add_zero]
  exact (visits_pattern ha hc.nested).bind fun c₁ t₁ _ hc₁ => (hcheck hbody hc₁).andPure

theorem VisitsBelow.stmt (hc : c.Sees t g.arena outer scopes) (st : Code.Stmt)
    (hrank : ∀ y ∈ (Item.stmt st).nodes, g.arena.rank y < n) :
    Visits g.arena outer t (stmt g check c st) (g.arena.written scopes (Item.stmt st).nodes)
      fun _ _ => True := by
  unfold Resolve.stmt
  simp only [Item.nodes] at hrank ⊢
  cases hk : st.kind with
  | expr e =>
    simp only [hk, Code.StmtKind.children, List.forall_mem_singleton, Arena.written_cons,
      Arena.written_nil, add_zero] at hrank ⊢
    exact hcheck hrank hc
  | decl d => exact visits_skip
  | effect p body =>
    simp only [hk, Code.StmtKind.children, List.forall_mem_cons] at hrank ⊢
    exact hcheck.guarded ha hc p hrank.2.1
  | set target value =>
    simp only [hk, Code.StmtKind.children, List.forall_mem_singleton, Arena.written_cons,
      Arena.written_nil, add_zero] at hrank ⊢
    exact (hcheck hrank hc).andQuiet fun _ t₁ _ _ => (visits_setTarget _ _ _).andPure

theorem VisitsBelow.item (order : BodyOrder) (hc : c.Sees t g.arena outer scopes) (i : Item)
    (hrank : ∀ y ∈ i.nodes, g.arena.rank y < n) :
    Visits g.arena outer t (item g check order c i)
      (passing g.arena scopes i + if order = .inPlace then entering g.arena scopes i else 0)
      fun t' r => r.1.Sees t' g.arena outer scopes := by
  cases i with
  | stmt st =>
    simp only [passing, entering, ite_self]
    exact (hcheck.stmt ha hc st hrank).andThen fun _ _ hle₁ => visits_pure fun _ hle₂ =>
      hc.mono (hle₁.trans hle₂)
  | decl d =>
    -- the expressions of a declaration rank below it
    have hchildren : ∀ y ∈ g.arena.children (.decl d), g.arena.rank y < n :=
      fun y hy => Nat.lt_trans (ha (.decl d) y hy) (hrank _ (List.mem_singleton_self _))
    simp only [Resolve.item, passing, entering, Arena.occurrences_eq ha scopes (.decl d)]
    simp only [Arena.children, Arena.inside] at hchildren ⊢
    cases hk : (g.arena.decl d).kind with
    | binding x isVariable type value =>
      simp only [hk, Code.DeclKind.children, List.forall_mem_append, List.forall_mem_singleton]
        at hchildren ⊢
      have htrivial : ∀ t : TypeTable, t.Settled g.arena outer (scopes, .decl d) := fun t => by
        simp [TypeTable.Settled, hk]
      rw [ite_self]
      exact ((hcheck.binding ha hc d x isVariable type hchildren.2).cons htrivial rfl).bind
        fun c₁ t₁ _ hc₁ => visits_pure fun _ hle₂ => hc₁.mono hle₂
    | function x params result body =>
      simp only [hk, Code.DeclKind.children, List.forall_mem_append, List.forall_mem_singleton]
        at hchildren ⊢
      rw [zero_add]
      by_cases horder : order = .inPlace
      · simp only [if_pos horder]
        exact (hcheck.functionBody hc params hchildren.2).andQuiet fun _ _ hle₁ _ => visits_pure
          fun _ hle₂ => hc.mono (hle₁.trans hle₂)
      · simp only [if_neg horder]
        exact visits_pure fun _ hle => hc.mono hle
    | imports path items =>
      have htrivial : ∀ t : TypeTable, t.Settled g.arena outer (scopes, .decl d) := fun t => by
        simp [TypeTable.Settled, hk]
      rw [ite_self, add_zero]
      exact (visits_pure fun _ hle => hc.mono hle).cons htrivial rfl
    | _ =>
      rw [ite_self, add_zero]
      exact visits_pure fun _ hle => hc.mono hle

theorem VisitsBelow.items (order : BodyOrder) (hc : c.Sees t g.arena outer scopes)
    (last : Option Ty) {is : List Item} (hrank : ∀ i ∈ is, ∀ y ∈ i.nodes, g.arena.rank y < n) :
    Visits g.arena outer t (items g check order c last is)
      (is.map fun i => passing g.arena scopes i +
        if order = .inPlace then entering g.arena scopes i else 0).sum
      fun t' r => r.1.Sees t' g.arena outer scopes := by
  induction is generalizing t c last with
  | nil => exact visits_pure fun _ hle => hc.mono hle
  | cons i is ih =>
    obtain ⟨hi, his⟩ := List.forall_mem_cons.1 hrank
    rw [List.map_cons, List.sum_cons]
    exact (hcheck.item ha order hc i hi).bind fun r t₁ _ hr => ih hr r.2 his

theorem VisitsBelow.declaredBody (hc : c.Sees t g.arena outer scopes) {i : Item}
    (hrank : ∀ y ∈ i.nodes, g.arena.rank y < n) :
    Visits g.arena outer t (declaredBody g check c i) (entering g.arena scopes i)
      fun _ _ => True := by
  cases i with
  | stmt st => exact visits_skip
  | decl d =>
    have hchildren : ∀ y ∈ g.arena.children (.decl d), g.arena.rank y < n :=
      fun y hy => Nat.lt_trans (ha (.decl d) y hy) (hrank _ (List.mem_singleton_self _))
    simp only [Resolve.declaredBody, entering, Arena.children] at hchildren ⊢
    cases hk : (g.arena.decl d).kind with
    | function x params result body =>
      simp only [hk, Code.DeclKind.children, List.forall_mem_append, List.forall_mem_singleton]
        at hchildren
      exact hcheck.functionBody hc params hchildren.2
    | _ => exact visits_skip

/-- Checking a scope visits everything that is written in its members. -/
theorem VisitsBelow.scope (order : BodyOrder) {gs : Scopes} (hc : c.Sees t g.arena outer ([] :: gs))
    {ds : List DeclId} {is : List Item}
    (hds : hoistedDecls g.arena is = ds.filter fun d => (g.arena.decl d).kind.hoisted)
    (hrank : ∀ i ∈ is, ∀ y ∈ i.nodes, g.arena.rank y < n) :
    Visits g.arena outer t (Resolve.scope g check order c is)
      (is.map fun i => g.arena.written (ds :: gs) i.nodes).sum fun _ _ => True := by
  unfold Resolve.scope
  rw [visited_items (ds :: gs) ha]
  refine (visits_hoist ha g.imports g.interner hc hds).bind fun c₁ t₁ _ hc₁ => ?_
  have hitems := hcheck.items ha order hc₁ (some .action) hrank
  cases order with
  | afterScope =>
    simp only [reduceCtorEq, if_false, add_zero] at hitems
    refine hitems.bind fun r t₂ _ hr => ?_
    exact (visits_forM is fun i hi t' hle =>
      hcheck.declaredBody ha (hr.mono hle) (hrank i hi)).andPure
  | inPlace =>
    simp only [if_true, List.sum_map_add] at hitems
    exact hitems.andPure

theorem VisitsBelow.arm (hc : c.Sees t g.arena outer scopes) (hasSubject : Bool) (arm : Code.Arm)
    (hrank : ∀ y ∈ arm.kind.children, g.arena.rank y < n) :
    Visits g.arena outer t (Resolve.arm g check c hasSubject arm)
      (g.arena.written scopes arm.kind.children) fun _ _ => True := by
  unfold Resolve.arm
  cases hk : arm.kind with
  | when condition body =>
    simp only [hk, Code.ArmKind.children, List.forall_mem_cons, Arena.written_cons,
      Arena.written_nil, add_zero] at hrank ⊢
    exact (hcheck hrank.1 hc).andThen fun _ t₁ hle₁ => (hcheck hrank.2.1 (hc.mono hle₁)).andPure
  | is p body =>
    simp only [hk, Code.ArmKind.children, List.forall_mem_cons] at hrank ⊢
    have hbody : ∀ t', t.Le t' → Visits g.arena outer t' (do
        let inner ← pattern g.arena c.nested p
        let _ ← check inner body)
        (g.arena.written scopes [.typeRef p.typeRef, .expr body]) fun _ _ => True :=
      fun t' hle => hcheck.guarded ha (hc.mono hle) p hrank.2.1
    split
    · exact (visits_report _ rfl).quietThen fun _ t' hle _ => hbody t' hle
    · exact hbody t (.refl _)
  | otherwise body =>
    simp only [hk, Code.ArmKind.children, List.forall_mem_cons, Arena.written_cons,
      Arena.written_nil, add_zero] at hrank ⊢
    exact (hcheck hrank.1 hc).andPure

/-- Checking an expression visits everything that is written in it, if checking its parts does. -/
theorem VisitsBelow.node (hc : c.Sees t g.arena outer scopes) {id : ExprId}
    (hrank : ∀ y ∈ g.arena.children (.expr id), g.arena.rank y < n) :
    Visits g.arena outer t (node g check c id) (g.arena.occurrences scopes (.expr id))
      fun _ _ => True := by
  rw [Arena.occurrences_eq ha]
  refine Visits.cons ?_ (fun _ => trivial) rfl
  -- only a block declares something
  have hc' : c.Sees t g.arena outer ([] :: scopes) := hc.nil_cons
  unfold Resolve.node
  simp only [Arena.children, Arena.inside] at hrank ⊢
  cases hk : (g.arena.expr id).kind with
  | group inner =>
    simp only [hk, Code.ExprKind.children, Code.ExprKind.decls, List.forall_mem_singleton,
      Arena.written_cons, Arena.written_nil, add_zero] at hrank ⊢
    exact hcheck hrank hc'
  | block body =>
    simp only [hk, Code.ExprKind.children, Code.ExprKind.decls] at hrank ⊢
    have hscope := hcheck.scope ha .inPlace hc'.nested (hoistedDecls_ofStmt body) fun i hi => by
      obtain ⟨st, hst, rfl⟩ := List.mem_map.1 hi
      rw [Item.nodes_ofStmt]
      exact fun y hy => hrank y (List.mem_flatMap.2 ⟨st, hst, hy⟩)
    simpa only [Arena.written_flatMap, List.map_map, Function.comp_def, Item.nodes_ofStmt]
      using hscope
  | function params result body =>
    simp only [hk, Code.ExprKind.children, Code.ExprKind.decls, List.forall_mem_append,
      List.forall_mem_singleton, Arena.written_append, Arena.written_cons, Arena.written_nil,
      add_zero, add_assoc] at hrank ⊢
    refine (visits_params ha hc' params).andThen fun types t₁ hle₁ => ?_
    refine (visits_typeRef? ha (hc'.mono hle₁)).andThen fun ty t₂ hle₂ => ?_
    exact (hcheck.functionBody (hc'.mono (hle₁.trans hle₂)) params hrank.2).andPure
  | branch subject arms =>
    simp only [hk, Code.ExprKind.children, Code.ExprKind.decls, List.forall_mem_append,
      Arena.written_append, Arena.written_flatMap] at hrank ⊢
    refine (hcheck.optional hc' hrank.1).andThen fun _ t₁ hle₁ => ?_
    exact (visits_forM arms fun arm harm t' hle =>
      hcheck.arm ha (hc'.mono (hle₁.trans hle)) _ arm fun y hy =>
        hrank.2 y (List.mem_flatMap.2 ⟨arm, harm, hy⟩)).andPure
  | loop body =>
    simp only [hk, Code.ExprKind.children, Code.ExprKind.decls, List.forall_mem_singleton,
      Arena.written_cons, Arena.written_nil, add_zero] at hrank ⊢
    have hloop : c.looping.Sees t g.arena outer ([] :: scopes) := hc'
    exact (hcheck hrank hloop).andPure
  | cause payload =>
    simp only [hk, Code.ExprKind.children, Code.ExprKind.decls, List.forall_mem_singleton,
      Arena.written_cons, Arena.written_nil, add_zero] at hrank ⊢
    exact (hcheck hrank hc').andQuiet fun _ _ _ _ => visits_table_bind fun _ _ => visits_skip
  | ret value =>
    simp only [hk, Code.ExprKind.children, Code.ExprKind.decls] at hrank ⊢
    exact hcheck.leaving hc' hrank _ rfl
  | brk value =>
    simp only [hk, Code.ExprKind.children, Code.ExprKind.decls] at hrank ⊢
    exact hcheck.leaving hc' hrank _ rfl
  | string text => exact visits_skip
  | number x => exact visits_skip
  | ident x =>
    simp only [Code.ExprKind.children, Arena.written_nil]
    split
    · exact visits_skip
    · exact (visits_report _ rfl).andPure
  | call callee args =>
    simp only [hk, Code.ExprKind.children, Code.ExprKind.decls, List.forall_mem_cons,
      Arena.written_cons] at hrank ⊢
    rw [add_comm]
    exact hcheck.call hc' hrank.1 hrank.2 _
  | member receiver field =>
    simp only [hk, Code.ExprKind.children, Code.ExprKind.decls, List.forall_mem_singleton,
      Arena.written_cons, Arena.written_nil, add_zero] at hrank ⊢
    exact (hcheck hrank hc').andQuiet fun _ _ _ _ => visits_table_bind fun _ _ => visits_skip
  | pipe subject callee args =>
    simp only [hk, Code.ExprKind.children, Code.ExprKind.decls, List.forall_mem_cons,
      Arena.written_cons] at hrank ⊢
    have hargs : ∀ y ∈ (subject :: args).map Node.expr, g.arena.rank y < n :=
      List.forall_mem_cons.2 ⟨hrank.1, hrank.2.2⟩
    have hcall := hcheck.call hc' hrank.2.1 hargs (g.arena.expr id).span
    rw [List.map_cons, Arena.written_cons, add_assoc, add_comm (Arena.written _ _ _)] at hcall
    exact hcall

end

/-- Checking an expression with enough depth visits everything that is written in it. -/
theorem visitsBelow_expr {g : Setting} (ha : g.arena.Ranked) (depth : Nat) :
    VisitsBelow g outer (expr g depth) (g.arena.typeRefs.size + 2 * depth + 1) := by
  induction depth with
  | zero => exact fun hrank => absurd hrank (by simp only [Arena.rank]; omega)
  | succ depth ih =>
    intro c id scopes t hrank hc
    refine ih.node ha hc fun y hy => Nat.lt_of_lt_of_le (ha _ y hy) ?_
    simp only [Arena.rank] at hrank ⊢
    omega

end Resolve

/-! ### Builtin types -/

namespace Interner

variable {t : Interner} {n : Name}

/-- A name that was given out is not given out for a new string. -/
theorem intern_eq_iff {text : String} (h : t.text? n = some text) {s : String} :
    (t.intern s).1 = n ↔ t.find? s = some n := by
  refine ⟨fun hn => ?_, intern_of_find?⟩
  cases hs : t.find? s with
  | some n' => rw [← hn, intern_of_find? hs]
  | none =>
    have hnew : t.shards[shardOf s].index[s]? = none := Option.map_eq_none_iff.1 hs
    have hname : (t.intern s).1 = ⟨shardOf s, t.shards[shardOf s].texts.size⟩ := by
      simp only [intern, Shard.intern]
      split
      · rename_i i hi
        rw [hnew] at hi
        cases hi
      · rfl
    rw [← hn, hname, text?, Array.getElem?_eq_none (Nat.le_refl _)] at h
    cases h

end Interner

/-- The builtin type of a name. -/
def TypeTable.builtin? (interner : Interner) (n : Name) : Option TypeId :=
  (TypeTable.builtinNames.findIdx? fun s => interner.find? s = some n).map TypeId.mk

/-- Around a module, the names of the builtin types stand for these. -/
theorem Module.type?_outerContext (m : Module) (imports : Imports) {interner : Interner} {n : Name}
    {text : String} (h : interner.text? n = some text) :
    (m.outerContext imports interner).type? n = TypeTable.builtin? interner n := by
  have hbeq : ∀ s, (n == (interner.intern s).1) = decide (interner.find? s = some n) := fun s => by
    rw [Bool.eq_iff_iff, beq_iff_eq, decide_eq_true_iff, ← Interner.intern_eq_iff h, eq_comm]
  have htypes : (m.outerContext imports interner).type? n = List.lookup n
      [((interner.intern "AssumptionBroken").1, .assumptionBroken),
        ((interner.intern "Debug").1, .debug),
        ((interner.intern "BinaryAnswer").1, .binaryAnswer),
        ((interner.intern "False").1, .falseAnswer), ((interner.intern "True").1, .trueAnswer),
        ((interner.intern "AnySignal").1, .anySignal), ((interner.intern "Anything").1, .anything),
        ((interner.intern "Action").1, .action), ((interner.intern "String").1, .string),
        ((interner.intern "Number").1, TypeId.number)] := by
    simp only [Resolve.Context.type?, Resolve.Context.scopes, Module.outerContext,
      List.findSome?_cons, List.findSome?_nil]
    split
    · rename_i heq
      exact heq.symm
    · rename_i heq
      exact heq.symm
  rw [htypes, TypeTable.builtin?]
  simp only [List.lookup_cons, List.lookup_nil, hbeq, TypeTable.builtinNames, List.findIdx?_cons]
  by_cases hn : ∃ s ∈ TypeTable.builtinNames, interner.find? s = some n
  · obtain ⟨s, hs, hn⟩ := hn
    have hiff : ∀ s', interner.find? s' = some n ↔ s' = s := fun s' =>
      ⟨fun h' => Option.some.inj ((Interner.text?_of_find? h').symm.trans
        (Interner.text?_of_find? hn)), fun h' => h' ▸ hn⟩
    simp only [hiff]
    simp only [TypeTable.builtinNames, List.mem_cons, List.not_mem_nil, or_false] at hs
    rcases hs with rfl | rfl | rfl | rfl | rfl | rfl | rfl | rfl | rfl | rfl <;> decide
  · have hnone : ∀ s ∈ TypeTable.builtinNames, interner.find? s ≠ some n :=
      fun s hs h' => hn ⟨s, hs, h'⟩
    simp only [TypeTable.builtinNames, List.forall_mem_cons] at hnone
    simp [hnone]

/-! ### Modules -/

/-- The table refers to types of the table only. -/
structure TypeTable.Closed (t : TypeTable) : Prop where
  entries : ∀ id, ∀ ty ∈ (t.get id).kind.parts, ty.Below t.size
  refs : ∀ r ty, t.resolved? r = some ty → ty.Below t.size
  functions : ∀ d s, t.function? d = some s → s.type.Below t.size
  declTypes : ∀ d id, t.declType? d = some id → id.index < t.size

/-- The written types of an arena. -/
def Arena.typeRefIds (a : Arena) : List TypeRefId := (List.range a.typeRefs.size).map TypeRefId.mk

section

variable {file : Tree.File} {interner₀ interner₁ interner interner' : Interner} {m : Module}
  {imports : Imports} {types : TypeTable} {errors : List ResolveError}

/-- At first, nothing has been visited. -/
theorem TypeTable.reflects_builtin (a : Arena) (interner : Interner)
    (outer : Name → Option TypeId) :
    (⟨.builtin interner a.typeRefs.size, #[]⟩ : Resolve.Findings).Reflects a outer 0 := by
  refine ⟨Array.size_replicate, by simp, fun d hd => ?_, fun r hr => ?_,
    TypeTable.catalogues_builtin _ _ _, rfl⟩
  · simp [TypeTable.builtin, TypeTable.declType?] at hd
  · simp only [TypeTable.builtin, TypeTable.resolved?, Array.getD_eq_getD_getElem?,
      Array.getElem?_replicate] at hr
    split at hr <;> cases hr

/-- Around the declarations of a module, names stand for builtin types. -/
theorem Module.sees_context (m : Module) (imports : Imports) (interner : Interner)
    (t : TypeTable) :
    (m.context imports interner).Sees t m.arena (m.outerContext imports interner).type? [[]] :=
  Resolve.Context.Sees.nil_cons fun n => (m.outerContext imports interner).type?_nested n

/-- Declarations are not nested deeper than there are expressions. -/
theorem Module.IsForest.rank_lt (hm : m.IsForest) (d : DeclId) :
    ∀ y ∈ (Resolve.Item.decl d).nodes,
      m.arena.rank y < m.arena.typeRefs.size + 2 * m.arena.exprs.size + 1 := by
  intro y hy
  obtain rfl := List.mem_singleton.1 hy
  simp only [Arena.rank]
  split
  · omega
  · rename_i e es he
    have hlt := hm.numbered.bodies d e (by rw [he]; exact List.mem_cons_self ..)
    omega

/-- What is written in the declarations of a module is all that is written in it. -/
theorem Module.sum_written_nodes (m : Module) :
    ((m.decls.map Resolve.Item.decl).map fun i => m.arena.written [m.decls] i.nodes).sum =
      m.occurrences := by
  simp [Module.occurrences, Arena.written_map, Resolve.Item.nodes, Function.comp_def]

/-- Resolution visits all nodes of a module. -/
theorem Module.IsForest.reflects (hm : m.IsForest)
    (hres : m.resolve imports interner = (types, errors, interner')) :
    (⟨types, errors.toArray⟩ : Resolve.Findings).Reflects m.arena
      (m.outerContext imports interner).type? m.occurrences := by
  have hranked := hm.ranked
  let base := TypeTable.builtin interner m.arena.typeRefs.size
  let g : Resolve.Setting := ⟨m.arena, (Resolve.internNames interner imports.prelude).2, imports⟩
  let outer := (m.outerContext imports interner).type?
  have hrank : ∀ i ∈ m.decls.map Resolve.Item.decl, ∀ y ∈ i.nodes,
      m.arena.rank y < m.arena.typeRefs.size + 2 * m.arena.exprs.size + 1 := by
    intro i hi
    obtain ⟨d, -, rfl⟩ := List.mem_map.1 hi
    exact hm.rank_lt d
  have hcheck : Resolve.VisitsBelow g outer (Resolve.expr g m.arena.exprs.size) _ :=
    Resolve.visitsBelow_expr hranked _
  have hvisits := hcheck.scope hranked .afterScope (m.sees_context imports interner base)
    (Resolve.hoistedDecls_map_decl m.decls) hrank
  have hnodes : (m.occurrences + 0).map Prod.snd ≤ m.arena.nodes := by
    rw [add_zero, hm.map_snd_occurrences]
  rw [m.sum_written_nodes] at hvisits
  obtain ⟨hreflects, -⟩ := hvisits ⟨base, #[]⟩ 0 (.refl _)
    (TypeTable.reflects_builtin m.arena interner outer) hnodes
  rw [add_zero] at hreflects
  obtain rfl : (m.resolve imports interner).1 = types := by rw [hres]
  obtain rfl : (m.resolve imports interner).2.1 = errors := by rw [hres]
  exact hreflects

/-- The declarations of a module have been found out. -/
theorem Module.IsForest.settled (hm : m.IsForest)
    (hres : m.resolve imports interner = (types, errors, interner')) {d : DeclId}
    (hd : d.index < m.arena.decls.size) :
    ((Resolve.typeName? (m.arena.decl d).kind).isSome → (types.declType? d).isSome) ∧
      ∀ n params result body, (m.arena.decl d).kind = .function n params result body →
        (types.function? d).isSome := by
  have hreflects := hm.reflects hres
  have hmem : .decl d ∈ m.occurrences.map Prod.snd := by
    rw [hm.map_snd_occurrences]
    exact Arena.mem_nodes_decl.2 hd
  obtain ⟨⟨scopes, x⟩, ho, rfl⟩ := Multiset.mem_map.1 hmem
  have hsettled := hreflects.settled _ ho
  simp only [TypeTable.Settled] at hsettled
  split at hsettled <;> rename_i hk <;> simp_all [Resolve.typeName?]

/-- Resolution visits all nodes of the module of a file. -/
theorem Module.reflects_of_resolve (hm : Module.ofTree file interner₀ = (.ok m, interner₁))
    (hres : m.resolve imports interner = (types, errors, interner')) :
    (⟨types, errors.toArray⟩ : Resolve.Findings).Reflects m.arena
      (m.outerContext imports interner).type? m.occurrences :=
  (Module.isForest_of_ofTree hm).reflects hres

/-- The declarations of the module of a file have been found out. -/
theorem Module.settled_of_resolve (hm : Module.ofTree file interner₀ = (.ok m, interner₁))
    (hres : m.resolve imports interner = (types, errors, interner')) {d : DeclId}
    (hd : d.index < m.arena.decls.size) :
    ((Resolve.typeName? (m.arena.decl d).kind).isSome → (types.declType? d).isSome) ∧
      ∀ n params result body, (m.arena.decl d).kind = .function n params result body →
        (types.function? d).isSome :=
  (Module.isForest_of_ofTree hm).settled hres hd

/-- The written types of a module have been resolved, whether or not there are errors. -/
structure Module.TypesResolved (m : Module) (interner : Interner) (types : TypeTable)
    (errors : List ResolveError) : Prop where
  /-- Every written type has scopes around it, in which it has been resolved.  The errors of unknown
  types are those of the written types that are unknown in their scopes, one for each. -/
  typeRefs : ∃ scopes : TypeRefId → Scopes,
    (∀ gs r, m.Encloses gs (.typeRef r) ↔ r.index < m.arena.typeRefs.size ∧ gs = scopes r) ∧
    (∀ r, r.index < m.arena.typeRefs.size →
      types.Resolves m.arena (TypeTable.builtin? interner) (scopes r) r) ∧
    (errors.filter ResolveError.isUnknownType).Perm (m.arena.typeRefIds.filterMap fun r =>
      m.arena.unknownType? (TypeTable.builtin? interner) (scopes r, .typeRef r))
  /-- Every declared type has an entry of its kind. -/
  declTypes : ∀ d, d.index < m.arena.decls.size →
    (Resolve.typeName? (m.arena.decl d).kind).isSome →
      ∃ id, types.declType? d = some id ∧ (m.arena.decl d).kind.Shapes (types.get id).kind
  /-- Every declared function has a signature. -/
  functions : ∀ d name params result body, d.index < m.arena.decls.size →
    (m.arena.decl d).kind = .function name params result body → (types.function? d).isSome
  closed : types.Closed

/-- **Written types are resolved completely and lexically**, by an interner that has the names of
the module. -/
theorem Module.typesResolved_of_resolve (hm : Module.ofTree file interner₀ = (.ok m, interner₁))
    (hle : ∀ n text, interner₁.text? n = some text → interner.text? n = some text)
    (hres : m.resolve imports interner = (types, errors, interner')) :
    m.TypesResolved interner types errors := by
  have hreflects := Module.reflects_of_resolve hm hres
  have hfaithful := Module.faithful_of_resolve hm hres
  obtain ⟨scopes, hscopes, hocc⟩ := Module.exists_scopes hm
  -- names of written types were given out, so that they are those of builtin types or of none
  have houter : ∀ {r n}, r.index < m.arena.typeRefs.size → (m.arena.typeRef r).kind = .named n →
      (m.outerContext imports interner).type? n = TypeTable.builtin? interner n := fun hr hn =>
    m.type?_outerContext imports (hle _ _ (Module.text?_of_ofTree hm hr hn))
  have hsettled := fun d hd => Module.settled_of_resolve hm hres (d := d) hd
  refine ⟨⟨fun r => scopes (.typeRef r), fun gs r => ?_, fun r hr => ?_, ?_⟩, fun d hd hn => ?_,
    fun d n params result body hd => (hsettled d hd).2 n params result body,
    ⟨hfaithful.entries, hfaithful.refs, hfaithful.functions,
      fun d id hid => (hfaithful.placed d id hid).2.1⟩⟩
  · rw [hscopes, Arena.mem_nodes_typeRef]
  · have hmem : (scopes (.typeRef r), .typeRef r) ∈ m.occurrences := by
      rw [hocc]
      exact Multiset.mem_coe.2 (List.mem_map_of_mem (Arena.mem_nodes_typeRef.2 hr))
    exact TypeTable.Resolves.of_outer (hreflects.settled _ hmem) fun n hn => houter hr hn
  · have hunknowns := hreflects.unknowns
    rw [hocc, Multiset.filterMap_coe, List.filterMap_map] at hunknowns
    refine (Multiset.coe_eq_coe.1 hunknowns).trans (List.Perm.of_eq ?_)
    -- of all nodes, only written types can have an unknown name
    have hexprs : ((List.range m.arena.exprs.size).map fun i => Node.expr ⟨i⟩).filterMap
        (m.arena.unknownType? (m.outerContext imports interner).type? ∘ fun x => (scopes x, x)) =
          [] := by
      simp [Arena.unknownType?]
    have hdecls : ((List.range m.arena.decls.size).map fun i => Node.decl ⟨i⟩).filterMap
        (m.arena.unknownType? (m.outerContext imports interner).type? ∘ fun x => (scopes x, x)) =
          [] := by
      simp [Arena.unknownType?]
    rw [Arena.nodes, List.filterMap_append, List.filterMap_append, hexprs, hdecls,
      List.nil_append, List.nil_append, List.filterMap_map, Arena.typeRefIds, List.filterMap_map]
    refine List.filterMap_congr fun i hi => ?_
    exact Arena.unknownType?_congr fun n hn => houter (List.mem_range.1 hi) hn
  · obtain ⟨id, hid⟩ := Option.isSome_iff_exists.1 ((hsettled d hd).1 hn)
    exact ⟨id, hid, hfaithful.shapes hid⟩

end

/-- The type of a written type is that of its name in the innermost scope, even if it is declared
further below; a name without a type is unknown.

`object Box(content: Number); function f(b: Box) { let c: Box = b; object Box(content: Bag) }` -/
def boxInBox : Tree.File :=
  let box (content : String) : Tree.Decl :=
    .object "Box" [⟨"content", .dummy, .named content .dummy⟩] .dummy
  ⟨"", [box "Number", .function "f" [⟨"b", .dummy, some (.named "Box" .dummy)⟩] none
    (.node (.block [.decl (.binding "c" false (some (.named "Box" .dummy))
      (.node (.ident "b") [] .dummy) .dummy) .dummy, .decl (box "Bag") .dummy]) [] .dummy) .dummy]⟩

/-- The code of a file and what resolution finds out about it. -/
def Tree.File.resolution? (file : Tree.File) (imports : Imports) :
    Option (Module × TypeTable × List ResolveError) :=
  match Module.ofTree file .new with
  | (.error _, _) => none
  | (.ok m, interner) =>
    let (types, errors, _) := m.resolve imports interner
    some (m, types, errors)

theorem Tree.File.of_resolution? {file : Tree.File} {imports : Imports} {m : Module}
    {types : TypeTable} {errors : List ResolveError}
    (h : file.resolution? imports = some (m, types, errors)) :
    ∃ interner interner', Module.ofTree file .new = (.ok m, interner) ∧
      m.resolve imports interner = (types, errors, interner') := by
  unfold Tree.File.resolution? at h
  split at h
  · cases h
  · rename_i m' interner hm
    cases h
    exact ⟨interner, _, hm, rfl⟩

theorem boxInBox_typesResolved : ∃ m interner types errors interner',
    Module.ofTree boxInBox .new = (.ok m, interner) ∧
      m.resolve .none interner = (types, errors, interner') ∧
      types.refs = #[some .number, some (.named ⟨11⟩), some (.named ⟨12⟩), some .unknown] ∧
      (errors.filter ResolveError.isUnknownType).length = 1 ∧
      m.TypesResolved interner types errors := by
  have hok : (boxInBox.resolution? .none).map (fun (_, types, errors) =>
      (types.refs, (errors.filter ResolveError.isUnknownType).length)) =
        some (#[some .number, some (.named ⟨11⟩), some (.named ⟨12⟩), some .unknown], 1) := by
    decide +kernel
  obtain ⟨⟨m, types, errors⟩, hres, heq⟩ := Option.map_eq_some_iff.1 hok
  obtain ⟨hrefs, hcount⟩ := Prod.mk.inj heq
  obtain ⟨interner, interner', hm, hres⟩ := Tree.File.of_resolution? hres
  exact ⟨m, interner, types, errors, interner', hm, hres, hrefs, hcount,
    Module.typesResolved_of_resolve hm (fun _ _ h => h) hres⟩

end SignalLang
