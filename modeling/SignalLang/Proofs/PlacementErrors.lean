import SignalLang.Proofs.Ancestors
import SignalLang.Proofs.Reports
import SignalLang.Proofs.TypeReferences
import Mathlib.Data.Multiset.Bind

/-!
# Which errors of placement are reported

A `break` leaves the nearest loop around it, unless a function comes first; a `return` leaves the
nearest function; and an `is` asks about the subject of its branch.  Resolution reports those that
cannot, whatever else is wrong with the module.

* `Arena.barrier?` : the nodes that stop a `break` or a `return` on its way out.
* `Arena.misplaced` : the errors of placement of an expression, given the nodes around it.
* `Resolve.reportsBelow_expr` : checking an expression reports the errors of placement of all that
  is written in it, each once.
* `Module.placement_errors` : **the errors of placement of a module are those of its expressions.**
-/

namespace SignalLang

open Code (Node)
open Resolve (Place)

/-- What stops a `break` or a `return` on its way out. -/
inductive Code.Barrier where
  | loop
  | function
deriving DecidableEq

/-- The error of an arm that asks about a subject, where there is none. -/
def Code.Arm.withoutSubject? (arm : Code.Arm) : Option ResolveError :=
  match arm.kind with
  | .is _ _ => some ⟨.isWithoutSubject, arm.span⟩
  | _ => none

namespace Arena

section

variable (a : Arena)

/-- What a node is for a `break` or a `return` that is written in it. -/
def barrier? : Node → Option Code.Barrier
  | .expr id =>
    match (a.expr id).kind with
    | .loop _ => some .loop
    | .function _ _ _ => some .function
    | _ => none
  | .decl d =>
    match (a.decl d).kind with
    | .function _ _ _ _ => some .function
    | _ => none
  | .typeRef _ => none

/-- The errors of placement of an expression itself, with some nodes around it, the innermost
first. -/
def misplaced (around : List Node) (id : ExprId) : List ResolveError :=
  let e := a.expr id
  match e.kind with
  | .brk _ =>
    if around.findSome? a.barrier? = some .loop then [] else [⟨.breakOutsideLoop, e.span⟩]
  | .ret _ =>
    if .function ∈ around.filterMap a.barrier? then [] else [⟨.returnOutsideFunction, e.span⟩]
  | .branch none arms => arms.filterMap Code.Arm.withoutSubject?
  | _ => []

/-- What encloses what is written inside some nodes, the innermost first. -/
def placeAt (around : List Node) : Place where
  inLoop := around.findSome? a.barrier? = some .loop
  inFunction := .function ∈ around.filterMap a.barrier?

/-- The errors of placement of a node itself. -/
def errorsAt (around : Node → List Node) : Node → List ResolveError
  | .expr id => a.misplaced (around (.expr id)) id
  | .decl _ | .typeRef _ => []

/-- The errors of placement of a node and of all that is written inside. -/
def errorsBelow (around : Node → List Node) (x : Node) : Multiset ResolveError :=
  (a.below x).bind fun y => a.errorsAt around y

/-- The errors of placement of some nodes and of all that is written inside. -/
def errorsIn (around : Node → List Node) (xs : List Node) : Multiset ResolveError :=
  (xs.map (a.errorsBelow around)).sum

end

variable {a : Arena} {around : Node → List Node}

theorem placeAt_of_eq_none {x : Node} (h : a.barrier? x = none) (xs : List Node) :
    a.placeAt (x :: xs) = a.placeAt xs := by
  simp [placeAt, h]

theorem placeAt_of_eq_loop {x : Node} (h : a.barrier? x = some .loop) (xs : List Node) :
    a.placeAt (x :: xs) = { a.placeAt xs with inLoop := true } := by
  simp [placeAt, h]

theorem placeAt_of_eq_function {x : Node} (h : a.barrier? x = some .function) (xs : List Node) :
    a.placeAt (x :: xs) = ⟨false, true⟩ := by
  simp [placeAt, h]

@[simp] theorem errorsIn_nil : a.errorsIn around [] = 0 := rfl

@[simp] theorem errorsIn_cons (x : Node) (xs : List Node) :
    a.errorsIn around (x :: xs) = a.errorsBelow around x + a.errorsIn around xs := by
  simp [errorsIn]

theorem errorsIn_singleton (x : Node) : a.errorsIn around [x] = a.errorsBelow around x := by
  rw [errorsIn_cons, errorsIn_nil, add_zero]

@[simp] theorem errorsIn_append (xs ys : List Node) :
    a.errorsIn around (xs ++ ys) = a.errorsIn around xs + a.errorsIn around ys := by
  simp [errorsIn]

theorem errorsIn_flatMap {α : Type} (f : α → List Node) (xs : List α) :
    a.errorsIn around (xs.flatMap f) = (xs.map fun x => a.errorsIn around (f x)).sum := by
  induction xs with
  | nil => rfl
  | cons x xs ih => rw [List.flatMap_cons, errorsIn_append, ih, List.map_cons, List.sum_cons]

theorem errorsIn_eq_zero {xs : List Node} (h : ∀ x ∈ xs, a.errorsBelow around x = 0) :
    a.errorsIn around xs = 0 := by
  induction xs with
  | nil => rfl
  | cons x xs ih =>
    obtain ⟨hx, hxs⟩ := List.forall_mem_cons.1 h
    rw [errorsIn_cons, hx, ih hxs, zero_add]

theorem bind_sum {α β γ : Type} (f : α → Multiset β) (h : β → Multiset γ) (xs : List α) :
    (xs.map f).sum.bind h = (xs.map fun x => (f x).bind h).sum := by
  induction xs with
  | nil => rfl
  | cons x xs ih => simp only [List.map_cons, List.sum_cons, Multiset.add_bind, ih]

theorem sum_map_toList {α β : Type} (f : α → Option β) (xs : List α) :
    (xs.map fun x => ((f x).toList : Multiset β)).sum = xs.filterMap f := by
  induction xs with
  | nil => rfl
  | cons x xs ih =>
    rw [List.map_cons, List.sum_cons, ih, List.filterMap_cons]
    cases f x <;> rfl

section

variable (ha : a.Ranked)

include ha

theorem errorsBelow_eq (x : Node) :
    a.errorsBelow around x = a.errorsAt around x + a.errorsIn around (a.children x) := by
  rw [errorsBelow, below_eq ha, Multiset.cons_bind, bind_sum]
  rfl

theorem errorsBelow_typeRef (r : TypeRefId) : a.errorsBelow around (.typeRef r) = 0 := by
  induction hr : a.rank (.typeRef r) using Nat.strong_induction_on generalizing r with
  | _ rank ih =>
    rw [errorsBelow_eq ha, errorsAt, Multiset.coe_nil, zero_add]
    refine errorsIn_eq_zero fun y hy => ?_
    obtain ⟨r', rfl⟩ : ∃ r', y = .typeRef r' := by
      simp only [children] at hy
      cases hk : (a.typeRef r).kind with
      | named n => simp [hk] at hy
      | function params result =>
        simp only [hk, Code.TypeRefKind.children, List.mem_append, List.mem_map,
          List.mem_singleton] at hy
        obtain ⟨q, -, rfl⟩ | rfl := hy
        · exact ⟨q, rfl⟩
        · exact ⟨result, rfl⟩
    exact ih _ (hr ▸ ha _ _ hy) r' rfl

theorem errorsIn_typeRefs {α : Type} (f : α → TypeRefId) (xs : List α) :
    a.errorsIn around (xs.map fun x => .typeRef (f x)) = 0 := by
  refine errorsIn_eq_zero fun y hy => ?_
  obtain ⟨x, -, rfl⟩ := List.mem_map.1 hy
  exact errorsBelow_typeRef ha _

theorem errorsIn_params (params : List Code.Param) :
    a.errorsIn around (params.flatMap fun q => q.children) = 0 := by
  refine errorsIn_eq_zero fun y hy => ?_
  obtain ⟨q, -, hy⟩ := List.mem_flatMap.1 hy
  obtain ⟨r, -, rfl⟩ := List.mem_map.1 hy
  exact errorsBelow_typeRef ha r

/-- Of a declaration, only the value or the body can be misplaced. -/
theorem errorsBelow_decl (d : DeclId) : a.errorsBelow around (.decl d) =
    a.errorsIn around ((a.decl d).kind.subexprs.map .expr) := by
  rw [errorsBelow_eq ha, errorsAt, Multiset.coe_nil, zero_add, children]
  cases (a.decl d).kind with
  | imports path items => rfl
  | function x params result body =>
    rw [Code.DeclKind.children, errorsIn_append, errorsIn_append, errorsIn_params ha,
      errorsIn_typeRefs ha, zero_add, zero_add]
    rfl
  | binding x isVariable type value =>
    rw [Code.DeclKind.children, errorsIn_append, errorsIn_typeRefs ha, zero_add]
    rfl
  | object x fields => exact errorsIn_typeRefs ha _ _
  | signal x fields result =>
    rw [Code.DeclKind.children, errorsIn_append, errorsIn_typeRefs ha, errorsIn_typeRefs ha]
    rfl
  | option x members => exact errorsIn_typeRefs ha _ _

end

end Arena

namespace Resolve

variable {g : Setting} {check : Checker} {around : Node → List Node} {n : Nat} {c : Context}

/-- A node may be checked in a context: it is not nested too deep, and stands in its place. -/
structure Ready (a : Arena) (around : Node → List Node) (n : Nat) (c : Context) (x : Node) :
    Prop where
  rank_lt : a.rank x < n
  place : c.place = a.placeAt (around x)

theorem Ready.of_place {a : Arena} {c' : Context} {x : Node} (h : Ready a around n c x)
    (hc : c'.place = c.place) : Ready a around n c' x :=
  ⟨h.rank_lt, hc.trans h.place⟩

/-- The nodes around what is written in a node are that node and those around it. -/
def Nests (a : Arena) (around : Node → List Node) : Prop :=
  ∀ x, ∀ y ∈ a.children x, around y = x :: around x

theorem Ready.of_mem_children {a : Arena} (ha : a.Ranked) (hnests : Nests a around) {x y : Node}
    (hy : y ∈ a.children x) (hrank : a.rank x < n + 1)
    (hplace : c.place = a.placeAt (x :: around x)) : Ready a around n c y :=
  ⟨Nat.lt_of_lt_of_le (ha x y hy) (Nat.le_of_lt_succ hrank), hplace.trans (hnests x y hy ▸ rfl)⟩

/-- Checking an expression of a low rank reports the errors of placement of all that is written in
it. -/
def ReportsBelow (g : Setting) (around : Node → List Node) (check : Checker) (n : Nat) : Prop :=
  ∀ {c id}, Ready g.arena around n c (.expr id) →
    Reports (check c id) (g.arena.errorsBelow around (.expr id)) fun _ => True

/-! ### Steps that are not about placement -/

theorem reports_assignable (expected found : Ty) (span : Span) :
    Reports (assignable expected found span) 0 fun _ => True := by
  refine reports_table_bind fun t => ?_
  split
  · exact reports_skip
  · split <;> exact reports_other span rfl

theorem reports_functionArguments (args : List (Ty × Option Ty × ExprId)) :
    Reports (functionArguments g.arena args) 0 fun _ => True := by
  induction args with
  | nil => exact reports_skip
  | cons arg args ih =>
    unfold functionArguments
    split
    · exact reports_skip
    · rename_i heq
      cases heq
      exact (reports_assignable _ _ _).quietThen fun _ _ => ih
    · rename_i heq
      cases heq
      exact ih

theorem reports_setTarget (target : Name) (span : Span) :
    Reports (setTarget c target span) 0 fun _ => True := by
  unfold setTarget
  split
  · exact reports_other span rfl
  · split
    · exact reports_skip
    · exact reports_other span rfl

/-! ### Members of a scope -/

section

variable (a : Arena)

/-- What is checked at a member of a scope, even if bodies of functions have to wait. -/
def Item.standing : Item → List Node
  | .stmt st => (Item.stmt st).nodes
  | .decl d =>
    match (a.decl d).kind with
    | .binding _ _ _ value => [.expr value]
    | _ => []

/-- The body of a declared function. -/
def Item.body : Item → List Node
  | .stmt _ => []
  | .decl d =>
    match (a.decl d).kind with
    | .function _ _ _ body => [.expr body]
    | _ => []

variable {a} (ha : a.Ranked)

include ha

theorem Item.errorsIn_nodes (i : Item) : a.errorsIn around i.nodes =
    a.errorsIn around (i.standing a) + a.errorsIn around (i.body a) := by
  cases i with
  | stmt st => simp [Item.standing, Item.body]
  | decl d =>
    simp only [Item.nodes, Item.standing, Item.body, Arena.errorsIn_singleton,
      Arena.errorsBelow_decl ha]
    cases (a.decl d).kind <;> simp [Code.DeclKind.subexprs]

variable (hnests : Nests a around) {i : Item} (h : ∀ y ∈ i.nodes, Ready a around n c y)

include hnests h

theorem Item.ready_standing : ∀ y ∈ i.standing a, Ready a around n c y := by
  cases i with
  | stmt st => exact h
  | decl d =>
    have hd := h _ (List.mem_singleton_self _)
    intro y hy
    simp only [Item.standing] at hy
    split at hy
    · rename_i x isVariable type value hk
      have hy' : y ∈ a.children (.decl d) := by simp_all [Arena.children]
      refine .of_mem_children ha hnests hy' (Nat.lt_succ_of_lt hd.rank_lt) ?_
      rw [Arena.placeAt_of_eq_none (by simp [Arena.barrier?, hk]), hd.place]
    · cases hy

theorem Item.ready_body : ∀ y ∈ i.body a, Ready a around n c.nested.calling y := by
  cases i with
  | stmt st => exact fun _ hy => absurd hy List.not_mem_nil
  | decl d =>
    have hd := h _ (List.mem_singleton_self _)
    intro y hy
    simp only [Item.body] at hy
    split at hy
    · rename_i x params result body hk
      have hy' : y ∈ a.children (.decl d) := by simp_all [Arena.children]
      refine .of_mem_children ha hnests hy' (Nat.lt_succ_of_lt hd.rank_lt) ?_
      rw [Arena.placeAt_of_eq_function (by simp [Arena.barrier?, hk])]
      rfl
    · cases hy

end

/-! ### Parts of an expression -/

section

variable (hcheck : ReportsBelow g around check n)

include hcheck

theorem ReportsBelow.optional {e : Option ExprId}
    (h : ∀ y ∈ e.toList.map Node.expr, Ready g.arena around n c y) :
    Reports (optional check c e) (g.arena.errorsIn around (e.toList.map .expr)) fun _ => True := by
  cases e with
  | none => exact reports_skip
  | some e =>
    simp only [Option.toList_some, List.map_cons, List.map_nil, Arena.errorsIn_singleton]
    exact (hcheck (h _ (List.mem_singleton_self _))).andPure

theorem ReportsBelow.checkAll {es : List ExprId}
    (h : ∀ y ∈ es.map Node.expr, Ready g.arena around n c y) :
    Reports (checkAll check c es) (g.arena.errorsIn around (es.map .expr)) fun _ => True := by
  induction es with
  | nil => exact reports_skip
  | cons e es ih =>
    obtain ⟨he, hes⟩ := List.forall_mem_cons.1 h
    rw [List.map_cons, Arena.errorsIn_cons]
    exact (hcheck he).bind fun _ _ => (ih hes).andPure

theorem ReportsBelow.functionBody (params : List Code.Param) {body : ExprId}
    (h : Ready g.arena around n c.nested.calling (.expr body)) :
    Reports (functionBody check c params body) (g.arena.errorsBelow around (.expr body))
      fun _ => True := by
  have hparam : ∀ (c' : Context) p, c'.place = c.nested.calling.place →
      Stays (parameter c' p) c.nested.calling.place := fun c' p hc' =>
    (stays_declare _ _ hc').quietThen fun _ hc'' => reports_table_bind fun _ => stays_pure hc''
  exact (stays_foldlM params hparam rfl).quietThen fun _ hc => (hcheck (h.of_place hc)).andPure

/-- The body behind a pattern. -/
theorem ReportsBelow.guarded (p : Code.Pattern) {body : ExprId}
    (h : Ready g.arena around n c (.expr body)) {r : α} :
    Reports (do
      let inner ← pattern g.arena c.nested p
      let _ ← check inner body
      return r) (g.arena.errorsBelow around (.expr body)) fun _ => True :=
  (stays_pattern p (show c.nested.place = c.place from rfl)).quietThen fun _ hc =>
    (hcheck (h.of_place hc)).andPure

theorem ReportsBelow.binding (d : DeclId) (x : Name) (isVariable : Bool)
    (type : Option TypeRefId) {value : ExprId} (h : Ready g.arena around n c (.expr value)) :
    Reports (binding g check c d x isVariable type value)
      (g.arena.errorsBelow around (.expr value)) fun c' => c'.place = c.place := by
  have hdone : ∀ info, Stays (do
      let c ← declare c x (g.arena.decl d).span
      return c.addValue x info) c.place := fun info =>
    (stays_declare x _ rfl).quietThen fun _ hc' => stays_pure hc'
  refine (hcheck h).andQuiet fun found _ => ?_
  cases type with
  | none => exact hdone _
  | some r =>
    refine (reports_typeRef r).quietThen fun expected _ => ?_
    cases found with
    | none => exact hdone _
    | some found => exact (reports_assignable _ _ _).quietThen fun _ _ => hdone _

theorem ReportsBelow.call {callee : ExprId} {args : List ExprId}
    (hcallee : Ready g.arena around n c (.expr callee))
    (hargs : ∀ y ∈ args.map Node.expr, Ready g.arena around n c y) (span : Span) :
    Reports (call g check c callee args span)
      (g.arena.errorsIn around (args.map .expr) + g.arena.errorsBelow around (.expr callee))
      fun _ => True := by
  refine (hcheck.checkAll hargs).bind fun types _ => ?_
  refine (hcheck hcallee).andQuiet fun ty _ => ?_
  have hend : ∀ {types : List (Ty × Option Ty × ExprId)} {r : Option Ty},
      Reports (do functionArguments g.arena types; return r) 0 fun _ => True :=
    (reports_functionArguments _).andPure
  dsimp only
  split
  · exact reports_skip
  · split
    · split
      · exact (reports_other _ rfl).quietThen fun _ _ => hend
      · exact hend
    · exact reports_skip

/-- What leaves a function or a loop. -/
theorem ReportsBelow.leaving {value : Option ExprId}
    (h : ∀ y ∈ value.toList.map Node.expr, Ready g.arena around n c y) (placed : Bool)
    {problem : ResolveProblem} (span : Span)
    (hproblem : ResolveError.isPlacement ⟨problem, span⟩ = true) :
    Reports (do
      if !placed then report problem span
      Resolve.optional check c value
      return (none : Option Ty))
      (((if placed then [] else [⟨problem, span⟩] : List ResolveError) : Multiset ResolveError) +
        g.arena.errorsIn around (value.toList.map .expr)) fun _ => True := by
  have hvalue : Reports (do
      Resolve.optional check c value
      return (none : Option Ty)) (g.arena.errorsIn around (value.toList.map .expr))
      fun _ => True := (hcheck.optional h).andPure
  cases placed with
  | true => exact (zero_add (g.arena.errorsIn around _)).symm ▸ hvalue
  | false =>
    have hreport := reports_report problem span
    rw [if_pos hproblem] at hreport
    exact hreport.bind fun _ _ => hvalue

/-! ### Branches -/

variable (ha : g.arena.Ranked)

include ha

theorem ReportsBelow.arm (subject : Option ExprId) (arm : Code.Arm)
    (h : ∀ y ∈ arm.kind.children, Ready g.arena around n c y) :
    Reports (Resolve.arm g check c subject.isSome arm)
      ((if subject = none then arm.withoutSubject?.toList else [] : List ResolveError) +
        g.arena.errorsIn around arm.kind.children) fun _ => True := by
  unfold Resolve.arm Code.Arm.withoutSubject?
  cases hk : arm.kind with
  | when condition body =>
    simp only [hk, Code.ArmKind.children, List.forall_mem_cons, Arena.errorsIn_cons,
      Arena.errorsIn_nil, add_zero, Option.toList_none, ite_self, Multiset.coe_nil, zero_add] at h ⊢
    exact (hcheck h.1).bind fun _ _ => (hcheck h.2.1).andPure
  | is p body =>
    simp only [hk, Code.ArmKind.children, List.forall_mem_cons, Arena.errorsIn_cons,
      Arena.errorsIn_nil, Arena.errorsBelow_typeRef ha, zero_add, add_zero] at h ⊢
    have hbody : Reports (do
        let inner ← pattern g.arena c.nested p
        let _ ← check inner body) (g.arena.errorsBelow around (.expr body)) fun _ => True :=
      hcheck.guarded p h.2.1
    cases subject with
    | none => exact (reports_report .isWithoutSubject arm.span).bind fun _ _ => hbody
    | some subject => exact (zero_add (g.arena.errorsBelow around _)).symm ▸ hbody
  | otherwise body =>
    simp only [hk, Code.ArmKind.children, List.forall_mem_singleton, Arena.errorsIn_singleton,
      Option.toList_none, ite_self, Multiset.coe_nil, zero_add] at h ⊢
    exact (hcheck h).andPure

theorem ReportsBelow.arms (subject : Option ExprId) {arms : List Code.Arm}
    (h : ∀ y ∈ arms.flatMap fun arm => arm.kind.children, Ready g.arena around n c y) :
    Reports (arms.forM (Resolve.arm g check c subject.isSome))
      ((if subject = none then arms.filterMap Code.Arm.withoutSubject? else [] :
          List ResolveError) +
        g.arena.errorsIn around (arms.flatMap fun arm => arm.kind.children)) fun _ => True := by
  have harms := reports_forM arms fun arm harm => hcheck.arm ha subject arm fun y hy =>
    h y (List.mem_flatMap.2 ⟨arm, harm, hy⟩)
  have hwithout : (arms.map fun arm => ((if subject = none then arm.withoutSubject?.toList else [] :
      List ResolveError) : Multiset ResolveError)).sum =
        (if subject = none then arms.filterMap Code.Arm.withoutSubject? else [] :
          List ResolveError) := by
    cases subject with
    | none => exact Arena.sum_map_toList _ arms
    | some subject => simp
  rwa [List.sum_map_add, ← Arena.errorsIn_flatMap, hwithout] at harms

/-! ### Scopes -/

omit ha in
theorem ReportsBelow.declaredBody {i : Item}
    (h : ∀ y ∈ i.body g.arena, Ready g.arena around n c.nested.calling y) :
    Reports (declaredBody g check c i) (g.arena.errorsIn around (i.body g.arena))
      fun _ => True := by
  cases i with
  | stmt st => exact reports_skip
  | decl d =>
    simp only [Resolve.declaredBody, Item.body] at h ⊢
    cases hk : (g.arena.decl d).kind with
    | function x params result body =>
      simp only [hk, List.forall_mem_singleton, Arena.errorsIn_singleton] at h ⊢
      exact hcheck.functionBody params h
    | _ => exact reports_skip

theorem ReportsBelow.stmt (st : Code.Stmt)
    (h : ∀ y ∈ (Item.stmt st).nodes, Ready g.arena around n c y) :
    Reports (stmt g check c st) (g.arena.errorsIn around (Item.stmt st).nodes) fun _ => True := by
  unfold Resolve.stmt
  simp only [Item.nodes] at h ⊢
  cases hk : st.kind with
  | expr e =>
    simp only [hk, Code.StmtKind.children, List.forall_mem_singleton, Arena.errorsIn_singleton]
      at h ⊢
    exact hcheck h
  | decl d => exact reports_skip
  | effect p body =>
    simp only [hk, Code.StmtKind.children, List.forall_mem_cons, Arena.errorsIn_cons,
      Arena.errorsIn_nil, Arena.errorsBelow_typeRef ha, zero_add, add_zero] at h ⊢
    exact hcheck.guarded p h.2.1
  | set target value =>
    simp only [hk, Code.StmtKind.children, List.forall_mem_singleton, Arena.errorsIn_singleton]
      at h ⊢
    exact (hcheck h).andQuiet fun _ _ => (reports_setTarget _ _).andPure

theorem ReportsBelow.item (order : BodyOrder) (i : Item)
    (hstanding : ∀ y ∈ i.standing g.arena, Ready g.arena around n c y)
    (hbody : ∀ y ∈ i.body g.arena, Ready g.arena around n c.nested.calling y) :
    Reports (item g check order c i) (g.arena.errorsIn around (i.standing g.arena) +
      if order = .inPlace then g.arena.errorsIn around (i.body g.arena) else 0)
      fun r => r.1.place = c.place := by
  cases i with
  | stmt st =>
    simp only [Item.body, Arena.errorsIn_nil, ite_self, add_zero]
    exact (hcheck.stmt ha st hstanding).andQuiet fun _ _ => reports_pure rfl
  | decl d =>
    simp only [Resolve.item, Item.standing, Item.body] at hstanding hbody ⊢
    cases hk : (g.arena.decl d).kind with
    | binding x isVariable type value =>
      simp only [hk, List.forall_mem_singleton, Arena.errorsIn_singleton, Arena.errorsIn_nil,
        ite_self, add_zero] at hstanding ⊢
      exact (hcheck.binding d x isVariable type hstanding).andQuiet fun _ hc => reports_pure hc
    | function x params result body =>
      simp only [hk, List.forall_mem_singleton, Arena.errorsIn_singleton, Arena.errorsIn_nil,
        zero_add] at hbody ⊢
      by_cases horder : order = .inPlace
      · simp only [if_pos horder]
        exact (hcheck.functionBody params hbody).andQuiet fun _ _ => reports_pure rfl
      · simp only [if_neg horder]
        exact reports_pure rfl
    | _ =>
      simp only [Arena.errorsIn_nil, ite_self, add_zero]
      exact reports_pure rfl

variable (hnests : Nests g.arena around)

include hnests

theorem ReportsBelow.items (order : BodyOrder) (last : Option Ty) {is : List Item}
    (h : ∀ i ∈ is, ∀ y ∈ i.nodes, Ready g.arena around n c y) :
    Reports (items g check order c last is)
      (is.map fun i => g.arena.errorsIn around (i.standing g.arena) +
        if order = .inPlace then g.arena.errorsIn around (i.body g.arena) else 0).sum
      fun r => r.1.place = c.place := by
  induction is generalizing c last with
  | nil => exact reports_pure rfl
  | cons i is ih =>
    obtain ⟨hi, his⟩ := List.forall_mem_cons.1 h
    rw [List.map_cons, List.sum_cons]
    refine (hcheck.item ha order i (Item.ready_standing ha hnests hi)
      (Item.ready_body ha hnests hi)).bind fun r hr => ?_
    rw [← hr]
    exact ih r.2 fun i hi y hy => (his i hi y hy).of_place hr

/-- Checking a scope reports the errors of placement of all that is written in its members. -/
theorem ReportsBelow.scope (order : BodyOrder) {is : List Item}
    (h : ∀ i ∈ is, ∀ y ∈ i.nodes, Ready g.arena around n c y) :
    Reports (Resolve.scope g check order c is)
      (is.map fun i => g.arena.errorsIn around i.nodes).sum fun _ => True := by
  unfold Resolve.scope
  simp only [Item.errorsIn_nodes ha, List.sum_map_add]
  refine (reports_hoist g.imports g.interner _ rfl).quietThen fun c₁ hc₁ => ?_
  have hitems := hcheck.items ha hnests order (some .action) fun i hi y hy =>
    (h i hi y hy).of_place hc₁
  cases order with
  | afterScope =>
    simp only [reduceCtorEq, if_false, add_zero] at hitems
    refine hitems.bind fun r hr => ?_
    refine (reports_forM is fun i hi => hcheck.declaredBody ?_).andPure
    exact Item.ready_body ha hnests fun y hy => (h i hi y hy).of_place (hr.trans hc₁)
  | inPlace =>
    simp only [if_true, List.sum_map_add] at hitems
    exact hitems.andPure

/-! ### Expressions -/

/-- Checking an expression reports the errors of placement of all that is written in it, if checking
its parts does. -/
theorem ReportsBelow.node {id : ExprId} (h : Ready g.arena around (n + 1) c (.expr id)) :
    Reports (node g check c id) (g.arena.errorsBelow around (.expr id)) fun _ => True := by
  have hchildren : ∀ {c' : Context},
      c'.place = g.arena.placeAt (.expr id :: around (.expr id)) →
        ∀ y ∈ g.arena.children (.expr id), Ready g.arena around n c' y := fun hc _ hy =>
    .of_mem_children ha hnests hy h.rank_lt hc
  -- other constructs than loops and functions leave what is written in them in the same place
  have hsame : g.arena.barrier? (.expr id) = none →
      ∀ y ∈ g.arena.children (.expr id), Ready g.arena around n c y := fun hb =>
    hchildren ((Arena.placeAt_of_eq_none hb _).symm ▸ h.place)
  rw [Arena.errorsBelow_eq ha]
  unfold Resolve.node
  simp only [Arena.children, Arena.errorsAt, Arena.misplaced, Arena.barrier?] at hchildren hsame ⊢
  cases hk : (g.arena.expr id).kind with
  | group inner =>
    simp only [hk, Code.ExprKind.children, List.forall_mem_singleton, Arena.errorsIn_singleton,
      Multiset.coe_nil, zero_add, true_imp_iff] at hsame ⊢
    exact hcheck hsame
  | block body =>
    simp only [hk, Code.ExprKind.children, true_imp_iff] at hsame
    have hready : ∀ i ∈ body.map Item.ofStmt, ∀ y ∈ i.nodes,
        Ready g.arena around n c.nested y := by
      intro i hi
      obtain ⟨st, hst, rfl⟩ := List.mem_map.1 hi
      rw [Item.nodes_ofStmt]
      exact fun y hy => (hsame y (List.mem_flatMap.2 ⟨st, hst, hy⟩)).of_place rfl
    have hscope := hcheck.scope ha hnests .inPlace hready
    simpa only [Code.ExprKind.children, Arena.errorsIn_flatMap, List.map_map, Function.comp_def,
      Item.nodes_ofStmt, Multiset.coe_nil, zero_add] using hscope
  | function params result body =>
    simp only [hk, Code.ExprKind.children, List.forall_mem_append, List.forall_mem_singleton,
      Arena.errorsIn_append, Arena.errorsIn_params ha, Arena.errorsIn_typeRefs ha,
      Arena.errorsIn_singleton, Multiset.coe_nil, zero_add] at hchildren ⊢
    refine (reports_mapM fun p _ => reports_typeRef? p.typeRef).quietThen fun types _ => ?_
    refine (reports_typeRef? result).quietThen fun ty _ => ?_
    refine (hcheck.functionBody params (hchildren ?_).2).andPure
    rw [Arena.placeAt_of_eq_function (by simp [Arena.barrier?, hk])]
    rfl
  | branch subject arms =>
    simp only [hk, Code.ExprKind.children, List.forall_mem_append, true_imp_iff] at hsame
    have harms := hcheck.arms ha subject hsame.2
    have hall : Reports (do
        Resolve.optional check c subject
        arms.forM (Resolve.arm g check c subject.isSome)
        return (none : Option Ty)) _ _ :=
      (hcheck.optional hsame.1).bind fun _ _ => harms.andPure
    rw [add_left_comm, ← Arena.errorsIn_append] at hall
    cases subject <;> exact hall
  | loop body =>
    simp only [hk, Code.ExprKind.children, List.forall_mem_singleton, Arena.errorsIn_singleton,
      Multiset.coe_nil, zero_add] at hchildren ⊢
    have hplace : c.looping.place = g.arena.placeAt (.expr id :: around (.expr id)) := by
      rw [Arena.placeAt_of_eq_loop (by simp [Arena.barrier?, hk]), ← h.place]
      rfl
    exact (hcheck (hchildren hplace)).andPure
  | cause payload =>
    simp only [hk, Code.ExprKind.children, List.forall_mem_singleton, Arena.errorsIn_singleton,
      Multiset.coe_nil, zero_add, true_imp_iff] at hsame ⊢
    exact (hcheck hsame).andQuiet fun _ _ => reports_table_bind fun _ => reports_skip
  | ret value =>
    simp only [hk, Code.ExprKind.children, true_imp_iff] at hsame ⊢
    have hplace : c.inFunction = decide (_ ∈ _) := congrArg Place.inFunction h.place
    have hleaving := hcheck.leaving hsame c.inFunction (g.arena.expr id).span
      (show ResolveError.isPlacement ⟨.returnOutsideFunction, _⟩ = true from rfl)
    simpa only [hplace, decide_eq_true_iff] using hleaving
  | brk value =>
    simp only [hk, Code.ExprKind.children, true_imp_iff] at hsame ⊢
    have hplace : c.inLoop = decide (_ = _) := congrArg Place.inLoop h.place
    have hleaving := hcheck.leaving hsame c.inLoop (g.arena.expr id).span
      (show ResolveError.isPlacement ⟨.breakOutsideLoop, _⟩ = true from rfl)
    simpa only [hplace, decide_eq_true_iff] using hleaving
  | string text => exact reports_skip
  | number x => exact reports_skip
  | ident x =>
    dsimp only
    split
    · exact reports_skip
    · exact (reports_other _ rfl).andPure
  | call callee args =>
    simp only [hk, Code.ExprKind.children, List.forall_mem_cons, Arena.errorsIn_cons,
      Multiset.coe_nil, zero_add, true_imp_iff] at hsame ⊢
    rw [add_comm]
    exact hcheck.call hsame.1 hsame.2 _
  | member receiver field =>
    simp only [hk, Code.ExprKind.children, List.forall_mem_singleton, Arena.errorsIn_singleton,
      Multiset.coe_nil, zero_add, true_imp_iff] at hsame ⊢
    exact (hcheck hsame).andQuiet fun _ _ => reports_table_bind fun _ => reports_skip
  | pipe subject callee args =>
    simp only [hk, Code.ExprKind.children, List.forall_mem_cons, Arena.errorsIn_cons,
      Multiset.coe_nil, zero_add, true_imp_iff] at hsame ⊢
    have hargs : ∀ y ∈ (subject :: args).map Node.expr, Ready g.arena around n c y :=
      List.forall_mem_cons.2 ⟨hsame.1, hsame.2.2⟩
    have hcall := hcheck.call hsame.2.1 hargs (g.arena.expr id).span
    rw [List.map_cons, Arena.errorsIn_cons, add_assoc, add_comm (Arena.errorsIn _ _ _)] at hcall
    exact hcall

end

/-- Checking an expression with enough depth reports the errors of placement of all that is written
in it. -/
theorem reportsBelow_expr (ha : g.arena.Ranked) (hnests : Nests g.arena around) (depth : Nat) :
    ReportsBelow g around (expr g depth) (g.arena.typeRefs.size + 2 * depth + 1) := by
  induction depth with
  | zero =>
    intro c id h
    exact absurd h.rank_lt (by simp only [Arena.rank]; omega)
  | succ depth ih =>
    intro c id h
    refine ih.node ha hnests ⟨?_, h.place⟩
    have := h.rank_lt
    simp only [Arena.rank] at this ⊢
    omega

end Resolve

/-! ### Modules -/

section

variable {file : Tree.File} {interner₀ interner₁ interner interner' : Interner} {m : Module}
  {imports : Imports} {types : TypeTable} {errors : List ResolveError}

/-- Resolution reports the errors of placement of all that is written in the declarations. -/
theorem Module.IsForest.placements {around : Node → List Node} (hm : m.IsForest)
    (htop : ∀ d ∈ m.decls, around (.decl d) = []) (hnests : Resolve.Nests m.arena around)
    (hres : m.resolve imports interner = (types, errors, interner')) :
    (errors.filter ResolveError.isPlacement : Multiset ResolveError) =
      (m.arena.nodes.flatMap (m.arena.errorsAt around) : List ResolveError) := by
  let base := TypeTable.builtin interner m.arena.typeRefs.size
  let g : Resolve.Setting := ⟨m.arena, (Resolve.internNames interner imports.prelude).2, imports⟩
  have hready : ∀ i ∈ m.decls.map Resolve.Item.decl, ∀ y ∈ i.nodes, Resolve.Ready m.arena around
      (m.arena.typeRefs.size + 2 * m.arena.exprs.size + 1) (m.context imports interner) y := by
    intro i hi y hy
    obtain ⟨d, hd, rfl⟩ := List.mem_map.1 hi
    refine ⟨hm.rank_lt d y hy, ?_⟩
    obtain rfl := List.mem_singleton.1 hy
    rw [htop d hd]
    rfl
  have hcheck : Resolve.ReportsBelow g around (Resolve.expr g m.arena.exprs.size) _ :=
    Resolve.reportsBelow_expr hm.ranked hnests _
  obtain ⟨hplacements, -⟩ := hcheck.scope hm.ranked hnests .afterScope hready ⟨base, #[]⟩
  obtain rfl : (m.resolve imports interner).2.1 = errors := by rw [hres]
  calc ((m.resolve imports interner).2.1.filter ResolveError.isPlacement : Multiset ResolveError)
    _ = ((m.decls.map Resolve.Item.decl).map fun i => m.arena.errorsIn around i.nodes).sum + 0 :=
      hplacements
    _ = (m.decls.map fun d => m.arena.errorsBelow around (.decl d)).sum := by
      simp [Resolve.Item.nodes, Function.comp_def]
    _ = (m.arena.nodes.flatMap (m.arena.errorsAt around) : List ResolveError) := by
      rw [← Multiset.coe_bind, ← hm.sum_below, Arena.bind_sum]
      rfl

/-- Only expressions can be misplaced. -/
theorem Arena.flatMap_errorsAt (a : Arena) (around : Node → List Node) :
    a.nodes.flatMap (a.errorsAt around) =
      (List.range a.exprs.size).flatMap fun i => a.misplaced (around (.expr ⟨i⟩)) ⟨i⟩ := by
  simp [Arena.nodes, Arena.errorsAt, List.flatMap_map]

/-- **The errors of placement of a module are those of its expressions**, each in the place that is
determined by the nodes around it. -/
theorem Module.placement_errors (hm : Module.ofTree file interner₀ = (.ok m, interner₁))
    (hres : m.resolve imports interner = (types, errors, interner')) :
    ∃ around : Node → List Node,
      (∀ xs x, m.Under xs x ↔ x ∈ m.arena.nodes ∧ xs = around x) ∧
      (errors.filter ResolveError.isPlacement).Perm ((List.range m.arena.exprs.size).flatMap
        fun i => m.arena.misplaced (around (.expr ⟨i⟩)) ⟨i⟩) := by
  have hforest := Module.isForest_of_ofTree hm
  obtain ⟨around, haround⟩ := hforest.exists_around
  refine ⟨around, haround, Multiset.coe_eq_coe.1 ?_⟩
  rw [← Arena.flatMap_errorsAt]
  refine hforest.placements (fun d hd => ?_) (fun x y hy => ?_) hres
  · exact ((haround _ _).1 (.top hd)).2.symm
  · have hx := (haround _ x).2 ⟨Arena.mem_nodes_of_mem_children hy, rfl⟩
    exact ((haround _ y).1 (hx.inner hy)).2.symm

end

/-- A handler can leave the loop around it, a function literal cannot.  A branch without subject can
ask about none, and a `let` of the module has no function to leave.

`function f() { loop { effect for Debug break fn() break nobody } branch { is Debug return } }`
`let b = return` -/
def breakInLiteral : Tree.File :=
  let leaf (e : Tree.Primary) (start stop : Nat) : Tree.Expr := .node e [] ⟨start, stop⟩
  let debug : Tree.Pattern := ⟨.named "Debug" .dummy, none, .dummy⟩
  let rounds : List Tree.Stmt :=
    [.effect debug (leaf (.brk none) 39 44) .dummy,
      .expr (leaf (.function [] none (leaf (.brk none) 50 55)) 45 55) .dummy,
      .expr (leaf (.ident "nobody") 56 62) .dummy]
  let body : List Tree.Stmt :=
    [.expr (leaf (.loop (leaf (.block rounds) 20 64)) 15 64) .dummy,
      .expr (leaf (.branch none [.is debug (leaf (.ret none) 83 89) ⟨74, 89⟩]) 65 91) .dummy]
  ⟨"", [.function "f" [] none (leaf (.block body) 13 93) .dummy,
    .binding "b" false none (leaf (.ret none) 102 108) .dummy]⟩

theorem breakInLiteral_placementErrors : ∃ m interner types errors interner',
    Module.ofTree breakInLiteral .new = (.ok m, interner) ∧
      m.resolve .none interner = (types, errors, interner') ∧ errors.length = 4 ∧
      errors.filter ResolveError.isPlacement = [⟨.returnOutsideFunction, ⟨102, 108⟩⟩,
        ⟨.breakOutsideLoop, ⟨50, 55⟩⟩, ⟨.isWithoutSubject, ⟨74, 89⟩⟩] ∧
      ∃ around : Node → List Node,
        (∀ xs x, m.Under xs x ↔ x ∈ m.arena.nodes ∧ xs = around x) ∧
        (errors.filter ResolveError.isPlacement).Perm ((List.range m.arena.exprs.size).flatMap
          fun i => m.arena.misplaced (around (.expr ⟨i⟩)) ⟨i⟩) := by
  have hok : (breakInLiteral.resolution? .none).map (fun (_, _, errors) =>
      (errors.length, errors.filter ResolveError.isPlacement)) =
        some (4, [⟨.returnOutsideFunction, ⟨102, 108⟩⟩, ⟨.breakOutsideLoop, ⟨50, 55⟩⟩,
          ⟨.isWithoutSubject, ⟨74, 89⟩⟩]) := by
    decide +kernel
  obtain ⟨⟨m, types, errors⟩, hres, heq⟩ := Option.map_eq_some_iff.1 hok
  obtain ⟨hcount, hfound⟩ := Prod.mk.inj heq
  obtain ⟨interner, interner', hm, hres⟩ := Tree.File.of_resolution? hres
  exact ⟨m, interner, types, errors, interner', hm, hres, hcount, hfound,
    Module.placement_errors hm hres⟩

end SignalLang
