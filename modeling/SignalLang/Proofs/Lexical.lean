import SignalLang.Eval.Block
import Mathlib.Logic.Relation

/-!
# Lexical structure

Expressions, statements and declarations refer to expressions by number.  This file names the ways
in which one expression is written inside another, without saying how any of them is evaluated.

* `Arena.Child arena id pos e` : `e` is written directly in `id`, in the same body, as the body of a
  loop or as the body of a function.
* `Arena.Inside` : an expression is written inside another one and belongs to the same body, which
  neither a loop nor a function nor a handler separates.
* `Arena.Ordered` : every expression is numbered after those that are written in it.
-/

namespace SignalLang

namespace Code

/-- The expressions that an expression evaluates before anything else, in this order. -/
@[simp] def ExprKind.operands : ExprKind → List ExprId
  | .group inner => [inner]
  | .branch subject _ => subject.toList
  | .cause payload => [payload]
  | .ret value => value.toList
  | .brk value => value.toList
  | .call callee args => callee :: args
  | .member receiver _ => [receiver]
  | .pipe subject callee args => subject :: callee :: args
  | .block _ | .function _ _ _ | .loop _ | .string _ | .number _ | .ident _ => []

/-- The expression that a statement evaluates where it stands.  The body of a handler is evaluated
elsewhere. -/
def Stmt.operand? (arena : Arena) (st : Stmt) : Option ExprId :=
  match st.kind with
  | .expr e => some e
  | .set _ value => some value
  | .decl d =>
    match (arena.decl d).kind with
    | .binding _ _ _ value => some value
    | _ => none
  | .effect _ _ => none

/-- The expressions to which an arm refers. -/
@[simp] def ArmKind.subexprs : ArmKind → List ExprId
  | .when condition body => [condition, body]
  | .is _ body => [body]
  | .otherwise body => [body]

/-- The expressions to which a statement refers. -/
@[simp] def StmtKind.subexprs : StmtKind → List ExprId
  | .expr e => [e]
  | .decl _ => []
  | .effect _ body => [body]
  | .set _ value => [value]

/-- The expressions to which a declaration refers. -/
@[simp] def DeclKind.subexprs : DeclKind → List ExprId
  | .function _ _ _ body => [body]
  | .binding _ _ _ value => [value]
  | _ => []

/-- The expressions to which an expression refers. -/
@[simp] def ExprKind.subexprs : ExprKind → List ExprId
  | .block body => body.flatMap fun st => st.kind.subexprs
  | .function _ _ body => [body]
  | .loop body => [body]
  | .branch subject arms => subject.toList ++ arms.flatMap fun a => a.kind.subexprs
  | kind => kind.operands

/-- The declarations to which an expression refers. -/
@[simp] def ExprKind.decls : ExprKind → List DeclId
  | .block body => Eval.declsOf body
  | _ => []

/-- The expressions to which a statement refers, itself or by its declaration. -/
def Stmt.inner (arena : Arena) (st : Stmt) : List ExprId :=
  match st.kind with
  | .decl d => (arena.decl d).kind.subexprs
  | kind => kind.subexprs

/-- The expressions written directly in an expression, also by declarations. -/
def ExprKind.inner (arena : Arena) : ExprKind → List ExprId
  | .block body => body.flatMap fun st => st.inner arena
  | kind => kind.subexprs

end Code

namespace Arena

/-- The expressions written directly in an expression. -/
def inner (arena : Arena) (id : ExprId) : List ExprId := (arena.expr id).kind.inner arena

/-- `e` is written in `id` and belongs to the same body. -/
inductive Part (arena : Arena) (id : ExprId) : ExprId → Prop
  | operand {e} (h : e ∈ (arena.expr id).kind.operands) : Part arena id e
  | stmt {body st e} (hk : (arena.expr id).kind = .block body) (hst : st ∈ body)
      (he : st.operand? arena = some e) : Part arena id e
  | condition {subject options a c body} (hk : (arena.expr id).kind = .branch subject options)
      (ha : a ∈ options) (hc : a.kind = .when c body) : Part arena id c
  | arm {subject options a} (hk : (arena.expr id).kind = .branch subject options)
      (ha : a ∈ options) : Part arena id a.kind.body

/-- `e` is written inside `id`, with no body of a loop, function or handler around it in between. -/
def Inside (arena : Arena) : ExprId → ExprId → Prop := Relation.ReflTransGen arena.Part

/-- The block `id` installs a handler with the body `body`. -/
def Installs (arena : Arena) (id body : ExprId) : Prop :=
  ∃ stmts, (arena.expr id).kind = .block stmts ∧
    ∃ st ∈ stmts, ∃ pattern, st.kind = .effect pattern body

/-- How an expression that is written in another one relates to the loops and functions around. -/
inductive Position where
  /-- It has the same ones around it.  Bodies of handlers are such. -/
  | here
  | loopBody
  | functionBody

/-- `e` is written directly in `id`. -/
inductive Child (arena : Arena) (id : ExprId) : Position → ExprId → Prop
  | part {e} (h : arena.Part id e) : Child arena id .here e
  | handler {e} (h : arena.Installs id e) : Child arena id .here e
  | loop {e} (hk : (arena.expr id).kind = .loop e) : Child arena id .loopBody e
  | function {params result e} (hk : (arena.expr id).kind = .function params result e) :
      Child arena id .functionBody e
  | declared {d name params result e} (hd : d ∈ (arena.expr id).kind.decls)
      (hk : (arena.decl d).kind = .function name params result e) : Child arena id .functionBody e

theorem mem_declsOf {body : List Code.Stmt} {d : DeclId} :
    d ∈ Eval.declsOf body ↔ ∃ st ∈ body, st.kind = .decl d := by
  simp only [Eval.declsOf, List.mem_filterMap]
  refine exists_congr fun st => and_congr_right fun _ => ?_
  cases st.kind <;> simp

variable {arena : Arena} {id e : ExprId}

/-- Every expression is numbered after those that are written in it. -/
def Ordered (arena : Arena) : Prop :=
  ∀ id, (∀ e ∈ (arena.expr id).kind.subexprs, e.index < id.index) ∧
    ∀ d ∈ (arena.expr id).kind.decls, ∀ e ∈ (arena.decl d).kind.subexprs, e.index < id.index

theorem Ordered.lt_of_mem_inner (h : arena.Ordered) {id e : ExprId} (he : e ∈ arena.inner id) :
    e.index < id.index := by
  obtain ⟨hsub, hdecls⟩ := h id
  unfold inner Code.ExprKind.inner at he
  split at he
  · rename_i body hk
    obtain ⟨st, hst, he⟩ := List.mem_flatMap.1 he
    rw [hk] at hsub hdecls
    unfold Code.Stmt.inner at he
    split at he
    · rename_i d hd
      exact hdecls d (mem_declsOf.2 ⟨st, hst, hd⟩) e he
    · exact hsub e (List.mem_flatMap.2 ⟨st, hst, he⟩)
  · exact hsub e he

theorem mem_inner_of_stmt {body : List Code.Stmt} (hk : (arena.expr id).kind = .block body)
    {st : Code.Stmt} (hst : st ∈ body) (he : e ∈ st.inner arena) : e ∈ arena.inner id := by
  rw [inner, hk]
  exact List.mem_flatMap.2 ⟨st, hst, he⟩

theorem mem_inner_of_arm {subject : Option ExprId} {arms : List Code.Arm}
    (hk : (arena.expr id).kind = .branch subject arms) {a : Code.Arm} (ha : a ∈ arms)
    (he : e ∈ a.kind.subexprs) : e ∈ arena.inner id := by
  rw [inner, hk]
  exact List.mem_append_right _ (List.mem_flatMap.2 ⟨a, ha, he⟩)

theorem Part.mem_inner (h : arena.Part id e) : e ∈ arena.inner id := by
  cases h with
  | operand h =>
    unfold inner
    cases hk : (arena.expr id).kind <;> simp_all [Code.ExprKind.inner]
  | @stmt _ st _ hk hst he =>
    refine mem_inner_of_stmt hk hst ?_
    simp only [Code.Stmt.operand?] at he
    unfold Code.Stmt.inner
    cases hst : st.kind with
    | decl d => cases hd : (arena.decl d).kind <;> simp_all
    | _ => simp_all
  | condition hk ha hc => exact mem_inner_of_arm hk ha (by simp [hc])
  | @arm _ _ a hk ha =>
    refine mem_inner_of_arm hk ha ?_
    cases a.kind <;> simp [Code.ArmKind.body]

/-- What is written directly in an expression is one of the expressions in it. -/
theorem Child.mem_inner {pos : Position} (h : arena.Child id pos e) : e ∈ arena.inner id := by
  cases h with
  | part h => exact h.mem_inner
  | handler h =>
    obtain ⟨body, hk, st, hst, pattern, hs⟩ := h
    exact mem_inner_of_stmt hk hst (by simp [Code.Stmt.inner, hs])
  | loop hk | function hk => simp [inner, hk, Code.ExprKind.inner]
  | @declared d _ _ _ _ hd hk =>
    cases hkind : (arena.expr id).kind with
    | block body =>
      rw [hkind] at hd
      obtain ⟨st, hst, hs⟩ := mem_declsOf.1 hd
      exact mem_inner_of_stmt hkind hst (by simp [Code.Stmt.inner, hs, hk])
    | _ => simp [hkind] at hd

end Arena

end SignalLang
