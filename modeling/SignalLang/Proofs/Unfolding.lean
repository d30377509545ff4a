import SignalLang.Code.Lowering

/-!
# Unfolded code

The code of a module is flat: its nodes refer to each other, and to names, by number.  Following
all numbers unfolds it to a tree.  This file says what such trees are, how code unfolds to them, and
which tree a file of the parser stands for, with no numbers in between.

* `Ast.File` : the tree of a module.  Literals are decoded, and of a suffix chain only nested nodes
  are left.
* `Module.tree?` : the tree to which the code of a module unfolds.
* `Tree.File.ast?` : the tree of a file, built from its parse tree directly.
-/

namespace SignalLang

/-! ### Trees -/

namespace Ast

mutual

/-- A written type, and where it stands. -/
inductive TypeRef where
  | node (kind : TypeRefKind) (span : Span)

/-- What a written type consists of. -/
inductive TypeRefKind where
  | named (name : String)
  | function (params : List TypeRef) (result : TypeRef)

end

/-- A parameter of a function. -/
structure Param where
  name : String
  type : Option TypeRef
  span : Span

/-- A field of an object or signal. -/
structure Field where
  name : String
  type : TypeRef
  span : Span

/-- A type test. -/
structure Pattern where
  type : TypeRef
  binding : Option String
  span : Span

/-- An item of an import. -/
structure ImportItem where
  name : String
  renamed : Option String
  span : Span

mutual

/-- An expression, and where it stands. -/
inductive Expr where
  | node (kind : ExprKind) (span : Span)

/-- What an expression does. -/
inductive ExprKind where
  | group (inner : Expr)
  | block (stmts : List Stmt)
  | function (params : List Param) (result : Option TypeRef) (body : Expr)
  | branch (subject : Option Expr) (arms : List Arm)
  | loop (body : Expr)
  | cause (payload : Expr)
  | ret (value : Option Expr)
  | brk (value : Option Expr)
  | string (text : String)
  | number (value : Float)
  | ident (name : String)
  | call (callee : Expr) (args : List Expr)
  | member (receiver : Expr) (field : String)
  | pipe (subject callee : Expr) (args : List Expr)

/-- An arm of a branch. -/
inductive Arm where
  | when (condition body : Expr) (span : Span)
  | is (pattern : Pattern) (body : Expr) (span : Span)
  | otherwise (body : Expr) (span : Span)

/-- A statement of a block. -/
inductive Stmt where
  | expr (expr : Expr) (span : Span)
  | decl (decl : Decl) (span : Span)
  | effect (pattern : Pattern) (body : Expr) (span : Span)
  | set (target : String) (value : Expr) (span : Span)

/-- A declaration, and where it stands. -/
inductive Decl where
  | node (kind : DeclKind) (span : Span)

/-- What a declaration declares. -/
inductive DeclKind where
  | imports (path : String) (items : List ImportItem)
  | function (name : String) (params : List Param) (result : Option TypeRef) (body : Expr)
  | binding (name : String) (isVariable : Bool) (type : Option TypeRef) (value : Expr)
  | object (name : String) (fields : List Field)
  | signal (name : String) (fields : List Field) (result : Option TypeRef)
  | option (name : String) (members : List TypeRef)

end

/-- The tree of a module. -/
structure File where
  path : String
  decls : List Decl

end Ast

/-! ### Unfolding -/

namespace Arena

variable (a : Arena) (t : Interner)

/-- What the tree of a written type consists of, given the trees of its parts.  There is none for a
number or a name that was never given out; so below. -/
def typeKindTree? (part : TypeRefId → Option Ast.TypeRef) :
    Code.TypeRefKind → Option Ast.TypeRefKind
  | .named n => do return .named (← t.text? n)
  | .function params result => do return .function (← params.mapM part) (← part result)

/-- The tree of a written type, given those of its parts. -/
def typeTreeNode? (part : TypeRefId → Option Ast.TypeRef) (r : TypeRefId) : Option Ast.TypeRef := do
  let ref ← a.typeRefs[r.index]?
  return .node (← typeKindTree? t part ref.kind) ref.span

/-- The tree of a written type of at most the given nesting. -/
def typeTreeWithin? : Nat → TypeRefId → Option Ast.TypeRef
  | 0, _ => none
  | depth + 1, r => a.typeTreeNode? t (typeTreeWithin? depth) r

/-- The number of nodes that can be nested: expressions and written types. -/
def maxDepth : Nat := a.exprs.size + a.typeRefs.size

/-- The tree of a written type. -/
def typeTree? (r : TypeRefId) : Option Ast.TypeRef := a.typeTreeWithin? t a.maxDepth r

/-- The tree of a parameter. -/
def paramTree? (q : Code.Param) : Option Ast.Param := do
  return ⟨← t.text? q.name, ← q.typeRef.mapM (a.typeTree? t), q.span⟩

/-- The tree of a field. -/
def fieldTree? (f : Code.Field) : Option Ast.Field := do
  return ⟨← t.text? f.name, ← a.typeTree? t f.typeRef, f.span⟩

/-- The tree of a pattern. -/
def patternTree? (q : Code.Pattern) : Option Ast.Pattern := do
  return ⟨← a.typeTree? t q.typeRef, ← q.binding.mapM t.text?, q.span⟩

/-- The tree of an import item. -/
def importTree? (item : Code.ImportItem) : Option Ast.ImportItem := do
  return ⟨← t.text? item.name, ← item.renamed.mapM t.text?, item.span⟩

section

variable (part : ExprId → Option Ast.Expr)

/-- What the tree of a declaration declares, given those of the expressions in it. -/
def declKindTree? : Code.DeclKind → Option Ast.DeclKind
  | .imports path items => do return .imports path (← items.mapM (importTree? t))
  | .function n params result body => do
    return .function (← t.text? n) (← params.mapM (a.paramTree? t))
      (← result.mapM (a.typeTree? t)) (← part body)
  | .binding n isVariable type value => do
    return .binding (← t.text? n) isVariable (← type.mapM (a.typeTree? t)) (← part value)
  | .object n fields => do return .object (← t.text? n) (← fields.mapM (a.fieldTree? t))
  | .signal n fields result => do
    return .signal (← t.text? n) (← fields.mapM (a.fieldTree? t)) (← result.mapM (a.typeTree? t))
  | .option n members => do return .option (← t.text? n) (← members.mapM (a.typeTree? t))

/-- The tree of a declaration, given those of the expressions in it. -/
def declTree? (d : DeclId) : Option Ast.Decl := do
  let decl ← a.decls[d.index]?
  return .node (← a.declKindTree? t part decl.kind) decl.span

/-- The tree of a statement, given those of the expressions in it. -/
def stmtTree? (s : Code.Stmt) : Option Ast.Stmt :=
  match s.kind with
  | .expr e => do return .expr (← part e) s.span
  | .decl d => do return .decl (← a.declTree? t part d) s.span
  | .effect pattern body => do return .effect (← a.patternTree? t pattern) (← part body) s.span
  | .set target value => do return .set (← t.text? target) (← part value) s.span

/-- The tree of an arm, given those of the expressions in it. -/
def armTree? (arm : Code.Arm) : Option Ast.Arm :=
  match arm.kind with
  | .when condition body => do return .when (← part condition) (← part body) arm.span
  | .is pattern body => do return .is (← a.patternTree? t pattern) (← part body) arm.span
  | .otherwise body => do return .otherwise (← part body) arm.span

/-- What the tree of an expression does, given those of the expressions in it. -/
def kindTree? : Code.ExprKind → Option Ast.ExprKind
  | .group inner => do return .group (← part inner)
  | .block stmts => do return .block (← stmts.mapM (a.stmtTree? t part))
  | .function params result body => do
    return .function (← params.mapM (a.paramTree? t)) (← result.mapM (a.typeTree? t)) (← part body)
  | .branch subject arms => do
    return .branch (← subject.mapM part) (← arms.mapM (a.armTree? t part))
  | .loop body => do return .loop (← part body)
  | .cause payload => do return .cause (← part payload)
  | .ret value => do return .ret (← value.mapM part)
  | .brk value => do return .brk (← value.mapM part)
  | .string text => do return .string (← t.text? text)
  | .number value => some (.number value)
  | .ident n => do return .ident (← t.text? n)
  | .call callee args => do return .call (← part callee) (← args.mapM part)
  | .member receiver field => do return .member (← part receiver) (← t.text? field)
  | .pipe subject callee args => do
    return .pipe (← part subject) (← part callee) (← args.mapM part)

/-- The tree of an expression, given those of the expressions in it. -/
def exprTreeNode? (id : ExprId) : Option Ast.Expr := do
  let e ← a.exprs[id.index]?
  return .node (← a.kindTree? t part e.kind) e.span

end

/-- The tree of an expression of at most the given nesting. -/
def exprTreeWithin? : Nat → ExprId → Option Ast.Expr
  | 0, _ => none
  | depth + 1, id => a.exprTreeNode? t (exprTreeWithin? depth) id

/-- The tree of an expression. -/
def exprTree? (id : ExprId) : Option Ast.Expr := a.exprTreeWithin? t a.maxDepth id

end Arena

/-- The tree to which the code of a module unfolds, with the names of an interner. -/
def Module.tree? (m : Module) (t : Interner) : Option Ast.File := do
  return ⟨m.path, ← m.decls.mapM (m.arena.declTree? t (m.arena.exprTree? t))⟩

/-! ### Trees of the parser -/

namespace Tree

mutual

/-- The tree of a written type. -/
def TypeExpr.ast : TypeExpr → Ast.TypeRef
  | .named text span => .node (.named text) span
  | .function params result span => .node (.function (TypeExpr.asts params) result.ast) span

/-- The trees of several written types. -/
def TypeExpr.asts : List TypeExpr → List Ast.TypeRef
  | [] => []
  | t :: ts => t.ast :: TypeExpr.asts ts

end

/-- The tree of a parameter. -/
def Param.ast (p : Param) : Ast.Param := ⟨p.name, p.type.map TypeExpr.ast, p.nameSpan⟩

/-- The tree of a field.  It stands where its name and its type stand. -/
def Field.ast (f : Field) : Ast.Field :=
  ⟨f.name, f.type.ast,
    ⟨min f.nameSpan.start f.type.span.start, max f.nameSpan.stop f.type.span.stop⟩⟩

/-- The tree of a pattern. -/
def Pattern.ast (p : Pattern) : Ast.Pattern := ⟨p.type.ast, p.binding, p.span⟩

/-- The tree of an import item.  It stands where its name stands, and the new name if there is one.
-/
def ImportItem.ast (i : ImportItem) : Ast.ImportItem :=
  match i.renamed with
  | none => ⟨i.name, none, i.nameSpan⟩
  | some a => ⟨i.name, some a.name,
    ⟨min i.nameSpan.start a.span.start, max i.nameSpan.stop a.span.stop⟩⟩

/-- Where the primary expression of an expression stands: before the first suffix, or where the
whole stands.  No span ends before it starts. -/
def primarySpan (whole : Span) (suffixes : List Suffix) : Span :=
  ⟨whole.start, (suffixes.head?.map fun s => max whole.start s.span.start).getD whole.stop⟩

/-- Where the node of a suffix stands: from the start of the expression to the end of the suffix,
and to that of the whole if no suffix is left. -/
def suffixSpan (whole : Span) (s : Suffix) : List Suffix → Span
  | [] => whole
  | _ :: _ => ⟨whole.start, max whole.start s.span.stop⟩

mutual

/-- The tree of an expression: that of its primary expression, with one node around it for each
suffix.  There is none if a literal is malformed; so below. -/
def Expr.ast? : Expr → Option Ast.Expr
  | .node p suffixes span => do
    let kind ← p.ast?
    chainAst? span (.node kind (primarySpan span suffixes)) suffixes

/-- One node after the other around the tree of what a chain of suffixes follows. -/
def chainAst? (span : Span) (current : Ast.Expr) : List Suffix → Option Ast.Expr
  | [] => some current
  | s :: rest => do
    let kind ← s.ast? current
    chainAst? span (.node kind (suffixSpan span s rest)) rest

/-- What a suffix does with what it follows. -/
def Suffix.ast? (current : Ast.Expr) : Suffix → Option Ast.ExprKind
  | .call args _ => do return .call current (← Expr.asts? args)
  | .member text _ => some (.member current text)
  | .pipe callee args _ => do return .pipe current (← callee.ast?) (← Expr.asts? args)

/-- The trees of several expressions. -/
def Expr.asts? : List Expr → Option (List Ast.Expr)
  | [] => some []
  | e :: es => do return (← e.ast?) :: (← Expr.asts? es)

/-- The tree of an expression that may be absent. -/
def Expr.optionalAst? : Option Expr → Option (Option Ast.Expr)
  | none => some none
  | some e => do return some (← e.ast?)

/-- What a primary expression does. -/
def Primary.ast? : Primary → Option Ast.ExprKind
  | .group inner => do return .group (← inner.ast?)
  | .block body => do return .block (← Stmt.asts? body)
  | .function params result body => do
    return .function (params.map Param.ast) (result.map TypeExpr.ast) (← body.ast?)
  | .branch subject arms => do return .branch (← Expr.optionalAst? subject) (← Arm.asts? arms)
  | .loop body => do return .loop (← body.ast?)
  | .cause payload => do return .cause (← payload.ast?)
  | .ret value => do return .ret (← Expr.optionalAst? value)
  | .brk value => do return .brk (← Expr.optionalAst? value)
  | .string token => do return .string (← Quoted.decode token)
  | .number token => do return .number (← Number.ofToken? token)
  | .ident text => some (.ident text)

/-- The trees of the arms of a branch. -/
def Arm.asts? : List Arm → Option (List Ast.Arm)
  | [] => some []
  | a :: rest => do return (← a.ast?) :: (← Arm.asts? rest)

/-- The tree of an arm. -/
def Arm.ast? : Arm → Option Ast.Arm
  | .when condition body span => do return .when (← condition.ast?) (← body.ast?) span
  | .is pattern body span => do return .is pattern.ast (← body.ast?) span
  | .otherwise body span => do return .otherwise (← body.ast?) span

/-- The trees of the statements of a block. -/
def Stmt.asts? : List Stmt → Option (List Ast.Stmt)
  | [] => some []
  | s :: rest => do return (← s.ast?) :: (← Stmt.asts? rest)

/-- The tree of a statement. -/
def Stmt.ast? : Stmt → Option Ast.Stmt
  | .expr e span => do return .expr (← e.ast?) span
  | .decl d span => do return .decl (← d.ast?) span
  | .effect pattern body span => do return .effect pattern.ast (← body.ast?) span
  | .set target value span => do return .set target (← value.ast?) span

/-- The tree of a declaration. -/
def Decl.ast? : Decl → Option Ast.Decl
  | .imports path items span => some (.node (.imports path (items.map ImportItem.ast)) span)
  | .function text params result body span => do
    let body ← body.ast?
    return .node (.function text (params.map Param.ast) (result.map TypeExpr.ast) body) span
  | .binding text isVariable type value span => do
    return .node (.binding text isVariable (type.map TypeExpr.ast) (← value.ast?)) span
  | .object text fields span => some (.node (.object text (fields.map Field.ast)) span)
  | .signal text fields result span =>
    some (.node (.signal text (fields.map Field.ast) (result.map TypeExpr.ast)) span)
  | .option text members span => some (.node (.option text (TypeExpr.asts members)) span)

end

theorem ImportItem.ast_eq (i : ImportItem) : i.ast = ⟨i.name, i.renamed.map (·.name),
    (i.renamed.map fun a => i.nameSpan.merge a.span).getD i.nameSpan⟩ := by
  unfold ImportItem.ast
  cases i.renamed <;> rfl

theorem primarySpan_eq (whole : Span) (suffixes : List Suffix) :
    Lowering.primarySpan whole suffixes = primarySpan whole suffixes := by
  cases suffixes with
  | nil => rfl
  | cons s rest =>
    simp only [Lowering.primarySpan, Lowering.spanFrom, primarySpan, List.head?_cons,
      Option.map_some, Option.getD_some, Nat.max_comm]

theorem suffixSpan_eq (whole : Span) (s : Suffix) (rest : List Suffix) :
    Lowering.suffixSpan whole s rest = suffixSpan whole s rest := by
  cases rest with
  | nil => rfl
  | cons s' rest =>
    simp only [Lowering.suffixSpan, Lowering.spanFrom, suffixSpan, List.isEmpty_cons,
      Bool.false_eq_true, if_false, Nat.max_comm]

/-- The tree of a file. -/
def File.ast? (file : File) : Option Ast.File := do
  return ⟨file.path, ← file.decls.mapM Decl.ast?⟩

end Tree

end SignalLang
