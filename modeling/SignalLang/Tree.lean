import SignalLang.Span

/-!
# Parse trees

A program reaches this library as a parse tree: nodes with spans, names as text, and literals as
raw tokens.  An expression is a primary expression followed by a chain of suffixes; everything else
follows the grammar of the language node by node.
-/

namespace SignalLang

namespace Tree

/-- A written type. -/
inductive TypeExpr where
  /-- `Name` -/
  | named (name : String) (span : Span)
  /-- `Function(params): result` -/
  | function (params : List TypeExpr) (result : TypeExpr) (span : Span)
deriving Inhabited

/-- The span of a written type. -/
def TypeExpr.span : TypeExpr → Span
  | .named _ s => s
  | .function _ _ s => s

/-- A parameter, with or without a type. -/
structure Param where
  name : String
  nameSpan : Span
  type : Option TypeExpr

/-- A field of an object or signal. -/
structure Field where
  name : String
  nameSpan : Span
  type : TypeExpr

/-- A new name for an imported one. -/
structure Alias where
  name : String
  span : Span

/-- `name` or `name as alias` in an import. -/
structure ImportItem where
  name : String
  nameSpan : Span
  renamed : Option Alias

/-- `Type` or `Type as binding`. -/
structure Pattern where
  type : TypeExpr
  binding : Option String
  span : Span

mutual

/-- A primary expression and the suffixes behind it, the innermost first. -/
inductive Expr where
  | node (primary : Primary) (suffixes : List Suffix) (span : Span)

/-- An expression without suffixes. -/
inductive Primary where
  /-- `(inner)` -/
  | group (inner : Expr)
  /-- `{ stmts }` -/
  | block (stmts : List Stmt)
  /-- `fn(params): result body` -/
  | function (params : List Param) (result : Option TypeExpr) (body : Expr)
  /-- `branch [with subject] { arms }` -/
  | branch (subject : Option Expr) (arms : List Arm)
  /-- `loop body` -/
  | loop (body : Expr)
  /-- `cause payload` -/
  | cause (payload : Expr)
  /-- `return [value]` -/
  | ret (value : Option Expr)
  /-- `break [with value]` -/
  | brk (value : Option Expr)
  /-- A string token, quotes included. -/
  | string (token : String)
  /-- A number token. -/
  | number (token : String)
  | ident (name : String)

/-- What can follow a primary expression. -/
inductive Suffix where
  /-- `(args)` -/
  | call (args : List Expr) (span : Span)
  /-- `.name` -/
  | member (name : String) (span : Span)
  /-- `>> callee(args)` -/
  | pipe (callee : Expr) (args : List Expr) (span : Span)

/-- An arm of a branch. -/
inductive Arm where
  /-- `if condition body` -/
  | when (condition body : Expr) (span : Span)
  /-- `is pattern body` -/
  | is (pattern : Pattern) (body : Expr) (span : Span)
  /-- `else body` -/
  | otherwise (body : Expr) (span : Span)

/-- A statement of a block. -/
inductive Stmt where
  | expr (expr : Expr) (span : Span)
  | decl (decl : Decl) (span : Span)
  /-- `effect for pattern body` -/
  | effect (pattern : Pattern) (body : Expr) (span : Span)
  /-- `set name = value` -/
  | set (name : String) (value : Expr) (span : Span)

/-- A declaration, of a module or inside a block. -/
inductive Decl where
  /-- `import path (items)` -/
  | imports (path : String) (items : List ImportItem) (span : Span)
  /-- `function name(params): result body` -/
  | function (name : String) (params : List Param) (result : Option TypeExpr) (body : Expr)
      (span : Span)
  /-- `let [variable] name[: type] = value` -/
  | binding (name : String) (isVariable : Bool) (type : Option TypeExpr) (value : Expr)
      (span : Span)
  /-- `object name(fields)` -/
  | object (name : String) (fields : List Field) (span : Span)
  /-- `signal name(fields): result` -/
  | signal (name : String) (fields : List Field) (result : Option TypeExpr) (span : Span)
  /-- `option name { members }` -/
  | option (name : String) (members : List TypeExpr) (span : Span)

end

/-- The span of a suffix. -/
def Suffix.span : Suffix → Span
  | .call _ s => s
  | .member _ s => s
  | .pipe _ _ s => s

/-- A parsed source file. -/
structure File where
  path : String
  decls : List Decl

end Tree

end SignalLang
