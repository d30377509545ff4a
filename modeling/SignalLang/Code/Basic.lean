import SignalLang.Name
import SignalLang.Span

/-!
# Code

The code of a module is flat: expressions, declarations and written types are numbered, each kind
on its own, and refer to each other by number.  A node is numbered after the nodes it refers to.
Suffix chains of the parse tree have become nested calls, member accesses and pipe calls.

* `Arena` : the numbered nodes, with `Arena.expr`, `Arena.decl` and `Arena.typeRef` to read them.
* `Module` : an arena and the declarations at its top level.
-/

namespace SignalLang

/-- The number of an expression. -/
structure ExprId where
  index : Nat
deriving DecidableEq, Repr, Inhabited, Hashable

/-- The number of a declaration. -/
structure DeclId where
  index : Nat
deriving DecidableEq, Repr, Inhabited, Hashable

/-- The number of an occurrence of a written type. -/
structure TypeRefId where
  index : Nat
deriving DecidableEq, Repr, Inhabited, Hashable

/-- The written form of the number of an expression. -/
def ExprId.dump (id : ExprId) : String := s!"ExprId({id.index})"

/-- The written form of the number of a written type. -/
def TypeRefId.dump (id : TypeRefId) : String := s!"TypeRefId({id.index})"

namespace Code

/-! ### Nodes -/

/-- What a written type consists of. -/
inductive TypeRefKind where
  | named (name : Name)
  | function (params : List TypeRefId) (result : TypeRefId)
deriving DecidableEq, Repr, Inhabited

/-- An occurrence of a written type. -/
structure TypeRef where
  kind : TypeRefKind
  span : Span
deriving DecidableEq, Repr, Inhabited

/-- A type test, which binds the tested value if it has a binding. -/
structure Pattern where
  typeRef : TypeRefId
  binding : Option Name
  span : Span
deriving DecidableEq, Repr, Inhabited

/-- A parameter of a function. -/
structure Param where
  name : Name
  typeRef : Option TypeRefId
  span : Span
deriving DecidableEq, Repr, Inhabited

/-- A field of an object or signal. -/
structure Field where
  name : Name
  typeRef : TypeRefId
  span : Span
deriving DecidableEq, Repr, Inhabited

/-- What an arm of a branch asks and runs. -/
inductive ArmKind where
  | when (condition body : ExprId)
  | is (pattern : Pattern) (body : ExprId)
  | otherwise (body : ExprId)
deriving DecidableEq, Repr, Inhabited

/-- The expression that an arm runs. -/
def ArmKind.body : ArmKind → ExprId
  | .when _ body => body
  | .is _ body => body
  | .otherwise body => body

/-- An arm of a branch. -/
structure Arm where
  kind : ArmKind
  span : Span
deriving DecidableEq, Repr, Inhabited

/-- What a statement does. -/
inductive StmtKind where
  | expr (expr : ExprId)
  | decl (decl : DeclId)
  /-- Handles signals that match for the rest of the block. -/
  | effect (pattern : Pattern) (body : ExprId)
  | set (target : Name) (value : ExprId)
deriving DecidableEq, Repr, Inhabited

/-- A statement of a block. -/
structure Stmt where
  kind : StmtKind
  span : Span
deriving DecidableEq, Repr, Inhabited

/-- What an expression does. -/
inductive ExprKind where
  | group (inner : ExprId)
  | block (stmts : List Stmt)
  | function (params : List Param) (result : Option TypeRefId) (body : ExprId)
  | branch (subject : Option ExprId) (arms : List Arm)
  | loop (body : ExprId)
  | cause (payload : ExprId)
  | ret (value : Option ExprId)
  | brk (value : Option ExprId)
  | string (text : Name)
  | number (value : Float)
  | ident (name : Name)
  | call (callee : ExprId) (args : List ExprId)
  | member (receiver : ExprId) (field : Name)
  /-- `subject >> callee(args)`, which calls `callee` with `subject` before the arguments. -/
  | pipe (subject callee : ExprId) (args : List ExprId)
deriving Inhabited

/-- An expression. -/
structure Expr where
  kind : ExprKind
  span : Span
deriving Inhabited

/-- `name` or `name as alias` in an import. -/
structure ImportItem where
  name : Name
  renamed : Option Name
  span : Span
deriving DecidableEq, Repr, Inhabited

/-- The name that an import item binds. -/
def ImportItem.localName (item : ImportItem) : Name := item.renamed.getD item.name

/-- What a declaration declares. -/
inductive DeclKind where
  | imports (path : String) (items : List ImportItem)
  | function (name : Name) (params : List Param) (result : Option TypeRefId) (body : ExprId)
  | binding (name : Name) (isVariable : Bool) (typeRef : Option TypeRefId) (value : ExprId)
  | object (name : Name) (fields : List Field)
  /-- A signal without a result type resumes with `Action`. -/
  | signal (name : Name) (fields : List Field) (result : Option TypeRefId)
  | option (name : Name) (members : List TypeRefId)
deriving DecidableEq, Repr, Inhabited

/-- The declared name; imports declare several names or none and have no name of their own. -/
def DeclKind.name? : DeclKind → Option Name
  | .imports _ _ => none
  | .function name _ _ _ => some name
  | .binding name _ _ _ => some name
  | .object name _ => some name
  | .signal name _ _ => some name
  | .option name _ => some name

/-- Hoisted declarations are bound before the rest of their block runs: all but `let`. -/
def DeclKind.hoisted : DeclKind → Bool
  | .binding _ _ _ _ => false
  | _ => true

/-- A declaration. -/
structure Decl where
  kind : DeclKind
  span : Span
deriving DecidableEq, Repr, Inhabited

end Code

/-! ### Arenas and modules -/

/-- The numbered nodes of a module. -/
structure Arena where
  exprs : Array Code.Expr
  decls : Array Code.Decl
  typeRefs : Array Code.TypeRef
deriving Inhabited

namespace Arena

/-- The arena without nodes. -/
def empty : Arena := ⟨#[], #[], #[]⟩

/-- Numbers one more expression. -/
def addExpr (a : Arena) (e : Code.Expr) : ExprId × Arena :=
  (⟨a.exprs.size⟩, { a with exprs := a.exprs.push e })

/-- Numbers one more declaration. -/
def addDecl (a : Arena) (d : Code.Decl) : DeclId × Arena :=
  (⟨a.decls.size⟩, { a with decls := a.decls.push d })

/-- Numbers one more written type. -/
def addTypeRef (a : Arena) (t : Code.TypeRef) : TypeRefId × Arena :=
  (⟨a.typeRefs.size⟩, { a with typeRefs := a.typeRefs.push t })

/-- The expression of a number; an empty block for a number not given out. -/
def expr (a : Arena) (id : ExprId) : Code.Expr := a.exprs.getD id.index ⟨.block [], .dummy⟩

/-- The declaration of a number; an import of nothing for a number not given out. -/
def decl (a : Arena) (id : DeclId) : Code.Decl := a.decls.getD id.index ⟨.imports "" [], .dummy⟩

/-- The written type of a number; the empty name for a number not given out. -/
def typeRef (a : Arena) (id : TypeRefId) : Code.TypeRef :=
  a.typeRefs.getD id.index ⟨.named .empty, .dummy⟩

end Arena

/-- The code of one source file. -/
structure Module where
  path : String
  /-- The declarations at top level, in source order. -/
  decls : List DeclId
  arena : Arena
deriving Inhabited

end SignalLang
