import SignalLang.Resolve.Hoisting

/-!
# Checking expressions

Every expression is checked once.  The check reports names that are not in scope, misplaced `break`,
`return` and `is`, and calls and declarations whose types cannot fit; as far as it can tell, it
answers with the type that the value of the expression will have.

The functions for the single constructs take the check of the parts as an argument; `expr` ties the
knot.
-/

namespace SignalLang

namespace Resolve

/-- How the parts of an expression are checked, in their context. -/
abbrev Checker := Context → ExprId → Check (Option Ty)

/-- What the check of a module reads and never changes. -/
structure Setting where
  arena : Arena
  interner : Interner
  imports : Imports

/-- A member of a scope.  A module consists of declarations only, a block of any statements. -/
inductive Item where
  | decl (decl : DeclId)
  | stmt (stmt : Code.Stmt)

/-- When the functions declared in a scope are checked.  Those of a module are checked after
everything else and see every name of the module; those of a block are checked where they stand and
see the hoisted names of the block and the `let`s before them. -/
inductive BodyOrder where
  | afterScope
  | inPlace
deriving DecidableEq, Repr

variable (g : Setting) (check : Checker)

/-- Reports a value of type `found` where `expected` is declared, if it cannot be stored there. -/
def assignable (expected found : Ty) (span : Span) : Check Unit := do
  if (← table).accepts expected found then return
  match expected, found with
  | .named _, .named _ => report (.declaredType expected found) span
  | _, _ => report (.incompatibleFunction expected found) span

/-! ### Functions and declarations -/

/-- Declares one parameter.  Its type has been resolved with the signature of the function. -/
def parameter (c : Context) (p : Code.Param) : Check Context := do
  let c ← declare c p.name p.span
  let t ← table
  return c.addValue p.name ⟨.constant, p.typeRef.bind t.resolved?⟩

/-- Checks the body of a function in a scope with its parameters. -/
def functionBody (c : Context) (params : List Code.Param) (body : ExprId) : Check Unit := do
  let c ← params.foldlM parameter c.nested.calling
  let _ ← check c body

/-- Checks a `let` and enters its name behind it. -/
def binding (c : Context) (d : DeclId) (n : Name) (isVariable : Bool)
    (type : Option TypeRefId) (value : ExprId) : Check Context := do
  let found ← check c value
  let ty ←
    match type with
    | none => pure found
    | some r => do
      let expected ← typeRef g.arena c r
      match found with
      | some found => assignable expected found (g.arena.expr value).span
      | none => pure ()
      pure (some expected)
  let c ← declare c n (g.arena.decl d).span
  return c.addValue n ⟨if isVariable then .variable else .constant, ty⟩

/-- Reports a `set` whose target is no variable. -/
def setTarget (c : Context) (target : Name) (span : Span) : Check Unit :=
  match c.value? target with
  | none => report (.unknownName target) span
  | some info =>
    if info.kind = .variable then pure () else report (.notVariable target) span

/-- Checks a statement that declares nothing.  Only expressions have a type other than `Action`. -/
def stmt (c : Context) (s : Code.Stmt) : Check (Option Ty) :=
  match s.kind with
  | .expr e => check c e
  | .decl _ => pure (some .action)
  | .effect p body => do
    let inner ← pattern g.arena c.nested p
    let _ ← check inner body
    return some .action
  | .set target value => do
    let _ ← check c value
    setTarget c target s.span
    return some .action

/-- Checks one member of a scope; the context behind it knows what it has declared. -/
def item (order : BodyOrder) (c : Context) : Item → Check (Context × Option Ty)
  | .stmt s => do return (c, ← stmt g check c s)
  | .decl d =>
    match (g.arena.decl d).kind with
    | .binding n isVariable type value => do
      return (← binding g check c d n isVariable type value, some .action)
    | .function _ params _ body => do
      if order = .inPlace then functionBody check c params body
      return (c, some .action)
    | _ => pure (c, some .action)

/-- Checks the members of a scope in order.  The type is that of the last one. -/
def items (order : BodyOrder) : Context → Option Ty → List Item → Check (Context × Option Ty)
  | c, last, [] => pure (c, last)
  | c, _, i :: rest => do
    let (c, last) ← item g check order c i
    items order c last rest

/-- The hoisted declarations among the members of a scope. -/
def hoistedDecls (arena : Arena) (is : List Item) : List DeclId :=
  is.filterMap fun
    | .decl d => if (arena.decl d).kind.hoisted then some d else none
    | .stmt _ => none

/-- Checks the body of a declared function. -/
def declaredBody (c : Context) : Item → Check Unit
  | .stmt _ => pure ()
  | .decl d =>
    match (g.arena.decl d).kind with
    | .function _ params _ body => functionBody check c params body
    | _ => pure ()

/-- Checks the members of a scope, hoisted declarations first.  The type is that of the last
expression, or `Action`. -/
def scope (order : BodyOrder) (c : Context) (is : List Item) : Check (Option Ty) := do
  let c ← hoist g.arena g.imports g.interner c (hoistedDecls g.arena is)
  let (c, last) ← items g check order c (some .action) is
  if order = .afterScope then is.forM (declaredBody g check c)
  return last

/-! ### Calls and branches -/

/-- Whether an expression is the name of a function whose signature is certain. -/
def knownCallee (arena : Arena) (c : Context) (callee : ExprId) : Bool :=
  match (arena.expr callee).kind with
  | .ident n => (c.value? n).any fun info => info.kind.callable
  | _ => false

/-- Compares the arguments for parameters of function types with these types. -/
def functionArguments (arena : Arena) : List (Ty × Option Ty × ExprId) → Check Unit
  | [] => pure ()
  | (.function ps r, some found, arg) :: rest => do
    assignable (.function ps r) found (arena.expr arg).span
    functionArguments arena rest
  | _ :: rest => functionArguments arena rest

/-- Checks several expressions in order. -/
def checkAll (c : Context) : List ExprId → Check (List (Option Ty))
  | [] => pure []
  | e :: es => do
    let ty ← check c e
    return ty :: (← checkAll c es)

/-- Checks a call; what is piped in counts among the arguments. -/
def call (c : Context) (callee : ExprId) (args : List ExprId) (span : Span) :
    Check (Option Ty) := do
  let types ← checkAll check c args
  let calleeType ← check c callee
  match calleeType.bind Ty.signature? with
  | none => return none
  | some signature => do
    if knownCallee g.arena c callee then
      if signature.arity ≠ args.length then
        report (.argumentCount signature.arity args.length) span
      functionArguments g.arena (signature.params.zip (types.zip args))
    return if signature.result.isUnknown then none else some signature.result

/-- Checks one arm of a branch. -/
def arm (c : Context) (hasSubject : Bool) (a : Code.Arm) : Check Unit :=
  match a.kind with
  | .when condition body => do
    let _ ← check c condition
    let _ ← check c body
  | .is p body => do
    if !hasSubject then report .isWithoutSubject a.span
    let inner ← pattern g.arena c.nested p
    let _ ← check inner body
  | .otherwise body => do
    let _ ← check c body

/-- Checks an expression that may be absent. -/
def optional (c : Context) : Option ExprId → Check Unit
  | none => pure ()
  | some e => do
    let _ ← check c e

/-! ### Expressions -/

/-- A member of a block, as a member of its scope. -/
def Item.ofStmt (s : Code.Stmt) : Item :=
  match s.kind with
  | .decl d => .decl d
  | _ => .stmt s

/-- Checks an expression, given how to check its parts. -/
def node (c : Context) (id : ExprId) : Check (Option Ty) :=
  let e := g.arena.expr id
  match e.kind with
  | .group inner => check c inner
  | .block stmts => scope g check .inPlace c.nested (stmts.map Item.ofStmt)
  | .function params result body => do
    let types ← params.mapM fun p => typeRef? g.arena c p.typeRef
    let result ← typeRef? g.arena c result
    functionBody check c params body
    return some (.function types result)
  | .branch subject arms => do
    optional check c subject
    arms.forM (arm g check c subject.isSome)
    return none
  | .loop body => do
    let _ ← check c.looping body
    return none
  | .cause payload => do
    let ty ← check c payload
    let t ← table
    return (ty.bind Ty.named?).bind fun id =>
      if t.isSignal id then some (t.signalResult id) else none
  | .ret value => do
    if !c.inFunction then report .returnOutsideFunction e.span
    optional check c value
    return none
  | .brk value => do
    if !c.inLoop then report .breakOutsideLoop e.span
    optional check c value
    return none
  | .string _ => pure (some .string)
  | .number _ => pure (some .number)
  | .ident n =>
    match c.value? n with
    | some info => pure info.type
    | none => do
      report (.unknownName n) e.span
      return none
  | .call callee args => call g check c callee args e.span
  | .member receiver field => do
    let ty ← check c receiver
    let t ← table
    return (ty.bind Ty.named?).bind fun id =>
      ((t.fields id).find? fun f => f.name == field).map fun f => f.type
  | .pipe subject callee args => call g check c callee (subject :: args) e.span

/-- Checks an expression of at most the given nesting. -/
def expr : Nat → Checker
  | 0, _, _ => pure none
  | depth + 1, c, id => node g (expr depth) c id

end Resolve

end SignalLang
