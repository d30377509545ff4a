import SignalLang.Code.Basic
import SignalLang.Interner
import SignalLang.Number
import SignalLang.Text.Quoted
import SignalLang.Tree

/-!
# From trees to code

A tree becomes code node by node: names are interned, literal tokens are decoded, and a suffix chain
is folded, the first suffix innermost.  A malformed literal is noted and replaced by a placeholder,
so that all of them are found before the translation fails.

* `Module.ofTree` : the code of a file, or its malformed literals in source order.
-/

namespace SignalLang

/-- The two kinds of literal tokens. -/
inductive LiteralKind where
  | string
  | number
deriving DecidableEq, Repr

/-- A token that is no literal of its kind. -/
structure LiteralError where
  kind : LiteralKind
  token : String
  span : Span
deriving DecidableEq, Repr

/-- The wording of a malformed literal. -/
def LiteralError.message (e : LiteralError) : String :=
  match e.kind with
  | .string => s!"invalid string literal {e.token}"
  | .number => s!"invalid number literal `{e.token}`"

/-- What a translation has built so far: nodes, names, and the malformed literals. -/
structure Lowering where
  arena : Arena
  interner : Interner
  errors : Array LiteralError

namespace Lowering

/-- A step of the translation. -/
abbrev Step := StateM Lowering

/-- Interns a name. -/
def name (text : String) : Step Name := fun s =>
  let (n, interner) := s.interner.intern text
  (n, { s with interner })

/-- Interns a name that may be absent. -/
def name? : Option String → Step (Option Name)
  | none => pure none
  | some text => do return some (← name text)

/-- Numbers an expression. -/
def addExpr (kind : Code.ExprKind) (span : Span) : Step ExprId := fun s =>
  let (id, arena) := s.arena.addExpr ⟨kind, span⟩
  (id, { s with arena })

/-- Numbers a declaration. -/
def addDecl (kind : Code.DeclKind) (span : Span) : Step DeclId := fun s =>
  let (id, arena) := s.arena.addDecl ⟨kind, span⟩
  (id, { s with arena })

/-- Numbers a written type. -/
def addTypeRef (kind : Code.TypeRefKind) (span : Span) : Step TypeRefId := fun s =>
  let (id, arena) := s.arena.addTypeRef ⟨kind, span⟩
  (id, { s with arena })

/-- Notes a malformed literal. -/
def malformed (e : LiteralError) : Step Unit := fun s =>
  ((), { s with errors := s.errors.push e })

/-! ### Types, parameters and patterns -/

mutual

/-- The code of a written type. -/
def typeExpr : Tree.TypeExpr → Step TypeRefId
  | .named text span => do addTypeRef (.named (← name text)) span
  | .function params result span => do
    let params ← typeExprs params
    let result ← typeExpr result
    addTypeRef (.function params result) span

/-- The code of several written types, in order. -/
def typeExprs : List Tree.TypeExpr → Step (List TypeRefId)
  | [] => pure []
  | t :: ts => do return (← typeExpr t) :: (← typeExprs ts)

end

/-- The code of a written type that may be absent. -/
def typeExpr? : Option Tree.TypeExpr → Step (Option TypeRefId)
  | none => pure none
  | some t => do return some (← typeExpr t)

/-- The code of parameters; a parameter has the span of its name. -/
def params : List Tree.Param → Step (List Code.Param)
  | [] => pure []
  | p :: ps => do
    let param : Code.Param := ⟨← name p.name, ← typeExpr? p.type, p.nameSpan⟩
    return param :: (← params ps)

/-- The code of fields; a field spans its name and its type. -/
def fields : List Tree.Field → Step (List Code.Field)
  | [] => pure []
  | f :: fs => do
    let field : Code.Field := ⟨← name f.name, ← typeExpr f.type, f.nameSpan.merge f.type.span⟩
    return field :: (← fields fs)

/-- The code of import items; a renamed item spans both names. -/
def importItems : List Tree.ImportItem → Step (List Code.ImportItem)
  | [] => pure []
  | i :: is => do
    let item : Code.ImportItem :=
      ⟨← name i.name, ← name? (i.renamed.map (·.name)),
        (i.renamed.map fun a => i.nameSpan.merge a.span).getD i.nameSpan⟩
    return item :: (← importItems is)

/-- The code of a pattern. -/
def pattern (p : Tree.Pattern) : Step Code.Pattern := do
  return ⟨← typeExpr p.type, ← name? p.binding, p.span⟩

/-! ### Expressions, statements and declarations -/

/-- A span from the start of an expression to an offset, which is not before that start. -/
def spanFrom (start offset : Nat) : Span := ⟨start, max offset start⟩

/-- The primary expression of a chain ends where the first suffix starts. -/
def primarySpan (span : Span) : List Tree.Suffix → Span
  | [] => span
  | s :: _ => spanFrom span.start s.span.start

/-- The part of a chain up to some suffix ends with that suffix, and the whole chain spans the whole
expression. -/
def suffixSpan (span : Span) (s : Tree.Suffix) (rest : List Tree.Suffix) : Span :=
  if rest.isEmpty then span else spanFrom span.start s.span.stop

mutual

/-- The code of an expression. -/
def expr : Tree.Expr → Step ExprId
  | .node p suffixes span => do
    let first ← primary p (primarySpan span suffixes)
    chain span first suffixes

/-- Folds a chain of suffixes around the code of what they follow. -/
def chain (span : Span) (current : ExprId) : List Tree.Suffix → Step ExprId
  | [] => pure current
  | s :: rest => do
    let kind ← suffix current s
    let next ← addExpr kind (suffixSpan span s rest)
    chain span next rest

/-- One suffix around the code of what it follows. -/
def suffix (current : ExprId) : Tree.Suffix → Step Code.ExprKind
  | .call args _ => do return .call current (← exprs args)
  | .member text _ => do return .member current (← name text)
  | .pipe callee args _ => do
    let callee ← expr callee
    return .pipe current callee (← exprs args)

/-- The code of several expressions, in order. -/
def exprs : List Tree.Expr → Step (List ExprId)
  | [] => pure []
  | e :: es => do return (← expr e) :: (← exprs es)

/-- The code of an expression that may be absent. -/
def expr? : Option Tree.Expr → Step (Option ExprId)
  | none => pure none
  | some e => do return some (← expr e)

/-- The code of a primary expression. -/
def primary (p : Tree.Primary) (span : Span) : Step ExprId :=
  match p with
  | .group inner => do addExpr (.group (← expr inner)) span
  | .block body => do addExpr (.block (← stmts body)) span
  | .function ps result body => do
    let ps ← params ps
    let result ← typeExpr? result
    addExpr (.function ps result (← expr body)) span
  | .branch subject options => do
    let subject ← expr? subject
    addExpr (.branch subject (← arms options)) span
  | .loop body => do addExpr (.loop (← expr body)) span
  | .cause payload => do addExpr (.cause (← expr payload)) span
  | .ret value => do addExpr (.ret (← expr? value)) span
  | .brk value => do addExpr (.brk (← expr? value)) span
  | .string token =>
    match Quoted.decode token with
    | some text => do addExpr (.string (← name text)) span
    | none => do
      malformed ⟨.string, token, span⟩
      addExpr (.string .empty) span
  | .number token =>
    match Number.ofToken? token with
    | some value => addExpr (.number value) span
    | none => do
      malformed ⟨.number, token, span⟩
      addExpr (.number 0.0) span
  | .ident text => do addExpr (.ident (← name text)) span

/-- The code of the arms of a branch. -/
def arms : List Tree.Arm → Step (List Code.Arm)
  | [] => pure []
  | a :: rest => do return (← arm a) :: (← arms rest)

/-- The code of an arm. -/
def arm : Tree.Arm → Step Code.Arm
  | .when condition body span => do
    let condition ← expr condition
    return ⟨.when condition (← expr body), span⟩
  | .is p body span => do
    let p ← pattern p
    return ⟨.is p (← expr body), span⟩
  | .otherwise body span => do return ⟨.otherwise (← expr body), span⟩

/-- The code of the statements of a block. -/
def stmts : List Tree.Stmt → Step (List Code.Stmt)
  | [] => pure []
  | s :: rest => do return (← stmt s) :: (← stmts rest)

/-- The code of a statement. -/
def stmt : Tree.Stmt → Step Code.Stmt
  | .expr e span => do return ⟨.expr (← expr e), span⟩
  | .decl d span => do return ⟨.decl (← decl d), span⟩
  | .effect p body span => do
    let p ← pattern p
    return ⟨.effect p (← expr body), span⟩
  | .set text value span => do
    let target ← name text
    return ⟨.set target (← expr value), span⟩

/-- The code of a declaration. -/
def decl : Tree.Decl → Step DeclId
  | .imports path items span => do addDecl (.imports path (← importItems items)) span
  | .function text ps result body span => do
    let n ← name text
    let ps ← params ps
    let result ← typeExpr? result
    addDecl (.function n ps result (← expr body)) span
  | .binding text isVariable type value span => do
    let n ← name text
    let type ← typeExpr? type
    addDecl (.binding n isVariable type (← expr value)) span
  | .object text fs span => do
    let n ← name text
    addDecl (.object n (← fields fs)) span
  | .signal text fs result span => do
    let n ← name text
    let fs ← fields fs
    addDecl (.signal n fs (← typeExpr? result)) span
  | .option text members span => do
    let n ← name text
    addDecl (.option n (← typeExprs members)) span

end

/-- The code of declarations, in order. -/
def decls : List Tree.Decl → Step (List DeclId)
  | [] => pure []
  | d :: ds => do return (← decl d) :: (← decls ds)

end Lowering

/-- The code of a file, or its malformed literals in source order; and the interner, which has
learnt the names of the file in either case. -/
def Module.ofTree (file : Tree.File) (interner : Interner) :
    Except (List LiteralError) Module × Interner :=
  let (decls, s) := Lowering.decls file.decls ⟨.empty, interner, #[]⟩
  if s.errors.isEmpty then (.ok ⟨file.path, decls, s.arena⟩, s.interner)
  else (.error s.errors.toList, s.interner)

end SignalLang
