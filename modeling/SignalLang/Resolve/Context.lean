import SignalLang.Resolve.Error

/-!
# Lexical context

Resolution knows, at every place of a module, which names are in scope and whether the place lies in
a loop and in a function.  This context is handed down; what it finds out, the table of types and
the errors, is collected in a state.

* `Resolve.Scope` : the names of one scope.
* `Resolve.Context` : the scopes around a place, and what encloses it.
* `Resolve.Check` : a step of resolution.
-/

namespace SignalLang

/-- Where imported functions come from. -/
structure Imports where
  /-- The signature of a function that the module at a path exports. -/
  find? : String → String → Option Signature
  /-- The functions in scope everywhere. -/
  prelude : List (String × Signature)

/-- Nothing to import. -/
def Imports.none : Imports := ⟨fun _ _ => .none, []⟩

/-- Imports from a list of exported functions, each with its path and name; the first of a path and
name counts. -/
def Imports.ofExports (exports : List (String × String × Signature))
    (prelude : List (String × Signature)) : Imports where
  find? path name :=
    (exports.find? fun (p, n, _) => p == path && n == name).map fun (_, _, s) => s
  prelude := prelude

namespace Resolve

/-- How a name of a value came about. -/
inductive ValueKind where
  | function
  | native
  /-- The name of an object or signal with fields. -/
  | constructor
  /-- A `let`, a parameter, a capture, or the instance of a type without fields. -/
  | constant
  /-- `let variable` -/
  | variable
deriving DecidableEq, Repr

/-- The names that always stand for a function of a known signature. -/
def ValueKind.callable : ValueKind → Bool
  | .function | .native | .constructor => true
  | .constant | .variable => false

/-- What is known of a value before it exists.  The type is absent if nothing is known of it. -/
structure ValueInfo where
  kind : ValueKind
  type : Option Ty
deriving DecidableEq, Repr

/-- The names of one scope; the latest declaration of a name comes first. -/
structure Scope where
  types : List (Name × TypeId)
  values : List (Name × ValueInfo)
  /-- The names declared side by side, with the span of their first declaration. -/
  declared : List (Name × Span)
deriving Repr

namespace Scope

/-- The scope without names. -/
def empty : Scope := ⟨[], [], []⟩

instance : Inhabited Scope := ⟨empty⟩

/-- Adds a type. -/
def addType (s : Scope) (n : Name) (id : TypeId) : Scope := { s with types := (n, id) :: s.types }

/-- Adds a value. -/
def addValue (s : Scope) (n : Name) (info : ValueInfo) : Scope :=
  { s with values := (n, info) :: s.values }

end Scope

/-- The scopes around a place, the innermost first, and what encloses it. -/
structure Context where
  current : Scope
  outer : List Scope
  /-- The place lies in a loop of its function. -/
  inLoop : Bool
  inFunction : Bool

namespace Context

/-- All scopes around a place, the innermost first. -/
def scopes (c : Context) : List Scope := c.current :: c.outer

/-- The innermost value of a name. -/
def value? (c : Context) (n : Name) : Option ValueInfo :=
  c.scopes.findSome? fun s => s.values.lookup n

/-- The innermost type of a name. -/
def type? (c : Context) (n : Name) : Option TypeId :=
  c.scopes.findSome? fun s => s.types.lookup n

/-- A new scope inside the current one. -/
def nested (c : Context) : Context := { c with current := .empty, outer := c.scopes }

/-- The body of a loop. -/
def looping (c : Context) : Context := { c with inLoop := true }

/-- The body of a function, where the loops around it are out of reach. -/
def calling (c : Context) : Context := { c with inLoop := false, inFunction := true }

/-- The same place with one more type in the current scope. -/
def addType (c : Context) (n : Name) (id : TypeId) : Context :=
  { c with current := c.current.addType n id }

/-- The same place with one more value in the current scope. -/
def addValue (c : Context) (n : Name) (info : ValueInfo) : Context :=
  { c with current := c.current.addValue n info }

end Context

/-- What resolution has found out. -/
structure Findings where
  table : TypeTable
  errors : Array ResolveError

/-- A step of resolution. -/
abbrev Check := StateM Findings

/-- Reports a problem. -/
def report (problem : ResolveProblem) (span : Span) : Check Unit :=
  modify fun s => { s with errors := s.errors.push ⟨problem, span⟩ }

/-- Records a fact in the table. -/
def record (f : TypeTable → TypeTable) : Check Unit :=
  modify fun s => { s with table := f s.table }

/-- The table as it is now. -/
def table : Check TypeTable := do return (← get).table

/-- Declares a name beside the others of the current scope.  A name can be declared once. -/
def declare (c : Context) (n : Name) (span : Span) : Check Context :=
  match c.current.declared.lookup n with
  | some previous => do
    report (.duplicateDeclaration n previous) span
    return c
  | none => return { c with current := { c.current with
      declared := (n, span) :: c.current.declared } }

/-! ### Written types -/

/-- What a written type stands for, given how to resolve its parts. -/
def typeNode (arena : Arena) (c : Context) (part : TypeRefId → Check Ty) (id : TypeRefId) :
    Check Ty := do
  let ref := arena.typeRef id
  let ty ←
    match ref.kind with
    | .named n =>
      match c.type? n with
      | some place => pure (Ty.named place)
      | none => do
        report (.unknownType n) ref.span
        pure Ty.unknown
    | .function params result => do
      let params ← params.mapM part
      let result ← part result
      pure (Ty.function params result)
  record fun t => t.recordRef id ty
  return ty

/-- What a written type of at most the given nesting stands for. -/
def typeWithin (arena : Arena) (c : Context) : Nat → TypeRefId → Check Ty
  | 0, _ => pure .unknown
  | depth + 1, id => typeNode arena c (typeWithin arena c depth) id

/-- What a written type stands for.  Unknown names are reported; they stand for the unknown type.
The number of written types bounds their nesting. -/
def typeRef (arena : Arena) (c : Context) (id : TypeRefId) : Check Ty :=
  typeWithin arena c arena.typeRefs.size id

/-- What a written type stands for; the unknown type if none is written. -/
def typeRef? (arena : Arena) (c : Context) : Option TypeRefId → Check Ty
  | none => pure .unknown
  | some id => typeRef arena c id

/-- Resolves the type of a pattern and adds its binding to the current scope. -/
def pattern (arena : Arena) (c : Context) (p : Code.Pattern) : Check Context := do
  let ty ← typeRef arena c p.typeRef
  match p.binding with
  | some n => return c.addValue n ⟨.constant, some ty⟩
  | none => return c

end Resolve

end SignalLang
