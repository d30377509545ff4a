import SignalLang.Scope.Store

/-!
# Environments

The environment of a running body is a stack of scopes on a base scope, which is never left.  The
base scope of a call has the scope that the closure captured as its parent, so that names are
looked up in the scopes around the definition, not around the call.
-/

namespace SignalLang

/-- The scopes of a running body: those entered inside its base scope, the innermost first, and the
base scope.  Also the scope of the builtins. -/
structure Environment where
  inner : List ScopeId
  base : ScopeId
  root : ScopeId
deriving DecidableEq, Repr, Inhabited

namespace Environment

/-- An environment with a new scope for the builtins and nothing else. -/
def new (s : Store) : Environment × Store :=
  let (root, s) := s.addScope none
  (⟨[], root, root⟩, s)

/-- The scopes, the innermost first. -/
def scopes (e : Environment) : List ScopeId := e.inner ++ [e.base]

/-- Number of scopes. -/
def depth (e : Environment) : Nat := e.scopes.length

/-- The innermost scope. -/
def current (e : Environment) : ScopeId := e.inner.headD e.base

/-- Enters a new scope inside the innermost one. -/
def push (e : Environment) (s : Store) : Environment × Store :=
  let (id, s) := s.addScope (some e.current)
  ({ e with inner := id :: e.inner }, s)

/-- Leaves the innermost scope.  The base scope is never left. -/
def pop (e : Environment) : Environment := { e with inner := e.inner.tail }

/-- The environment of a body that captured a scope: a new scope inside it. -/
def childOf (e : Environment) (captured : ScopeId) (s : Store) : Environment × Store :=
  let (id, s) := s.addScope (some captured)
  ({ e with inner := [], base := id }, s)

/-- Binds a name in the innermost scope. -/
def define (e : Environment) (s : Store) (n : Name) (v : Value) (isVariable : Bool) : Store :=
  s.define e.current n v isVariable

/-- Binds a builtin name. -/
def defineRoot (e : Environment) (s : Store) (n : Name) (v : Value) : Store :=
  s.define e.root n v false

/-- The value of a name. -/
def lookup? (e : Environment) (s : Store) (n : Name) : Option Value := s.lookup? e.current n

/-- Changes the value of a variable. -/
def assign (e : Environment) (s : Store) (n : Name) (v : Value) : Except AssignError Store :=
  s.assign e.current n v

theorem pop_push (e : Environment) (s : Store) : (e.push s).1.pop = e := rfl

end Environment

end SignalLang
