import SignalLang.Value.Basic

/-!
# The store of scopes

Scopes live in a store and refer to each other by place, since closures, handlers and blocks share
them: a `set` through one of them is seen by all.  Every scope has at most one parent, and a name is
looked up along the chain of parents.

* `Store.nearest?` : the first scope of a chain that binds a name.
* `Store.lookup?`, `Store.assign` : reading and writing the nearest binding.
* `Store.define` : a binding in one scope itself.
-/

namespace SignalLang

/-- The value that a name is bound to.  Only the binding of a variable can be changed. -/
structure Binding where
  value : Value
  isVariable : Bool
deriving Inhabited

/-- A scope: its own bindings, each name at most once, and the scope around it. -/
structure ScopeCell where
  parent : Option ScopeId
  bindings : List (Name × Binding)
deriving Inhabited

/-- The scopes created so far, and the next unused identity. -/
structure Store where
  cells : Array ScopeCell
  nextIdentity : Nat
deriving Inhabited

/-- Why a name cannot be set. -/
inductive AssignError where
  /-- The nearest binding is not that of a variable. -/
  | immutable
  /-- There is no binding. -/
  | undefined
deriving DecidableEq, Repr

/-- Replaces the binding of a name, or adds one. -/
def putBinding (n : Name) (b : Binding) : List (Name × Binding) → List (Name × Binding)
  | [] => [(n, b)]
  | (m, c) :: rest => if m = n then (n, b) :: rest else (m, c) :: putBinding n b rest

namespace Store

/-- The store without scopes. -/
def empty : Store := ⟨#[], 0⟩

/-! ### Scopes -/

/-- Creates a scope. -/
def addScope (s : Store) (parent : Option ScopeId) : ScopeId × Store :=
  (⟨s.cells.size⟩, { s with cells := s.cells.push ⟨parent, []⟩ })

/-- The scope at a place; an empty one if there is none. -/
def cell (s : Store) (id : ScopeId) : ScopeCell := s.cells.getD id.index ⟨none, []⟩

/-- The binding of a name in a scope itself. -/
def binding? (s : Store) (id : ScopeId) (n : Name) : Option Binding := (s.cell id).bindings.lookup n

/-- Binds a name in a scope itself, whatever the scopes around it bind. -/
def define (s : Store) (id : ScopeId) (n : Name) (v : Value) (isVariable : Bool) : Store :=
  { s with cells := s.cells.modify id.index fun c =>
      { c with bindings := putBinding n ⟨v, isVariable⟩ c.bindings } }

/-- Binds several names in a scope itself, none of them as a variable. -/
def defineAll (s : Store) (id : ScopeId) (bs : Bindings) : Store :=
  bs.foldl (fun s (n, v) => s.define id n v false) s

/-- The first scope that binds a name, among the first `length` ones of a chain. -/
def nearestWithin (s : Store) (n : Name) : Nat → ScopeId → Option ScopeId
  | 0, _ => none
  | length + 1, id =>
    if (s.binding? id n).isSome then some id
    else
      match (s.cell id).parent with
      | some parent => nearestWithin s n length parent
      | none => none

/-- The first scope of a chain that binds a name.  No chain is longer than there are scopes. -/
def nearest? (s : Store) (id : ScopeId) (n : Name) : Option ScopeId :=
  s.nearestWithin n s.cells.size id

/-- The value of the nearest binding of a name. -/
def lookup? (s : Store) (id : ScopeId) (n : Name) : Option Value :=
  ((s.nearest? id n).bind fun found => s.binding? found n).map fun b => b.value

/-- The scope in which a `set` changes the binding of a name: the nearest one that binds it,
provided that it binds it as a variable. -/
def owner (s : Store) (id : ScopeId) (n : Name) : Except AssignError ScopeId :=
  match s.nearest? id n with
  | none => .error .undefined
  | some found =>
    match s.binding? found n with
    | none => .error .undefined
    | some b => if b.isVariable then .ok found else .error .immutable

/-- Changes the nearest binding of a name, which has to be that of a variable. -/
def assign (s : Store) (id : ScopeId) (n : Name) (v : Value) : Except AssignError Store :=
  (s.owner id n).map fun found => s.define found n v true

/-! ### Identities -/

/-- Gives out an identity. -/
def addIdentity (s : Store) : Identity × Store :=
  (⟨s.nextIdentity⟩, { s with nextIdentity := s.nextIdentity + 1 })

/-- Creates the instance of an object or signal.  Without fields it needs no identity. -/
def addInstance (s : Store) (isSignal : Bool) (type : TypeId) (fields : List (Name × Value)) :
    Value × Store :=
  let (identity, s) : Option Identity × Store :=
    if fields.isEmpty then (none, s)
    else
      let (i, s) := s.addIdentity
      (some i, s)
  (if isSignal then .signal identity type fields else .object identity type fields, s)

/-- Creates a closure over a scope. -/
def addClosure (s : Store) (name : Option Name) (params : List Code.Param)
    (result : Option TypeRefId) (body : ExprId) (captured : ScopeId) : Value × Store :=
  let (identity, s) := s.addIdentity
  (.closure ⟨identity, name, params, result, body, captured⟩, s)

end Store

end SignalLang
