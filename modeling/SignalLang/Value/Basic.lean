import SignalLang.Native.Basic

/-!
# Values

Numbers, strings and `Action` are plain data.  Instances of objects and signals carry their fields
in declaration order.  Closures refer to the scope that they captured.  Instances with fields and
closures also have an identity, which tells whether two of them are one and the same.
-/

namespace SignalLang

/-- Tells instances and closures apart that were created separately. -/
structure Identity where
  index : Nat
deriving DecidableEq, Repr, Inhabited

/-- The place of a scope in the store of scopes. -/
structure ScopeId where
  index : Nat
deriving DecidableEq, Repr, Inhabited

/-- A function together with the scope in which it was created.  A `fn` literal has no name. -/
structure Closure where
  identity : Identity
  name : Option Name
  params : List Code.Param
  result : Option TypeRefId
  body : ExprId
  captured : ScopeId
deriving DecidableEq, Repr, Inhabited

/-- A value of the language.  Instances without fields have no identity. -/
inductive Value where
  | number (n : Float)
  | string (s : String)
  /-- The one value that says nothing. -/
  | action
  | object (identity : Option Identity) (type : TypeId) (fields : List (Name × Value))
  | signal (identity : Option Identity) (type : TypeId) (fields : List (Name × Value))
  | closure (c : Closure)
  | native (f : NativeFunction)
  /-- The constructor of an object or signal with fields. -/
  | constructor (type : TypeId)
deriving Inhabited

/-- The names that a match binds. -/
abbrev Bindings := List (Name × Value)

namespace Value

/-- The instance of `True` or `False`. -/
def boolean (b : Bool) : Value := .object none (if b then .trueAnswer else .falseAnswer) []

/-- The fields of an instance. -/
def fields? : Value → Option (List (Name × Value))
  | .object _ _ fields => some fields
  | .signal _ _ fields => some fields
  | _ => none

/-- The value of a field of an instance. -/
def field? (v : Value) (n : Name) : Option Value := v.fields?.bind fun fs => fs.lookup n

/-- Whether a value is the instance of a signal. -/
def isSignal : Value → Bool
  | .signal _ _ _ => true
  | _ => false

/-- The nominal type of a value.  What can be called has none. -/
def type? : Value → Option TypeId
  | .number _ => some .number
  | .string _ => some .string
  | .action => some .action
  | .object _ type _ => some type
  | .signal _ type _ => some type
  | .closure _ => none
  | .native _ => none
  | .constructor _ => none

/-- The answer that an instance of `True` or `False` gives. -/
def bool? : Value → Option Bool
  | .object _ type _ => answer? type
  | .signal _ type _ => answer? type
  | _ => none
where
  answer? (type : TypeId) : Option Bool :=
    if type = .trueAnswer then some true
    else if type = .falseAnswer then some false
    else none

/-- The number, if the value is one. -/
def number? : Value → Option Float
  | .number n => some n
  | _ => none

/-- The text, if the value is a string. -/
def string? : Value → Option String
  | .string s => some s
  | _ => none

/-- A coarse name for the kind of a value, where no table of types is at hand. -/
def kindName : Value → String
  | .number _ => "Number"
  | .string _ => "String"
  | .action => "Action"
  | .object _ _ _ => "object"
  | .signal _ _ _ => "signal"
  | .closure _ => "Function"
  | .native _ => "Function"
  | .constructor _ => "Function"

/-- Number of arguments that a value takes when it is called. -/
def arity? (t : TypeTable) : Value → Option Nat
  | .closure c => some c.params.length
  | .native f => some f.arity
  | .constructor type => some (t.fields type).length
  | _ => none

/-- The name of the type of a value; all that can be called goes by one name. -/
def typeName (t : TypeTable) (interner : Interner) (v : Value) : String :=
  match v.type? with
  | some id => interner.text (t.get id).name
  | none => "Function"

end Value

end SignalLang
