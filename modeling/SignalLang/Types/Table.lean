import SignalLang.Code.Basic
import SignalLang.Interner
import SignalLang.Types.Basic

/-!
# The table of types

The table holds the builtin types and those that a module declares, the signatures of the declared
functions, and what each written type stands for.

* `TypeTable.builtin` : the table of the builtin types alone.
* `TypeTable.accepts` : whether a value of one type may be used where another is expected.
* `TypeTable.display` : the text of a type.
-/

namespace SignalLang

/-- The name and type of a field. -/
structure FieldType where
  name : Name
  type : Ty
deriving DecidableEq, Repr, Inhabited

/-- What a nominal type admits. -/
inductive TypeKind where
  /-- Numbers, strings or `Action`. -/
  | primitive
  /-- Every value. -/
  | anything
  /-- Every signal. -/
  | anySignal
  | object (fields : List FieldType)
  /-- A signal resumes with a value of its result type. -/
  | signal (fields : List FieldType) (result : Ty)
  /-- What one of the members admits. -/
  | option (members : List Ty)
  | unknown
deriving DecidableEq, Repr, Inhabited

/-- One entry of the table.  Builtin types have no declaration. -/
structure TypeDef where
  name : Name
  kind : TypeKind
  decl : Option DeclId
deriving DecidableEq, Repr, Inhabited

/-- The types of a module, by place; the places and signatures of its declarations, by their
numbers; and the types that its written types stand for. -/
structure TypeTable where
  types : Array TypeDef
  declTypes : Std.TreeMap Nat TypeId
  functions : Std.TreeMap Nat Signature
  refs : Array (Option Ty)
deriving Inhabited

namespace TypeTable

/-! ### Reading -/

/-- Number of types. -/
def size (t : TypeTable) : Nat := t.types.size

/-- The entry at a place; an unknown type where there is none. -/
def get (t : TypeTable) (id : TypeId) : TypeDef := t.types.getD id.index ⟨.empty, .unknown, none⟩

/-- The place of a declared object, signal or option. -/
def declType? (t : TypeTable) (d : DeclId) : Option TypeId := t.declTypes[d.index]?

/-- The signature of a declared function. -/
def function? (t : TypeTable) (d : DeclId) : Option Signature := t.functions[d.index]?

/-- What a written type stands for; `none` if it was never resolved. -/
def resolved? (t : TypeTable) (r : TypeRefId) : Option Ty := t.refs.getD r.index none

/-- Whether a type is a signal. -/
def isSignal (t : TypeTable) (id : TypeId) : Bool :=
  match (t.get id).kind with
  | .signal _ _ => true
  | _ => false

/-- The fields of an object or signal. -/
def fields (t : TypeTable) (id : TypeId) : List FieldType :=
  match (t.get id).kind with
  | .object fields => fields
  | .signal fields _ => fields
  | _ => []

/-- The type of the value a signal resumes with; `Action` for anything else. -/
def signalResult (t : TypeTable) (id : TypeId) : Ty :=
  match (t.get id).kind with
  | .signal _ result => result
  | _ => .action

/-! ### Writing -/

/-- Adds a type at the next place. -/
def push (t : TypeTable) (d : TypeDef) : TypeId × TypeTable :=
  let id : TypeId := ⟨t.types.size⟩
  let declTypes :=
    match d.decl with
    | some decl => t.declTypes.insert decl.index id
    | none => t.declTypes
  (id, { t with types := t.types.push d, declTypes })

/-- Replaces what the type at a place admits. -/
def setKind (t : TypeTable) (id : TypeId) (kind : TypeKind) : TypeTable :=
  { t with types := t.types.modify id.index fun d => { d with kind } }

/-- Records what a written type stands for. -/
def recordRef (t : TypeTable) (r : TypeRefId) (ty : Ty) : TypeTable :=
  { t with refs := t.refs.setIfInBounds r.index (some ty) }

/-- Records the signature of a declared function. -/
def recordFunction (t : TypeTable) (d : DeclId) (s : Signature) : TypeTable :=
  { t with functions := t.functions.insert d.index s }

/-! ### Builtin types -/

/-- The names of the builtin types, in the order of their places.  The unknown type has none. -/
def builtinNames : List String :=
  ["Number", "String", "Action", "Anything", "AnySignal", "True", "False", "BinaryAnswer", "Debug",
    "AssumptionBroken"]

/-- What the builtin types admit, in the order of their places. -/
def builtinKinds (value message : Name) : List TypeKind :=
  [.primitive, .primitive, .primitive, .anything, .anySignal, .object [], .object [],
    .option [.named .trueAnswer, .named .falseAnswer], .signal [⟨value, .anything⟩] .action,
    .signal [⟨message, .string⟩] .action]

/-- The table of the builtin types alone, for a module with some number of written types.  All names
in it are reserved, so the interner knows them already. -/
def builtin (interner : Interner) (refCount : Nat) : TypeTable where
  types :=
    let name (s : String) : Name := (interner.intern s).1
    let kinds := builtinKinds (name "value") (name "message")
    ((builtinNames.zip kinds).map fun (n, kind) => (⟨name n, kind, none⟩ : TypeDef)).toArray.push
      ⟨.empty, .unknown, none⟩
  declTypes := ∅
  functions := ∅
  refs := Array.replicate refCount none

/-! ### Compatibility -/

/-- A function with signature `actual` can stand in for one with signature `expected`: it takes as
many arguments, accepts what callers of the other pass, and returns what they accept. -/
def compatibleBy (accept : Ty → Ty → Bool) (expected actual : Signature) : Bool :=
  expected.arity == actual.arity &&
    (expected.params.zip actual.params).all (fun (e, a) => accept a e) &&
    accept expected.result actual.result

/-- Whether a value of type `source` may be used where `target` is expected, looking through at most
`depth` levels of options and function types. -/
def acceptsWithin (t : TypeTable) : Nat → Ty → Ty → Bool
  | 0, target, source => target.isUnknown || source.isUnknown || target == source
  | depth + 1, target, source =>
    target.isUnknown || source.isUnknown || target == source ||
      match target, source with
      | .named id, _ =>
        match (t.get id).kind with
        | .anything => true
        | .anySignal => source.named?.any t.isSignal
        | .option members => members.any fun m => t.acceptsWithin depth m source
        | _ => false
      | .function ps r, .function ps' r' =>
        compatibleBy (t.acceptsWithin depth) ⟨ps, r⟩ ⟨ps', r'⟩
      | .function _ _, .named _ => false

/-- Levels of options and function types that a comparison of types looks through.  Options may list
themselves, so there has to be a bound. -/
def maxNesting : Nat := 65

/-- Whether a value of type `source` may be used where `target` is expected.  Nominal types accept
themselves, `Anything` accepts all, `AnySignal` accepts signals, an option accepts what its members
accept, and function types are compared by their parts.  The unknown type is never in the way. -/
def accepts (t : TypeTable) (target source : Ty) : Bool := t.acceptsWithin maxNesting target source

/-- Whether a function with signature `actual` can stand in for one with signature `expected`. -/
def compatible (t : TypeTable) (expected actual : Signature) : Bool :=
  compatibleBy t.accepts expected actual

/-! ### Text -/

mutual

/-- The text of a type, as it would be written in a program. -/
def display (t : TypeTable) (interner : Interner) : Ty → String
  | .named id => if id = .unknown then "<unknown>" else interner.text (t.get id).name
  | .function params result =>
    "Function(" ++ ", ".intercalate (displayAll t interner params) ++ "): " ++
      display t interner result

/-- The texts of several types. -/
def displayAll (t : TypeTable) (interner : Interner) : List Ty → List String
  | [] => []
  | ty :: tys => display t interner ty :: displayAll t interner tys

end

end TypeTable

end SignalLang
