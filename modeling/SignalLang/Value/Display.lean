import SignalLang.Value.Basic

/-!
# Text of values

`display` is what programs and reports show of a value; `dump` is for dumps of the internal state.
-/

namespace SignalLang

namespace Value

mutual

/-- The text of a value: an instance shows its type and fields, a function its name. -/
def display (t : TypeTable) (interner : Interner) : Value → String
  | .number n => Number.text n
  | .string s => s
  | .action => "Action"
  | .object _ type fields => displayInstance t interner type fields
  | .signal _ type fields => displayInstance t interner type fields
  | .closure c =>
    match c.name with
    | some n => "<function " ++ interner.text n ++ ">"
    | none => "<function>"
  | .native f => "<function " ++ f.name ++ ">"
  | .constructor type => "<constructor " ++ interner.text (t.get type).name ++ ">"

/-- The text of an instance.  Without fields it is the name of the type. -/
def displayInstance (t : TypeTable) (interner : Interner) (type : TypeId) :
    List (Name × Value) → String
  | [] => interner.text (t.get type).name
  | (n, v) :: rest =>
    interner.text (t.get type).name ++ "(" ++ interner.text n ++ ": " ++ display t interner v ++
      displayRest t interner rest ++ ")"

/-- The texts of the fields behind the first one. -/
def displayRest (t : TypeTable) (interner : Interner) : List (Name × Value) → String
  | [] => ""
  | (n, v) :: rest =>
    ", " ++ interner.text n ++ ": " ++ display t interner v ++ displayRest t interner rest

end

/-- The written form of an optional part. -/
def dumpOption (f : α → String) : Option α → String
  | some a => "Some(" ++ f a ++ ")"
  | none => "None"

/-- The written form of a parameter. -/
def dumpParam (p : Code.Param) : String :=
  "Param \x7b name: " ++ p.name.dump ++ ", ty: " ++ dumpOption TypeRefId.dump p.typeRef ++
    ", span: " ++ p.span.text ++ " \x7d"

/-- The written form of a closure, without the scope it captured. -/
def dumpClosure (c : Closure) : String :=
  "Function(FunctionValue \x7b name: " ++ dumpOption Name.dump c.name ++ ", params: [" ++
    ", ".intercalate (c.params.map dumpParam) ++ "], body: " ++ c.body.dump ++ ", .. \x7d)"

/-- The written form of a function, or of the type of any other value. -/
def dump : Value → String
  | .closure c => dumpClosure c
  | .native f => "Native(" ++ f.dump ++ ")"
  | .constructor type => "Constructor(" ++ type.dump ++ ")"
  | v => (v.type?.map TypeId.dump).getD ""

end Value

end SignalLang
