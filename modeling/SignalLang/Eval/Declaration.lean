import SignalLang.Eval.Call

/-!
# Binding declarations

Types, functions and imports are bound before any statement of their block runs, so that they can
refer to each other.  A `let` is bound when it is reached.
-/

namespace SignalLang

namespace Eval

variable (p : Program) (ev : Evaluator)

/-- Binds the items of an import. -/
def bindImport (path : String) : List Code.ImportItem → Eval Unit
  | [] => pure ()
  | item :: rest => do
    let name := p.interner.text item.name
    match Native.find? path name with
    | some n => define item.localName (.native n) false
    | none => faultAt (.unboundName (path ++ "/" ++ name)) item.span
    bindImport path rest

/-- A closure over the innermost scope. -/
def closure (name : Option Name) (params : List Code.Param) (result : Option TypeRefId)
    (body : ExprId) : Eval Value := fun s =>
  let (v, store) := s.store.addClosure name params result body s.env.current
  (.value v, { s with store })

/-- What the name of a declared object or signal stands for: its only instance if it has no fields,
a constructor otherwise. -/
def typeValue (d : DeclId) (fieldless isSignal : Bool) : Eval Value :=
  match p.types.declType? d with
  | none => faultAt (.other "type declaration was not resolved") (p.arena.decl d).span
  | some type =>
    if !fieldless then pure (.constructor type)
    else if isSignal then pure (.signal none type [])
    else pure (.object none type [])

/-- Binds a hoisted declaration.  Options declare types only. -/
def bindHoisted (d : DeclId) : Eval Unit :=
  match (p.arena.decl d).kind with
  | .imports path items => bindImport p path items
  | .function n params result body => do
    let v ← closure (some n) params result body
    define n v false
  | .object n fields => do
    let v ← typeValue p d fields.isEmpty false
    define n v false
  | .signal n fields _ => do
    let v ← typeValue p d fields.isEmpty true
    define n v false
  | .option _ _ => pure ()
  | .binding _ _ _ _ =>
    faultAt (.other "`let` bound as a hoisted declaration") (p.arena.decl d).span

/-- Checks a value against the declared type of a `let`. -/
def checkDeclared (typeRef : Option TypeRefId) (v : Value) (span : Span) : Eval Unit :=
  match typeRef.bind p.types.resolved? with
  | none => pure ()
  | some expected =>
    if v.hasType p.types expected then pure ()
    else faultAt (.typeMismatch (p.types.display p.interner expected)
      (v.typeName p.types p.interner)) span

/-- Binds a `let`.  Anything else is bound already. -/
def bindLet (d : DeclId) : Eval Unit :=
  match (p.arena.decl d).kind with
  | .binding n isVariable typeRef value => do
    let v ← ev value
    checkDeclared p typeRef v (p.arena.decl d).span
    define n v isVariable
  | _ => pure ()

/-- Binds the hoisted ones among some declarations. -/
def bindAllHoisted : List DeclId → Eval Unit
  | [] => pure ()
  | d :: ds => do
    if (p.arena.decl d).kind.hoisted then bindHoisted p d
    bindAllHoisted ds

/-- Binds the `let`s among some declarations, in order. -/
def bindAllLets : List DeclId → Eval Unit
  | [] => pure ()
  | d :: ds => do
    bindLet p ev d
    bindAllLets ds

/-- Binds the declarations of a module, the hoisted ones first. -/
def bindModule (ds : List DeclId) : Eval Unit := do
  bindAllHoisted p ds
  bindAllLets p ev ds

end Eval

end SignalLang
