import SignalLang.Resolve.Context

/-!
# Hoisted declarations

Imports, types and functions are in scope in the whole block that declares them.  They are entered
into the scope before its statements are checked: first the imports, then the types, then the
signatures of the functions.  Types are entered in two rounds, so that they can refer to each other
in any order and to themselves.
-/

namespace SignalLang

namespace Resolve

variable (arena : Arena)

/-! ### Imports -/

/-- Enters one import item. -/
def importItem (imports : Imports) (interner : Interner) (path : String) (c : Context)
    (item : Code.ImportItem) : Check Context := do
  let c ← declare c item.localName item.span
  match imports.find? path (interner.text item.name) with
  | some signature => return c.addValue item.localName ⟨.native, some signature.type⟩
  | none => do
    report (.unknownImport path item.name) item.span
    return c.addValue item.localName ⟨.native, some .unknown⟩

/-- Enters the items of an import declaration. -/
def importDecl (imports : Imports) (interner : Interner) (c : Context) (d : DeclId) :
    Check Context :=
  match (arena.decl d).kind with
  | .imports path items => items.foldlM (importItem imports interner path) c
  | _ => pure c

/-! ### Types -/

/-- The name of a declared type. -/
def typeName? : Code.DeclKind → Option Name
  | .object n _ => some n
  | .signal n _ _ => some n
  | .option n _ => some n
  | _ => none

/-- First round: gives a declared type its place. -/
def placeType (c : Context) (d : DeclId) : Check Context := do
  let decl := arena.decl d
  match typeName? decl.kind with
  | some n => do
    let c ← declare c n decl.span
    let s ← get
    let (id, table) := s.table.push ⟨n, .unknown, some d⟩
    set { s with table }
    return c.addType n id
  | none => return c

/-- The types of fields.  A field can be declared once; `seen` are the fields before. -/
def fieldTypes (c : Context) : List Code.Field → List Code.Field → Check (List FieldType)
  | _, [] => pure []
  | seen, f :: rest => do
    match seen.find? fun g => g.name == f.name with
    | some first => report (.duplicateDeclaration f.name first.span) f.span
    | none => pure ()
    let ty ← typeRef arena c f.typeRef
    return ⟨f.name, ty⟩ :: (← fieldTypes c (seen ++ [f]) rest)

/-- What is known of the value that an object or signal name stands for: an instance if there are no
fields, a constructor otherwise. -/
def instanceInfo (id : TypeId) (fields : List FieldType) : ValueInfo :=
  if fields.isEmpty then ⟨.constant, some (.named id)⟩
  else ⟨.constructor, some (.function (fields.map fun f => f.type) (.named id))⟩

/-- Second round: resolves what a declared type admits.  Names of objects and signals also stand for
a value. -/
def defineType (c : Context) (d : DeclId) : Check Context := do
  match (← table).declType? d with
  | none => return c
  | some id =>
    match (arena.decl d).kind with
    | .object n fields => do
      let fields ← fieldTypes arena c [] fields
      record fun t => t.setKind id (.object fields)
      return c.addValue n (instanceInfo id fields)
    | .signal n fields result => do
      let fields ← fieldTypes arena c [] fields
      let result ←
        match result with
        | some r => typeRef arena c r
        | none => pure .action
      record fun t => t.setKind id (.signal fields result)
      return c.addValue n (instanceInfo id fields)
    | .option _ members => do
      let members ← members.mapM (typeRef arena c)
      record fun t => t.setKind id (.option members)
      return c
    | _ => return c

/-! ### Functions -/

/-- Enters the signature of a declared function. -/
def functionDecl (c : Context) (d : DeclId) : Check Context := do
  let decl := arena.decl d
  match decl.kind with
  | .function n params result _ => do
    let c ← declare c n decl.span
    let params ← params.mapM fun p => typeRef? arena c p.typeRef
    let result ← typeRef? arena c result
    let signature : Signature := ⟨params, result⟩
    record fun t => t.recordFunction d signature
    return c.addValue n ⟨.function, some signature.type⟩
  | _ => return c

/-- Enters the hoisted declarations of a scope. -/
def hoist (imports : Imports) (interner : Interner) (c : Context) (ds : List DeclId) :
    Check Context := do
  let c ← ds.foldlM (importDecl arena imports interner) c
  let c ← ds.foldlM (placeType arena) c
  let c ← ds.foldlM (defineType arena) c
  ds.foldlM (functionDecl arena) c

end Resolve

end SignalLang
