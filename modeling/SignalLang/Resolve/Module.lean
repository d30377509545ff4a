import SignalLang.Resolve.Expr

/-!
# Resolution of a module

Resolution finds out what the types of a module are and checks the module without running it.  The
table of types is there even if the check has found errors.

* `Module.resolve` : the table of types, the errors in the order they were found, and the interner.
-/

namespace SignalLang

namespace Resolve

/-- What a constructor of a builtin signal is known to be. -/
def builtinConstructor (t : TypeTable) (id : TypeId) : Name × ValueInfo :=
  ((t.get id).name,
    ⟨.constructor, some (.function ((t.fields id).map fun f => f.type) (.named id))⟩)

/-- The scope around every module: builtin types, the two answers, the constructors of the builtin
signals, and what is in scope without an import. -/
def builtinScope (t : TypeTable) (prelude : List (Name × Signature)) : Scope where
  types := (List.range TypeTable.builtinNames.length).reverse.map fun i =>
    ((t.get ⟨i⟩).name, ⟨i⟩)
  values :=
    (prelude.reverse.map fun (n, s) => (n, (⟨.native, some s.type⟩ : ValueInfo))) ++
      [builtinConstructor t .assumptionBroken, builtinConstructor t .debug,
        ((t.get .falseAnswer).name, ⟨.constant, some (.named .falseAnswer)⟩),
        ((t.get .trueAnswer).name, ⟨.constant, some (.named .trueAnswer)⟩)]
  declared := []

/-- Interns the names of functions. -/
def internNames (interner : Interner) : List (String × Signature) →
    List (Name × Signature) × Interner
  | [] => ([], interner)
  | (s, signature) :: rest =>
    let (n, interner) := interner.intern s
    let (named, interner) := internNames interner rest
    ((n, signature) :: named, interner)

/-- The context of the declarations of a module. -/
def moduleContext (t : TypeTable) (prelude : List (Name × Signature)) : Context :=
  ⟨.empty, [builtinScope t prelude], false, false⟩

end Resolve

/-- Resolves a module.  The number of expressions bounds their nesting. -/
def Module.resolve (m : Module) (imports : Imports) (interner : Interner) :
    TypeTable × List ResolveError × Interner :=
  let t := TypeTable.builtin interner m.arena.typeRefs.size
  let (prelude, interner) := Resolve.internNames interner imports.prelude
  let g : Resolve.Setting := ⟨m.arena, interner, imports⟩
  let check := Resolve.expr g m.arena.exprs.size
  let items := m.decls.map Resolve.Item.decl
  let (_, s) := Resolve.scope g check .afterScope (Resolve.moduleContext t prelude) items ⟨t, #[]⟩
  (s.table, s.errors.toList, interner)

end SignalLang
