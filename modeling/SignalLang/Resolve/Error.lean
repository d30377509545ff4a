import SignalLang.Diagnostic
import SignalLang.Types.Table

/-!
# Resolution errors

Resolution checks a module without running it.  It collects every problem of the module, each with
the span of the node where it was found.
-/

namespace SignalLang

/-- What resolution can object to. -/
inductive ResolveProblem where
  | unknownType (name : Name)
  /-- The name was declared before in the same scope. -/
  | duplicateDeclaration (name : Name) (previous : Span)
  | incompatibleFunction (expected found : Ty)
  | unknownImport (path : String) (name : Name)
  | unknownName (name : Name)
  | isWithoutSubject
  /-- Only a name declared as variable can be set. -/
  | notVariable (name : Name)
  | breakOutsideLoop
  | returnOutsideFunction
  | argumentCount (expected found : Nat)
  | declaredType (expected found : Ty)
deriving DecidableEq, Repr

/-- A problem and where it was found. -/
structure ResolveError where
  problem : ResolveProblem
  span : Span
deriving DecidableEq, Repr

namespace ResolveProblem

/-- The code of a problem. -/
def code : ResolveProblem → ErrorCode
  | .unknownType _ => .unknownType
  | .duplicateDeclaration _ _ => .duplicateDeclaration
  | .incompatibleFunction _ _ => .incompatibleFunction
  | .unknownImport _ _ => .unknownImport
  | .unknownName _ => .unknownName
  | .isWithoutSubject => .isWithoutSubject
  | .notVariable _ => .notVariable
  | .breakOutsideLoop => .breakOutsideLoop
  | .returnOutsideFunction => .returnOutsideFunction
  | .argumentCount _ _ => .argumentCount
  | .declaredType _ _ => .declaredType

/-- The wording of a problem. -/
def message (table : TypeTable) (interner : Interner) : ResolveProblem → String
  | .unknownType n => "unknown type `" ++ interner.text n ++ "`"
  | .duplicateDeclaration n _ =>
    "`" ++ interner.text n ++ "` is declared more than once in this scope"
  | .incompatibleFunction expected found =>
    "incompatible function type: expected `" ++ table.display interner expected ++
      "`, found `" ++ table.display interner found ++ "`"
  | .unknownImport path n => "`" ++ path ++ "` does not export `" ++ interner.text n ++ "`"
  | .unknownName n => "`" ++ interner.text n ++ "` is not in scope"
  | .isWithoutSubject => "`is` arms need a branch subject (`branch with value`)"
  | .notVariable n =>
    "cannot `set` `" ++ interner.text n ++ "`: not declared with `let variable`"
  | .breakOutsideLoop => "`break` outside of a loop"
  | .returnOutsideFunction => "`return` outside of a function"
  | .argumentCount expected found =>
    s!"expected {expected} argument" ++ (if expected = 1 then "" else "s") ++ s!", found {found}"
  | .declaredType expected found =>
    "declared type `" ++ table.display interner expected ++ "` does not accept `" ++
      table.display interner found ++ "`"

end ResolveProblem

namespace ResolveError

/-- The rule that incompatible function types break. -/
def functionTypeRule : String :=
  "function types must have the same arity and pairwise compatible parameter and return types"

/-- The report of a resolution error. -/
def diagnostic (table : TypeTable) (interner : Interner) (e : ResolveError) : Diagnostic :=
  let report := (Diagnostic.plain e.problem.code (e.problem.message table interner)).withLabel
    ⟨e.span, "", true⟩
  match e.problem with
  | .duplicateDeclaration _ previous => report.withLabel ⟨previous, "first declared here", false⟩
  | .incompatibleFunction _ _ => report.withNote functionTypeRule
  | _ => report

theorem code_diagnostic (table : TypeTable) (interner : Interner) (e : ResolveError) :
    (e.diagnostic table interner).code = e.problem.code := by
  unfold diagnostic
  dsimp only
  split <;> rfl

end ResolveError

end SignalLang
