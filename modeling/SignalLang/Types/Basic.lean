/-!
# Types

A type is nominal, identified by its place in the table of types (`SignalLang.Types.Table`), or a
function type.  The builtin types have the first places in every table.
-/

namespace SignalLang

/-- The place of a nominal type in the table of types. -/
structure TypeId where
  index : Nat
deriving DecidableEq, Repr, Inhabited, Hashable

namespace TypeId

def number : TypeId := ⟨0⟩
def string : TypeId := ⟨1⟩
/-- The type of the one value that says nothing. -/
def action : TypeId := ⟨2⟩
def anything : TypeId := ⟨3⟩
def anySignal : TypeId := ⟨4⟩
def trueAnswer : TypeId := ⟨5⟩
def falseAnswer : TypeId := ⟨6⟩
def binaryAnswer : TypeId := ⟨7⟩
def debug : TypeId := ⟨8⟩
def assumptionBroken : TypeId := ⟨9⟩
/-- A type that was not written or could not be resolved. -/
def unknown : TypeId := ⟨10⟩

/-- The written form in dumps of the internal state. -/
def dump (id : TypeId) : String := s!"TypeId({id.index})"

end TypeId

/-- A type. -/
inductive Ty where
  | named (id : TypeId)
  | function (params : List Ty) (result : Ty)
deriving Repr, Inhabited

mutual

/-- Types are compared part by part. -/
def Ty.decEq : (a b : Ty) → Decidable (a = b)
  | .named i, .named j =>
    if h : i = j then .isTrue (h ▸ rfl) else .isFalse fun e => h (Ty.named.inj e)
  | .named _, .function _ _ => .isFalse nofun
  | .function _ _, .named _ => .isFalse nofun
  | .function ps r, .function ps' r' =>
    match Ty.decEqList ps ps', Ty.decEq r r' with
    | .isTrue h, .isTrue h' => .isTrue (h ▸ h' ▸ rfl)
    | .isFalse h, _ => .isFalse fun e => h (Ty.function.inj e).1
    | _, .isFalse h => .isFalse fun e => h (Ty.function.inj e).2

/-- Lists of types are compared part by part. -/
def Ty.decEqList : (as bs : List Ty) → Decidable (as = bs)
  | [], [] => .isTrue rfl
  | [], _ :: _ => .isFalse nofun
  | _ :: _, [] => .isFalse nofun
  | a :: as, b :: bs =>
    match Ty.decEq a b, Ty.decEqList as bs with
    | .isTrue h, .isTrue h' => .isTrue (h ▸ h' ▸ rfl)
    | .isFalse h, _ => .isFalse fun e => h (List.cons.inj e).1
    | _, .isFalse h => .isFalse fun e => h (List.cons.inj e).2

end

instance : DecidableEq Ty := Ty.decEq

/-- The parameter types and the result type of a function. -/
structure Signature where
  params : List Ty
  result : Ty
deriving Repr, Inhabited, DecidableEq

/-- Number of parameters. -/
def Signature.arity (s : Signature) : Nat := s.params.length

/-- The function type of a signature. -/
def Signature.type (s : Signature) : Ty := .function s.params s.result

namespace Ty

def number : Ty := .named .number
def string : Ty := .named .string
def action : Ty := .named .action
def anything : Ty := .named .anything
def binaryAnswer : Ty := .named .binaryAnswer
def unknown : Ty := .named .unknown

/-- The unknown type is compatible with every type in both directions. -/
def isUnknown (t : Ty) : Bool := decide (t = unknown)

/-- The place of a nominal type. -/
def named? : Ty → Option TypeId
  | .named id => some id
  | .function _ _ => none

/-- The signature of a function type. -/
def signature? : Ty → Option Signature
  | .named _ => none
  | .function params result => some ⟨params, result⟩

end Ty

end SignalLang
