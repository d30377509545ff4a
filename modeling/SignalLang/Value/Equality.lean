import SignalLang.Value.Basic

/-!
# Equality of values

Numbers are compared as floating point numbers, strings by their text, and instances by type and
fields.  An instance also equals itself whatever its fields are.  Closures equal only themselves,
and native functions those of the same name.
-/

namespace SignalLang

namespace Value

/-- Whether two instances are one and the same. -/
def sameIdentity : Option Identity → Option Identity → Bool
  | some a, some b => a == b
  | _, _ => false

mutual

/-- Equality of values, as programs see it. -/
def equal : Value → Value → Bool
  | .number a, .number b => a == b
  | .string a, .string b => a == b
  | .action, .action => true
  | .object i s fs, .object j t gs => sameIdentity i j || (s == t && equalFields fs gs)
  | .signal i s fs, .signal j t gs => sameIdentity i j || (s == t && equalFields fs gs)
  | .closure c, .closure d => c.identity == d.identity
  | .native f, .native g => f.name == g.name
  | .constructor s, .constructor t => s == t
  | _, _ => false

/-- Equality of fields: the same names with equal values in the same order. -/
def equalFields : List (Name × Value) → List (Name × Value) → Bool
  | [], [] => true
  | (m, v) :: fs, (n, w) :: gs => m == n && equal v w && equalFields fs gs
  | _, _ => false

end

end Value

end SignalLang
