import SignalLang.Resolve.Module

/-!
# Native functions

The native functions of the library are in scope everywhere or imported from the modules of the core
library.  Each has a fixed signature; what they compute is defined in `SignalLang.Native.Apply`.  A
host can bring along native functions of its own, which reach a program as values only.

* `Native` : the functions of the library.
* `NativeFunction` : a native function as a value, of the library or of the host.
-/

namespace SignalLang

/-- The native functions of the library. -/
inductive Native where
  | equals
  | add
  | subtract
  | multiply
  | atLeast
  | append
  | numberToString
deriving DecidableEq, Repr, Inhabited

namespace Native

/-- Every function of the library, in its order. -/
def all : List Native := [.equals, .add, .subtract, .multiply, .atLeast, .append, .numberToString]

/-- The name under which the library offers a function. -/
def name : Native → String
  | .equals => "equals"
  | .add => "add"
  | .subtract => "subtract"
  | .multiply => "multiply"
  | .atLeast => "at_least"
  | .append => "append"
  | .numberToString => "number_to_string"

/-- The path of the module that exports a function; empty for those that need no import. -/
def path : Native → String
  | .equals => ""
  | .add | .subtract | .multiply | .atLeast => "core/math"
  | .append | .numberToString => "core/string"

/-- The signature of a function. -/
def signature : Native → Signature
  | .equals => ⟨[.anything, .anything], .binaryAnswer⟩
  | .add | .subtract | .multiply => ⟨[.number, .number], .number⟩
  | .atLeast => ⟨[.number, .number], .binaryAnswer⟩
  | .append => ⟨[.string, .string], .string⟩
  | .numberToString => ⟨[.number], .string⟩

/-- Number of arguments. -/
def arity (n : Native) : Nat := n.signature.arity

/-- The function of a given path and name. -/
def find? (path name : String) : Option Native :=
  all.find? fun n => n.path == path && n.name == name

/-- The functions that need no import. -/
def prelude : List Native := all.filter fun n => n.path == ""

theorem mem_all (n : Native) : n ∈ all := by cases n <;> decide

theorem name_injective {a b : Native} (h : a.name = b.name) : a = b := by
  cases a <;> cases b <;> first | rfl | exact absurd h (by decide)

end Native

/-- What a native function runs: a function of the library, or a function of the host by its
number. -/
inductive NativeCode where
  | library (n : Native)
  | host (entry : Nat)
deriving DecidableEq, Repr, Inhabited

/-- A native function as a value.  The host chooses name and number of arguments of its own ones as
it likes. -/
structure NativeFunction where
  name : String
  arity : Nat
  code : NativeCode
deriving DecidableEq, Repr, Inhabited

/-- The written form in dumps of the internal state. -/
def NativeFunction.dump (f : NativeFunction) : String := s!"NativeFunction({f.name}/{f.arity})"

namespace Native

/-- A function of the library as a value. -/
def function (n : Native) : NativeFunction := ⟨n.name, n.arity, .library n⟩

instance : Coe Native NativeFunction := ⟨function⟩

/-- The written form in dumps of the internal state. -/
def dump (n : Native) : String := n.function.dump

end Native

/-- The core library.  What needs no import cannot be imported either. -/
def Imports.core : Imports where
  find? path name := if path = "" then .none else (Native.find? path name).map Native.signature
  prelude := Native.prelude.map fun n => (n.name, n.signature)

end SignalLang
