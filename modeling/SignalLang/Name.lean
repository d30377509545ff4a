/-!
# Names

Identifiers and decoded string literals are interned (`SignalLang.Interner`).  An interned string
is represented by a `Name`: the shard that holds it and its position there.
-/

namespace SignalLang

/-- An interned string: position `index` of shard `shard`. -/
structure Name where
  shard : Fin 16
  index : Nat
deriving DecidableEq, Repr, Inhabited, Hashable

namespace Name

-- powers are those of `Nat`, whatever else is in scope
attribute [local instance (2000)] instPowNat

/-- The name of the empty string in every interner. -/
def empty : Name := ⟨0, 0⟩

/-- Shard and position in one number, the shard in the bits from the 28th up. -/
def code (n : Name) : Nat := n.shard.val * 2 ^ (28 : Nat) + n.index

/-- Names are ordered by shard, then by position. -/
instance : Ord Name := ⟨fun a b => compare a.code b.code⟩

/-- The written form in dumps of the internal state. -/
def dump (n : Name) : String := s!"Name(shard={n.shard.val}, local={n.index})"

end Name

end SignalLang
