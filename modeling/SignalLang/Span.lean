/-!
# Spans

A span is a half-open range of byte offsets in a source file.  Every node of a program carries
one, and every report points at one.
-/

namespace SignalLang

/-- The offsets `start`, `start + 1`, …, `stop - 1` of a source file. -/
structure Span where
  start : Nat
  stop : Nat
deriving DecidableEq, Repr, Inhabited

namespace Span

/-- The span of nodes without source text, such as builtins and call frames of the host. -/
def dummy : Span := ⟨0, 0⟩

/-- Number of offsets covered. -/
def length (s : Span) : Nat := s.stop - s.start

/-- A span is empty when it ends where it starts. -/
def isEmpty (s : Span) : Bool := s.start == s.stop

/-- The least span that covers both. -/
def merge (s t : Span) : Span := ⟨min s.start t.start, max s.stop t.stop⟩

/-- The written form `start..stop`. -/
def text (s : Span) : String := s!"{s.start}..{s.stop}"

theorem merge_assoc (s t u : Span) : (s.merge t).merge u = s.merge (t.merge u) := by
  simp [merge, Nat.min_assoc, Nat.max_assoc]

theorem merge_self (s : Span) : s.merge s = s := by simp [merge]

end Span

end SignalLang
