import SignalLang.Value.Matching

/-!
# Handlers

A statement `effect for` installs a handler for the rest of its block.  A caused signal goes to the
innermost handler whose pattern matches; while that handler runs, it and the handlers inside it are
set aside.

* `HandlerStack.findMatch?` : the innermost handler that matches a signal.
* `HandlerStack.splitOff`, `HandlerStack.restore` : setting handlers aside and putting them back.
-/

namespace SignalLang

/-- One activation of a loop or function, the target of a `break` or `return`. -/
structure FrameId where
  index : UInt32
deriving DecidableEq, Repr, Inhabited

/-- The activation with a serial number.  After `2 ^ 32` activations the numbers start again. -/
def FrameId.ofSerial (n : Nat) : FrameId := ⟨.ofNat n⟩

/-- Among fewer than `2 ^ 32` activations in a row, the numbers differ. -/
theorem FrameId.ofSerial_inj {m n : Nat} (hmn : m ≤ n) (hn : n < m + UInt32.size) :
    ofSerial m = ofSerial n ↔ m = n := by
  simp only [ofSerial, FrameId.mk.injEq]
  constructor
  · intro h
    have := congrArg UInt32.toNat h
    simp only [UInt32.toNat_ofNat', UInt32.size] at this hn
    omega
  · rintro rfl; rfl

/-- An installed handler: its pattern and body, the scope it was installed in, and the activations
that `break` and `return` left there. -/
structure HandlerFrame where
  pattern : Code.Pattern
  body : ExprId
  scope : ScopeId
  loopTarget : Option FrameId
  returnTarget : Option FrameId
deriving DecidableEq, Repr, Inhabited

/-- The installed handlers, the innermost first. -/
structure HandlerStack where
  frames : List HandlerFrame
deriving DecidableEq, Repr, Inhabited

namespace HandlerStack

/-- No installed handlers. -/
def empty : HandlerStack := ⟨[]⟩

/-- Number of installed handlers. -/
def depth (h : HandlerStack) : Nat := h.frames.length

/-- Whether no handler is installed. -/
def isEmpty (h : HandlerStack) : Bool := h.frames.isEmpty

/-- Installs a handler. -/
def push (h : HandlerStack) (f : HandlerFrame) : HandlerStack := ⟨f :: h.frames⟩

/-- Removes the innermost handler. -/
def pop (h : HandlerStack) : HandlerStack := ⟨h.frames.tail⟩

theorem pop_push (h : HandlerStack) (f : HandlerFrame) : (h.push f).pop = h := rfl

/-- The first of some handlers that matches a signal, with the number of handlers behind it and what
its pattern binds. -/
def firstMatch? (t : TypeTable) (signal : Value) : List HandlerFrame →
    Option (Nat × HandlerFrame × Bindings)
  | [] => none
  | f :: rest =>
    match signal.matchPattern? f.pattern t with
    | some bindings => some (rest.length, f, bindings)
    | none => firstMatch? t signal rest

/-- The innermost handler that matches a signal, with the number of handlers around it and what its
pattern binds. -/
def findMatch? (h : HandlerStack) (t : TypeTable) (signal : Value) :
    Option (Nat × HandlerFrame × Bindings) :=
  firstMatch? t signal h.frames

/-- The handler that is found matches, and none of the handlers inside it does. -/
theorem firstMatch?_eq_some_iff {t : TypeTable} {signal : Value} {fs : List HandlerFrame}
    {outer : Nat} {f : HandlerFrame} {bs : Bindings} :
    firstMatch? t signal fs = some (outer, f, bs) ↔
      ∃ inner rest, fs = inner ++ f :: rest ∧ rest.length = outer ∧
        signal.matchPattern? f.pattern t = some bs ∧
        ∀ g ∈ inner, signal.matchPattern? g.pattern t = none := by
  induction fs with
  | nil => simp [firstMatch?]
  | cons g fs ih =>
    cases hg : signal.matchPattern? g.pattern t with
    | some bs' =>
      simp only [firstMatch?, hg, Option.some.injEq, Prod.mk.injEq]
      constructor
      · rintro ⟨rfl, rfl, rfl⟩
        exact ⟨[], fs, rfl, rfl, hg, by simp⟩
      · rintro ⟨inner, rest, hfs, rfl, hf, hinner⟩
        cases inner with
        | nil => cases hfs; simp_all
        | cons g' inner => cases hfs; simp [hg] at hinner
    | none =>
      simp only [firstMatch?, hg, ih]
      constructor
      · rintro ⟨inner, rest, rfl, hlen, hf, hinner⟩
        exact ⟨g :: inner, rest, rfl, hlen, hf, by simpa [hg] using hinner⟩
      · rintro ⟨inner, rest, hfs, hlen, hf, hinner⟩
        cases inner with
        | nil => cases hfs; simp [hg] at hf
        | cons g' inner =>
          cases hfs
          exact ⟨inner, rest, rfl, hlen, hf, fun g' hg' => hinner g' (by simp [hg'])⟩

/-- Sets all but the outermost `outer` handlers aside: what is set aside, and what is left. -/
def splitOff (h : HandlerStack) (outer : Nat) : List HandlerFrame × HandlerStack :=
  let inner := h.frames.length - outer
  (h.frames.take inner, ⟨h.frames.drop inner⟩)

/-- Puts handlers back that were set aside. -/
def restore (h : HandlerStack) (hidden : List HandlerFrame) : HandlerStack := ⟨hidden ++ h.frames⟩

theorem restore_splitOff (h : HandlerStack) (outer : Nat) :
    (h.splitOff outer).2.restore (h.splitOff outer).1 = h := by
  simp [splitOff, restore]

end HandlerStack

end SignalLang
