import SignalLang.EvalError

/-!
# The call stack

The active calls, the innermost first.  Their number can be limited.
-/

namespace SignalLang

/-- The active calls, the innermost first. -/
structure CallStack where
  frames : List CallFrame
deriving DecidableEq, Repr, Inhabited

namespace CallStack

/-- No active calls. -/
def empty : CallStack := ⟨[]⟩

/-- Number of active calls. -/
def depth (c : CallStack) : Nat := c.frames.length

/-- Whether no call is active. -/
def isEmpty (c : CallStack) : Bool := c.frames.isEmpty

/-- Enters a call, unless the limit is reached. -/
def push (c : CallStack) (limit : Option Nat) (f : CallFrame) : Except EvalProblem CallStack :=
  match limit with
  | some max => if max ≤ c.depth then .error (.recursionLimit max) else .ok ⟨f :: c.frames⟩
  | none => .ok ⟨f :: c.frames⟩

/-- Leaves the innermost call. -/
def pop (c : CallStack) : CallStack := ⟨c.frames.tail⟩

/-- A call that is entered is the innermost one, and the limit was not reached. -/
theorem eq_of_push {c c' : CallStack} {limit : Option Nat} {f : CallFrame}
    (h : c.push limit f = .ok c') : c' = ⟨f :: c.frames⟩ ∧ ∀ max ∈ limit, c.depth < max := by
  cases limit with
  | none =>
    cases h
    exact ⟨rfl, by simp⟩
  | some max =>
    simp only [push] at h
    split at h
    · cases h
    · rename_i hlt
      cases h
      exact ⟨rfl, fun _ hmax => Option.mem_some_iff.1 hmax ▸ Nat.lt_of_not_le hlt⟩

/-- Only the limit keeps a call from being entered. -/
theorem eq_recursionLimit_of_push {c : CallStack} {limit : Option Nat} {f : CallFrame}
    {problem : EvalProblem} (h : c.push limit f = .error problem) :
    ∃ max, limit = some max ∧ max ≤ c.depth ∧ problem = .recursionLimit max := by
  cases limit with
  | none => cases h
  | some max =>
    simp only [push] at h
    split at h
    · rename_i hle
      cases h
      exact ⟨max, rfl, hle, rfl⟩
    · cases h

theorem pop_push {c c' : CallStack} {limit : Option Nat} {f : CallFrame}
    (h : c.push limit f = .ok c') : c'.pop = c := by
  rw [(eq_of_push h).1]
  rfl

/-- The record of the active calls. -/
def backtrace (c : CallStack) : Backtrace := c.frames

/-- Records the active calls in an error, unless there are none or the error has a record from
deeper down. -/
def attach (c : CallStack) (e : EvalError) : EvalError :=
  if c.isEmpty || e.backtrace.isSome then e else e.withBacktrace c.backtrace

theorem problem_attach (c : CallStack) (e : EvalError) : (c.attach e).problem = e.problem := by
  unfold attach
  split <;> rfl

end CallStack

end SignalLang
