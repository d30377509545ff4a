import SignalLang.Proofs.CutShort

/-!
# Fuel

Fuel only bounds how long an evaluation may go on.  With more of it, nothing changes but that
evaluations end that had run out before.

* `Eval.Refines x y` : the step `y` does what `x` does, except where `x` runs out of fuel.
* `Eval.expr_refines` : **more fuel never changes how an evaluation ends.**
* `Interpreter.load_eq_of_le`, `Interpreter.call_eq_of_le` : the same of loading a module and of
  calling a function.
-/

namespace SignalLang

/-- Where no problem counts as a cut-off, only running out of fuel does. -/
theorem Outcome.cutOff_false_iff {r : Outcome α} : r.CutOff (fun _ => False) ↔ r = .outOfFuel := by
  cases r with
  | interrupt i => cases i <;> simp [CutOff]
  | _ => simp [CutOff]

namespace Eval

/-- The step `y` ends as `x` does, unless `x` runs out of fuel. -/
def Refines (x y : Eval α) : Prop := ∀ s, (x s).1 ≠ .outOfFuel → x s = y s

theorem CutShort.refines {x y : Eval α} (h : CutShort (fun _ => False) x y) : Refines x y :=
  fun s hs => (h s).resolve_left (hs ∘ Outcome.cutOff_false_iff.1)

/-- **More fuel never changes how an evaluation ends.** -/
theorem expr_refines {p : Program} {fuel fuel' : Nat} (hle : fuel ≤ fuel') (id : ExprId) :
    Refines (expr p fuel id) (expr p fuel' id) :=
  (expr_cutShort (.refl p.limits) hle id).refines

end Eval

namespace Interpreter

theorem settle_ne_outOfFuel {r : Outcome α} : r.settle ≠ .outOfFuel ↔ r ≠ .outOfFuel := by
  cases r <;> simp [Outcome.settle]

/-- A module that is loaded with some fuel is loaded in the same way with more of it. -/
theorem load_eq_of_le (i : Interpreter) (m : Module) {fuel fuel' : Nat} (hle : fuel ≤ fuel')
    (h : (i.load m fuel).1 ≠ .outOfFuel) : i.load m fuel' = i.load m fuel :=
  (load_cutShort (.refl i.program.limits) m hle).resolve_left (h ∘ Outcome.cutOff_false_iff.1)

/-- A call that ends with some fuel ends in the same way with more of it. -/
theorem call_eq_of_le (i : Interpreter) (name : String) (args : List Value) {fuel fuel' : Nat}
    (hle : fuel ≤ fuel') (h : (i.call name args fuel).1 ≠ .outOfFuel) :
    i.call name args fuel' = i.call name args fuel := by
  refine ((call_cutShort (.refl i.program.limits) name args hle).resolve_left
    (h ∘ Outcome.cutOff_false_iff.1)).trans ?_
  rw [← program_call i name args fuel]
  rfl

end Interpreter

end SignalLang
