import SignalLang.Proofs.Order

/-!
# New scopes

An evaluation binds names in the scopes that it opens itself.  Whatever it does, and however it
ends, a scope that was there before keeps its place among the others, its names and its constants.

* `Moment.writes p m` : all that the moments reached from `m` bind and set.
* `Moment.Opens.isNew`, `Moment.Defines.exists_opens` : names are bound in a scope that is opened on
  the way, and such a scope is not there yet when the evaluation begins.
* `Interpreter.scopes_kept` : **evaluating an expression changes a scope from before it only in the
  values of variables, and binds names in new scopes only.**
-/

namespace SignalLang

variable {p : Program}

namespace Moment

/-- All that the moments reached from one bind and set. -/
def writes (p : Program) (m : Moment) : Writes where
  binds t n b := ∃ π x, Reaches p m π x ∧ x.Defines p t n b
  sets t n v := ∃ π x, Reaches p m π x ∧ x.Sets p t n v

theorem listed_writes (m : Moment) : m.Listed p (m.writes p) := fun π x hx =>
  ⟨fun _ _ _ h => ⟨π, x, hx, h⟩, fun _ _ _ h => ⟨π, x, hx, h⟩⟩

variable {root x : Moment} {π : List Activity}

/-- A scope that is opened on the way is behind those from before, and is still there in the end. -/
theorem Opens.isNew {c : ScopeId} (h : x.Opens p c) (hx : Reaches p root π x) :
    root.machine.store.cells.size ≤ c.index ∧ c.index < (root.result p).2.store.cells.size := by
  have hlisted := root.listed_writes (p := p)
  constructor
  · rw [h.index_eq]
    exact (hlisted.written_to hx).size_le
  · exact Nat.lt_of_lt_of_le h.lt_size_result (hlisted.written_from hx).size_le

/-- On the way through an expression, names are bound in scopes that are opened there. -/
theorem Defines.exists_opens {id : ExprId} (hroot : root.task = .expr id)
    (hx : Reaches p root π x) {t : Machine} {n : Name} {b : Binding} (h : x.Defines p t n b) :
    ∃ ρ y, Reaches p root ρ y ∧ y.Opens p t.env.current := by
  by_cases hstmts : ∃ block last rest, x.task = .stmts block last rest
  · -- a `let` binds its name in the scope of its block
    obtain ⟨block, last, rest, htask⟩ := hstmts
    obtain ⟨fuel, task, s⟩ := x
    cases htask
    obtain ⟨y, ρ, hy, -, hopens⟩ := hx.opened (by simp [hroot]) rfl
    exact ⟨ρ, y, hy, h.env_eq_of_stmts ▸ hopens⟩
  · push Not at hstmts
    refine ⟨π, x, hx, h.opens hstmts fun ds htask => ?_⟩
    obtain ⟨⟨ds', hlets⟩, -⟩ := hx.lets htask
    simp [hroot] at hlets

end Moment

/-- **Evaluating an expression leaves the scopes from before it alone, but for the values of
variables.**  However it ends, each of them has the same parent and the same names as before, and
what is bound there is the same, or it was and is a variable.  All that the evaluation does to the
store, besides creating scopes, are `set`s of variables and bindings of names, and the names are
bound in scopes that it has created. -/
theorem Interpreter.scopes_kept (i : Interpreter) (id : ExprId) (fuel : Nat) :
    let before := i.machine.store
    let after := (i.eval id fuel).2.machine.store
    let w := Moment.writes i.program ⟨fuel, .expr id, i.machine⟩
    before.Keeps before.cells.size after ∧ before.Written w after ∧
      ∀ t n b, w.binds t n b →
        before.cells.size ≤ t.env.current.index ∧ t.env.current.index < after.cells.size := by
  intro before after w
  let m : Moment := ⟨fuel, .expr id, i.machine⟩
  refine ⟨Eval.spares_expr fuel id i.machine, (m.listed_writes (p := i.program)).written, ?_⟩
  rintro t n b ⟨π, x, hx, hdefines⟩
  obtain ⟨ρ, y, hy, hopens⟩ := hdefines.exists_opens rfl hx
  exact hopens.isNew hy

end SignalLang
