import SignalLang.Proofs.Cells
import SignalLang.Proofs.Writes

/-!
# Calls with a subject

A pipe `subject >> callee(args)` evaluates its subject before its callee, a call
`callee(subject, args)` the other way round.  The two are the same where the callee is the name of a
constant, since nothing that the subject does can rebind it.

* `Store.Keeps.nearest?` : while the scopes are kept, a name that is bound stays bound in the same
  one.
* `Eval.bind_swap` : a step that gives the same value before and behind another one can change
  places with it.
* `Interpreter.eval_pipe_eq_call` : **a pipe to a constant is a call**: same outcome, same
  interpreter behind it.
-/

namespace SignalLang

namespace Store

variable {s s' : Store} {n : Name} {id scope : ScopeId} {v : Value}

/-- A chain on which a name is bound is the same up to there, however long one goes on looking. -/
theorem Keeps.nearestWithin (h : s.Keeps s.cells.size s') {length length' : Nat}
    (hlength : length ≤ length') (hscope : s.nearestWithin n length id = some scope) :
    s'.nearestWithin n length' id = some scope := by
  induction length generalizing id length' with
  | zero => cases hscope
  | succ length ih =>
    obtain ⟨length', rfl⟩ := Nat.exists_eq_add_of_lt (Nat.lt_of_succ_le hlength)
    have hid : id.index < s.cells.size := by
      refine Nat.lt_of_not_le fun hle => ?_
      have hparent : (s.cell id).parent = none := by
        simp [cell, Array.getD_eq_getD_getElem?, Array.getElem?_eq_none hle]
      simp [Store.nearestWithin, binding?_of_size_le hle, hparent] at hscope
    have hbound : (s'.binding? id n).isSome = (s.binding? id n).isSome := by
      have hrel := h.binding id hid n
      generalize s.binding? id n = b, s'.binding? id n = b' at hrel ⊢
      cases hrel <;> rfl
    simp only [Store.nearestWithin, hbound, h.parent id hid] at hscope ⊢
    split
    · rwa [if_pos ‹_›] at hscope
    · rw [if_neg ‹_›] at hscope
      cases hparent : (s.cell id).parent with
      | none => simp [hparent] at hscope
      | some parent =>
        simp only [hparent] at hscope
        exact ih (by omega) hscope

/-- While the scopes are kept, a name that is bound stays bound in the same one. -/
theorem Keeps.nearest? (h : s.Keeps s.cells.size s') (hscope : s.nearest? id n = some scope) :
    s'.nearest? id n = some scope :=
  h.nearestWithin h.size hscope

/-- While the scopes are kept, a constant stays what it is. -/
theorem Keeps.constant (h : s.Keeps s.cells.size s') (hb : s.binding? scope n = some ⟨v, false⟩) :
    s'.binding? scope n = some ⟨v, false⟩ := by
  have hlt : scope.index < s.cells.size := by
    refine Nat.lt_of_not_le fun hle => ?_
    rw [binding?_of_size_le hle] at hb
    cases hb
  have hrel := h.binding scope hlt n
  rw [hb] at hrel
  generalize s'.binding? scope n = b' at hrel
  cases hrel with
  | some hbecomes =>
    rcases hbecomes with rfl | ⟨hvariable, -⟩
    · rfl
    · cases hvariable

theorem lookup?_eq_some (hscope : s.nearest? id n = some scope) {isVariable : Bool}
    (hb : s.binding? scope n = some ⟨v, isVariable⟩) : s.lookup? id n = some v := by
  simp [lookup?, hscope, hb]

end Store

namespace Eval

variable {p : Program}

/-- A step that changes nothing and gives the same value before and behind another one can change
places with it. -/
theorem bind_swap {x : Eval α} {y : Eval β} {f : α → β → Eval γ} {s : Machine} {b : β}
    (hbefore : y s = (.value b, s)) (hbehind : ∀ a t, x s = (.value a, t) → y t = (.value b, t)) :
    (x >>= fun a => y >>= fun b => f a b) s = (y >>= fun b => x >>= fun a => f a b) s := by
  rw [bind_of_value hbefore]
  simp only [Bind.bind, Eval.bind]
  cases hx : x s with
  | mk r t =>
    cases r with
    | value a => simp only [hbehind a t hx]
    | _ => rfl

theorem expr_of_ident {id : ExprId} {n : Name} {v : Value} {s : Machine}
    (hk : (p.arena.expr id).kind = .ident n) (hn : s.env.lookup? s.store n = some v) (fuel : Nat) :
    expr p (fuel + 1) id s = (.value v, s) := by
  simp only [expr, node, hk, located, ident, hn]

/-- The name of a constant has the same value before and behind every evaluation that ends in a
value. -/
theorem constant_behind {id other : ExprId} {n : Name} {v : Value} {s : Machine} {scope : ScopeId}
    (hk : (p.arena.expr id).kind = .ident n)
    (hscope : s.store.nearest? s.env.current n = some scope)
    (hb : s.store.binding? scope n = some ⟨v, false⟩) (fuel fuel' : Nat) :
    expr p (fuel + 1) id s = (.value v, s) ∧
      ∀ w t, expr p fuel' other s = (.value w, t) → expr p (fuel + 1) id t = (.value v, t) := by
  refine ⟨expr_of_ident hk (Store.lookup?_eq_some hscope hb) fuel, fun w t ht => ?_⟩
  have hkeeps := spares_expr (p := p) fuel' other s
  have henv := (balanced_expr (p := p) fuel' other s).env
  rw [ht] at hkeeps henv
  refine expr_of_ident hk ?_ fuel
  rw [Environment.lookup?, henv]
  exact Store.lookup?_eq_some (hkeeps.nearest? hscope) (hkeeps.constant hb)

/-- A pipe and a call differ in the order of the subject and the callee. -/
theorem node_pipe_eq_call {pipe call subject callee : ExprId} {args : List ExprId} {span : Span}
    (hpipe : p.arena.expr pipe = ⟨.pipe subject callee args, span⟩)
    (hcall : p.arena.expr call = ⟨.call callee (subject :: args), span⟩) {ev : Evaluator}
    {fuel : Nat} {s : Machine} {f : Value} (hbefore : ev callee s = (.value f, s))
    (hbehind : ∀ v t, ev subject s = (.value v, t) → ev callee t = (.value f, t)) :
    node p ev fuel pipe s = node p ev fuel call s := by
  simp only [node, hpipe, hcall, arguments_cons_bind]
  exact bind_swap hbefore hbehind

end Eval

/-- **A pipe to the name of a constant is a call.**  Whatever the subject and the arguments do, and
however the evaluation ends, `subject >> callee(args)` and `callee(subject, args)` have the same
outcome and leave the same interpreter behind, the log of its host included.  (That the callee is a
constant means that the nearest scope that binds its name does not bind it as a variable.) -/
theorem Interpreter.eval_pipe_eq_call (i : Interpreter) {pipe call subject callee : ExprId}
    {args : List ExprId} {span : Span} {name : Name} {scope : ScopeId} {v : Value}
    (hpipe : i.program.arena.expr pipe = ⟨.pipe subject callee args, span⟩)
    (hcall : i.program.arena.expr call = ⟨.call callee (subject :: args), span⟩)
    (hcallee : (i.program.arena.expr callee).kind = .ident name)
    (hscope : i.machine.store.nearest? i.machine.env.current name = some scope)
    (hconstant : i.machine.store.binding? scope name = some ⟨v, false⟩) (fuel : Nat) :
    i.eval pipe fuel = i.eval call fuel := by
  have hexpr : Eval.expr i.program fuel pipe i.machine =
      Eval.expr i.program fuel call i.machine := by
    match fuel with
    | 0 => rfl
    | 1 =>
      -- neither the subject nor the callee gives a value
      simp only [Eval.expr, Eval.node, hpipe, hcall]
      rfl
    | fuel + 2 =>
      obtain ⟨hbefore, hbehind⟩ := Eval.constant_behind (p := i.program) hcallee hscope hconstant
        fuel (fuel + 1)
      exact Eval.node_pipe_eq_call hpipe hcall hbefore hbehind
  simp only [Interpreter.eval, Interpreter.run, hexpr]

/-- `{ let equals = "a" equals } >> equals("a")` and `equals({ let equals = "a" equals }, "a")`,
over the same parts, given the names of `equals` and `a`. -/
def Arena.shadowedCallee (equals a : Name) : Arena where
  exprs := #[⟨.string a, .dummy⟩, ⟨.ident equals, .dummy⟩,
    ⟨.block [⟨.decl ⟨0⟩, .dummy⟩, ⟨.expr ⟨1⟩, .dummy⟩], .dummy⟩, ⟨.ident equals, .dummy⟩,
    ⟨.string a, .dummy⟩, ⟨.pipe ⟨2⟩ ⟨3⟩ [⟨4⟩], .dummy⟩, ⟨.call ⟨3⟩ [⟨2⟩, ⟨4⟩], .dummy⟩]
  decls := #[⟨.binding equals false none ⟨0⟩, .dummy⟩]
  typeRefs := #[]

/-- These two, where nothing but the builtins is bound. -/
def Interpreter.shadowedCallee : Interpreter :=
  let equals := Interner.new.intern "equals"
  let a := equals.2.intern "a"
  .new (.shadowedCallee equals.1 a.1) a.2 (.builtin a.2 0) ⟨.testRun, none, none⟩ .empty

/-- That the subject binds the name of the callee does not matter. -/
theorem Interpreter.shadowedCallee_pipe_eq_call :
    (shadowedCallee.eval ⟨5⟩ 20).1.value?.bind Value.bool? = some true ∧
      shadowedCallee.eval ⟨5⟩ 20 = shadowedCallee.eval ⟨6⟩ 20 := by
  refine ⟨by decide +kernel, ?_⟩
  have hbound : (shadowedCallee.machine.store.binding? ⟨0⟩ (Interner.new.intern "equals").1).map
      (fun b => b.isVariable) = some false := by decide +kernel
  obtain ⟨⟨v, _⟩, hb, rfl⟩ := Option.map_eq_some_iff.1 hbound
  have hpipe : shadowedCallee.program.arena.expr ⟨5⟩ = ⟨.pipe ⟨2⟩ ⟨3⟩ [⟨4⟩], .dummy⟩ := rfl
  have hcall : shadowedCallee.program.arena.expr ⟨6⟩ = ⟨.call ⟨3⟩ [⟨2⟩, ⟨4⟩], .dummy⟩ := rfl
  exact shadowedCallee.eval_pipe_eq_call hpipe hcall rfl (by decide +kernel) hb 20

end SignalLang
