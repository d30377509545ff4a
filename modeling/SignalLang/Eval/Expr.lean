import SignalLang.Eval.Block

/-!
# Evaluating expressions

`node` says what one expression does, given how its parts are evaluated; `expr` ties the knot.  Fuel
bounds the nesting of evaluations and the rounds of each loop.  Whatever the result, more fuel does
not change it.
-/

namespace SignalLang

namespace Eval

variable (p : Program) (ev : Evaluator)

/-- Evaluates arguments from left to right. -/
def arguments : List ExprId → Eval (List Value)
  | [] => pure []
  | e :: es => do
    let v ← ev e
    let vs ← arguments es
    return v :: vs

/-- The value of a name. -/
def ident (n : Name) : Eval Value := fun s =>
  match s.env.lookup? s.store n with
  | some v => (.value v, s)
  | none => (.interrupt (.fault (.new (.unboundName (p.interner.text n)))), s)

/-- The value of a field. -/
def member (receiver : Value) (field : Name) : Eval Value :=
  match receiver.field? field with
  | some v => pure v
  | none => fault (.noSuchField (p.interner.text field) (receiver.typeName p.types p.interner))

/-- Leaves the innermost function with a value. -/
def leaveFunction (v : Value) : Eval Value := do
  match ← read fun s => s.returnTarget with
  | some target => interrupt (.returnTo target v)
  | none => fault .escapedControlFlow

/-- Leaves the innermost loop with a value. -/
def leaveLoop (v : Value) : Eval Value := do
  match ← read fun s => s.loopTarget with
  | some target => interrupt (.breakTo target v)
  | none => fault .escapedControlFlow

/-- Evaluates an expression, given how to evaluate its parts.  An error without a place that arises
in what the expression does gets the place of the expression.  This does not hold for its operands,
whose errors pass by, nor for a `break` or `return` without a target: these get the place of the
nearest expression around them of which they are not an operand. -/
def node (fuel : Nat) (id : ExprId) : Eval Value :=
  let e := p.arena.expr id
  match e.kind with
  | .group inner => located e.span (ev inner)
  | .block body => located e.span (block p ev body)
  | .function params result body => closure none params result body
  | .branch subject options => located e.span (branch p ev subject options)
  | .loop body => located e.span (loop p ev fuel body)
  | .cause payload => do
    let v ← ev payload
    located e.span (cause p ev v)
  | .ret value => do
    let v ← optional ev value
    leaveFunction v
  | .brk value => do
    let v ← optional ev value
    leaveLoop v
  | .string text => pure (.string (p.interner.text text))
  | .number n => pure (.number n)
  | .ident n => located e.span (ident p n)
  | .call callee args => do
    let f ← ev callee
    let vs ← arguments ev args
    located e.span (callValue p ev f vs e.span)
  | .member receiver field => do
    let v ← ev receiver
    located e.span (member p v field)
  | .pipe subject callee args => do
    let v ← ev subject
    let f ← ev callee
    let vs ← arguments ev args
    located e.span (callValue p ev f (v :: vs) e.span)

/-- Evaluates an expression with a bounded amount of fuel. -/
def expr : Nat → Evaluator
  | 0, _ => outOfFuel
  | fuel + 1, id => node p (expr fuel) fuel id

end Eval

end SignalLang
