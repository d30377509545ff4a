import SignalLang.Proofs.Balance
import SignalLang.Proofs.Lexical

/-!
# Operands, and what comes behind them

An expression evaluates its operands in order, and then does what is its own with their values.  All
kinds of expressions have this shape, so that what is to be shown of an expression is to be shown of
its operands, once, and of what it does behind them.

* `Eval.mainStep p ev fuel id vs` : what an expression does behind its operands.
* `Eval.node_eq` : **an expression evaluates its operands, and then does what is its own.**
* `Eval.stmts_cons` : the same for a statement and those behind it.
* `Eval.cause_of_match`, `Eval.cause_of_no_match` : a cause turns to a handler, or to the host.
-/

namespace SignalLang

namespace Eval

/-! ### Steps one after the other -/

theorem bind_assoc (x : Eval α) (f : α → Eval β) (h : β → Eval γ) :
    x >>= f >>= h = x >>= fun a => f a >>= h := by
  funext s
  simp only [Bind.bind, Eval.bind]
  cases x s with
  | mk r t => cases r <;> rfl

theorem pure_bind (a : α) (f : α → Eval β) : pure a >>= f = f a := rfl

theorem bind_pure (x : Eval α) : (x >>= fun a => pure a) = x := by
  funext s
  simp only [Bind.bind, Eval.bind]
  cases x s with
  | mk r t => cases r <;> rfl

theorem bind_unit (x : Eval Unit) : (x >>= fun _ => pure ()) = x := bind_pure x

theorem bind_eq_value_iff {x : Eval α} {f : α → Eval β} {s t : Machine} {b : β} :
    (x >>= f) s = (.value b, t) ↔ ∃ a s', x s = (.value a, s') ∧ f a s' = (.value b, t) := by
  simp only [Bind.bind, Eval.bind]
  cases hr : x s with
  | mk r s' => cases r <;> simp [and_assoc]

theorem bind_of_value {x : Eval α} {f : α → Eval β} {s s' : Machine} {a : α}
    (hx : x s = (.value a, s')) : (x >>= f) s = f a s' := by
  simp only [Bind.bind, Eval.bind, hx]

theorem located_congr {x y : Eval α} {s : Machine} (h : x s = y s) (span : Span) :
    located span x s = located span y s := by
  simp only [located, h]

variable {p : Program} {ev : Evaluator}

/-- The statements behind one that is no `effect for` run from the value that it leaves. -/
theorem stmts_cons {st : Code.Stmt} (hst : ∀ pattern body, st.kind ≠ .effect pattern body)
    (last : Value) (rest : List Code.Stmt) :
    stmts p ev last (st :: rest) = stmts p ev last [st] >>= fun v => stmts p ev v rest := by
  cases hk : st.kind with
  | effect pattern body => exact absurd hk (hst _ _)
  | expr e | decl d => simp only [stmts, hk, bind_assoc]; rfl
  | set target value => simp only [stmts, hk, bind_assoc]; rfl

/-- A declaration that is no `let` has been made when its scope began. -/
theorem bindLet_of_ne {d : DeclId}
    (hd : ∀ n isVariable type value, (p.arena.decl d).kind ≠ .binding n isVariable type value) :
    bindLet p ev d = pure () := by
  unfold bindLet
  cases hk : (p.arena.decl d).kind with
  | binding => exact absurd hk (hd _ _ _ _)
  | _ => rfl

/-! ### Causes -/

section

variable {identity : Option Identity} {type : TypeId} {fields : List (Name × Value)} {s : Machine}

/-- A signal that a visible handler matches is answered by that handler. -/
theorem cause_of_match {found : Nat × HandlerFrame × Bindings}
    (hm : s.handlers.findMatch? p.types (.signal identity type fields) = some found) :
    cause p ev (.signal identity type fields) s =
      (runHandler ev found.1 found.2.1 found.2.2 >>= resume p type) s := by
  have hread : read (fun s : Machine =>
      s.handlers.findMatch? p.types (.signal identity type fields)) s =
        (.value (some found), s) := by
    simp only [read, hm]
  simp only [cause]
  rw [bind_of_value hread]

/-- Any other signal is left to the host. -/
theorem cause_of_no_match
    (hm : s.handlers.findMatch? p.types (.signal identity type fields) = none) :
    cause p ev (.signal identity type fields) s =
      unhandled p type (.signal identity type fields) s := by
  have hread : read (fun s : Machine =>
      s.handlers.findMatch? p.types (.signal identity type fields)) s = (.value none, s) := by
    simp only [read, hm]
  simp only [cause]
  rw [bind_of_value hread]

end

/-! ### Operands in order -/

theorem arguments_cons_eq_value_iff {e : ExprId} {es : List ExprId} {s t : Machine}
    {vs : List Value} :
    arguments ev (e :: es) s = (.value vs, t) ↔
      ∃ v s' ws, ev e s = (.value v, s') ∧ arguments ev es s' = (.value ws, t) ∧ vs = v :: ws := by
  simp only [arguments, bind_eq_value_iff]
  constructor
  · rintro ⟨v, s', hv, ws, t', hws, h⟩
    cases h
    exact ⟨v, s', ws, hv, hws, rfl⟩
  · rintro ⟨v, s', ws, hv, hws, rfl⟩
    exact ⟨v, s', hv, ws, t, hws, rfl⟩

theorem arguments_nil_bind (ev : Evaluator) (f : List Value → Eval β) :
    arguments ev [] >>= f = f [] := rfl

theorem arguments_cons_bind (ev : Evaluator) (e : ExprId) (es : List ExprId)
    (f : List Value → Eval β) : arguments ev (e :: es) >>= f =
      ev e >>= fun v => arguments ev es >>= fun vs => f (v :: vs) := by
  simp only [arguments, bind_assoc]
  rfl

theorem arguments_singleton_of_value {e : ExprId} {s t : Machine} {v : Value}
    (he : ev e s = (.value v, t)) : arguments ev [e] s = (.value [v], t) :=
  arguments_cons_eq_value_iff.2 ⟨v, t, [], he, rfl, rfl⟩

theorem arguments_append_of_value {es : List ExprId} {e : ExprId} {s t u : Machine}
    {vs : List Value} {v : Value} (hes : arguments ev es s = (.value vs, t))
    (he : ev e t = (.value v, u)) : arguments ev (es ++ [e]) s = (.value (vs ++ [v]), u) := by
  induction es generalizing s vs with
  | nil =>
    cases hes
    exact arguments_cons_eq_value_iff.2 ⟨v, u, [], he, rfl, rfl⟩
  | cons e' es ih =>
    obtain ⟨w, s', ws, hw, hws, rfl⟩ := arguments_cons_eq_value_iff.1 hes
    exact arguments_cons_eq_value_iff.2 ⟨w, s', ws ++ [v], hw, ih hws, rfl⟩

theorem optional_of_arguments {o : Option ExprId} {vs : List Value} {s t : Machine}
    (h : arguments ev o.toList s = (.value vs, t)) :
    optional ev o s = (.value (vs.headD .action), t) := by
  cases o with
  | none =>
    cases h
    rfl
  | some e =>
    obtain ⟨v, _, _, hv, hnil, rfl⟩ := arguments_cons_eq_value_iff.1 h
    cases hnil
    exact hv

/-! ### Expressions -/

variable (p ev)

/-- What an expression does behind its operands, given their values. -/
def mainStep (fuel : Nat) (id : ExprId) (vs : List Value) : Eval Value :=
  let e := p.arena.expr id
  match e.kind with
  | .group _ => pure (vs.headD .action)
  | .block body => block p ev body
  | .function params result body => closure none params result body
  | .branch _ options => arms p ev vs.head? options
  | .loop body => loop p ev fuel body
  | .cause _ => located e.span (cause p ev (vs.headD .action))
  | .ret _ => leaveFunction (vs.headD .action)
  | .brk _ => leaveLoop (vs.headD .action)
  | .string text => pure (.string (p.interner.text text))
  | .number n => pure (.number n)
  | .ident n => ident p n
  | .call _ _ => located e.span (callValue p ev (vs.headD .action) vs.tail e.span)
  | .member _ field => located e.span (member p (vs.headD .action) field)
  | .pipe _ _ _ => located e.span
    (callValue p ev (vs.tail.headD .action) (vs.headD .action :: vs.tail.tail) e.span)

/-- Some kinds of expressions give their place to the errors of their operands, too. -/
def locatedWhole (id : ExprId) (x : Eval Value) : Eval Value :=
  match (p.arena.expr id).kind with
  | .group _ | .block _ | .branch _ _ | .loop _ | .ident _ => located (p.arena.expr id).span x
  | _ => x

theorem locatedWhole_cases (id : ExprId) :
    (∀ x, locatedWhole p id x = located (p.arena.expr id).span x) ∨
      ∀ x, locatedWhole p id x = x := by
  unfold locatedWhole
  cases (p.arena.expr id).kind with
  | group _ | block _ | branch _ _ | loop _ | ident _ => exact .inl fun _ => rfl
  | _ => exact .inr fun _ => rfl

/-- **An expression evaluates its operands, and then does what is its own.** -/
theorem node_eq (fuel : Nat) (id : ExprId) : node p ev fuel id = locatedWhole p id
    (arguments ev (p.arena.expr id).kind.operands >>= mainStep p ev fuel id) := by
  simp only [node, locatedWhole, funext (mainStep.eq_1 p ev fuel id)]
  cases hk : (p.arena.expr id).kind with
  | group inner =>
    simp only [Code.ExprKind.operands, arguments_cons_bind, arguments_nil_bind, List.headD_cons,
      bind_pure]
  | branch subject options =>
    cases subject with
    | none => rfl
    | some e =>
      simp only [Code.ExprKind.operands, Option.toList, arguments_cons_bind, arguments_nil_bind]
      rfl
  | ret value | brk value =>
    cases value with
    | none => rfl
    | some e =>
      simp only [Code.ExprKind.operands, Option.toList, arguments_cons_bind, arguments_nil_bind]
      rfl
  | cause _ | member _ _ | call _ _ | pipe _ _ _ =>
    simp only [Code.ExprKind.operands, arguments_cons_bind, arguments_nil_bind]
    rfl
  | block _ | function _ _ _ | loop _ | string _ | number _ | ident _ => rfl

variable {p ev}

theorem locatedWhole_congr {id : ExprId} {x y : Eval Value} {s : Machine} (h : x s = y s) :
    locatedWhole p id x s = locatedWhole p id y s := by
  rcases locatedWhole_cases p id with hwhole | hwhole
  · rw [hwhole, hwhole]
    exact located_congr h _
  · rw [hwhole, hwhole]
    exact h

/-- Behind its operands, an expression does what is its own. -/
theorem node_of_value {fuel : Nat} {id : ExprId} {s t : Machine} {vs : List Value}
    (hvs : arguments ev (p.arena.expr id).kind.operands s = (.value vs, t)) :
    node p ev fuel id s = locatedWhole p id (mainStep p ev fuel id vs) t := by
  rw [node_eq]
  rcases locatedWhole_cases p id with hwhole | hwhole
  · simp only [hwhole, located, bind_of_value hvs]
  · simp only [hwhole, bind_of_value hvs]

end Eval

end SignalLang
