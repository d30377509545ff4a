import SignalLang.Proofs.Moments
import SignalLang.Proofs.Operands

/-!
# Moments cover evaluation

`Reaches` lists the moments that an evaluation comes to.  This file shows that none is missing: if
an evaluator does what `Eval.expr` does at the moments that are reached, and anything at all
elsewhere, the result is the same.

* `Moment.Covers` : an evaluator that agrees at the reached moments.
* `Moment.result_eq_of_covers`, `Eval.node_eq_of_covers` : **evaluation evaluates no expression but
  those that are reached**, for every task and for the parts of every expression.
* `Moment.Covered p m` : both of these, of one moment.
-/

namespace SignalLang

variable {p : Program} {ev' : Evaluator} {n : Nat} {m : Moment}

theorem Reaches.head {m m' m'' : Moment} {k : Option ActivityKind} {π : List Activity}
    (hs : Enters p m k m') (h : Reaches p m' π m'') : ∃ ρ, Reaches p m ρ m'' := by
  induction h with
  | root =>
    cases k with
    | none => exact ⟨[], .step .root hs⟩
    | some k => exact ⟨_, .enter .root hs⟩
  | step _ hs' ih =>
    obtain ⟨ρ, h⟩ := ih
    exact ⟨ρ, h.step hs'⟩
  | enter _ hs' ih =>
    obtain ⟨ρ, h⟩ := ih
    exact ⟨_, h.enter hs'⟩

/-- At every moment reached from `m` with an expression and the fuel `n`, the evaluator `ev'` does
what `Eval.expr` does. -/
def Moment.Covers (p : Program) (ev' : Evaluator) (n : Nat) (m : Moment) : Prop :=
  ∀ π e t, Reaches p m π ⟨n, .expr e, t⟩ → ev' e t = Eval.expr p n e t

namespace Moment.Covers

theorem of_enters {m' : Moment} {k : Option ActivityKind} (h : m.Covers p ev' n)
    (hs : Enters p m k m') : m'.Covers p ev' n := by
  intro π e t hr
  obtain ⟨ρ, hr⟩ := hr.head hs
  exact h ρ e t hr

theorem eq_of_enters {e : ExprId} {t : Machine} {k : Option ActivityKind}
    (h : m.Covers p ev' n) (hs : Enters p m k ⟨n, .expr e, t⟩) : ev' e t = Eval.expr p n e t :=
  h.of_enters hs [] e t .root

end Moment.Covers

namespace Eval

/-! ### Steps that agree -/

theorem bind_congr {x y : Eval α} {f g : α → Eval β} {s : Machine} (hx : x s = y s)
    (hf : ∀ a t, y s = (.value a, t) → f a t = g a t) : (x >>= f) s = (y >>= g) s := by
  simp only [Bind.bind, Eval.bind, hx]
  cases hy : y s with
  | mk r t =>
    cases r with
    | value a => exact hf a t hy
    | interrupt i => rfl
    | outOfFuel => rfl

theorem inScope_congr {x y : Eval α} {s : Machine} (h : x s.inScope = y s.inScope) :
    inScope x s = inScope y s := by
  simp only [Machine.inScope] at h
  simp only [inScope, h]

theorem withHandler_congr {x y : Eval α} {f : HandlerFrame} {s : Machine}
    (h : x (s.install f) = y (s.install f)) : withHandler f x s = withHandler f y s := by
  simp only [Machine.install] at h
  simp only [withHandler, h]

theorem withOuterHandlers_congr {x y : Eval α} {outer : Nat} {s : Machine}
    (h : x { s with handlers := (s.handlers.splitOff outer).2 } =
      y { s with handlers := (s.handlers.splitOff outer).2 }) :
    withOuterHandlers outer x s = withOuterHandlers outer y s := by
  simp only [withOuterHandlers, h]

theorem inContext_congr {x y : Eval α} {env : Environment} {l r : Option FrameId} {s : Machine}
    (h : x { s with env, loopTarget := l, returnTarget := r } =
      y { s with env, loopTarget := l, returnTarget := r }) :
    inContext env l r x s = inContext env l r y s := by
  simp only [inContext, h]

theorem activation_congr {x y : Eval Value} {frame : FrameId} {s : Machine} (h : x s = y s) :
    activation frame x s = activation frame y s := by
  simp only [activation, h]

theorem checkType_snd (v : Value) (expected : Ty) (s : Machine) :
    (checkType p v expected s).2 = s := by
  unfold checkType
  split <;> rfl

/-- Checking arguments changes nothing. -/
theorem checkArguments_snd (params : List Code.Param) (args : List Value) (s : Machine) :
    (checkArguments p params args s).2 = s := by
  induction params generalizing args with
  | nil => rfl
  | cons q params ih =>
    cases args with
    | nil => rfl
    | cons v args =>
      simp only [checkArguments]
      cases q.typeRef.bind p.types.resolved? with
      | none => exact ih args
      | some expected =>
        have h := checkType_snd (p := p) v expected s
        simp only [Bind.bind, Eval.bind]
        cases hc : checkType p v expected s with
        | mk r t =>
          rw [hc] at h
          subst h
          cases r with
          | value _ => exact ih args
          | interrupt i => rfl
          | outOfFuel => rfl

theorem checkDeclared_snd (typeRef : Option TypeRefId) (v : Value) (span : Span) (s : Machine) :
    (checkDeclared p typeRef v span s).2 = s := by
  unfold checkDeclared
  cases typeRef.bind p.types.resolved? with
  | none => rfl
  | some expected =>
    dsimp only
    split <;> rfl

/-! ### Tasks -/

theorem stmts_eq_of_covers {b : ExprId} {last : Value} {rest : List Code.Stmt} {s : Machine}
    (h : Moment.Covers p ev' n ⟨n, .stmts b last rest, s⟩) :
    stmts p ev' last rest s = stmts p (expr p n) last rest s := by
  induction rest generalizing last s with
  | nil => rfl
  | cons st rest ih =>
    have hop : ∀ e, st.operand? p.arena = some e → ev' e s = expr p n e s := fun e he =>
      h.eq_of_enters (.stmt he)
    by_cases hst : ∀ pattern body, st.kind ≠ .effect pattern body
    case neg =>
      push Not at hst
      obtain ⟨pattern, body, hk⟩ := hst
      simp only [stmts, hk]
      have hrest := ih (h.of_enters (.install hk))
      refine bind_congr rfl fun f t hf => ?_
      cases hf
      exact withHandler_congr hrest
    -- behind any other statement comes the rest, in the same activity
    rw [stmts_cons hst last rest, stmts_cons hst last rest]
    refine bind_congr ?_ fun v t hv => ih (h.of_enters (.nextStmt hst hv))
    cases hk : st.kind with
    | effect pattern body => exact absurd hk (hst pattern body)
    | expr e =>
      simp only [stmts, hk]
      exact bind_congr (hop e (by simp only [Code.Stmt.operand?, hk])) fun _ _ _ => rfl
    | decl d =>
      simp only [stmts, hk]
      refine bind_congr ?_ fun _ _ _ => rfl
      cases hd : (p.arena.decl d).kind with
      | binding x isVariable typeRef value =>
        simp only [bindLet, hd]
        exact bind_congr (hop _ (by simp only [Code.Stmt.operand?, hk, hd])) fun _ _ _ => rfl
      | _ => simp only [bindLet, hd]
    | set target value =>
      simp only [stmts, hk]
      exact bind_congr (hop value (by simp only [Code.Stmt.operand?, hk])) fun _ _ _ => rfl

theorem arms_eq_of_covers {b : ExprId} {subject : Option Value} {rest : List Code.Arm}
    {s : Machine} (h : Moment.Covers p ev' n ⟨n, .arms b subject rest, s⟩) :
    arms p ev' subject rest s = arms p (expr p n) subject rest s := by
  induction rest generalizing s with
  | nil => rfl
  | cons a rest ih =>
    cases ha : a.kind with
    | when c body =>
      simp only [arms, ha]
      refine bind_congr (h.eq_of_enters (.condition ha)) fun v t hv => ?_
      cases hb : v.bool? with
      | none => simp only [condition, hb]; rfl
      | some answer =>
        simp only [condition, hb]
        refine bind_congr rfl fun answer' t' hc => ?_
        cases hc
        cases answer with
        | true => exact h.eq_of_enters (.whenTrue ha hv hb)
        | false => exact ih (h.of_enters (.whenFalse ha hv hb))
    | is pattern body =>
      cases subject with
      | none => simp only [arms, ha]
      | some v =>
        cases hm : v.matchPattern? pattern p.types with
        | none =>
          simp only [arms, ha, hm]
          exact ih (h.of_enters (.isMiss ha hm))
        | some bs =>
          simp only [arms, ha, hm]
          refine inScope_congr (bind_congr rfl fun _ t hd => ?_)
          exact h.eq_of_enters (.isMatch ha hm hd)
    | otherwise body =>
      simp only [arms, ha]
      exact h.eq_of_enters (.otherwise ha)

theorem bindAllLets_eq_of_covers {ds : List DeclId} {s : Machine}
    (h : Moment.Covers p ev' n ⟨n, .lets ds, s⟩) :
    bindAllLets p ev' ds s = bindAllLets p (expr p n) ds s := by
  induction ds generalizing s with
  | nil => rfl
  | cons d ds ih =>
    have hlet : bindLet p ev' d s = bindLet p (expr p n) d s := by
      cases hd : (p.arena.decl d).kind with
      | binding x isVariable typeRef value =>
        simp only [bindLet, hd]
        exact bind_congr (h.eq_of_enters (.letValue hd)) fun _ _ _ => rfl
      | _ => simp only [bindLet, hd]
    simp only [bindAllLets]
    exact bind_congr hlet fun _ t hd => ih (h.of_enters (.nextLet hd))

theorem callClosure_eq_of_covers {c : Closure} {args : List Value} {span : Span} {s : Machine}
    (h : Moment.Covers p ev' n ⟨n, .call (.closure c) args span, s⟩) :
    callClosure p ev' c args span s = callClosure p (expr p n) c args span s := by
  unfold callClosure
  split
  · rfl
  · rename_i hlen
    refine bind_congr rfl fun _ t hargs => ?_
    -- the check of the arguments leaves the machine as it is
    cases show t = s by rw [← checkArguments_snd (p := p) c.params args s, hargs]
    cases hcalls : s.calls.push p.limits.callDepth ⟨callName p c, some span⟩ with
    | error problem => simp only [Bind.bind, Eval.bind, pushCall, hcalls]
    | ok calls =>
      have hpush : pushCall p ⟨callName p c, some span⟩ s = (.value (), { s with calls }) := by
        simp only [pushCall, hcalls]
      rw [bind_of_value hpush, bind_of_value hpush]
      have hbody := bind_congr (f := fun _ => ev' c.body) (g := fun _ => expr p n c.body)
        (s := s.inCall c calls) rfl fun _ t hd =>
          h.eq_of_enters (.body (not_not.1 hlen) hargs hcalls hd)
      refine bind_congr rfl fun frame t hframe => bind_congr rfl fun env t' henv => ?_
      cases hframe
      cases henv
      exact activation_congr (inContext_congr hbody)

theorem callValue_eq_of_covers {callee : Value} {args : List Value} {span : Span} {s : Machine}
    (h : Moment.Covers p ev' n ⟨n, .call callee args span, s⟩) :
    callValue p ev' callee args span s = callValue p (expr p n) callee args span s := by
  cases callee with
  | closure c => exact callClosure_eq_of_covers h
  | _ => rfl

theorem cause_eq_of_covers {v : Value} {s : Machine}
    (h : Moment.Covers p ev' n ⟨n, .cause v, s⟩) :
    cause p ev' v s = cause p (expr p n) v s := by
  cases v with
  | signal identity type fields =>
    refine bind_congr rfl fun found t hfound => ?_
    cases hfound
    cases hm : s.handlers.findMatch? p.types (.signal identity type fields) with
    | none => simp only [hm]
    | some found =>
      obtain ⟨outer, f, bs⟩ := found
      simp only [hm]
      have hbody := bind_congr (f := fun _ => ev' f.body) (g := fun _ => expr p n f.body)
        (s := s.inHandler f outer) rfl fun _ t hd => h.eq_of_enters (.handler hm hd)
      refine bind_congr (withOuterHandlers_congr ?_) fun _ _ _ => rfl
      refine bind_congr rfl fun env t henv => ?_
      cases henv
      exact inContext_congr hbody
  | _ => rfl

/-! ### Expressions -/

section Expressions

variable {id : ExprId} {s : Machine}

/-- The operands behind some that gave values. -/
theorem arguments_eq_of_covers {pre es : List ExprId} {vs : List Value} {t : Machine}
    (h : Moment.Covers p ev' n ⟨n + 1, .expr id, s⟩)
    (hops : (p.arena.expr id).kind.operands = pre ++ es)
    (hpre : arguments (expr p n) pre s = (.value vs, t)) :
    arguments ev' es t = arguments (expr p n) es t := by
  induction es generalizing pre vs t with
  | nil => rfl
  | cons e es ih =>
    refine bind_congr (h.eq_of_enters (.operand hops hpre)) fun v u hv => ?_
    -- one operand more has given its value
    have hops' : (p.arena.expr id).kind.operands = (pre ++ [e]) ++ es := by
      rw [hops, List.append_assoc, List.singleton_append]
    exact bind_congr (ih hops' (arguments_append_of_value hpre hv)) fun _ _ _ => rfl

theorem rounds_eq_of_begins {frame : FrameId} {body : ExprId} {fuel done ticks : Nat}
    (h : ∀ t, RoundBegins p (expr p n) body fuel done ticks s t → ev' body t = expr p n body t) :
    rounds p ev' frame body fuel done ticks s =
      rounds p (expr p n) frame body fuel done ticks s := by
  induction fuel generalizing done ticks s with
  | zero => rfl
  | succ fuel ih =>
    by_cases hgo : goesOn p s done ticks
    · have hthis := h s (.this hgo)
      simp only [goesOn] at hgo
      simp only [rounds, if_neg hgo, hthis]
      cases hv : expr p n body s with
      | mk r s' =>
        cases r with
        | value v => exact ih fun t ht => h t (.later hgo hv ht)
        | interrupt i => cases i <;> rfl
        | outOfFuel => rfl
    · rw [goesOn, not_not] at hgo
      simp only [rounds, if_pos hgo]

/-- What an expression does behind its operands agrees. -/
theorem mainStep_eq_of_covers {vs : List Value} {t : Machine}
    (h : Moment.Covers p ev' n ⟨n + 1, .expr id, s⟩)
    (hvs : arguments (expr p n) (p.arena.expr id).kind.operands s = (.value vs, t)) :
    mainStep p ev' n id vs t = mainStep p (expr p n) n id vs t := by
  simp only [mainStep]
  cases hk : (p.arena.expr id).kind with
  | block body =>
    rw [hk] at hvs
    cases hvs
    refine inScope_congr (bind_congr rfl fun _ t hb => ?_)
    exact stmts_eq_of_covers (h.of_enters (.block hk hb))
  | branch subject options =>
    rw [hk] at hvs
    exact arms_eq_of_covers (h.of_enters (.branch hk hvs))
  | loop body =>
    rw [hk] at hvs
    cases hvs
    refine bind_congr rfl fun frame t hframe => ?_
    cases hframe
    have hrounds : rounds p ev' (.ofSerial s.activations) body n 0 s.hostTicks s.inLoop =
        rounds p (expr p n) (.ofSerial s.activations) body n 0 s.hostTicks s.inLoop :=
      rounds_eq_of_begins fun t ht => h.eq_of_enters (.loop hk ht)
    simp only [Machine.inLoop] at hrounds
    simp only [hrounds]
  | cause payload =>
    rw [hk] at hvs
    obtain ⟨v, u, _, hv, hnil, rfl⟩ := arguments_cons_eq_value_iff.1 hvs
    cases hnil
    exact located_congr (cause_eq_of_covers (h.of_enters (.cause hk hv))) _
  | call callee args =>
    rw [hk] at hvs
    obtain ⟨f, _, args, -, -, rfl⟩ := arguments_cons_eq_value_iff.1 hvs
    exact located_congr (callValue_eq_of_covers (h.of_enters (.call hk hvs))) _
  | pipe subject callee args =>
    rw [hk] at hvs
    obtain ⟨v, _, _, -, hws, rfl⟩ := arguments_cons_eq_value_iff.1 hvs
    obtain ⟨f, _, args, -, -, rfl⟩ := arguments_cons_eq_value_iff.1 hws
    exact located_congr (callValue_eq_of_covers (h.of_enters (.pipe hk hvs))) _
  | _ => rfl

/-- The same for the parts of an expression, which have one unit of fuel less than itself. -/
theorem node_eq_of_covers (h : Moment.Covers p ev' n ⟨n + 1, .expr id, s⟩) :
    node p ev' n id s = expr p (n + 1) id s := by
  rw [expr, node_eq, node_eq]
  have hoperands : arguments ev' (p.arena.expr id).kind.operands s =
      arguments (expr p n) (p.arena.expr id).kind.operands s :=
    arguments_eq_of_covers h (List.nil_append _).symm rfl
  exact locatedWhole_congr (bind_congr hoperands fun vs t hvs => mainStep_eq_of_covers h hvs)

end Expressions

end Eval

/-- **Evaluation evaluates no expression but those that are reached.**  Whatever an evaluator does
elsewhere, if it agrees with `Eval.expr` at the moments that are reached, the results are equal. -/
theorem Moment.result_eq_of_covers (h : m.Covers p ev' m.fuel) :
    m.task.eval p ev' m.machine = m.result p := by
  obtain ⟨n, task, s⟩ := m
  cases task with
  | expr id => exact h [] id s .root
  | stmts block last rest => exact Eval.stmts_eq_of_covers h
  | arms branch subject rest => exact Eval.arms_eq_of_covers h
  | lets ds => exact Eval.bind_congr (Eval.bindAllLets_eq_of_covers h) fun _ _ _ => rfl
  | call callee args span => exact Eval.callValue_eq_of_covers h
  | cause signal => exact Eval.cause_eq_of_covers h

/-- The moments reached from a moment are all that its result depends on: an evaluator may do as it
likes elsewhere. -/
structure Moment.Covered (p : Program) (m : Moment) : Prop where
  result : ∀ ev', m.Covers p ev' m.fuel → m.task.eval p ev' m.machine = m.result p
  /-- For an expression, those reached in its parts. -/
  parts : ∀ ev' n id, m.task = .expr id → m.fuel = n + 1 → m.Covers p ev' n →
    Eval.node p ev' n id m.machine = m.result p

theorem Moment.covered (p : Program) (m : Moment) : m.Covered p := by
  obtain ⟨fuel, task, s⟩ := m
  refine ⟨fun ev' h => result_eq_of_covers h, fun ev' n id htask hfuel h => ?_⟩
  obtain rfl : task = .expr id := htask
  obtain rfl : fuel = n + 1 := hfuel
  exact Eval.node_eq_of_covers h

end SignalLang
