import SignalLang.Proofs.Coverage
import SignalLang.Proofs.Defining

/-!
# The parts of an evaluation, in order

`Enters` tells to which moments an evaluation comes, but not when.  This file lists them one after
the other, and shows that a part is always smaller than the whole.

* `Moment.parts p m` : the moments that `m` comes to evaluate itself, in the order in which they
  begin.
* `Moment.mem_parts_iff` : **these are the moments that `m` enters.**
* `Moment.part_induction` : what holds of every moment of which it holds for the parts, holds of all
  moments.
-/

namespace SignalLang

variable {p : Program} {n : Nat}

namespace Eval

/-! ### Behind a step -/

/-- What is listed for the value of a step, if it gives one, and the machine behind it. -/
def behind (x : Eval α) (s : Machine) (f : α → Machine → List β) : List β :=
  match x s with
  | (.value a, t) => f a t
  | _ => []

theorem behind_nil (x : Eval α) (s : Machine) : behind x s (fun _ _ => ([] : List β)) = [] := by
  unfold behind
  split <;> rfl

theorem mem_behind {x : Eval α} {s : Machine} {f : α → Machine → List β} {b : β} :
    b ∈ behind x s f ↔ ∃ a t, x s = (.value a, t) ∧ b ∈ f a t := by
  unfold behind
  cases hr : x s with
  | mk r t => cases r <;> simp

/-! ### Operands and rounds -/

variable (p n)

/-- The moments at which operands begin, each behind the one before it. -/
def operandParts : List ExprId → Machine → List Moment
  | [], _ => []
  | e :: es, s => ⟨n, .expr e, s⟩ :: behind (expr p n e) s fun _ t => operandParts es t

/-- The moments at which the rounds of a loop begin. -/
def roundParts (body : ExprId) : Nat → Nat → Nat → Machine → List Moment
  | 0, _, _, _ => []
  | fuel + 1, done, ticks, s =>
    if goesOn p s done ticks then
      ⟨n, .expr body, s⟩ :: behind (expr p n body) s fun _ t =>
        roundParts body fuel ((if s.hostTicks = ticks then done else 0) + 1) s.hostTicks t
    else []

/-- What an expression comes to evaluate behind its operands. -/
def mainParts (id : ExprId) (vs : List Value) (s : Machine) : List Moment :=
  match (p.arena.expr id).kind, vs with
  | .block body, _ =>
    behind (bindAllHoisted p (declsOf body)) s.inScope fun _ t => [⟨n, .stmts id .action body, t⟩]
  | .branch _ options, _ => [⟨n, .arms id vs.head? options, s⟩]
  | .loop body, _ => roundParts p n body n 0 s.hostTicks s.inLoop
  | .cause _, [v] => [⟨n, .cause v, s⟩]
  | .call _ _, f :: vs => [⟨n, .call f vs (p.arena.expr id).span, s⟩]
  | .pipe _ _ _, v :: f :: vs => [⟨n, .call f (v :: vs) (p.arena.expr id).span, s⟩]
  | _, _ => []

variable {p n}

theorem mem_operandParts {es : List ExprId} {s : Machine} {m : Moment} :
    m ∈ operandParts p n es s ↔ ∃ pre e post vs t, es = pre ++ e :: post ∧
      arguments (expr p n) pre s = (.value vs, t) ∧ m = ⟨n, .expr e, t⟩ := by
  induction es generalizing s with
  | nil => simp [operandParts]
  | cons e es ih =>
    simp only [operandParts, List.mem_cons, mem_behind, ih]
    constructor
    · rintro (rfl | ⟨v, t, hv, pre, e', post, vs, u, rfl, hvs, rfl⟩)
      · exact ⟨[], e, es, [], s, rfl, rfl, rfl⟩
      · exact ⟨e :: pre, e', post, v :: vs, u, rfl,
          arguments_cons_eq_value_iff.2 ⟨v, t, vs, hv, hvs, rfl⟩, rfl⟩
    · rintro ⟨pre, e', post, vs, u, hes, hvs, rfl⟩
      cases pre with
      | nil =>
        cases hes
        cases hvs
        exact .inl rfl
      | cons e'' pre =>
        cases hes
        obtain ⟨v, t, ws, hv, hws, -⟩ := arguments_cons_eq_value_iff.1 hvs
        exact .inr ⟨v, t, hv, pre, e', post, ws, u, rfl, hws, rfl⟩

theorem mem_roundParts {body : ExprId} {fuel done ticks : Nat} {s : Machine} {m : Moment} :
    m ∈ roundParts p n body fuel done ticks s ↔
      ∃ t, RoundBegins p (expr p n) body fuel done ticks s t ∧ m = ⟨n, .expr body, t⟩ := by
  induction fuel generalizing done ticks s with
  | zero =>
    simp only [roundParts, List.not_mem_nil, false_iff]
    rintro ⟨t, ht, -⟩
    cases ht
  | succ fuel ih =>
    simp only [roundParts]
    split
    · rename_i hgo
      simp only [List.mem_cons, mem_behind, ih]
      constructor
      · rintro (rfl | ⟨v, t, hv, u, hu, rfl⟩)
        · exact ⟨s, .this hgo, rfl⟩
        · exact ⟨u, .later hgo hv hu, rfl⟩
      · rintro ⟨u, hu, rfl⟩
        cases hu with
        | this => exact .inl rfl
        | later _ hv hu => exact .inr ⟨_, _, hv, u, hu, rfl⟩
    · rename_i hgo
      simp only [List.not_mem_nil, false_iff]
      rintro ⟨t, ht, -⟩
      cases ht with
      | this h => exact hgo h
      | later h _ _ => exact hgo h

end Eval

/-! ### Parts of all moments -/

namespace Moment

open Eval

/-- The parts of the rest of a block. -/
def stmtsParts (p : Program) (n : Nat) (b : ExprId) (last : Value) (s : Machine) :
    List Code.Stmt → List Moment
  | [] => []
  | st :: rest =>
    match st.kind with
    | .effect pattern body =>
      [⟨n, .stmts b .action rest, s.install (s.handlerFrame pattern body)⟩]
    | _ =>
      ((st.operand? p.arena).toList.map fun e => ⟨n, .expr e, s⟩) ++
        behind (stmts p (expr p n) last [st]) s fun v t => [⟨n, .stmts b v rest, t⟩]

theorem stmtsParts_of_ne {b : ExprId} {last : Value} {s : Machine} {st : Code.Stmt}
    (hst : ∀ pattern body, st.kind ≠ .effect pattern body) (rest : List Code.Stmt) :
    stmtsParts p n b last s (st :: rest) =
      ((st.operand? p.arena).toList.map fun e => ⟨n, .expr e, s⟩) ++
        behind (stmts p (expr p n) last [st]) s fun v t => [⟨n, .stmts b v rest, t⟩] := by
  simp only [stmtsParts]

/-- The parts of the rest of a branch. -/
def armsParts (p : Program) (n : Nat) (b : ExprId) (subject : Option Value) (s : Machine) :
    List Code.Arm → List Moment
  | [] => []
  | a :: rest =>
    match a.kind, subject with
    | .when c body, _ =>
      ⟨n, .expr c, s⟩ :: behind (expr p n c) s fun v t =>
        match v.bool? with
        | some true => [⟨n, .expr body, t⟩]
        | some false => [⟨n, .arms b subject rest, t⟩]
        | none => []
    | .is _ _, none => []
    | .is pattern body, some v =>
      match v.matchPattern? pattern p.types with
      | some bs => behind (defineAll bs) s.inScope fun _ t => [⟨n, .expr body, t⟩]
      | none => [⟨n, .arms b (some v) rest, s⟩]
    | .otherwise body, _ => [⟨n, .expr body, s⟩]

/-- The parts of the rest of the `let`s of a module. -/
def letsParts (p : Program) (n : Nat) (s : Machine) : List DeclId → List Moment
  | [] => []
  | d :: ds =>
    (match (p.arena.decl d).kind with
      | .binding _ _ _ value => [⟨n, .expr value, s⟩]
      | _ => []) ++
      behind (bindLet p (expr p n) d) s fun _ t => [⟨n, .lets ds, t⟩]

/-- The body of a closure, if the call gets so far. -/
def callParts (p : Program) (n : Nat) (callee : Value) (args : List Value) (span : Span)
    (s : Machine) : List Moment :=
  match callee with
  | .closure c =>
    if args.length = c.params.length then
      behind (checkArguments p c.params args) s fun _ _ =>
        match s.calls.push p.limits.callDepth ⟨callName p c, some span⟩ with
        | .ok calls => behind (defineAll ((c.params.map fun q => q.name).zip args))
            (s.inCall c calls) fun _ t => [⟨n, .expr c.body, t⟩]
        | .error _ => []
    else []
  | _ => []

/-- The body of the handler that a signal finds. -/
def causeParts (p : Program) (n : Nat) (signal : Value) (s : Machine) : List Moment :=
  match signal with
  | .signal _ _ _ =>
    match s.handlers.findMatch? p.types signal with
    | some (outer, f, bs) => behind (defineAll bs) (s.inHandler f outer) fun _ t =>
        [⟨n, .expr f.body, t⟩]
    | none => []
  | _ => []

/-- The operands of an expression, and what comes behind them. -/
def exprParts (p : Program) (id : ExprId) (s : Machine) : Nat → List Moment
  | 0 => []
  | n + 1 =>
    operandParts p n (p.arena.expr id).kind.operands s ++
      behind (arguments (expr p n) (p.arena.expr id).kind.operands) s (mainParts p n id)

/-- The moments that a moment comes to evaluate itself, in the order in which they begin. -/
def parts (p : Program) (m : Moment) : List Moment :=
  match m.task with
  | .expr id => exprParts p id m.machine m.fuel
  | .stmts b last rest => stmtsParts p m.fuel b last m.machine rest
  | .arms b subject rest => armsParts p m.fuel b subject m.machine rest
  | .lets ds => letsParts p m.fuel m.machine ds
  | .call callee args span => callParts p m.fuel callee args span m.machine
  | .cause signal => causeParts p m.fuel signal m.machine

/-! ### They are the moments that are entered -/

/-- One part of an expression: an operand, or what comes behind the operands. -/
theorem exists_enters_of_mem_mainParts {id : ExprId} {vs : List Value} {s t : Machine}
    {m : Moment} (hv : arguments (expr p n) (p.arena.expr id).kind.operands s = (.value vs, t))
    (h : m ∈ mainParts p n id vs t) : ∃ k, Enters p ⟨n + 1, .expr id, s⟩ k m := by
  unfold mainParts at h
  split at h
  · rename_i body hk
    rw [hk] at hv
    cases hv
    obtain ⟨_, u, hb, h⟩ := mem_behind.1 h
    cases List.mem_singleton.1 h
    exact ⟨_, .block hk hb⟩
  · rename_i subject options hk
    rw [hk] at hv
    cases List.mem_singleton.1 h
    exact ⟨_, .branch hk hv⟩
  · rename_i body hk
    rw [hk] at hv
    cases hv
    obtain ⟨u, hr, rfl⟩ := mem_roundParts.1 h
    exact ⟨_, .loop hk hr⟩
  · rename_i payload v hk
    rw [hk] at hv
    obtain ⟨v', u, ws, hv, hws, heq⟩ := arguments_cons_eq_value_iff.1 hv
    cases hws
    cases heq
    cases List.mem_singleton.1 h
    exact ⟨_, .cause hk hv⟩
  · rename_i callee args f vs hk
    rw [hk] at hv
    cases List.mem_singleton.1 h
    exact ⟨_, .call hk hv⟩
  · rename_i subject callee args v f vs hk
    rw [hk] at hv
    cases List.mem_singleton.1 h
    exact ⟨_, .pipe hk hv⟩
  · cases h

theorem exists_enters_of_mem_stmtsParts {b : ExprId} {last : Value} {rest : List Code.Stmt}
    {s : Machine} {m : Moment} (h : m ∈ stmtsParts p n b last s rest) :
    ∃ k, Enters p ⟨n, .stmts b last rest, s⟩ k m := by
  cases rest with
  | nil => cases h
  | cons st rest =>
    simp only [stmtsParts] at h
    split at h
    · rename_i pattern body hst
      cases List.mem_singleton.1 h
      exact ⟨_, .install hst⟩
    · rename_i hst
      rcases List.mem_append.1 h with h | h
      · obtain ⟨e, he, rfl⟩ := List.mem_map.1 h
        exact ⟨_, .stmt (Option.mem_toList.1 he)⟩
      · obtain ⟨v, t, hv, h⟩ := mem_behind.1 h
        cases List.mem_singleton.1 h
        exact ⟨_, .nextStmt hst hv⟩

theorem exists_enters_of_mem_armsParts {b : ExprId} {subject : Option Value} {rest : List Code.Arm}
    {s : Machine} {m : Moment} (h : m ∈ armsParts p n b subject s rest) :
    ∃ k, Enters p ⟨n, .arms b subject rest, s⟩ k m := by
  cases rest with
  | nil => cases h
  | cons a rest =>
    simp only [armsParts] at h
    split at h
    · rename_i c body ha
      rcases List.mem_cons.1 h with rfl | h
      · exact ⟨_, .condition ha⟩
      · obtain ⟨v, t, hv, h⟩ := mem_behind.1 h
        split at h
        · rename_i hb
          cases List.mem_singleton.1 h
          exact ⟨_, .whenTrue ha hv hb⟩
        · rename_i hb
          cases List.mem_singleton.1 h
          exact ⟨_, .whenFalse ha hv hb⟩
        · cases h
    · cases h
    · rename_i pattern body v ha
      split at h
      · rename_i bs hm
        obtain ⟨_, t, hd, h⟩ := mem_behind.1 h
        cases List.mem_singleton.1 h
        exact ⟨_, .isMatch ha hm hd⟩
      · rename_i hm
        cases List.mem_singleton.1 h
        exact ⟨_, .isMiss ha hm⟩
    · rename_i body ha
      cases List.mem_singleton.1 h
      exact ⟨_, .otherwise ha⟩

theorem exists_enters_of_mem_letsParts {ds : List DeclId} {s : Machine} {m : Moment}
    (h : m ∈ letsParts p n s ds) : ∃ k, Enters p ⟨n, .lets ds, s⟩ k m := by
  cases ds with
  | nil => cases h
  | cons d ds =>
    rcases List.mem_append.1 h with h | h
    · split at h
      · rename_i hd
        cases List.mem_singleton.1 h
        exact ⟨_, .letValue hd⟩
      · cases h
    · obtain ⟨_, t, hd, h⟩ := mem_behind.1 h
      cases List.mem_singleton.1 h
      exact ⟨_, .nextLet hd⟩

theorem exists_enters_of_mem_callParts {callee : Value} {args : List Value} {span : Span}
    {s : Machine} {m : Moment} (h : m ∈ callParts p n callee args span s) :
    ∃ k, Enters p ⟨n, .call callee args span, s⟩ k m := by
  unfold callParts at h
  split at h
  · rename_i c
    split at h
    · rename_i hlen
      obtain ⟨_, t, hargs, h⟩ := mem_behind.1 h
      obtain rfl : t = s := by rw [← checkArguments_snd (p := p) c.params args s, hargs]
      split at h
      · rename_i calls hcalls
        obtain ⟨_, u, hd, h⟩ := mem_behind.1 h
        cases List.mem_singleton.1 h
        exact ⟨_, .body hlen hargs hcalls hd⟩
      · cases h
    · cases h
  · cases h

theorem exists_enters_of_mem_causeParts {signal : Value} {s : Machine} {m : Moment}
    (h : m ∈ causeParts p n signal s) : ∃ k, Enters p ⟨n, .cause signal, s⟩ k m := by
  unfold causeParts at h
  split at h
  · split at h
    · rename_i outer f bs hm
      obtain ⟨_, t, hd, h⟩ := mem_behind.1 h
      cases List.mem_singleton.1 h
      exact ⟨_, .handler hm hd⟩
    · cases h
  · cases h

/-- Every part of a moment is one that it enters. -/
theorem exists_enters_of_mem_parts {m m' : Moment} (h : m' ∈ m.parts p) :
    ∃ k, Enters p m k m' := by
  obtain ⟨n, task, s⟩ := m
  cases task with
  | expr id =>
    cases n with
    | zero => cases h
    | succ n =>
      rcases List.mem_append.1 h with h | h
      · obtain ⟨pre, e, post, vs, t, hops, hpre, rfl⟩ := mem_operandParts.1 h
        exact ⟨_, .operand hops hpre⟩
      · obtain ⟨vs, t, hv, h⟩ := mem_behind.1 h
        exact exists_enters_of_mem_mainParts hv h
  | stmts b last rest => exact exists_enters_of_mem_stmtsParts h
  | arms b subject rest => exact exists_enters_of_mem_armsParts h
  | lets ds => exact exists_enters_of_mem_letsParts h
  | call callee args span => exact exists_enters_of_mem_callParts h
  | cause signal => exact exists_enters_of_mem_causeParts h

/-- What comes behind the operands of an expression is among its parts. -/
theorem mem_parts_of_mem_mainParts {id : ExprId} {s t : Machine} {vs : List Value} {m : Moment}
    (hv : arguments (expr p n) (p.arena.expr id).kind.operands s = (.value vs, t))
    (h : m ∈ mainParts p n id vs t) : m ∈ Moment.parts p ⟨n + 1, .expr id, s⟩ :=
  List.mem_append.2 (.inr (mem_behind.2 ⟨vs, t, hv, h⟩))

/-- Every moment that is entered is a part. -/
theorem mem_parts_of_enters {k : Option ActivityKind} {m m' : Moment} (h : Enters p m k m') :
    m' ∈ m.parts p := by
  cases h with
  | operand hops hpre =>
    exact List.mem_append.2 (.inl (mem_operandParts.2 ⟨_, _, _, _, _, hops, hpre, rfl⟩))
  | block hk hb =>
    refine mem_parts_of_mem_mainParts (by rw [hk]; rfl) ?_
    simp only [mainParts, hk]
    exact mem_behind.2 ⟨_, _, hb, List.mem_singleton_self _⟩
  | branch hk hv =>
    refine mem_parts_of_mem_mainParts (by rw [hk]; exact hv) ?_
    simp only [mainParts, hk, List.mem_singleton]
  | loop hk hr =>
    refine mem_parts_of_mem_mainParts (by rw [hk]; rfl) ?_
    simp only [mainParts, hk]
    exact mem_roundParts.2 ⟨_, hr, rfl⟩
  | cause hk hv =>
    refine mem_parts_of_mem_mainParts (by rw [hk]; exact arguments_singleton_of_value hv) ?_
    simp only [mainParts, hk, List.mem_singleton]
  | call hk hv =>
    refine mem_parts_of_mem_mainParts (by rw [hk]; exact hv) ?_
    simp only [mainParts, hk, List.mem_singleton]
  | pipe hk hv =>
    refine mem_parts_of_mem_mainParts (by rw [hk]; exact hv) ?_
    simp only [mainParts, hk, List.mem_singleton]
  | @stmt n b last st rest s e he =>
    have hst : ∀ pattern body, st.kind ≠ .effect pattern body := by
      intro pattern body hk
      simp [Code.Stmt.operand?, hk] at he
    simp only [parts, stmtsParts_of_ne hst]
    exact List.mem_append.2 (.inl (List.mem_map.2 ⟨e, Option.mem_toList.2 he, rfl⟩))
  | nextStmt hst hv =>
    simp only [parts, stmtsParts_of_ne hst]
    exact List.mem_append.2 (.inr (mem_behind.2 ⟨_, _, hv, List.mem_singleton_self _⟩))
  | install hst => simp only [parts, stmtsParts, hst, List.mem_singleton]
  | condition ha =>
    simp only [parts, armsParts, ha]
    exact List.mem_cons_self
  | whenTrue ha hv hb =>
    simp only [parts, armsParts, ha]
    exact List.mem_cons_of_mem _ (mem_behind.2 ⟨_, _, hv, by simp [hb]⟩)
  | whenFalse ha hv hb =>
    simp only [parts, armsParts, ha]
    exact List.mem_cons_of_mem _ (mem_behind.2 ⟨_, _, hv, by simp [hb]⟩)
  | isMatch ha hm hd =>
    simp only [parts, armsParts, ha, hm]
    exact mem_behind.2 ⟨_, _, hd, List.mem_singleton_self _⟩
  | isMiss ha hm => simp only [parts, armsParts, ha, hm, List.mem_singleton]
  | otherwise ha => simp only [parts, armsParts, ha, List.mem_singleton]
  | letValue hd =>
    simp only [parts, letsParts, hd]
    exact List.mem_append.2 (.inl (List.mem_singleton_self _))
  | nextLet hd =>
    exact List.mem_append.2 (.inr (mem_behind.2 ⟨_, _, hd, List.mem_singleton_self _⟩))
  | body hlen hargs hcalls hd =>
    simp only [parts, callParts, hlen, if_true, hcalls]
    exact mem_behind.2 ⟨_, _, hargs, mem_behind.2 ⟨_, _, hd, List.mem_singleton_self _⟩⟩
  | handler hm hd =>
    simp only [parts, causeParts, hm]
    exact mem_behind.2 ⟨_, _, hd, List.mem_singleton_self _⟩

/-- **The parts of a moment are the moments that it enters.** -/
theorem mem_parts_iff {m m' : Moment} : m' ∈ m.parts p ↔ ∃ k, Enters p m k m' :=
  ⟨exists_enters_of_mem_parts, fun ⟨_, h⟩ => mem_parts_of_enters h⟩

/-! ### Parts are smaller -/

/-- How much of a task is left, among those with the same amount of fuel. -/
def rank : Task → Nat
  | .expr _ => 0
  | .stmts _ _ rest => rest.length + 1
  | .arms _ _ rest => rest.length + 1
  | .lets ds => ds.length + 1
  | .call _ _ _ => 1
  | .cause _ => 1

theorem smaller_of_enters {m m' : Moment} {k : Option ActivityKind}
    (h : Enters p m k m') : m'.fuel < m.fuel ∨ m'.fuel = m.fuel ∧ rank m'.task < rank m.task := by
  cases h <;> simp [rank]

/-- **What holds of a moment if it holds of its parts, holds of every moment.** -/
theorem part_induction {motive : Moment → Prop}
    (h : ∀ m, (∀ k m', Enters p m k m' → motive m') → motive m) (m : Moment) : motive m := by
  generalize hn : m.fuel = n
  induction n using Nat.strongRecOn generalizing m with
  | ind n ihn =>
    generalize hr : rank m.task = r
    induction r using Nat.strongRecOn generalizing m with
    | ind r ihr =>
      refine h m fun k m' hs => ?_
      rcases smaller_of_enters hs with hlt | ⟨heq, hlt⟩
      · exact ihn _ (hn ▸ hlt) m' rfl
      · exact ihr _ (hr ▸ hlt) m' (heq.trans hn) rfl

end Moment

end SignalLang
