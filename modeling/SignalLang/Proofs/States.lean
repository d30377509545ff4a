import SignalLang.Proofs.Order

/-!
# The states of a run

A run passes through many machines.  What a `let` binds divides them into those before and those
behind it.

* `Interpreter.Passes i m fuel calls s` : the run in which the module `m` is loaded and some calls
  are made passes through the machine `s`.
* `Moment.Binds p z d t v` : the `let` at the head of what is left to run at the moment `z` comes to
  bind its name to `v` at the machine `t`.
* `Moment.Binds.divides` : **a run passes through a state before a `let` binds its name, or behind
  it.**
-/

namespace SignalLang

variable {p : Program} {w : Writes}

namespace Interpreter

variable {i : Interpreter} {m : Module} {fuel : Nat} {calls : List Call} {s : Machine} {r : Moment}

/-- The states of the run in which a module is loaded and some calls are made: the one in which it
starts, those in which its moments begin and end, and those between the calls. -/
inductive Passes (i : Interpreter) (m : Module) (fuel : Nat) (calls : List Call) : Machine → Prop
  | start : Passes i m fuel calls i.machine
  | begins {x} (hx : i.Visits m fuel calls x) : Passes i m fuel calls x.machine
  | ends {x} (hx : i.Visits m fuel calls x) : Passes i m fuel calls (x.result i.program).2
  | between {pre post} (hcalls : calls = pre ++ post) :
      Passes i m fuel calls ((i.load m fuel).2.after pre).machine

/-- What is written before a state. -/
theorem Passes.written_to (h : i.Passes m fuel calls s) :
    i.machine.store.Written (i.writes m fuel calls) s.store := by
  cases h with
  | start => exact .refl
  | begins hx => exact hx.written_to
  | ends hx => exact hx.written_to.trans hx.listed.written
  | @between pre post hcalls =>
    exact written_load.trans (written_after [] pre post hcalls)

/-- Between the calls, loading the module is over and each call is over or still to come. -/
theorem Root.divides (h : i.Root m fuel calls r) {pre post : List Call}
    (hcalls : calls = pre ++ post) :
    (r.result i.program).2.store.Written (i.writes m fuel calls)
        ((i.load m fuel).2.after pre).machine.store ∨
      ((i.load m fuel).2.after pre).machine.store.Written (i.writes m fuel calls)
        r.machine.store := by
  cases h with
  | load hs =>
    rw [machine_load hs]
    exact .inl (written_after [] pre post hcalls)
  | @call pre' c post' callee hcalls' hc =>
    rcases List.prefix_or_prefix_of_prefix ⟨post, hcalls.symm⟩ ⟨c :: post', hcalls'.symm⟩ with
      ⟨mid, rfl⟩ | ⟨mid, rfl⟩
    · exact .inr (written_after pre mid (c :: post') hcalls')
    · rw [hcalls', List.append_assoc, List.append_cancel_left_eq] at hcalls
      cases mid with
      | nil =>
        rw [List.append_nil]
        exact .inr .refl
      | cons c' mid =>
        cases hcalls
        exact .inl (written_call post hc (by simp [hcalls']))

end Interpreter

/-! ### What a `let` binds -/

/-- The `let` at the head of what is left to run at a moment comes to bind its name to a value in
the current scope of a machine. -/
inductive Moment.Binds (p : Program) : Moment → DeclId → Machine → Value → Prop
  | stmt {fuel b last st rest s d n isVariable type e t v} (hst : st.kind = .decl d)
      (hd : (p.arena.decl d).kind = .binding n isVariable type e)
      (hv : Eval.expr p fuel e s = (.value v, t))
      (hc : Eval.checkDeclared p type v (p.arena.decl d).span t = (.value (), t)) :
      Binds p ⟨fuel, .stmts b last (st :: rest), s⟩ d t v
  | module {fuel d ds s n isVariable type e t v}
      (hd : (p.arena.decl d).kind = .binding n isVariable type e)
      (hv : Eval.expr p fuel e s = (.value v, t))
      (hc : Eval.checkDeclared p type v (p.arena.decl d).span t = (.value (), t)) :
      Binds p ⟨fuel, .lets (d :: ds), s⟩ d t v

namespace Moment.Binds

variable {z a : Moment} {d : DeclId} {t : Machine} {v : Value} {n : Name} {isVariable : Bool}
  {type : Option TypeRefId} {e : ExprId}

theorem defines (h : z.Binds p d t v) (hd : (p.arena.decl d).kind = .binding n isVariable type e) :
    z.Defines p t n ⟨v, isVariable⟩ := by
  cases h with
  | stmt hst hd' hv hc =>
    cases hd.symm.trans hd'
    exact .value hst hd hv hc
  | module hd' hv hc =>
    cases hd.symm.trans hd'
    exact .moduleValue hd hv hc

/-- The value is of the declared type. -/
theorem hasType (h : z.Binds p d t v) (hd : (p.arena.decl d).kind = .binding n isVariable type e)
    {ty : Ty} (hty : type.bind p.types.resolved? = some ty) : v.hasType p.types ty := by
  have of_check : Eval.checkDeclared p type v (p.arena.decl d).span t = (.value (), t) →
      v.hasType p.types ty := by
    intro hc
    simp only [Eval.checkDeclared, hty] at hc
    split at hc
    · assumption
    · cases hc
  cases h with
  | stmt _ hd' _ hc | module hd' _ hc =>
    cases hd.symm.trans hd'
    exact of_check hc

/-- The moments that a `let` comes to are that of its value, which ends before the name is bound,
and those behind it. -/
theorem of_enters (h : z.Binds p d t v) (hd : (p.arena.decl d).kind = .binding n isVariable type e)
    {k : Option ActivityKind} (hs : Enters p z k a) : (a.result p).2.store = t.store ∨
      a.machine.store = t.store.define t.env.current n v isVariable := by
  cases h with
  | stmt hst hd' hv hc =>
    cases hd.symm.trans hd'
    cases hs with
    | stmt he =>
      simp only [Code.Stmt.operand?, hst, hd, Option.some.injEq] at he
      subst he
      exact .inl (congrArg (fun r => r.2.store) hv)
    | nextStmt _ hnext =>
      simp only [Eval.stmts, hst, Eval.bind_of_value (Eval.bindLet_of_value hd hv hc)] at hnext
      cases hnext
      exact .inr rfl
    | install hst' => simp [hst] at hst'
  | module hd' hv hc =>
    cases hd.symm.trans hd'
    cases hs with
    | letValue he =>
      cases hd.symm.trans he
      exact .inl (congrArg (fun r => r.2.store) hv)
    | nextLet hnext =>
      rw [Eval.bindLet_of_value hd hv hc] at hnext
      cases hnext
      exact .inr rfl

/-- The value comes first. -/
theorem exists_value (h : z.Binds p d t v) : ∃ k a, Enters p z k a ∧ a.machine = z.machine ∧
    (a.result p).2 = t := by
  cases h with
  | stmt hst hd' hv hc =>
    exact ⟨_, _, .stmt (by simp only [Code.Stmt.operand?, hst, hd']), rfl, congrArg Prod.snd hv⟩
  | module hd' hv hc => exact ⟨_, _, .letValue hd', rfl, congrArg Prod.snd hv⟩

/-- The rest comes behind the `let`. -/
theorem exists_rest (h : z.Binds p d t v)
    (hd : (p.arena.decl d).kind = .binding n isVariable type e) : ∃ k a, Enters p z k a ∧
      a.machine.store = t.store.define t.env.current n v isVariable := by
  cases h with
  | @stmt fuel b last st rest s _ _ _ _ _ _ _ hst hd' hv hc =>
    cases hd.symm.trans hd'
    have hstmt : Eval.stmts p (Eval.expr p fuel) last [st] s =
        (.value .action, { t with store := t.store.define t.env.current n v isVariable }) := by
      simp only [Eval.stmts, hst, Eval.bind_of_value (Eval.bindLet_of_value hd hv hc)]
      rfl
    exact ⟨_, _, .nextStmt (by simp [hst]) hstmt, rfl⟩
  | module hd' hv hc =>
    cases hd.symm.trans hd'
    exact ⟨_, _, .nextLet (Eval.bindLet_of_value hd hv hc), rfl⟩

section

variable (h : z.Binds p d t v) (hl : z.Listed p w)

include h hl

theorem written_to : z.machine.store.Written w t.store := by
  obtain ⟨k, a, hs, hbegin, hend⟩ := h.exists_value
  have hvalue := (hl.of_enters hs).written
  rwa [hbegin, hend] at hvalue

variable (hd : (p.arena.decl d).kind = .binding n isVariable type e)

include hd

theorem written_from :
    (t.store.define t.env.current n v isVariable).Written w (z.result p).2.store := by
  obtain ⟨k, a, hs, hbegin⟩ := h.exists_rest hd
  rw [← hbegin]
  exact (hl.of_enters hs).written.trans (hl.written_behind hs)

/-- A moment ends before a `let` binds its name, begins behind that, or is around it. -/
theorem divides_of_ordered {x : Moment} (hx : x.Listed p w) (hzx : z.Ordered p w x) :
    (x.result p).2.store.Written w t.store ∨
      (t.store.define t.env.current n v isVariable).Written w x.machine.store ∨
      x.machine.store.Written w t.store ∧
        (t.store.define t.env.current n v isVariable).Written w (x.result p).2.store := by
  cases hzx with
  | inside hr =>
    obtain rfl | ⟨k, a, ρ, hs, hr⟩ := hr.eq_or_enters
    · exact .inr (.inr ⟨h.written_to hl, h.written_from hl hd⟩)
    have hla := hl.of_enters hs
    -- in the value, or in the rest
    obtain heq | heq := h.of_enters hd hs
    · exact .inl (heq ▸ hla.written_from hr)
    · exact .inr (.inl (heq ▸ hla.written_to hr))
  | around hr =>
    exact .inr (.inr ⟨(hx.written_to hr).trans (h.written_to hl),
      (h.written_from hl hd).trans (hx.written_from hr)⟩)
  | before hw => exact .inr (.inl ((h.written_from hl hd).trans hw))
  | behind hw => exact .inl (hw.trans (h.written_to hl))

end

/-- **A run passes through a state before a `let` binds its name, or behind it.** -/
theorem divides {i : Interpreter} {m : Module} {fuel : Nat} {calls : List Call} {s : Machine}
    (h : z.Binds i.program d t v) (hz : i.Visits m fuel calls z)
    (hd : (i.program.arena.decl d).kind = .binding n isVariable type e)
    (hs : i.Passes m fuel calls s) :
    s.store.Written (i.writes m fuel calls) t.store ∨
      (t.store.define t.env.current n v isVariable).Written (i.writes m fuel calls) s.store := by
  have hto := h.written_to hz.listed
  have hfrom := h.written_from hz.listed hd
  cases hs with
  | start => exact .inl (hz.written_to.trans hto)
  | begins hx =>
    rcases h.divides_of_ordered hz.listed hd hx.listed (hz.ordered hx) with hw | hw | ⟨hw, -⟩
    · exact .inl (hx.listed.written.trans hw)
    · exact .inr hw
    · exact .inl hw
  | ends hx =>
    rcases h.divides_of_ordered hz.listed hd hx.listed (hz.ordered hx) with hw | hw | ⟨-, hw⟩
    · exact .inl hw
    · exact .inr (hw.trans hx.listed.written)
    · exact .inr hw
  | between hcalls =>
    obtain ⟨r, π, hr, hx⟩ := Interpreter.visits_iff.1 hz
    rcases hr.divides hcalls with hw | hw
    · exact .inr ((hfrom.trans (hr.listed.written_from hx)).trans hw)
    · exact .inl ((hw.trans (hr.listed.written_to hx)).trans hto)

end Moment.Binds

end SignalLang
