import SignalLang.Proofs.Acceptance
import SignalLang.Proofs.CutShort
import SignalLang.Run

/-!
# Limits

The limits of a run decide where it is cut off, and nothing else: if a run does not reach one of its
limits, larger ones make no difference to anything that it does.

* `Limits.AtMost l l'` : the limits `l` are at most the limits `l'`.
* `Interpreter.run_eq_of_atMost` : **a run that ends below its limits is the same under larger
  ones**: it has the same outcome, and leaves the same machine with the same log of the host.
* `Tree.File.run_eq_below_limits` : the same of running a file.
-/

namespace SignalLang

/-- Whether a problem says that a limit is reached. -/
def EvalProblem.isLimit : EvalProblem → Bool
  | .runawayLoop _ => true
  | .recursionLimit _ => true
  | .inWords problem _ _ => problem.isLimit
  | _ => false

theorem EvalProblem.isLimit_iff (problem : EvalProblem) :
    problem.isLimit ↔ problem.code = .runawayLoop ∨ problem.code = .recursionLimit := by
  induction problem with
  | inWords problem message signal ih => exact ih
  | _ => simp [isLimit, code]

/-- An outcome that is neither for want of fuel nor at a limit is no cut-off. -/
theorem Outcome.not_cutOff {r : Outcome α} (hends : r ≠ .outOfFuel)
    (hbelow : ∀ e, r = .interrupt e → e.toError.problem.isLimit = false) :
    ¬ r.CutOff (fun problem => problem.isLimit) := by
  cases r with
  | value a => exact id
  | outOfFuel => exact absurd rfl hends
  | interrupt i =>
    cases i with
    | fault e => exact Bool.eq_false_iff.1 (hbelow _ rfl)
    | breakTo _ _ => exact id
    | returnTo _ _ => exact id

/-! ### Comparing limits -/

namespace Limits

/-- The limits `l` are at most the limits `l'`: whatever `l'` limits, `l` limits at least as
much. -/
structure AtMost (l l' : Limits) : Prop where
  loopRounds : ∀ b ∈ l'.loopRounds, ∃ a ∈ l.loopRounds, a ≤ b
  callDepth : ∀ b ∈ l'.callDepth, ∃ a ∈ l.callDepth, a ≤ b

/-- The limits of a test are at most those of an ordinary run. -/
theorem atMost_testRun_interpret : EvalMode.testRun.limits.AtMost EvalMode.interpret.limits :=
  ⟨fun b hb => ⟨b, hb, Nat.le_refl b⟩, nofun⟩

/-- No limits are above all others. -/
theorem atMost_unbounded (l : Limits) : l.AtMost EvalMode.unbounded.limits := ⟨nofun, nofun⟩

/-- Where the larger one of two bounds is reached, so is the smaller one. -/
theorem any_le_of_any_le {a b : Option Nat} (h : ∀ n ∈ b, ∃ m ∈ a, m ≤ n) {done : Nat}
    (hb : b.any (· ≤ done)) : a.any (· ≤ done) := by
  obtain ⟨n, hn, hle⟩ := (Option.any_eq_true _ _).1 hb
  obtain ⟨m, hm, hmn⟩ := h n hn
  exact (Option.any_eq_true _ _).2 ⟨m, hm, decide_eq_true (hmn.trans (of_decide_eq_true hle))⟩

/-- A call is entered unless its limit is reached. -/
theorem push_eq (calls : CallStack) (limit : Option Nat) (f : CallFrame) :
    calls.push limit f = if limit.any (· ≤ calls.depth)
      then .error (.recursionLimit (limit.getD 0)) else .ok ⟨f :: calls.frames⟩ := by
  cases limit <;> simp [CallStack.push]

/-- Lower limits cut a run short. -/
theorem AtMost.cutShort {l l' : Limits} (h : l.AtMost l') :
    l.CutShort (fun problem => problem.isLimit) l' where
  loopRounds done := by
    by_cases hstop : l.loopRounds.any (· ≤ done)
    · exact .inl ⟨rfl, hstop⟩
    · have hstop' := mt (any_le_of_any_le h.loopRounds) hstop
      rw [Bool.not_eq_true] at hstop hstop'
      exact .inr (hstop.trans hstop'.symm)
  callDepth calls f := by
    rw [push_eq, push_eq]
    by_cases hstop : l.callDepth.any (· ≤ calls.depth)
    · exact .inl ⟨_, rfl, if_pos hstop⟩
    · rw [if_neg hstop, if_neg (mt (any_le_of_any_le h.callDepth) hstop)]
      exact .inr rfl

end Limits

/-! ### Runs -/

namespace Interpreter

/-- Loads a module and calls one of its functions. -/
def loadAndApply (i : Interpreter) (m : Module) (entry : String) (args : List Value) (fuel : Nat) :
    Outcome Value × Interpreter :=
  match i.load m fuel with
  | (.value _, i) => i.call entry args fuel
  | (.interrupt e, i) => (.interrupt e, i)
  | (.outOfFuel, i) => (.outOfFuel, i)

theorem loadAndApply_nil (i : Interpreter) (m : Module) (entry : String) (fuel : Nat) :
    i.loadAndApply m entry [] fuel = i.loadAndCall m entry fuel := rfl

variable {cut : EvalProblem → Prop} {i : Interpreter} {l : Limits}

theorem loadAndApply_cutShort (hl : i.program.limits.CutShort cut l) (m : Module) (entry : String)
    (args : List Value) {fuel fuel' : Nat} (hle : fuel ≤ fuel') :
    (i.loadAndApply m entry args fuel).1.CutOff cut ∨
      (i.withLimits l).loadAndApply m entry args fuel' =
        ((i.loadAndApply m entry args fuel).1,
          (i.loadAndApply m entry args fuel).2.withLimits l) := by
  unfold loadAndApply
  rcases load_cutShort hl m hle with hcut | heq
  · left
    split <;> rename_i hload <;> rw [hload] at hcut
    · exact hcut.elim
    · cases ‹Interrupt› <;> exact hcut
    · trivial
  · rw [heq]
    have hprogram := program_load i m fuel
    split <;> rename_i hload
    · rw [hload] at hprogram ⊢
      exact call_cutShort (hprogram ▸ hl) entry args hle
    · rw [hload]
      exact .inr rfl
    · rw [hload]
      exact .inr rfl

/-- **A run that ends below its limits is the same under larger ones.**  Whatever the module, the
function and its arguments, the host and the state that the run starts in: where the run neither
runs out of fuel nor ends at a limit, it has the same outcome under larger limits, be it a value or
an error with its place and its record of calls.  It also leaves the same machine, in whose log are
the lines that the host keeps and the questions that it was asked. -/
theorem run_eq_of_atMost (hl : i.program.limits.AtMost l) (m : Module) (entry : String)
    (args : List Value) {fuel fuel' : Nat} (hle : fuel ≤ fuel')
    (hends : (i.loadAndApply m entry args fuel).1 ≠ .outOfFuel)
    (hbelow : ∀ e, (i.loadAndApply m entry args fuel).1 = .interrupt e →
      e.toError.problem.isLimit = false) :
    ((i.withLimits l).loadAndApply m entry args fuel').1 = (i.loadAndApply m entry args fuel).1 ∧
      ((i.withLimits l).loadAndApply m entry args fuel').2.machine =
        (i.loadAndApply m entry args fuel).2.machine := by
  rcases loadAndApply_cutShort hl.cutShort m entry args hle with hcut | heq
  · exact absurd hcut (Outcome.not_cutOff hends hbelow)
  · rw [heq]
    exact ⟨rfl, rfl⟩

/-- An interpreter that is made with other settings for the same host has other limits. -/
theorem new_eq_withLimits (arena : Arena) (interner : Interner) (types : TypeTable)
    {s s' : Settings} (hhost : s'.host = s.host) (store : Store) (functions : HostFunctions) :
    new arena interner types s' store functions =
      (new arena interner types s store functions).withLimits s'.limits := by
  simp only [new, withLimits, Program.withLimits, hhost]

/-- `function main(x) loop break x` -/
def breaking : Tree.File :=
  ⟨"", [.function "main" [⟨"x", .dummy, none⟩] none (.node (.loop (.node (.brk (some
    (.node (.ident "x") [] .dummy))) [] .dummy)) [] .dummy) .dummy]⟩

/-- A test that breaks out of a loop does the same without limits. -/
theorem breaking_eq_unlimited : ∃ m interner types interner',
    (Module.ofTree breaking .new = (.ok m, interner) ∧
      m.resolve .core interner = (types, [], interner')) ∧
    let i := new m.arena interner' types ⟨.testRun, none, none⟩ .empty
    (∃ v, (i.loadAndApply m "main" [.string "a"] 9).1 = .value v) ∧
    ∀ fuel ≥ 9, let j := i.withLimits EvalMode.unbounded.limits
      (j.loadAndApply m "main" [.string "a"] fuel).1 =
          (i.loadAndApply m "main" [.string "a"] 9).1 ∧
        (j.loadAndApply m "main" [.string "a"] fuel).2.machine =
          (i.loadAndApply m "main" [.string "a"] 9).2.machine := by
  have hok : (breaking.resolved? .core).any fun (m, types, interner') =>
      ((new m.arena interner' types ⟨.testRun, none, none⟩ .empty).loadAndApply m "main"
        [.string "a"] 9).1.value?.isSome := by decide +kernel
  obtain ⟨⟨m, types, interner'⟩, hok, hvalue⟩ := (Option.any_eq_true _ _).1 hok
  obtain ⟨interner, hm, hres⟩ := Tree.File.of_resolved? hok
  refine ⟨m, interner, types, interner', ⟨hm, hres⟩, ?_⟩
  obtain ⟨v, hv⟩ := Option.isSome_iff_exists.1 hvalue
  have hv := Outcome.eq_value_of_value? hv
  refine ⟨⟨v, hv⟩, fun fuel hfuel => ?_⟩
  exact run_eq_of_atMost (Limits.atMost_unbounded _) m "main" [.string "a"] hfuel
    (by rw [hv]; exact nofun) (by rw [hv]; exact nofun)

end Interpreter

/-! ### Files -/

/-- Below its limits, the run of a module comes to the same under larger ones. -/
theorem Module.run_eq_below_limits {m : Module} {interner : Interner} {types : TypeTable}
    {c c' : RunConfig} (hentry : c'.entry = c.entry) (hhost : c'.host = c.host)
    (hl : c.settings.limits.AtMost c'.settings.limits) {store : Store} {functions : HostFunctions}
    {fuel fuel' : Nat} (hle : fuel ≤ fuel')
    (hends : (m.run interner types c store functions fuel).result ≠ .error .internal)
    (hbelow : ∀ d ∈ (m.run interner types c store functions fuel).diagnostics,
      d.code ≠ .runawayLoop ∧ d.code ≠ .recursionLimit) :
    m.run interner types c' store functions fuel' =
      m.run interner types c store functions fuel := by
  have hsettings : c'.settings.host = c.settings.host := by simp only [RunConfig.settings, hhost]
  have hnew := Interpreter.new_eq_withLimits m.arena interner types hsettings store functions
  have hcut := Interpreter.loadAndApply_cutShort
    (i := .new m.arena interner types c.settings store functions) hl.cutShort m c.entry [] hle
  rw [Interpreter.loadAndApply_nil, Interpreter.loadAndApply_nil] at hcut
  unfold Module.run at hends hbelow ⊢
  rw [hnew, hentry]
  cases hr : (Interpreter.new m.arena interner types c.settings store functions).loadAndCall m
    c.entry fuel with
  | mk r i =>
    rw [hr] at hends hbelow hcut
    have hends : r ≠ .outOfFuel := by
      rintro rfl
      exact hends rfl
    have hbelow : ∀ e, r = .interrupt e → e.toError.problem.isLimit = false := by
      rintro e rfl
      have hcode := hbelow _ (List.mem_singleton_self _)
      rw [EvalError.code_diagnostic] at hcode
      exact Bool.eq_false_iff.2 fun hlimit =>
        ((EvalProblem.isLimit_iff _).1 hlimit).elim hcode.1 hcode.2
    rw [hcut.resolve_left (Outcome.not_cutOff hends hbelow)]
    cases r <;> rfl

/-- Running a file below its limits comes to the same result, with the same reports and the same
log, under larger ones. -/
theorem Tree.File.run_eq_below_limits (file : Tree.File) {c c' : RunConfig}
    (hentry : c'.entry = c.entry) (hhost : c'.host = c.host)
    (hl : c.settings.limits.AtMost c'.settings.limits) (store : Store) (functions : HostFunctions)
    {fuel fuel' : Nat} (hle : fuel ≤ fuel')
    (hends : (file.run c store functions fuel).result ≠ .error .internal)
    (hbelow : ∀ d ∈ (file.run c store functions fuel).diagnostics,
      d.code ≠ .runawayLoop ∧ d.code ≠ .recursionLimit) :
    file.run c' store functions fuel' = file.run c store functions fuel := by
  unfold Tree.File.run at hends hbelow ⊢
  cases hm : Module.ofTree file .new with
  | mk r interner =>
    rw [hm] at hends hbelow
    cases r with
    | error errors => rfl
    | ok m =>
      dsimp only at hends hbelow ⊢
      split <;> rename_i hok
      · rw [if_pos hok] at hends hbelow
        exact Module.run_eq_below_limits hentry hhost hl hle hends hbelow
      · rfl

end SignalLang
