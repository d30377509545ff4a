import SignalLang.Proofs.Resolution
import SignalLang.Proofs.Safety

/-!
# Internal faults

A file that resolution accepts never ends in one of the faults that resolution is there to rule
out: a `break` or `return` without a target (`ErrorCode.escapedControlFlow`), an `is` without a
subject or a declaration that was not resolved (`ErrorCode.internalFault`).  The only way around
resolution is the host.  The bodies of closures that it makes up are expressions that were checked
where they stand, not where the closure is called, and its functions can raise any error.

* `Interpreter.Ready i` : nothing is in progress, and all code that `i` can come to is well placed.
* `Tree.File.SelfContained file e` : an expression of the file out of which no `break` leads.
* `Tree.File.run_without_internal_fault` : **if the closures that the host makes up have
  self-contained bodies, and its functions raise no such fault themselves, no run of the file ends
  in an internal fault.**
* `Tree.File.stray_break_escapes` : with any other body, one can.
-/

namespace SignalLang

/-! ### Interpreters -/

/-- Where nothing is in progress, only ordinary problems come out of a step. -/
theorem Machine.Ends.ordinary {p : Program} {s : Machine} {good : α → Prop}
    {res : Outcome α × Machine} (h : s.Ends p good res) (hs : s.AtRest) {i : Interrupt}
    (hi : res.1 = .interrupt i) : i.toError.problem.Ordinary := by
  have hfine := h.outcome
  rw [hi] at hfine
  cases i with
  | fault e => exact hfine
  | breakTo t v =>
    -- at rest there are neither targets nor handlers
    obtain ⟨ht | ⟨f, hf, -⟩, -⟩ := hfine
    · rw [hs.loopTarget] at ht
      cases ht
    · rw [hs.handlers] at hf
      cases hf
  | returnTo t v =>
    obtain ⟨ht | ⟨f, hf, -⟩, -⟩ := hfine
    · rw [hs.returnTarget] at ht
      cases ht
    · rw [hs.handlers] at hf
      cases hf

namespace Interpreter

/-- Nothing is in progress, and all code to which an interpreter can come is well placed. -/
structure Ready (i : Interpreter) : Prop where
  sound : i.machine.Sound i.program
  atRest : i.machine.AtRest
  host : i.program.HostSafe

variable {i : Interpreter}

theorem runs_builtins {bodies : ExprId → Prop} (t : TypeTable) (interner : Interner) :
    (builtins t interner).Runs bodies := by
  intro b hb
  simp only [builtins, List.cons_append, List.nil_append, List.mem_cons, List.mem_map] at hb
  rcases hb with rfl | rfl | rfl | rfl | ⟨n, -, rfl⟩
  · exact Value.runs_boolean true
  · exact Value.runs_boolean false
  · exact Value.runs_constructor _
  · exact Value.runs_constructor _
  · exact Value.runs_native n

theorem ready_new (arena : Arena) (interner : Interner) (types : TypeTable) (settings : Settings)
    (store : Store) (functions : HostFunctions)
    (hstore : store.Runs (new arena interner types settings store functions).program.IsBody)
    (hhost : (new arena interner types settings store functions).program.HostSafe) :
    (new arena interner types settings store functions).Ready :=
  ⟨⟨((hstore.addScope none).defineAll _ (runs_builtins types interner)).addScope _, nofun, nofun⟩,
    ⟨rfl, rfl, rfl⟩, hhost⟩

/-- After a safe step the interpreter is ready again, and what came out of the step is no internal
fault. -/
theorem Ready.run (hi : i.Ready) {x : Eval α} {good : α → Prop}
    (hx : Eval.Safe i.program false false x good) :
    (i.run x).2.Ready ∧
      ∀ e, (i.run x).1.settle = .interrupt e → e.toError.problem.Ordinary := by
  have h := hx i.machine hi.sound (by rw [hi.atRest.loopTarget]; rfl)
    (by rw [hi.atRest.returnTarget]; rfl)
  refine ⟨⟨h.sound, h.continues.atRest hi.atRest, hi.host⟩, fun e he => ?_⟩
  cases hres : (i.run x).1 with
  | interrupt e' =>
    rw [hres] at he
    cases he
    exact h.ordinary (i := e') hi.atRest hres
  | value a | outOfFuel =>
    rw [hres] at he
    cases he

theorem Ready.load (hi : i.Ready) {m : Module}
    (hm : ∀ d ∈ m.decls, i.program.PlacesDecl false false d) (fuel : Nat) :
    (i.load m fuel).2.Ready ∧
      ∀ e, (i.load m fuel).1 = .interrupt e → e.toError.problem.Ordinary :=
  hi.run (Eval.safe_bindModule (Eval.safe_expr hi.host fuel) hm)

theorem Ready.call (hi : i.Ready) (name : String) {args : List Value}
    (hargs : ∀ v ∈ args, v.Runs i.program.IsBody) (fuel : Nat) :
    (i.call name args fuel).2.Ready ∧
      ∀ e, (i.call name args fuel).1 = .interrupt e → e.toError.problem.Ordinary := by
  unfold Interpreter.call
  cases hcallee : i.lookup? name with
  | none =>
    refine ⟨hi, ?_⟩
    rintro _ ⟨⟩
    exact ⟨nofun, nofun⟩
  | some callee =>
    obtain ⟨n, -, hn⟩ := Option.bind_eq_some_iff.1 hcallee
    exact hi.run (Eval.safe_callValue (Eval.safe_expr hi.host fuel) hi.host
      (hi.sound.store.lookup? hn) hargs .dummy)

/-- Loading a module and calling one of its functions ends in no internal fault. -/
theorem Ready.loadAndCall (hi : i.Ready) {m : Module}
    (hm : ∀ d ∈ m.decls, i.program.PlacesDecl false false d) (entry : String) (fuel : Nat)
    {e : Interrupt} (he : (i.loadAndCall m entry fuel).1 = .interrupt e) :
    e.toError.problem.Ordinary := by
  obtain ⟨hready, hload⟩ := hi.load hm fuel
  unfold Interpreter.loadAndCall at he
  split at he <;> rename_i hres
  · rw [hres] at hready
    exact (hready.call entry (by simp) fuel).2 e he
  · rw [hres] at hload
    exact hload e (by simpa using he)
  · cases he

end Interpreter

/-! ### Runs of files -/

/-- Runs of well placed code end in ordinary problems only. -/
theorem Module.ordinary_of_run {m : Module} {interner : Interner} {types : TypeTable}
    {c : RunConfig} {store : Store} {functions : HostFunctions} {fuel : Nat}
    (hm : ∀ d ∈ m.decls, PlacedDecl m.arena types.Declares false false d)
    (hhost : ∀ h, c.host = some h → h.Runs (Placed m.arena types.Declares false true))
    (hfunctions : functions.Runs (Placed m.arena types.Declares false true))
    (hraises : ∀ entry args e, functions entry args = .error e → e.problem.Ordinary)
    (hstore : store.Runs (Placed m.arena types.Declares false true)) {d : Diagnostic}
    (hd : d ∈ (m.run interner types c store functions fuel).diagnostics) :
    d.code ≠ .escapedControlFlow ∧ d.code ≠ .internalFault := by
  have hready : (Interpreter.new m.arena interner types c.settings store functions).Ready := by
    refine Interpreter.ready_new m.arena interner types c.settings store functions hstore
      ⟨⟨?_, hfunctions⟩, hraises⟩
    rintro _ ⟨⟩
    cases hc : c.host with
    | none => exact nofun
    | some h => exact hhost h hc
  unfold Module.run at hd
  split at hd
  rename_i outcome i hrun
  cases outcome with
  | value v => simp at hd
  | outOfFuel => simp [RunResult.failed] at hd
  | interrupt e =>
    obtain rfl := List.mem_singleton.1 hd
    rw [EvalError.code_diagnostic]
    exact hready.loadAndCall hm c.entry fuel (by rw [hrun])

namespace Tree.File

/-- An expression of a file out of which no `break` leads. -/
def SelfContained (file : Tree.File) (e : ExprId) : Prop :=
  ∃ m interner, Module.ofTree file .new = (.ok m, interner) ∧ m.Contains e ∧ ¬ m.arena.Breaks e

/-- **If the closures that the host makes up, and those in the store, have self-contained bodies,
and the functions of the host raise no internal faults, no run of the file ends in one.**  All other
closures that the host answers with stem from the signals it was asked about, and all others that
its functions give from their arguments. -/
theorem run_without_internal_fault (file : Tree.File) (c : RunConfig) (store : Store)
    (functions : HostFunctions) (fuel : Nat)
    (hhost : ∀ h, c.host = some h → h.Runs file.SelfContained)
    (hfunctions : functions.Runs file.SelfContained)
    (hraises : ∀ entry args e, functions entry args = .error e →
      e.problem.code ≠ .escapedControlFlow ∧ e.problem.code ≠ .internalFault)
    (hstore : store.Runs file.SelfContained) :
    ∀ d ∈ (file.run c store functions fuel).diagnostics,
      d.code ≠ .escapedControlFlow ∧ d.code ≠ .internalFault := by
  intro d hd
  unfold Tree.File.run at hd
  split at hd
  · -- a malformed literal
    obtain ⟨e, -, rfl⟩ := List.mem_map.1 hd
    simp only [LiteralError.diagnostic, Diagnostic.code_withLabel, Diagnostic.plain,
      LiteralError.code]
    split <;> exact ⟨nofun, nofun⟩
  · rename_i m interner hm
    obtain ⟨types, errors, interner', hres⟩ :
        ∃ types errors interner', m.resolve .core interner = (types, errors, interner') :=
      ⟨_, _, _, rfl⟩
    simp only [hres] at hd
    split at hd
    · rename_i hno
      rw [List.isEmpty_iff.1 hno] at hres
      have hplaced : ∀ d ∈ m.decls, PlacedDecl m.arena types.Declares false false d := fun d hd =>
        Module.placed_of_resolve (Module.numbered_of_ofTree hm) hres hd
      -- the bodies of foreign closures were checked where they stand in the file
      have hbodies : ∀ e, file.SelfContained e → Placed m.arena types.Declares false true e := by
        rintro e ⟨m', interner'', hm', he, hbreaks⟩
        rw [hm] at hm'
        cases hm'
        obtain ⟨l, r, he⟩ := he.placed hplaced
        exact he.apart hbreaks
      exact Module.ordinary_of_run hplaced (fun h hc => (hhost h hc).mono fun _ => hbodies _)
        (hfunctions.mono fun _ => hbodies _) hraises (hstore.mono hbodies) hd
    · -- an error of resolution
      obtain ⟨e, -, rfl⟩ := List.mem_map.1 hd
      rw [ResolveError.code_diagnostic]
      cases e.problem <;> exact ⟨nofun, nofun⟩

/-- `signal Ask(fields): Anything` and `function main() { let f = cause payload; stmts }` -/
def asking (fields : List Field) (payload : Primary) (suffixes : List Suffix) (stmts : List Stmt) :
    Tree.File :=
  ⟨"", [.signal "Ask" fields (some (.named "Anything" .dummy)) .dummy,
    .function "main" [] none (.node (.block (.decl (.binding "f" false none
      (.node (.cause (.node payload suffixes .dummy)) [] .dummy) .dummy) .dummy :: stmts))
      [] .dummy) .dummy]⟩

/-- The statement `f(args)`. -/
def callingAnswer (args : List Expr) : Stmt :=
  .expr (.node (.ident "f") [.call args .dummy] .dummy) .dummy

/-- The expression `loop break`. -/
def looping : Expr := .node (.loop (.node (.brk none) [] .dummy)) [] .dummy

/-- `let f = cause Ask; f(fn() loop break); f()` -/
def askingEcho : Tree.File :=
  asking [] (.ident "Ask") []
    [callingAnswer [.node (.function [] none looping) [] .dummy], callingAnswer []]

/-- The host answers with a function of its own. -/
def offering : RunConfig :=
  ⟨"main", default, none, some (.responding fun _ _ => some (.native ⟨"echo", 1, .host 0⟩))⟩

/-- The functions of the host give their first argument back. -/
def givingBack : HostFunctions := fun _ args => .ok (args.headD .action)

theorem runs_givingBack (bodies : ExprId → Prop) : givingBack.Runs bodies := by
  rintro entry args _ ⟨⟩ c hc
  cases args with
  | nil => exact .inl (Value.only_action (P := fun c => bodies c.body) c hc)
  | cons v args => exact .inr ⟨v, List.mem_cons_self, hc⟩

/-- A closure passes through the function; to call that without arguments is an ordinary problem. -/
theorem askingEcho_ends_in_arityMismatch :
    ((∀ h, offering.host = some h → h.Runs askingEcho.SelfContained) ∧
      givingBack.Runs askingEcho.SelfContained ∧ Store.empty.Runs askingEcho.SelfContained) ∧
    (askingEcho.run offering .empty givingBack).diagnostics.map (fun d => d.code) =
      [.arityMismatch] ∧
    ∀ d ∈ (askingEcho.run offering .empty givingBack).diagnostics,
      d.code ≠ .escapedControlFlow ∧ d.code ≠ .internalFault := by
  have hhost : ∀ h, offering.host = some h → h.Runs askingEcho.SelfContained := by
    rintro _ ⟨⟩ earlier q _ ⟨⟩ c hc
    exact .inl (Value.only_native (P := fun c => askingEcho.SelfContained c.body) _ c hc)
  exact ⟨⟨hhost, runs_givingBack _, Store.runs_empty⟩, by decide +kernel,
    askingEcho.run_without_internal_fault offering .empty givingBack _ hhost (runs_givingBack _)
      nofun Store.runs_empty⟩

/-- The host answers with a closure that it made up.  Its body is the `break` in `loop break`. -/
def makingUp : RunConfig :=
  ⟨"main", default, none,
    some (.responding fun _ _ => some (.closure ⟨⟨0⟩, none, [], none, ⟨2⟩, ⟨0⟩⟩))⟩

/-- The functions of the host raise errors in words. -/
def refusing : HostFunctions := fun _ _ => .error (.new (.other "refused"))

/-- **A closure that the host makes up can have any checked expression for its body, and then a
`break` escapes; and a function of the host can raise an internal fault by itself.** -/
theorem stray_break_escapes :
    (¬ ∀ (file : Tree.File) (c : RunConfig), ∀ d ∈ (file.run c .empty).diagnostics,
      d.code ≠ .escapedControlFlow ∧ d.code ≠ .internalFault) ∧
    ¬ ∀ (file : Tree.File) (c : RunConfig) (functions : HostFunctions),
      (∀ h, c.host = some h → h.Only fun _ => False) → (functions.Only fun _ => False) →
      ∀ d ∈ (file.run c .empty functions).diagnostics,
        d.code ≠ .escapedControlFlow ∧ d.code ≠ .internalFault := by
  refine ⟨fun h => ?_, fun h => ?_⟩
  · have hrun : ((asking [] (.ident "Ask") [] [.expr looping .dummy, callingAnswer []]).run makingUp
        .empty).diagnostics.map (fun d => d.code) = [.escapedControlFlow] := by decide +kernel
    have hmem := hrun ▸ List.mem_singleton_self ErrorCode.escapedControlFlow
    obtain ⟨d, hd, hcode⟩ := List.mem_map.1 hmem
    exact (h _ _ d hd).1 hcode
  · have hrun : (askingEcho.run offering .empty refusing).diagnostics.map (fun d => d.code) =
        [.internalFault] := by decide +kernel
    have hmem := hrun ▸ List.mem_singleton_self ErrorCode.internalFault
    obtain ⟨d, hd, hcode⟩ := List.mem_map.1 hmem
    refine (h askingEcho offering refusing ?_ nofun d hd).2 hcode
    rintro _ ⟨⟩ earlier q _ ⟨⟩ c hc
    exact .inl (Value.only_native (P := fun _ => False) _ c hc)

end Tree.File

end SignalLang
