import SignalLang.Proofs.ScopedRuns

/-!
# Problems with names

Resolution decides by the names in front of a place; evaluation looks them up when it comes there,
and then more of them may be bound, or not yet.  So a run of an accepted module can end in a problem
with a name.  This file says of which names this can be true: of those that are bound both as a
variable and as a constant, and of those that are bound behind a function that sees them.

* `Module.mentions_outerContext` : the names around a module are those of the builtins.
* `Interpreter.immutable_name_bound_twice` : **a name that cannot be set is bound as a variable and
  as a constant.**
* `Interpreter.unbound_name_before_function` : **a name that is not bound when it is used is bound
  by a `let` in front of a function in the same block.**
-/

namespace SignalLang

/-! ### The names of the builtins -/

namespace Module

variable {m : Module} {imports : Imports} {interner interner' : Interner} {types : TypeTable}
  {errors : List ResolveError}

/-- Resolution keeps the names of the builtin types. -/
theorem name_of_resolve (h : m.resolve imports interner = (types, errors, interner')) {id : TypeId}
    (hid : id.index < TypeTable.builtinNames.length) :
    (types.get id).name = ((TypeTable.builtin interner m.arena.typeRefs.size).get id).name := by
  obtain rfl : (m.resolve imports interner).1 = types := by rw [h]
  obtain ⟨hle, -⟩ := Resolve.checks_scope (Resolve.checks_expr
    ⟨m.arena, (Resolve.internNames interner imports.prelude).2, imports⟩ m.arena.exprs.size)
    .afterScope (m.context imports interner) (m.decls.map Resolve.Item.decl)
    ⟨.builtin interner m.arena.typeRefs.size, #[]⟩
  exact hle.names id (Nat.lt_succ_of_lt hid)

/-- The names around a module are those of the builtins, and none of a variable. -/
theorem mentions_outerContext (h : m.resolve .core interner = (types, errors, interner')) {n : Name}
    {v : Bool} (hn : (m.outerContext .core interner).Mentions n v) :
    v = false ∧ n ∈ (Interpreter.builtins types interner').map Prod.fst := by
  obtain rfl : (m.resolve .core interner).2.2 = interner' := by rw [h]
  obtain ⟨s, hs, hn⟩ := hn
  obtain rfl := List.mem_singleton.1 hs
  obtain ⟨⟨k, info⟩, hmem, hk⟩ := List.mem_map.1 hn
  cases hk
  rcases List.mem_append.1 hmem with hmem | hmem
  · obtain ⟨x, hx, hx'⟩ := List.mem_map.1 hmem
    cases hx'
    obtain ⟨s, hs, hfind⟩ := Resolve.exists_of_mem_internNames (List.mem_reverse.1 hx)
    obtain ⟨f, hf, hfs⟩ := List.mem_map.1 hs
    obtain rfl : f.name = s := congrArg Prod.fst hfs
    refine ⟨rfl, List.mem_map.2 ⟨_, List.mem_append_right _ (List.mem_map_of_mem hf), ?_⟩⟩
    exact Interner.intern_of_find? hfind
  · have hbuiltin : ∀ id v, id.index < TypeTable.builtinNames.length →
        ((types.get id).name, v) ∈ Interpreter.builtins types (m.resolve .core interner).2.2 →
        ((TypeTable.builtin interner m.arena.typeRefs.size).get id).name ∈
          (Interpreter.builtins types (m.resolve .core interner).2.2).map Prod.fst :=
      fun id v hid hmem => name_of_resolve h hid ▸ List.mem_map_of_mem hmem
    simp only [List.mem_cons, List.not_mem_nil, or_false] at hmem
    rcases hmem with h | h | h | h <;> cases h <;> refine ⟨rfl, ?_⟩
    · exact hbuiltin _ (.constructor .assumptionBroken) (by decide) (by simp [Interpreter.builtins])
    · exact hbuiltin _ (.constructor .debug) (by decide) (by simp [Interpreter.builtins])
    · exact hbuiltin _ (.boolean false) (by decide) (by simp [Interpreter.builtins])
    · exact hbuiltin _ (.boolean true) (by decide) (by simp [Interpreter.builtins])

end Module

namespace Interpreter

variable {file : Tree.File} {interner₀ interner interner' : Interner} {m : Module}
  {types : TypeTable} {settings : Settings} {functions : HostFunctions} {fuel : Nat}
  {calls : List Call}

/-! ### Names that cannot be set -/

/-- The names of a program, where any of them may be missing. -/
def boundNames (p : Program) (others : List Name) (exported : String → Name → Prop) :
    Scoping p where
  __ := Scoping.anyNames p exported
  constant n := p.arena.BindsConstant n ∨ n ∈ others
  changeable := p.arena.BindsVariable
  constant_of_binds _ := .inl
  changeable_of_binds _ := id

/-- **A name that cannot be set is bound both as a variable and as a constant**: resolution has seen
the variable, evaluation has found the constant.  The functions of the host are not meant to raise
such a problem by themselves. -/
theorem immutable_name_bound_twice (hm : Module.ofTree file interner₀ = (.ok m, interner))
    (hres : m.resolve .core interner = (types, [], interner'))
    (hhost : ∀ h, settings.host = some h → h.Only fun _ => False)
    (hfunctions : functions.Only fun _ => False)
    (hraises : ∀ text, ¬ functions.CanRaise (.immutableBinding text))
    (hcalls : ((new m.arena interner' types settings .empty functions).load m fuel).2.Supplied
      (fun _ => False) calls) {e : Interrupt}
    (he : (new m.arena interner' types settings .empty functions).Fails m fuel calls e)
    {text : String} (htext : e.toError.problem = .immutableBinding text) :
    ∃ n, text = interner'.text n ∧ m.arena.BindsVariable n ∧
      (m.arena.BindsConstant n ∨ n ∈ (builtins types interner').map Prod.fst) := by
  have hnumbered := Module.numbered_of_ofTree hm
  let i := new m.arena interner' types settings .empty functions
  have hord : i.program.arena.Ordered := hnumbered.ordered
  let g := boundNames i.program ((builtins types interner').map Prod.fst)
    fun path n => (Imports.core.find? path (interner'.text n)).isSome
  have hnone : i.program.HostOnly fun _ => False := ⟨hhost, hfunctions⟩
  have htrusts : g.TrustsHost := hnone.mono fun _ => False.elim
  have hload : i.Loads g (fun _ => False) m :=
    loads_new hnumbered hres rfl (fun _ h => h.elim) (fun c n b hb => by cases hb)
      (fun b hb => .inr (List.mem_map_of_mem hb))
      (fun n v hn => ⟨.inr (.inl trivial), fun hv => by
        cases hv.symm.trans (Module.mentions_outerContext hres hn).1⟩)
      fun _ _ => .inl trivial
  have hexplains := he.explains hord htrusts hload hcalls
  rw [htext] at hexplains
  rcases hexplains with (⟨n, hn, hconst, hvar⟩ | hraised) | hcode
  · exact ⟨n, hn, hvar, hconst⟩
  · exact absurd hraised (hraises text)
  · cases hcode

/-- The file that declares only `function main() { stmts }` -/
def mainFile (stmts : List Tree.Stmt) : Tree.File :=
  ⟨"", [.function "main" [] none (.node (.block stmts) [] .dummy) .dummy]⟩

/-- An expression without suffixes. -/
def plainExpr (e : Tree.Primary) : Tree.Expr := .node e [] .dummy

/-- The statement `let x = ""` or `let variable x = ""` -/
def letText (x : String) (isVariable : Bool) : Tree.Stmt :=
  .decl (.binding x isVariable none (plainExpr (.string "\"\"")) .dummy) .dummy

/-- The statement `f()` -/
def callName (f : String) : Tree.Stmt := .expr (.node (.ident f) [.call [] .dummy] .dummy) .dummy

/-- `let variable x = ""; { let f = fn() { set x = "" }; let x = ""; f() }` -/
def shadowing : Tree.File :=
  mainFile [letText "x" true, .expr (plainExpr (.block [
    .decl (.binding "f" false none (plainExpr (.function [] none (plainExpr (.block
      [.set "x" (plainExpr (.string "\"\"")) .dummy])))) .dummy) .dummy,
    letText "x" false, callName "f"])) .dummy]

/-- A call of `main` fails, in a problem of a kind. -/
def failsIn (i : Interpreter) (kind : EvalProblem → Bool) : Bool :=
  match (i.make ⟨"main", [], 20⟩).1 with
  | .interrupt e => kind e.toError.problem
  | _ => false

theorem exists_of_failsIn {i : Interpreter} {kind : EvalProblem → Bool} (h : i.failsIn kind) :
    ∃ e, (i.make ⟨"main", [], 20⟩).1 = .interrupt e ∧ kind e.toError.problem := by
  unfold failsIn at h
  split at h
  · exact ⟨_, ‹_›, h⟩
  · cases h

/-- The problem of a `set` that finds a constant. -/
def isImmutableBinding : EvalProblem → Bool
  | .immutableBinding _ => true
  | _ => false

theorem eq_immutableBinding {e : EvalProblem} (h : isImmutableBinding e) :
    ∃ text, e = .immutableBinding text := by
  cases e with
  | immutableBinding text => exact ⟨text, rfl⟩
  | _ => cases h

/-- The `set` finds the second `x`, which is bound as a constant. -/
theorem shadowing_bound_twice : ∃ m interner types interner' e text n,
    (Module.ofTree shadowing .new = (.ok m, interner) ∧
      m.resolve .core interner = (types, [], interner')) ∧
    (new m.arena interner' types ⟨default, none, none⟩ .empty).Fails m 20 [⟨"main", [], 20⟩] e ∧
    e.toError.problem = .immutableBinding text ∧ text = interner'.text n ∧
    m.arena.BindsVariable n ∧
    (m.arena.BindsConstant n ∨ n ∈ (builtins types interner').map Prod.fst) := by
  have hcall : (shadowing.resolved? .core).any fun found =>
      let i := new found.1.arena found.2.2 found.2.1 ⟨default, none, none⟩ .empty
      (i.load found.1 20).2.failsIn isImmutableBinding := by decide +kernel
  obtain ⟨⟨m, types, interner'⟩, hok, hcall⟩ := (Option.any_eq_true _ _).1 hcall
  obtain ⟨interner, hm, hres⟩ := Tree.File.of_resolved? hok
  obtain ⟨e, he, hcode⟩ := exists_of_failsIn hcall
  obtain ⟨text, htext⟩ := eq_immutableBinding hcode
  have hfails : (new m.arena interner' types ⟨default, none, none⟩ .empty).Fails m 20
      [⟨"main", [], 20⟩] e := .call (show _ = [] ++ _ :: [] from rfl) he
  have hhost : ∀ h, (none : Option Host) = some h → h.Only fun _ => False := nofun
  obtain ⟨n, hn, hbound⟩ := immutable_name_bound_twice hm hres hhost HostFunctions.only_none
    (fun _ => HostFunctions.not_canRaise_none) (supplied_of_only (by simp)) hfails htext
  exact ⟨m, interner, types, interner', e, text, n, ⟨hm, hres⟩, hfails, htext, hn, hbound⟩

/-! ### Names that are not bound -/

/-- What the modules of the language export is there. -/
theorem isSome_native_of_core {path name : String} (h : (Imports.core.find? path name).isSome) :
    (Native.find? path name).isSome := by
  simp only [Imports.core] at h
  split at h
  · cases h
  · simpa using h

/-- The names of a program, where those that are bound by a `let` in front of a function of the same
block may be missing, and some names are promised in one scope. -/
def lateNames (p : Program) (scope : ScopeId) (ns : List Name) : Scoping p where
  __ := Scoping.anyNames p fun path n => (Imports.core.find? path (p.interner.text n)).isSome
  missing := p.arena.LetBeforeFunction
  anyMissing := False
  promised c n := c = scope ∧ n ∈ ns
  missing_of_let _ := id
  find?_of_exported _ _ h := .inl (isSome_native_of_core h)
  missing_of_anyMissing := False.elim

/-- **A name that is not bound when it is used is bound by a `let` in front of a function in the
same block**: resolution has seen the `let`, but the function was called before it had run.  The
functions of the host are not meant to raise such a problem by themselves. -/
theorem unbound_name_before_function (hm : Module.ofTree file interner₀ = (.ok m, interner))
    (hres : m.resolve .core interner = (types, [], interner'))
    (hhost : ∀ h, settings.host = some h → h.Only fun _ => False)
    (hfunctions : functions.Only fun _ => False)
    (hraises : ∀ text, ¬ functions.CanRaise (.unboundName text))
    (hload : ((new m.arena interner' types settings .empty functions).load m fuel).1 = .value ())
    (hcalls : ((new m.arena interner' types settings .empty functions).load m fuel).2.Supplied
      (fun _ => False) calls) {pre post : List Call} {c : Call} (hc : calls = pre ++ c :: post)
    {callee : Value} (hcallee : (((new m.arena interner' types settings .empty functions).load m
      fuel).2.after pre).lookup? c.name = some callee) {e : Interrupt}
    (he : ((((new m.arena interner' types settings .empty functions).load m fuel).2.after pre).make
      c).1 = .interrupt e) {text : String} (htext : e.toError.problem = .unboundName text) :
    ∃ n, text = interner'.text n ∧ m.arena.LetBeforeFunction n := by
  have hnumbered := Module.numbered_of_ofTree hm
  let i := new m.arena interner' types settings .empty functions
  have hord : i.program.arena.Ordered := hnumbered.ordered
  let g := lateNames i.program i.machine.env.current
    (Resolve.letNames m.arena (m.decls.map .decl))
  have hnone : i.program.HostOnly fun _ => False := ⟨hhost, hfunctions⟩
  have htrusts : ∀ g : Scoping i.program, g.TrustsHost := fun g => hnone.mono fun _ => False.elim
  have hloads : i.Loads g (fun _ => False) m :=
    loads_new hnumbered hres rfl (fun _ h => h.elim) (fun c n b hb => by cases hb)
      (fun _ _ => trivial)
      (fun n v hn => ⟨.inr (.inr ⟨_, .here (current_lt_size_rootMachine _ _ _),
        .inl (isSome_binding?_rootMachine (Module.mentions_outerContext hres hn).2)⟩),
        fun _ => trivial⟩)
      fun n hn => .inr ⟨rfl, hn⟩
  have hserves := hloads.load_of_value hord (htrusts _) hload fun c n h => h
  subst hc
  obtain ⟨-, hserves⟩ := hserves.after hord (htrusts _) hcalls.left
  have hexplains := hserves.explains hord (htrusts _) hcalls.right hcallee he
  rw [htext] at hexplains
  -- nothing is promised any more
  rcases hexplains with (⟨n, hn, hlate | ⟨-, ⟨⟩⟩⟩ | hany) | hraised
  · exact ⟨n, hn, hlate⟩
  · exact hany.elim
  · exact absurd hraised (hraises text)

/-- `f(); let x = ""; function f() x` -/
def calledEarly : Tree.File :=
  mainFile [callName "f", letText "x" false,
    .decl (.function "f" [] none (plainExpr (.ident "x")) .dummy) .dummy]

/-- The problem of a name to which nothing is bound. -/
def isUnboundName : EvalProblem → Bool
  | .unboundName _ => true
  | _ => false

theorem eq_unboundName {e : EvalProblem} (h : isUnboundName e) :
    ∃ text, e = .unboundName text := by
  cases e with
  | unboundName text => exact ⟨text, rfl⟩
  | _ => cases h

/-- The function is called before the `let` in front of it has run. -/
theorem calledEarly_before_let : ∃ m interner types interner' e text n,
    (Module.ofTree calledEarly .new = (.ok m, interner) ∧
      m.resolve .core interner = (types, [], interner')) ∧
    (new m.arena interner' types ⟨default, none, none⟩ .empty).Fails m 20 [⟨"main", [], 20⟩] e ∧
    e.toError.problem = .unboundName text ∧ text = interner'.text n ∧
    m.arena.LetBeforeFunction n := by
  have hcall : (calledEarly.resolved? .core).any fun found =>
      let i := new found.1.arena found.2.2 found.2.1 ⟨default, none, none⟩ .empty
      ((i.load found.1 20).1.value?).isSome && ((i.load found.1 20).2.lookup? "main").isSome &&
        (i.load found.1 20).2.failsIn isUnboundName := by decide +kernel
  obtain ⟨⟨m, types, interner'⟩, hok, hcall⟩ := (Option.any_eq_true _ _).1 hcall
  obtain ⟨interner, hm, hres⟩ := Tree.File.of_resolved? hok
  simp only [Bool.and_eq_true] at hcall
  obtain ⟨⟨hload, hmain⟩, hcall⟩ := hcall
  obtain ⟨⟨⟩, hload⟩ := Option.isSome_iff_exists.1 hload
  obtain ⟨callee, hmain⟩ := Option.isSome_iff_exists.1 hmain
  obtain ⟨e, he, hcode⟩ := exists_of_failsIn hcall
  obtain ⟨text, htext⟩ := eq_unboundName hcode
  have hcalls : [(⟨"main", [], 20⟩ : Call)] = [] ++ ⟨"main", [], 20⟩ :: [] := rfl
  have hhost : ∀ h, (none : Option Host) = some h → h.Only fun _ => False := nofun
  obtain ⟨n, hn, hlate⟩ := unbound_name_before_function hm hres hhost HostFunctions.only_none
    (fun _ => HostFunctions.not_canRaise_none) (Outcome.eq_value_of_value? hload)
    (supplied_of_only (by simp)) hcalls hmain he htext
  exact ⟨m, interner, types, interner', e, text, n, ⟨hm, hres⟩, .call hcalls he, htext, hn, hlate⟩

end Interpreter

end SignalLang
