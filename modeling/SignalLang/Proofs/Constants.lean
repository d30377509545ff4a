import SignalLang.Proofs.Writes

/-!
# Names are bound once

Resolution reports a name that is declared twice side by side.  So in a run of an accepted module
no scope binds a name that it binds already, and what is bound as a constant stays what it is.  The
one way around resolution is a closure from outside with two parameters of one name.

* `Module.Admits m c` : a closure from outside with different parameters and a body from the module.
* `Store.KeepsConstants s s'` : the bindings of constants in `s` are still there in `s'`.
* `Interpreter.binds_once` : **if all closures from outside are admitted, every name is bound where
  it is not bound yet, and constants stay for the whole run.**
* `Interpreter.parameter_bound_twice` : with other closures they need not.
-/

namespace SignalLang

/-! ### Closures from outside -/

/-- A closure from outside binds different names to its arguments, and its body stands in the
module. -/
structure Module.Admits (m : Module) (c : Closure) : Prop where
  distinct : (c.params.map fun q => q.name).Nodup
  body : m.Contains c.body

/-- All that is bound as a constant stays bound to the same value. -/
def Store.KeepsConstants (s s' : Store) : Prop :=
  ∀ c n b, s.binding? c n = some b → b.isVariable = false → s'.binding? c n = some b

theorem Store.Grows.keepsConstants {s s' : Store} (h : s.Grows s') : s.KeepsConstants s' :=
  fun _ _ _ hb hv => h.binding_eq hb hv

/-- A value is a given closure. -/
def Value.isClosure (c : Closure) : Value → Bool
  | .closure d => d = c
  | _ => false

theorem Value.isClosure_iff {c : Closure} {v : Value} : v.isClosure c ↔ v = .closure c := by
  cases v <;> simp [isClosure]

/-- All expressions of an accepted module are accepted somewhere. -/
theorem Module.Contains.accepted {m : Module} (hord : m.arena.Ordered) {typed : DeclId → Prop}
    {exported : String → Name → Prop} {c : Resolve.Context}
    (hm : Resolve.AcceptsScope ⟨m.arena, typed, exported⟩
      (Resolve.Accepted ⟨m.arena, typed, exported⟩) .afterScope c (m.decls.map .decl))
    {e : ExprId} (he : m.Contains e) : ∃ c, Resolve.Accepted ⟨m.arena, typed, exported⟩ c e := by
  induction he with
  | value hd hk =>
    obtain ⟨-, items, -⟩ := hm
    obtain ⟨c₁, c₂, h⟩ := items.exists_item (List.mem_map_of_mem hd)
    exact ⟨c₁, h.value hk⟩
  | body hd hk =>
    obtain ⟨-, -, bodies⟩ := hm
    obtain ⟨ctx, -, h⟩ := bodies rfl _ (List.mem_map_of_mem hd) _ _ _ _ hk
    exact ⟨ctx, h⟩
  | child _ hc ih =>
    obtain ⟨c, h⟩ := ih
    exact (Resolve.Accepted.node hord h).exists_accepted hc.mem_inner

namespace Interpreter

/-! ### Runs of accepted modules -/

/-- **Every name is bound where it is not bound yet, and constants stay.**  Let a file be accepted,
loaded and used in any number of calls.  If all closures that come from outside, in arguments, in
answers of the host, from its functions and in the store, are admitted, then whenever a name is
bound, the scope does not bind it yet.  From then on, as from the beginning and from any moment of
the run, all that is bound as a constant stays what it is.  Nothing else is bound: the store in the
end comes about by these bindings, by `set`s and by new scopes. -/
theorem binds_once {file : Tree.File} {interner₀ interner interner' : Interner} {m : Module}
    {imports : Imports} {types : TypeTable} {settings : Settings} {store : Store}
    {functions : HostFunctions} {fuel : Nat} {calls : List Call}
    (hm : Module.ofTree file interner₀ = (.ok m, interner))
    (hres : m.resolve imports interner = (types, [], interner'))
    (hstore : store.Only m.Admits) (hhost : ∀ h, settings.host = some h → h.Only m.Admits)
    (hfunctions : functions.Only m.Admits)
    (hcalls : ((new m.arena interner' types settings store functions).load m fuel).2.Supplied
      m.Admits calls) :
    let i := new m.arena interner' types settings store functions
    let last := ((i.load m fuel).2.after calls).machine.store
    (∀ t n b, i.Declares m fuel calls t n b → t.store.binding? t.env.current n = none ∧
        (t.store.define t.env.current n b.value b.isVariable).KeepsConstants last) ∧
      i.machine.store.KeepsConstants last ∧
      (∀ x, i.Visits m fuel calls x → x.machine.store.KeepsConstants last) ∧
      i.machine.store.Written ⟨i.Declares m fuel calls, i.Sets m fuel calls⟩ last := by
  intro i last
  have hnumbered := Module.numbered_of_ofTree hm
  have hord : i.program.arena.Ordered := hnumbered.ordered
  let g := Scoping.anyNames i.program fun path n => (imports.find? path (interner'.text n)).isSome
  have hknown : ∀ cl, m.Admits cl → ∀ s, g.Fits s cl := fun cl hcl s =>
    let ⟨ctx, hbody⟩ := hcl.body.accepted hord (Module.accepted_of_resolve hnumbered hres)
    ⟨hcl.distinct, fun _ _ => trivial, ctx, hbody, Scoping.shows_anyNames⟩
  have hadmits : i.program.HostOnly m.Admits := ⟨hhost, hfunctions⟩
  have htrusts : g.TrustsHost := hadmits.mono hknown
  have hload : i.Loads g m.Admits m :=
    loads_new hnumbered hres rfl hknown (fun c n b hb => ⟨hstore c n b hb, fun _ => trivial⟩)
      (fun _ _ => trivial) Scoping.shows_anyNames fun _ _ => .inl trivial
  refine ⟨fun t n b h => ?_, ?_, fun x hx => ?_, written⟩
  · obtain ⟨hnone, hgrows⟩ := h.fresh hord htrusts hload hcalls
    exact ⟨hnone, hgrows.keepsConstants⟩
  · exact (grows_after hord htrusts hload hcalls).keepsConstants
  · have hfits := hx.fits hord htrusts hload hcalls
    exact ((hfits.arrives hord htrusts).grows.trans
      (hx.grows hord htrusts hload hcalls)).keepsConstants

/-- `let variable f = main; function main(g) { set f = g }` -/
def keeping : Tree.File :=
  ⟨"", [.binding "f" true none (.node (.ident "main") [] .dummy) .dummy,
    .function "main" [⟨"g", .dummy, none⟩] none
      (.node (.block [.set "f" (.node (.ident "g") [] .dummy) .dummy]) [] .dummy) .dummy]⟩

/-- A text is kept. -/
theorem keeping_binds_once : ∃ m interner types interner',
    (Module.ofTree keeping .new = (.ok m, interner) ∧
      m.resolve .core interner = (types, [], interner')) ∧
    ∀ t n b, (new m.arena interner' types ⟨default, none, none⟩ .empty).Declares m 9
      [⟨"main", [.string "a"], 9⟩] t n b → t.store.binding? t.env.current n = none := by
  have hok : (keeping.resolved? .core).isSome := by decide +kernel
  obtain ⟨⟨m, types, interner'⟩, hok⟩ := Option.isSome_iff_exists.1 hok
  obtain ⟨interner, hm, hres⟩ := Tree.File.of_resolved? hok
  refine ⟨m, interner, types, interner', ⟨hm, hres⟩, fun t n b h => ?_⟩
  have hstore : Store.empty.Only m.Admits := fun c n b hb => by cases hb
  have hhost : ∀ h, (none : Option Host) = some h → h.Only m.Admits := nofun
  have hcalls : ((new m.arena interner' types ⟨default, none, none⟩ .empty).load m 9).2.Supplied
      m.Admits [⟨"main", [.string "a"], 9⟩] := supplied_of_only (by simp [Value.only_string])
  exact ((binds_once hm hres hstore hhost HostFunctions.only_none hcalls).1 t n b h).1

/-- `let variable f = main; function main(g) { set f = g() }` -/
def keepingResult : Tree.File :=
  ⟨"", [.binding "f" true none (.node (.ident "main") [] .dummy) .dummy,
    .function "main" [⟨"g", .dummy, none⟩] none
      (.node (.block [.set "f" (.node (.ident "g") [.call [] .dummy] .dummy) .dummy]) [] .dummy)
      .dummy]⟩

/-- A closure with two parameters of one name, which it does not check. -/
def repeating : Closure := ⟨⟨0⟩, none, List.replicate 2 ⟨.empty, none, .dummy⟩, none, ⟨0⟩, ⟨0⟩⟩

/-- A call of it binds the name where it is bound already. -/
theorem exists_defines_again {p : Program} (hlimit : p.limits.callDepth = none) (fuel : Nat)
    (s : Machine) : ∃ t n b,
      Moment.Defines p ⟨fuel, .call (.closure repeating) [.action, .action] .dummy, s⟩ t n b ∧
        t.store.binding? t.env.current n ≠ none := by
  obtain ⟨calls, hpush⟩ : ∃ calls, s.calls.push p.limits.callDepth
      ⟨Eval.callName p repeating, some .dummy⟩ = .ok calls := ⟨_, by rw [hlimit]; rfl⟩
  let t := s.inCall repeating calls
  have hlt : t.env.current.index < t.store.cells.size := (Eval.new_inBody _ _ _ _).lt_size
  have hbound := (Store.binds_define hlt .empty .action false).bound _ (List.mem_singleton_self _)
  refine ⟨{ t with store := t.store.define t.env.current .empty .action false }, .empty, _,
    .param rfl rfl hpush ⟨[_], _, [], _, rfl, rfl, rfl⟩, ?_⟩
  exact Option.isSome_iff_ne_none.1 hbound

/-- Where the variable `f` of an accepted file has that closure for its value behind some calls,
another call binds a name twice. -/
theorem exists_declares_again (file : Tree.File) (functions : HostFunctions) (calls : List Call)
    (hkept : (file.resolved? .core).any fun found =>
      let i := new found.1.arena found.2.2 found.2.1 ⟨default, none, none⟩ .empty functions
      (((i.load found.1 9).2.after calls).lookup? "f").any (Value.isClosure repeating)) :
    ∃ m interner types interner', Module.ofTree file .new = (.ok m, interner) ∧
      m.resolve .core interner = (types, [], interner') ∧ ∃ t n b,
        (new m.arena interner' types ⟨default, none, none⟩ .empty functions).Declares m 9
          (calls ++ [⟨"f", [.action, .action], 9⟩]) t n b ∧
        t.store.binding? t.env.current n ≠ none := by
  obtain ⟨⟨m, types, interner'⟩, hok, hkept⟩ := (Option.any_eq_true _ _).1 hkept
  obtain ⟨interner, hm, hres⟩ := Tree.File.of_resolved? hok
  obtain ⟨v, hv, hrepeating⟩ := (Option.any_eq_true _ _).1 hkept
  obtain rfl := Value.isClosure_iff.1 hrepeating
  let i := new m.arena interner' types ⟨default, none, none⟩ .empty functions
  obtain ⟨t, n, b, hdefines, hbound⟩ :=
    exists_defines_again (p := i.program) rfl 9 ((i.load m 9).2.after calls).machine
  exact ⟨m, interner, types, interner', hm, hres, t, n, b,
    .moment (.call rfl hv .root) hdefines, hbound⟩

/-- **The parameters of a closure that was not declared can repeat a name, and then it is bound
twice**, whether the closure is an argument or a function of the host makes it up. -/
theorem parameter_bound_twice :
    (¬ ∀ (file : Tree.File) (m : Module) (interner interner' : Interner) (types : TypeTable)
      (calls : List Call), Module.ofTree file .new = (.ok m, interner) →
      m.resolve .core interner = (types, [], interner') →
      ∀ t n b, (new m.arena interner' types ⟨default, none, none⟩ .empty).Declares m 9 calls t n b →
        t.store.binding? t.env.current n = none) ∧
    ¬ ∀ (file : Tree.File) (m : Module) (interner interner' : Interner) (types : TypeTable)
      (functions : HostFunctions) (calls : List Call),
      Module.ofTree file .new = (.ok m, interner) →
      m.resolve .core interner = (types, [], interner') →
      (∀ c ∈ calls, ∀ v ∈ c.args, v.Only fun _ => False) →
      ∀ t n b, (new m.arena interner' types ⟨default, none, none⟩ .empty functions).Declares m 9
        calls t n b → t.store.binding? t.env.current n = none := by
  refine ⟨fun h => ?_, fun h => ?_⟩
  · obtain ⟨m, interner, types, interner', hm, hres, t, n, b, hdeclares, hbound⟩ :=
      exists_declares_again keeping .none [⟨"main", [.closure repeating], 9⟩] (by decide +kernel)
    exact hbound (h keeping m interner interner' types _ hm hres t n b hdeclares)
  · let calls : List Call := [⟨"main", [.native ⟨"repeating", 0, .host 0⟩], 9⟩]
    obtain ⟨m, interner, types, interner', hm, hres, t, n, b, hdeclares, hbound⟩ :=
      exists_declares_again keepingResult (fun _ _ => .ok (.closure repeating)) calls
        (by decide +kernel)
    have hplain : ∀ c ∈ calls ++ [⟨"f", [.action, .action], 9⟩], ∀ v ∈ c.args,
        v.Only fun _ => False := by
      simp [calls, Value.only_native, Value.only_action]
    exact hbound (h keepingResult m interner interner' types _ _ hm hres hplain t n b hdeclares)

end Interpreter

end SignalLang
