import SignalLang.Proofs.HoistedValues
import SignalLang.Proofs.Rearrangement
import SignalLang.Proofs.Renumbering
import SignalLang.Proofs.Transcripts

/-!
# The order of declarations

At the top level of a module, the order of declarations means nothing, but for that of the `let`s.
The order shows in the places of types and in the identities of closures, and nobody sees these.

* `Interpreter.mirrors_load` : loading the module with its declarations in another order leads to a
  machine that mirrors the first one.
* `Module.run_rearranged` : **a module does the same with its declarations in another order.**
* `Module.order_shows_in_places` : a host that looks at the places of types can tell the orders
  apart.
-/

namespace SignalLang

namespace Interpreter

variable {r : Renaming} {t t' : TypeTable}

/-! ### New machines -/

theorem freshMachine_eq (h : r.Retypes t t') (interner : Interner) (store : Store) :
    freshMachine t' interner store = freshMachine t interner store := by
  have hname : ∀ b : TypeId, b.index ≤ TypeId.unknown.index → (t'.get b).name = (t.get b).name := by
    intro b hb
    have hname := h.names b
    rwa [r.type_builtin b hb] at hname
  have hbuiltins : builtins t' interner = builtins t interner := by
    simp only [builtins, hname .trueAnswer (by decide), hname .falseAnswer (by decide),
      hname .debug (by decide), hname .assumptionBroken (by decide)]
  simp only [freshMachine, hbuiltins]

/-- The builtins have no place or identity that could change. -/
theorem rename_of_mem_builtins (r : Renaming) {interner : Interner} {b : Name × Value}
    (hb : b ∈ builtins t interner) : b.2.rename r = b.2 := by
  have hconstructor : ∀ id : TypeId, id.index ≤ TypeId.unknown.index →
      (Value.constructor id).rename r = .constructor id :=
    fun id hid => congrArg Value.constructor (r.type_builtin id hid)
  rcases List.mem_append.1 hb with hb | hb
  · simp only [List.mem_cons, List.not_mem_nil, or_false] at hb
    rcases hb with rfl | rfl | rfl | rfl
    · exact Value.rename_boolean r true
    · exact Value.rename_boolean r false
    · exact hconstructor .debug (by decide)
    · exact hconstructor .assumptionBroken (by decide)
  · obtain ⟨n, -, rfl⟩ := List.mem_map.1 hb
    rfl

theorem blank_freshMachine (r : Renaming) (t : TypeTable) (interner : Interner) :
    (freshMachine t interner .empty).Blank r := by
  have hnew := new_freshMachine t interner .empty
  refine ⟨hnew.lt_size, fun n => hnew.free [n] n (List.mem_singleton_self n), fun c n b hb => ?_,
    ?_, rfl⟩
  · rw [hnew.store, Store.binding?_addScope] at hb
    rcases binding?_defineAll hb with hb | ⟨hmem, -⟩
    · cases (Store.binding?_addScope .empty none c n).symm.trans hb
    · exact rename_of_mem_builtins r hmem
  · simp only [freshMachine, Environment.new, Environment.push, Store.addScope,
      Store.nextIdentity_defineAll]
    rfl

end Interpreter

/-! ### Loading -/

namespace Eval

variable {p : Program} {ev : Evaluator}

/-- Binding the `let`s passes over all other declarations. -/
theorem bindAllLets_filter (ds : List DeclId) :
    bindAllLets p ev (ds.filter fun d => !(p.arena.decl d).kind.hoisted) = bindAllLets p ev ds := by
  induction ds with
  | nil => rfl
  | cons d ds ih =>
    rw [List.filter_cons]
    split
    · simp only [bindAllLets, ih]
    · rename_i hd
      have hlet : bindLet p ev d = pure () :=
        bindLet_of_ne fun _ _ _ _ hk => by simp [hk, Code.DeclKind.hoisted] at hd
      simp only [bindAllLets, hlet, pure_bind, ih]

end Eval

namespace Interpreter

variable {r : Renaming} {i i' : Interpreter} {m : Module} {ds : List DeclId}

/-- Behind the hoisted declarations, only the `let`s remain. -/
theorem load_eq_of_hoisted (harena : i.program.arena = m.arena) {s : Machine}
    (hs : Eval.bindAllHoisted i.program m.hoisted i.machine = (.value (), s)) (fuel : Nat) :
    let x := Eval.bindAllLets i.program (Eval.expr i.program fuel)
      (m.decls.filter fun d => !(m.arena.decl d).kind.hoisted)
    i.load m fuel = ((x s).1.settle, { i with machine := (x s).2 }) := by
  rw [Module.hoisted, ← harena, Eval.bindAllHoisted_filter] at hs
  rw [← harena, Eval.bindAllLets_filter]
  simp only [load, run, Eval.bindModule, Bind.bind, Eval.bind, hs]

/-- Loading the module with its declarations in another order leads to a machine that mirrors the
first one. -/
theorem mirrors_load (hp : i.program.Mirrors r i'.program) (hmachine : i'.machine = i.machine)
    (hblank : i.machine.Blank r) (harena : i.program.arena = m.arena) (hperm : m.decls.Perm ds)
    (hlets : (m.decls.filter fun d => !(m.arena.decl d).kind.hoisted) =
      ds.filter fun d => !(m.arena.decl d).kind.hoisted)
    (hprovides : ∀ d ∈ m.hoisted, i.program.Provides d) (hnodup : m.decls.Nodup)
    (hnames : (m.hoisted.flatMap fun d => (m.arena.decl d).kind.bound).Nodup)
    (hr : r.identity = reindexed (m.hoisted.filter fun d => (m.arena.decl d).kind.isFunction)
      ((m.rearranged ds).hoisted.filter fun d => (m.arena.decl d).kind.isFunction)) (fuel : Nat) :
    (i.load m fuel).1.Mirrors r Eq (i'.load (m.rearranged ds) fuel).1 ∧
      (i.load m fuel).2.Mirrors r (i'.load (m.rearranged ds) fuel).2 := by
  obtain ⟨s, s', hs, hs', hmirrors⟩ := Eval.mirrors_hoisted hp (Module.hoisted_perm hperm)
    (fun d hd => harena ▸ (List.mem_filter.1 hd).2) hprovides (hnodup.filter _) (harena ▸ hnames)
    (harena ▸ hr) hblank
  rw [← hmachine] at hs'
  obtain ⟨ho, ht⟩ := Eval.mirrors_bindAllLets hp (Eval.mirrors_expr hp fuel)
    (m.decls.filter fun d => !(m.arena.decl d).kind.hoisted) s s' hmirrors
  rw [load_eq_of_hoisted harena hs,
    load_eq_of_hoisted (m := m.rearranged ds) (hp.arena.trans harena) hs', ← hlets]
  exact ⟨ho.settle, hp, ht⟩

/-- The call that follows does the same. -/
theorem mirrors_loadAndCall {m' : Module} {fuel : Nat}
    (h : (i.load m fuel).1.Mirrors r Eq (i'.load m' fuel).1 ∧
      (i.load m fuel).2.Mirrors r (i'.load m' fuel).2) (entry : String) :
    (i.loadAndCall m entry fuel).1.Mirrors r (Eval.Renamed r) (i'.loadAndCall m' entry fuel).1 ∧
      (i.loadAndCall m entry fuel).2.Mirrors r (i'.loadAndCall m' entry fuel).2 := by
  obtain ⟨ho, hi⟩ := h
  unfold loadAndCall
  generalize i.load m fuel = x, i'.load m' fuel = x' at ho hi
  obtain ⟨o, j⟩ := x
  obtain ⟨o', j'⟩ := x'
  cases ho with
  | value => exact hi.call entry [] fuel
  | interrupt e => exact ⟨.interrupt e, hi⟩
  | outOfFuel => exact ⟨.outOfFuel, hi⟩

end Interpreter

/-! ### Modules -/

section

variable {file : Tree.File} {interner₀ interner interner' : Interner} {m : Module}
  {ds : List DeclId} {imports : Imports} {types : TypeTable}

/-- What is imported into a module without errors, and the types that it declares, are there when it
is loaded. -/
theorem Module.provides_of_resolve (hm : m.IsForest) (himports : imports.FromLibrary)
    (hres : m.resolve imports interner = (types, [], interner')) (settings : Settings) :
    ∀ d ∈ m.hoisted,
      (Interpreter.new m.arena interner' types settings .empty).program.Provides d := by
  obtain ⟨hoists, -, -⟩ := Module.accepted_of_resolve hm.numbered hres
  rw [Resolve.hoistedDecls_map_decl] at hoists
  intro d hd
  refine ⟨fun path items hk item hitem => ?_, hoists.types d hd⟩
  obtain ⟨s, hs⟩ := Option.isSome_iff_exists.1 (hoists.imports d hd path items hk item hitem)
  obtain ⟨n, hn, -⟩ := himports.find? hs
  exact Option.isSome_iff_exists.2 ⟨n, hn⟩

/-- The hoisted declarations of a module without errors bind different names. -/
theorem Module.nodup_bound_of_resolve (hm : m.IsForest)
    (hres : m.resolve imports interner = (types, [], interner')) :
    (m.hoisted.flatMap fun d => (m.arena.decl d).kind.bound).Nodup := by
  have haccepted := Module.accepted_of_resolve hm.numbered hres
  rw [m.context_eq_nested] at haccepted
  have hnodup := haccepted.nodup
  rw [Resolve.hoistedDecls_map_decl] at hnodup
  exact (List.nodup_append.1 hnodup).1

/-- **A module does the same with its declarations in another order.**  If no error is found in the
module, and the `let`s keep their order, then none is found in the other order, and whatever the
settings, the entry and the amount of fuel, the two runs look the same, if the host answers nothing
but numbers, strings, booleans and `Action`.

The types have other places, and closures other identities.  A host that looks at these is meant to
see them renamed, as `Host.Alike` says; a host that does not is the same in both runs, as
`Host.Blind` says.  Functions of the host do not occur: it answers with none, and the entry gets no
arguments. -/
theorem Module.run_rearranged (hm : Module.ofTree file interner₀ = (.ok m, interner))
    (himports : imports.FromLibrary) (hperm : m.decls.Perm ds)
    (hlets : (m.decls.filter fun d => !(m.arena.decl d).kind.hoisted) =
      ds.filter fun d => !(m.arena.decl d).kind.hoisted)
    (hres : m.resolve imports interner = (types, [], interner')) :
    ∃ types', (m.rearranged ds).resolve imports interner = (types', [], interner') ∧
      ∃ r : Renaming, r.Retypes types types' ∧
        ∀ mode loopRounds host host', (∀ h : Host, host = some h → h.Plain) →
          Option.Rel (Host.Alike r) host host' → ∀ entry fuel,
            Interpreter.transcript ((Interpreter.new m.arena interner' types'
              ⟨mode, loopRounds, host'⟩ .empty).loadAndCall (m.rearranged ds) entry fuel) =
            Interpreter.transcript ((Interpreter.new m.arena interner' types
              ⟨mode, loopRounds, host⟩ .empty).loadAndCall m entry fuel) := by
  have hforest := Module.isForest_of_ofTree hm
  obtain ⟨types', hres'⟩ := hforest.resolve_rearranged himports hperm hlets hres
  have hnames := hforest.typeNamesDiffer (Module.clean_of_resolve hres)
  have hretypes := hforest.retypes hperm hnames hres hres'
  have hnodup := hforest.owes.nodup_top
  -- closures are numbered in the order of the functions
  let r : Renaming :=
    { hforest.renumbering hperm hres hres' with
      identity := reindexed (m.hoisted.filter fun d => (m.arena.decl d).kind.isFunction)
        ((m.rearranged ds).hoisted.filter fun d => (m.arena.decl d).kind.isFunction)
      identity_injective := reindexed_injective ((hnodup.filter _).filter _)
        ((Module.hoisted_perm hperm).filter _) }
  have htypes : r.Retypes types types' :=
    ⟨hretypes.kinds, hretypes.names, hretypes.refs, hretypes.declTypes⟩
  refine ⟨types', hres', r, htypes, fun mode loopRounds host host' hplain hhost entry fuel => ?_⟩
  let i := Interpreter.new m.arena interner' types ⟨mode, loopRounds, host⟩ .empty
  let i' := Interpreter.new m.arena interner' types' ⟨mode, loopRounds, host'⟩ .empty
  have hp : i.program.Mirrors r i'.program := by
    refine ⟨rfl, rfl, htypes, rfl, ?_, HostFunctions.mirrors_none r⟩
    change Option.Rel (Host.Mirrors r) host host'
    cases hhost with
    | none => exact .none
    | some halike => exact .some (halike.mirrors (hplain _ rfl))
  have hload := Interpreter.mirrors_load hp
    (Interpreter.freshMachine_eq htypes interner' .empty)
    (Interpreter.blank_freshMachine r types interner') rfl hperm hlets
    (Module.provides_of_resolve hforest himports hres _) hnodup
    (Module.nodup_bound_of_resolve hforest hres) rfl fuel
  obtain ⟨ho, hi⟩ := Interpreter.mirrors_loadAndCall hload entry
  exact hi.transcript_eq ho

/-- What the value in a transcript is displayed as, if there is one. -/
def Transcript.text? (t : Transcript) : Option String :=
  match t.result with
  | some (.ok s) => some s
  | _ => none

theorem Transcript.result_of_text? {t : Transcript} {s : String} (h : t.text? = some s) :
    t.result = some (.ok s) := by
  unfold text? at h
  split at h
  · rename_i s' hs
    rw [hs, Option.some.inj h]
  · cases h

/-- `signal Ask(): String; object Box(content: Anything); let asked = cause Ask;
function main() Box(asked)` -/
def boxedAnswer : Tree.File :=
  ⟨"", [.signal "Ask" [] (some (.named "String" .dummy)) .dummy,
    .object "Box" [⟨"content", .dummy, .named "Anything" .dummy⟩] .dummy,
    .binding "asked" false none
      (.node (.cause (.node (.ident "Ask") [] .dummy)) [] .dummy) .dummy,
    .function "main" [] none (.node (.ident "Box")
      [.call [.node (.ident "asked") [] .dummy] .dummy] .dummy) .dummy]⟩

/-- The host is asked about `Ask` once, and its answer ends up in the box, also if the declarations
stand the other way round. -/
theorem Module.boxedAnswer_rearranged : ∃ m interner types interner' types',
    (Module.ofTree boxedAnswer .new = (.ok m, interner) ∧
      m.resolve .core interner = (types, [], interner')) ∧
    m.decls.reverse ≠ m.decls ∧
    (m.rearranged m.decls.reverse).resolve .core interner = (types', [], interner') ∧
    let host : Host := .byRules [⟨"Ask", [some (.string "a")]⟩]
    let seen := Interpreter.transcript ((Interpreter.new m.arena interner' types
      ⟨default, none, some host⟩ .empty).loadAndCall m "main" 20)
    seen.result = some (.ok "Box(content: a)") ∧ seen.asked = [⟨"Ask", []⟩] ∧
      Interpreter.transcript ((Interpreter.new m.arena interner' types'
        ⟨default, none, some host⟩ .empty).loadAndCall (m.rearranged m.decls.reverse) "main" 20) =
          seen := by
  have hok : (boxedAnswer.resolved? .core).any fun found =>
      let m := found.1
      let seen := Interpreter.transcript ((Interpreter.new m.arena found.2.2 found.2.1
        ⟨default, none, some (.byRules [⟨"Ask", [some (.string "a")]⟩])⟩ .empty).loadAndCall m
          "main" 20)
      let isLet d := !(m.arena.decl d).kind.hoisted
      decide (m.decls.reverse ≠ m.decls) &&
        decide (m.decls.filter isLet = m.decls.reverse.filter isLet) &&
        decide (seen.asked = [⟨"Ask", []⟩]) && decide (seen.text? = some "Box(content: a)") := by
    decide +kernel
  obtain ⟨⟨m, types, interner'⟩, hok, hchecks⟩ := (Option.any_eq_true _ _).1 hok
  obtain ⟨interner, hm, hres⟩ := Tree.File.of_resolved? hok
  simp only [Bool.and_eq_true, decide_eq_true_eq] at hchecks
  obtain ⟨⟨⟨hne, hlets⟩, hasked⟩, hresult⟩ := hchecks
  have hplain : (Host.byRules [⟨"Ask", [some (.string "a")]⟩]).Plain :=
    Host.plain_byRules (by simpa using Value.Plain.string "a")
  obtain ⟨types', hres', r, -, hsame⟩ := Module.run_rearranged hm Imports.fromLibrary_core
    (List.reverse_perm m.decls).symm hlets hres
  refine ⟨m, interner, types, interner', types', ⟨hm, hres⟩, hne, hres',
    Transcript.result_of_text? hresult, hasked, ?_⟩
  refine hsame default none _ _ (fun h hh => ?_) (.some (Host.blind_byRules _ r)) "main" 20
  obtain rfl := Option.some.inj hh
  exact hplain

/-! ### A host that looks at the places of types -/

/-- Answers a signal with the place of its type. -/
def Host.placeOfType : Host :=
  .responding fun _ q => q.signal.type?.map fun id => .number id.index.toFloat

theorem Host.plain_placeOfType : placeOfType.Plain := by
  rintro earlier q v hv
  obtain ⟨id, -, rfl⟩ := Option.map_eq_some_iff.1 hv
  exact .number _

/-- `signal Ask(): Number; object Box(content: Anything); function main() cause Ask` -/
def askedPlace : Tree.File :=
  ⟨"", [.signal "Ask" [] (some (.named "Number" .dummy)) .dummy,
    .object "Box" [⟨"content", .dummy, .named "Anything" .dummy⟩] .dummy,
    .function "main" [] none (.node (.cause (.node (.ident "Ask") [] .dummy)) [] .dummy) .dummy]⟩

/-- A host that looks at the place of a type sees the order of the declarations.  If it answers with
that place, the two runs end with different numbers, although it answers with numbers only. -/
theorem Module.order_shows_in_places : ∃ m interner types interner' types',
    (Module.ofTree askedPlace .new = (.ok m, interner) ∧
      m.resolve .core interner = (types, [], interner')) ∧
    (m.decls.filter fun d => !(m.arena.decl d).kind.hoisted) =
      (m.decls.reverse.filter fun d => !(m.arena.decl d).kind.hoisted) ∧
    (m.rearranged m.decls.reverse).resolve .core interner = (types', [], interner') ∧
    Host.placeOfType.Plain ∧
    let settings : Settings := ⟨default, none, some .placeOfType⟩
    (Interpreter.transcript ((Interpreter.new m.arena interner' types
      settings .empty).loadAndCall m "main" 20)).result = some (.ok "11") ∧
    (Interpreter.transcript ((Interpreter.new m.arena interner' types'
      settings .empty).loadAndCall (m.rearranged m.decls.reverse) "main" 20)).result =
        some (.ok "12") := by
  have hok : (askedPlace.resolved? .core).any fun found =>
      let m : Module := found.1
      let other : Module := m.rearranged m.decls.reverse
      let settings : Settings := ⟨default, none, some .placeOfType⟩
      let seen (m : Module) (types : TypeTable) := Interpreter.transcript
        ((Interpreter.new m.arena found.2.2 types settings .empty).loadAndCall m "main" 20)
      let isLet (d : DeclId) : Bool := !(m.arena.decl d).kind.hoisted
      decide (m.decls.filter isLet = m.decls.reverse.filter isLet) &&
        decide ((seen m found.2.1).text? = some "11") &&
        decide ((seen other (other.resolve .core (Module.ofTree askedPlace .new).2).1).text? =
          some "12") := by
    decide +kernel
  obtain ⟨⟨m, types, interner'⟩, hok, hchecks⟩ := (Option.any_eq_true _ _).1 hok
  obtain ⟨interner, hm, hres⟩ := Tree.File.of_resolved? hok
  simp only [Bool.and_eq_true, decide_eq_true_eq, hm] at hchecks
  obtain ⟨⟨hlets, hresult⟩, hother⟩ := hchecks
  obtain ⟨types', hres'⟩ := (Module.isForest_of_ofTree hm).resolve_rearranged
    Imports.fromLibrary_core (List.reverse_perm m.decls).symm hlets hres
  rw [hres'] at hother
  exact ⟨m, interner, types, interner', types', ⟨hm, hres⟩, hlets, hres', Host.plain_placeOfType,
    Transcript.result_of_text? hresult, Transcript.result_of_text? hother⟩

end

end SignalLang
