import SignalLang.Proofs.Constants
import SignalLang.Proofs.States

/-!
# Declared types of `let`s

A `let` checks its value against the type that it declares.  A `set` checks nothing, so a variable
is of its declared type only as long as no `set` gives it a value of another one.

* `Interpreter.declared_until_set` : **what a `let` binds is of the declared type, and is there in
  every state of the run, but for what a `set` has put in its place.**
-/

namespace SignalLang

/-- The scope in which a `let` binds its name is there. -/
theorem Moment.Binds.current_lt_size {p : Program} {w : Writes} {g : Scoping p} {z : Moment}
    {d : DeclId} {t : Machine} {v : Value} (h : z.Binds p d t v) (hl : z.Listed p w)
    (hz : z.Fits g) : t.env.current.index < t.store.cells.size := by
  have hsize := (h.written_to hl).size_le
  cases h with
  | stmt _ _ hv _ =>
    cases hz with
    | stmts _ hs _ _ _ =>
      rw [(Eval.balanced_expr _ _).env_eq hv]
      exact Nat.lt_of_lt_of_le hs.fits.current hsize
  | module _ hv _ =>
    cases hz with
    | lets _ hs _ =>
      rw [(Eval.balanced_expr _ _).env_eq hv]
      exact Nat.lt_of_lt_of_le hs.fits.current hsize

namespace Interpreter

variable {file : Tree.File} {interner₀ interner interner' : Interner} {m : Module}
  {imports : Imports} {types : TypeTable} {settings : Settings} {store : Store}
  {functions : HostFunctions} {fuel : Nat} {calls : List Call}

/-- If all closures from outside are admitted, a run of an accepted module can be followed with any
names. -/
theorem exists_loads_of_admits (hm : Module.ofTree file interner₀ = (.ok m, interner))
    (hres : m.resolve imports interner = (types, [], interner'))
    (hstore : store.Only m.Admits) (hhost : ∀ h, settings.host = some h → h.Only m.Admits)
    (hfunctions : functions.Only m.Admits) :
    let i := new m.arena interner' types settings store functions
    ∃ g : Scoping i.program, g.TrustsHost ∧ i.Loads g m.Admits m := by
  intro i
  have hnumbered := Module.numbered_of_ofTree hm
  let g := Scoping.anyNames i.program fun path n => (imports.find? path (interner'.text n)).isSome
  have hknown : ∀ cl, m.Admits cl → ∀ s, g.Fits s cl := fun cl hcl s =>
    let ⟨ctx, hbody⟩ := hcl.body.accepted hnumbered.ordered
      (Module.accepted_of_resolve hnumbered hres)
    ⟨hcl.distinct, fun _ _ => trivial, ctx, hbody, Scoping.shows_anyNames⟩
  have hadmits : i.program.HostOnly m.Admits := ⟨hhost, hfunctions⟩
  exact ⟨g, hadmits.mono hknown,
    loads_new hnumbered hres rfl hknown (fun c n b hb => ⟨hstore c n b hb, fun _ => trivial⟩)
      (fun _ _ => trivial) Scoping.shows_anyNames fun _ _ => .inl trivial⟩

/-- A binding is the one that was made in the current scope of a machine, or that is one of a
variable and a `set` of the run has put its value in the place of the first one. -/
inductive StemsFrom (i : Interpreter) (m : Module) (fuel : Nat) (calls : List Call) (t : Machine)
    (n : Name) (b : Binding) : Binding → Prop
  | same : StemsFrom i m fuel calls t n b b
  | set {u v} (hvariable : b.isVariable = true) (hset : i.Sets m fuel calls u n v)
      (howner : u.store.owner u.env.current n = .ok t.env.current) :
      StemsFrom i m fuel calls t n b ⟨v, true⟩

/-- **A declared type is respected until a `set`.**  Let a file be accepted, loaded and used in any
number of calls, and let all closures that come from outside be admitted.  Whenever a `let` binds
its name, the value is of the type that the `let` declares, if it declares one.  In every state of
the run, if the name is bound in that scope, the binding is that of the `let`, or the name is a
variable and a `set` has put the value there. -/
theorem declared_until_set (hm : Module.ofTree file interner₀ = (.ok m, interner))
    (hres : m.resolve imports interner = (types, [], interner'))
    (hstore : store.Only m.Admits) (hhost : ∀ h, settings.host = some h → h.Only m.Admits)
    (hfunctions : functions.Only m.Admits)
    (hcalls : ((new m.arena interner' types settings store functions).load m fuel).2.Supplied
      m.Admits calls) :
    let i := new m.arena interner' types settings store functions
    ∀ z d t v n isVariable type e, i.Visits m fuel calls z → z.Binds i.program d t v →
      (m.arena.decl d).kind = .binding n isVariable type e →
      (∀ ty, type.bind types.resolved? = some ty → v.hasType types ty) ∧
      ∀ s, i.Passes m fuel calls s → ∀ b, s.store.binding? t.env.current n = some b →
        i.StemsFrom m fuel calls t n ⟨v, isVariable⟩ b := by
  intro i z d t v n isVariable type e hz hbinds hd
  refine ⟨fun ty hty => hbinds.hasType hd hty, fun s hs b hb => ?_⟩
  have hord : i.program.arena.Ordered := (Module.numbered_of_ofTree hm).ordered
  obtain ⟨g, htrusts, hload⟩ := exists_loads_of_admits hm hres hstore hhost hfunctions
  have hfresh : ∀ {t n b}, i.Declares m fuel calls t n b →
      t.store.binding? t.env.current n = none := fun h => (h.fresh hord htrusts hload hcalls).1
  have hnone := hfresh (.moment hz (hbinds.defines hd))
  have hcurrent := hbinds.current_lt_size hz.listed (hz.fits hord htrusts hload hcalls)
  rcases hbinds.divides hz hd hs with hbefore | hbehind
  · -- what is bound before stays bound
    have hsome := hbefore.isSome_binding? (by rw [hb]; rfl)
    rw [hnone] at hsome
    cases hsome
  · have hdefined : (t.store.define t.env.current n v isVariable).binding? t.env.current n =
        some ⟨v, isVariable⟩ := by simp [Store.binding?_define, hcurrent]
    have hstems : ∃ b, s.store.binding? t.env.current n = some b ∧
        i.StemsFrom m fuel calls t n ⟨v, isVariable⟩ b := by
      refine hbehind.binding_induction
        (motive := fun o => ∃ b, o = some b ∧ i.StemsFrom m fuel calls t n ⟨v, isVariable⟩ b)
        ⟨_, hdefined, .same⟩ ?_ ?_
      · -- the scope binds the name already, so no declaration does
        rintro u b' hu hdeclares ⟨b, hb, -⟩
        have hunbound := hfresh hdeclares
        rw [hu, hb] at hunbound
        cases hunbound
      · rintro u value howner hset ⟨b, hb, hstems⟩
        obtain ⟨old, hold⟩ := Store.owner_eq_ok howner
        cases hb.symm.trans hold
        refine ⟨_, rfl, .set ?_ hset howner⟩
        cases hstems with
        | same => rfl
        | set hvariable _ _ => exact hvariable
    obtain ⟨b', hb', hstems⟩ := hstems
    cases hb.symm.trans hb'
    exact hstems

/-- `let variable x: Number = 1; function main() { set x = "a" }` -/
def retyping : Tree.File :=
  ⟨"", [.binding "x" true (some (.named "Number" .dummy)) (.node (.number "1") [] .dummy) .dummy,
    .function "main" [] none
      (.node (.block [.set "x" (.node (.string "\"a\"") [] .dummy) .dummy]) [] .dummy) .dummy]⟩

/-- A declaration gives a variable of some declared type a value of this type in a machine, and what
it is bound to in a store behind that is a text that is not of this type. -/
def retypes (p : Program) (fuel : Nat) (d : DeclId) (s : Machine) (last : Store) (text : String) :
    Bool :=
  match (p.arena.decl d).kind with
  | .binding n true (some type) e =>
    match Eval.expr p fuel e s, p.types.resolved? type with
    | (.value v, t), some ty =>
      v.hasType p.types ty && !(Value.string text).hasType p.types ty &&
        match last.binding? t.env.current n with
        | some ⟨.string x, true⟩ => x = text
        | _ => false
    | _, _ => false
  | _ => false

theorem exists_of_retypes {p : Program} {fuel : Nat} {d : DeclId} {s : Machine} {last : Store}
    {text : String} (h : retypes p fuel d s last text) : ∃ n type e v t ty,
      (p.arena.decl d).kind = .binding n true (some type) e ∧
      Eval.expr p fuel e s = (.value v, t) ∧ p.types.resolved? type = some ty ∧
      v.hasType p.types ty ∧ ¬ (Value.string text).hasType p.types ty ∧
      last.binding? t.env.current n = some ⟨.string text, true⟩ := by
  unfold retypes at h
  split at h
  · rename_i n type e hd
    split at h
    · rename_i v t ty hv hty
      simp only [Bool.and_eq_true, Bool.not_eq_true'] at h
      obtain ⟨⟨hgood, hbad⟩, h⟩ := h
      split at h
      · rename_i x hb
        obtain rfl := of_decide_eq_true h
        exact ⟨n, type, e, v, t, ty, hd, hv, hty, hgood, by simp [hbad], hb⟩
      · cases h
    · cases h
  · cases h

/-- The first `let` of a module retypes its variable in a call of `main`. -/
def retypesFirst (i : Interpreter) (m : Module) : Bool :=
  match m.decls, Eval.bindAllHoisted i.program m.decls i.machine with
  | d :: _, (.value (), s) => retypes i.program 9 d s
    ((i.load m 9).2.after [⟨"main", [], 9⟩]).machine.store "a"
  | _, _ => false

/-- The `set` puts a text where a number was declared. -/
theorem retyping_declared_until_set : ∃ m interner types interner',
    (Module.ofTree retyping .new = (.ok m, interner) ∧
      m.resolve .core interner = (types, [], interner')) ∧
    let i := new m.arena interner' types ⟨default, none, none⟩ .empty
    ∃ z d t v n type ty e u, i.Visits m 9 [⟨"main", [], 9⟩] z ∧ z.Binds i.program d t v ∧
      (m.arena.decl d).kind = .binding n true (some type) e ∧ types.resolved? type = some ty ∧
      v.hasType types ty ∧ i.Sets m 9 [⟨"main", [], 9⟩] u n (.string "a") ∧
      u.store.owner u.env.current n = .ok t.env.current ∧
      ¬ (Value.string "a").hasType types ty := by
  have hrun : (retyping.resolved? .core).any fun found =>
      let i := new found.1.arena found.2.2 found.2.1 ⟨default, none, none⟩ .empty
      i.retypesFirst found.1 := by decide +kernel
  obtain ⟨⟨m, types, interner'⟩, hok, hrun⟩ := (Option.any_eq_true _ _).1 hrun
  obtain ⟨interner, hm, hres⟩ := Tree.File.of_resolved? hok
  let i := new m.arena interner' types ⟨default, none, none⟩ .empty
  dsimp only at hrun
  unfold retypesFirst at hrun
  split at hrun
  · rename_i d ds s hdecls hs
    obtain ⟨n, type, e, v, t, ty, hd, hv, hty, hgood, hbad, hb⟩ := exists_of_retypes hrun
    have hz : i.Visits m 9 [⟨"main", [], 9⟩] ⟨9, .lets m.decls, s⟩ := .load hs .root
    rw [hdecls] at hz
    have hchecked : Eval.checkDeclared i.program (some type) v (i.program.arena.decl d).span t =
        (.value (), t) := by
      have hty' : (some type).bind i.program.types.resolved? = some ty := hty
      have hgood' : v.hasType i.program.types ty = true := hgood
      simp only [Eval.checkDeclared, hty', hgood']
      rfl
    have hbinds : Moment.Binds i.program ⟨9, .lets (d :: ds), s⟩ d t v := .module hd hv hchecked
    have hstore : Store.empty.Only m.Admits := fun c n b hb => by cases hb
    have hhost : ∀ h, (none : Option Host) = some h → h.Only m.Admits := fun _ hh => by cases hh
    have hcalls : (i.load m 9).2.Supplied m.Admits [⟨"main", [], 9⟩] := supplied_of_only (by simp)
    have hpasses : i.Passes m 9 [⟨"main", [], 9⟩]
        ((i.load m 9).2.after [⟨"main", [], 9⟩]).machine := .between (List.append_nil _).symm
    obtain ⟨hdeclared, hstems⟩ := declared_until_set hm hres hstore hhost HostFunctions.only_none
      hcalls _ d t v n true (some type) e hz hbinds hd
    refine ⟨m, interner, types, interner', ⟨hm, hres⟩, ?_⟩
    -- the text is not of the declared type, so it is not the value of the `let`
    cases hstems _ hpasses _ hb with
    | same => exact absurd (hdeclared ty hty) hbad
    | set _ hset howner =>
      exact ⟨_, d, t, v, n, type, ty, e, _, hz, hbinds, hd, hty, hdeclared ty hty, hset, howner,
        hbad⟩
  · cases hrun

end Interpreter

end SignalLang
