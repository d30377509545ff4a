import SignalLang.Proofs.AnchoredEvaluation
import SignalLang.Proofs.Constants
import SignalLang.Proofs.HoistedValues
import SignalLang.Proofs.NewScopes

/-!
# Chains of scopes in runs

All scopes that a run can refer to have a chain that ends.  Without closures from outside it ends at
the scope of the builtins; with them it may end at a scope that the host brought along, and then the
builtins are out of sight.

* `Anchor.Grounds a t interner store` : the anchor of an interpreter that is made with a store.
* `Interpreter.InUse a i` : an interpreter in use, all values from outside being anchored.
* `Store.InReach s from c` : the scope `c` is on a chain, or was captured by a closure that such a
  scope binds; `Moment.Refers p root π x s` : where such chains begin in a state of a run.
* `Anchor.Leads a s c cs` : from `c` outwards the scopes are `cs`, different ones up to an end, so
  that reading and writing names comes to an end, too.
* `Interpreter.scope_chains_end` : **every scope in reach has such a chain, in all states of all
  runs.**
* `Interpreter.foreign_chain_ends_apart` : a closure from outside can have one that does not end at
  the scope of the builtins.
-/

namespace SignalLang

variable {a : Anchor} {p : Program}

/-! ### New interpreters -/

/-- The builtins are bound in the scope that is created behind a store, and nothing else is.  In
that store, chains from scopes from outside have an end and come to such scopes only, and closures
that these bind captured such scopes only. -/
structure Anchor.Grounds (a : Anchor) (t : TypeTable) (interner : Interner) (store : Store) :
    Prop where
  root : a.root = ⟨store.cells.size⟩
  bound : ∀ n, a.bound n =
    ((Interpreter.builtins t interner).reverse.lookup n).map fun v => ⟨v, false⟩
  foreign_chain : ∀ c, a.foreign c → ∃ cs, store.ChainFrom c cs ∧ ∀ d ∈ cs, a.foreign d
  foreign_values : ∀ c n b, a.foreign c → store.binding? c n = some b →
    b.value.Only fun k => a.foreign k.captured

/-- Where no scope comes from outside. -/
def Anchor.alone (t : TypeTable) (interner : Interner) (store : Store) : Anchor where
  root := ⟨store.cells.size⟩
  bound n := ((Interpreter.builtins t interner).reverse.lookup n).map fun v => ⟨v, false⟩
  foreign _ := False
  constant n b hb := by
    obtain ⟨v, -, rfl⟩ := Option.map_eq_some_iff.1 hb
    rfl
  foreign_lt := nofun

theorem Anchor.grounds_alone (t : TypeTable) (interner : Interner) (store : Store) :
    (Anchor.alone t interner store).Grounds t interner store :=
  ⟨rfl, fun _ => rfl, nofun, nofun⟩

/-- Of several bindings of one name, the last one counts. -/
theorem Store.binding?_defineAll_self {s : Store} {id : ScopeId} (hid : id.index < s.cells.size)
    (bs : Bindings) (n : Name) : (s.defineAll id bs).binding? id n =
      ((bs.reverse.lookup n).map fun v => ⟨v, false⟩).or (s.binding? id n) := by
  induction bs generalizing s with
  | nil => rfl
  | cons b bs ih =>
    obtain ⟨m, v⟩ := b
    refine (ih (s := s.define id m v false) (by rwa [size_define])).trans ?_
    rw [binding?_define, List.reverse_cons, List.lookup_append]
    cases bs.reverse.lookup n with
    | some w => rfl
    | none =>
      by_cases hn : n = m
      · simp [hn, hid]
      · simp [hn, List.lookup_cons, beq_eq_false_iff_ne.2 hn]

/-- A machine in the scope of a module, the only one inside that of the builtins. -/
theorem Store.Anchored.inModule {store : Store} (h : store.Anchored a) {root : ScopeId}
    (hr : a.root = root) {s : Machine} (hstore : s.store = (store.addScope (some root)).2)
    (henv : s.env = ⟨[(store.addScope (some root)).1], root, root⟩)
    (hhandlers : s.handlers = .empty) (hlog : s.log = .empty) : s.Anchored a := by
  subst hr
  have hs : s.store.Anchored a := hstore ▸ h.addScope h.has_root
  have hlt : store.cells.size < s.store.cells.size := by
    rw [hstore, size_addScope]
    exact Nat.lt_succ_self _
  constructor
  case store => exact hs
  case scopes =>
    rw [henv]
    exact List.forall_mem_cons.2 ⟨.inr ⟨Nat.le_of_lt h.root_lt, hlt⟩,
      List.forall_mem_singleton.2 hs.has_root⟩
  case current =>
    rw [henv]
    exact fun heq => Nat.ne_of_gt h.root_lt (congrArg ScopeId.index heq)
  case root => rw [henv]
  case handlers =>
    rw [hhandlers]
    exact fun f hf => absurd hf List.not_mem_nil
  case questions =>
    rw [hlog]
    exact fun q hq => absurd hq List.not_mem_nil

namespace Interpreter

theorem only_builtins {P : Closure → Prop} {t : TypeTable} {interner : Interner} :
    ∀ b ∈ builtins t interner, b.2.Only P := by
  intro b hb
  rcases List.mem_append.1 hb with hb | hb
  · simp only [List.mem_cons, List.not_mem_nil, or_false] at hb
    rcases hb with rfl | rfl | rfl | rfl
    · exact Value.only_boolean true
    · exact Value.only_boolean false
    · exact Value.only_constructor _
    · exact Value.only_constructor _
  · obtain ⟨f, -, rfl⟩ := List.mem_map.1 hb
    exact Value.only_native f

section

variable {t : TypeTable} {interner : Interner} {store : Store}

/-- The store of a new interpreter, but for the scope of the module. -/
theorem anchored_root (h : a.Grounds t interner store) :
    ((store.addScope none).2.defineAll a.root (builtins t interner)).Anchored a := by
  have hindex : a.root.index = store.cells.size := by rw [h.root]
  have hsize : (store.addScope none).2.cells.size = store.cells.size + 1 := Store.size_addScope ..
  have hlt : a.root.index < (store.addScope none).2.cells.size := by omega
  constructor
  case root_lt => rwa [size_defineAll]
  case root_parent => rw [Store.parent_defineAll, Store.cell_addScope, if_pos hindex]
  case root_bound =>
    intro n
    rw [Store.binding?_defineAll_self hlt, Store.binding?_addScope,
      Store.binding?_of_size_le (Nat.le_of_eq hindex.symm), Option.or_none, h.bound]
  case foreign_chain =>
    intro c hc
    obtain ⟨cs, hcs, hall⟩ := h.foreign_chain c hc
    refine ⟨cs, hcs.mono ?_ fun d hd => ?_, hall⟩
    · rw [size_defineAll, hsize]
      exact Nat.le_succ _
    · rw [Store.parent_defineAll, Store.cell_addScope, if_neg (Nat.ne_of_lt hd)]
  case outer =>
    -- there is no scope behind that of the builtins yet
    intro c hc hc'
    rw [size_defineAll] at hc'
    omega
  case values =>
    intro c n b hc hb
    rcases binding?_defineAll hb with hb | ⟨hmem, -⟩
    · rw [Store.binding?_addScope] at hb
      rcases hc with hc | ⟨hle, -⟩
      · exact (h.foreign_values c n b hc hb).mono fun k hk => .inl hk
      · rw [Store.binding?_of_size_le (hindex ▸ hle)] at hb
        cases hb
    · exact only_builtins _ hmem

/-- A new interpreter has the scope of the builtins, and that of the module inside it. -/
theorem anchored_freshMachine (h : a.Grounds t interner store) :
    (freshMachine t interner store).Anchored a := by
  have hroot := anchored_root h
  generalize hr : a.root = root at hroot
  obtain rfl : root = ⟨store.cells.size⟩ := hr.symm.trans h.root
  exact hroot.inModule hr rfl rfl rfl rfl

end

end Interpreter

/-! ### Interpreters in use -/

/-- All that comes from outside into what begins at a moment is anchored: the arguments, if it is a
call, the answers of the host, and what its functions give. -/
structure Moment.Supplied (a : Anchor) (p : Program) (m : Moment) : Prop where
  args : ∀ callee args span, m.task = .call callee args span →
    ∀ v ∈ args, a.Holds m.machine.store v
  answers : m.AnsweredWithin a p

/-- Without a host nothing comes from outside. -/
theorem Moment.answeredWithin_of_host (hhost : p.host = none) (hfunctions : p.functions = .none)
    (m : Moment) : m.AnsweredWithin a p := by
  rintro π x v - (⟨-, h, -⟩ | hv | ⟨he, -⟩)
  · cases hhost.symm.trans h
  · obtain ⟨entry, hv⟩ := hv.exists
    rw [hfunctions] at hv
    cases hv
    exact Value.only_action
  · obtain ⟨entry, he⟩ := he.exists
    rw [hfunctions] at he
    cases he

/-- The machine behind the `let`s of a module. -/
theorem Moment.result_lets_snd (fuel : Nat) (ds : List DeclId) (s : Machine) :
    (Moment.result p ⟨fuel, .lets ds, s⟩).2 =
      (Eval.bindAllLets p (Eval.expr p fuel) ds s).2 := by
  simp only [Moment.result, Task.eval, Bind.bind, Eval.bind]
  cases Eval.bindAllLets p (Eval.expr p fuel) ds s with
  | mk r u => cases r <;> rfl

namespace Interpreter

/-- An interpreter in use, as in a session, where all that comes from outside is anchored. -/
inductive InUse (a : Anchor) : Interpreter → Prop
  | new {arena interner types settings store functions} (h : a.Grounds types interner store) :
      InUse a (.new arena interner types settings store functions)
  | load {i m fuel} (h : InUse a i)
      (hs : ∀ s, Eval.bindAllHoisted i.program m.decls i.machine = (.value (), s) →
        Moment.Supplied a i.program ⟨fuel, .lets m.decls, s⟩) : InUse a (i.load m fuel).2
  | call {i name args fuel} (h : InUse a i)
      (hs : ∀ callee, i.lookup? name = some callee →
        Moment.Supplied a i.program ⟨fuel, .call callee args .dummy, i.machine⟩) :
      InUse a (i.call name args fuel).2
  | eval {i id fuel} (h : InUse a i)
      (hs : Moment.Supplied a i.program ⟨fuel, .expr id, i.machine⟩) :
      InUse a (i.eval id fuel).2

variable {i : Interpreter} {root : Moment}

theorem Starts.anchored (hr : i.Starts root) (hi : i.machine.Anchored a)
    (hs : root.Supplied a i.program) : root.Anchored a := by
  cases hr with
  | @load m fuel s h =>
    have hends := (Eval.anchors_bindAllHoisted (p := i.program) m.decls hi (by simp)).2
    rw [h] at hends
    exact ⟨hends.anchored hi, nofun⟩
  | call h =>
    obtain ⟨n, -, hn⟩ := Option.bind_eq_some_iff.1 h
    have hcallee := hi.store.holds_lookup hi.has_current hn
    exact ⟨hi, List.forall_mem_cons.2 ⟨hcallee, hs.args _ _ _ rfl⟩⟩
  | eval => exact ⟨hi, nofun⟩

/-- What begins in such a use ends anchored. -/
theorem Starts.ends (hr : i.Starts root) (hi : i.machine.Anchored a)
    (hs : root.Supplied a i.program) : (root.result i.program).2.Anchored a :=
  have h := hr.anchored hi hs
  (h.ends hs.answers).anchored h.machine

/-- **Between its uses, an interpreter is anchored.** -/
theorem InUse.anchored (h : i.InUse a) : i.machine.Anchored a := by
  induction h with
  | new h => exact anchored_freshMachine h
  | @load i m fuel _ hs hi =>
    have hends := (Eval.anchors_bindAllHoisted (p := i.program) m.decls hi (by simp)).2
    show (Eval.bindModule i.program (Eval.expr i.program fuel) m.decls i.machine).2.Anchored a
    simp only [Eval.bindModule, Bind.bind, Eval.bind]
    cases hr : Eval.bindAllHoisted i.program m.decls i.machine with
    | mk r s =>
      rw [hr] at hends
      cases r with
      | value _ =>
        have hlets := Starts.ends (.load hr) hi (hs s hr)
        rwa [Moment.result_lets_snd] at hlets
      | interrupt _ => exact hends.anchored hi
      | outOfFuel => exact hends.anchored hi
  | @call i name args fuel _ hs hi =>
    unfold Interpreter.call
    split
    · exact hi
    · rename_i callee hcallee
      exact Starts.ends (.call hcallee) hi (hs callee hcallee)
  | eval _ hs hi => exact Starts.ends .eval hi hs

end Interpreter

/-! ### Scopes in reach -/

/-- The scopes on the chains from some scopes, and those that were captured by closures which such
scopes bind. -/
inductive Store.InReach (s : Store) (start : ScopeId → Prop) : ScopeId → Prop
  | start {c} (h : start c) : InReach s start c
  | outer {c d} (h : InReach s start c) (hp : s.Outer c d) : InReach s start d
  | bound {c n b k} (h : InReach s start c) (hb : s.binding? c n = some b)
      (hk : b.value.Carries k) : InReach s start k.captured

/-- The scopes that a machine refers to: those of its environment, those in which its handlers were
installed, and those that were captured by closures in signals the host was asked about. -/
inductive Machine.Refers (s : Machine) : ScopeId → Prop
  | scope {c} (h : c ∈ s.env.scopes) : Refers s c
  | root : Refers s s.env.root
  | handler {f} (h : f ∈ s.handlers.frames) : Refers s f.scope
  | question {q k} (hq : q ∈ s.log.questions) (hk : q.signal.Carries k) : Refers s k.captured

/-- The scopes that a state `s` of the evaluation of `root` refers to, with the activities `π` in
progress and the moment `x` about to begin or just over. -/
inductive Moment.Refers (p : Program) (root : Moment) (π : List Activity) (x : Moment)
    (s : Machine) : ScopeId → Prop
  | machine {c} (h : s.Refers c) : Refers p root π x s c
  /-- The environment and the handlers that an activity has set aside. -/
  | saved {b c} (hb : b ∈ π) (h : b.start.machine.Refers c) : Refers p root π x s c
  | atHand {v k} (hv : v ∈ x.task.values) (hk : v.Carries k) : Refers p root π x s k.captured
  | waiting {b v k} (hb : b ∈ π) (hv : v ∈ b.start.task.values) (hk : v.Carries k) :
      Refers p root π x s k.captured
  /-- The values of evaluations that are over, such as the operands of those in progress. -/
  | given {ρ y v k} (hy : Reaches p root ρ y)
      (hsize : (y.result p).2.store.cells.size ≤ s.store.cells.size)
      (hv : (y.result p).1.carried? = some v) (hk : v.Carries k) : Refers p root π x s k.captured

section

variable {s : Store} {start : ScopeId → Prop} {c : ScopeId} {root x : Moment} {π : List Activity}

theorem Store.Anchored.has_of_inReach (h : s.Anchored a) (hstart : ∀ c, start c → a.Has s c)
    (hc : s.InReach start c) : a.Has s c := by
  induction hc with
  | start hc => exact hstart _ hc
  | outer _ hp ih => exact h.has_outer ih hp
  | bound _ hb hk ih => exact h.values _ _ _ ih hb _ hk

theorem Machine.Anchored.has_of_refers {s : Machine} (h : s.Anchored a) (hc : s.Refers c) :
    a.Has s.store c := by
  cases hc with
  | scope hc => exact h.scopes _ hc
  | root => exact h.root ▸ h.store.has_root
  | handler hf => exact h.handlers _ hf
  | question hq hk => exact h.questions _ hq _ hk

theorem Reaches.size_le (hx : Reaches p root π x) :
    root.machine.store.cells.size ≤ x.machine.store.cells.size :=
  (root.listed_writes.written_to hx).size_le

/-- No scope is lost since an activity in progress began. -/
theorem Reaches.start_size_le (hx : Reaches p root π x) {b : Activity} (hb : b ∈ π) :
    b.start.machine.store.cells.size ≤ x.machine.store.cells.size := by
  induction hx with
  | root => cases hb
  | step _ hs ih => exact Nat.le_trans (ih hb) (Reaches.root.step hs).size_le
  | enter _ hs ih =>
    rcases List.mem_cons.1 hb with rfl | hb
    · exact (Reaches.root.enter hs).size_le
    · exact Nat.le_trans (ih hb) (Reaches.root.enter hs).size_le

/-- **In all states of an evaluation, the scopes in reach are anchored.** -/
theorem Moment.Anchored.has_of_refers (h : root.Anchored a) (hanswers : root.AnsweredWithin a p)
    (hx : Reaches p root π x) {s : Machine} (hs : s.Anchored a)
    (hsize : x.machine.store.cells.size ≤ s.store.cells.size) (hc : Refers p root π x s c) :
    a.Has s.store c := by
  have hstarts : ∀ b ∈ π, b.start.Anchored a ∧
      b.start.machine.store.cells.size ≤ s.store.cells.size := fun b hb => by
    -- an activity began at a moment that the evaluation came to on the way
    obtain ⟨ρ, σ, rfl⟩ := List.append_of_mem hb
    exact ⟨(h.of_reaches hanswers hx.of_append.1).1, Nat.le_trans (hx.start_size_le hb) hsize⟩
  cases hc with
  | machine hc => exact hs.has_of_refers hc
  | saved hb hc =>
    obtain ⟨hb, hle⟩ := hstarts _ hb
    exact (hb.machine.has_of_refers hc).mono hle
  | atHand hv hk => exact ((h.of_reaches hanswers hx).1.values _ hv _ hk).mono hsize
  | waiting hb hv hk =>
    obtain ⟨hb, hle⟩ := hstarts _ hb
    exact (hb.values _ hv _ hk).mono hle
  | given hy hle hv hk =>
    obtain ⟨hy, hanswers⟩ := h.of_reaches hanswers hy
    exact ((hy.ends hanswers).outcome.holds hv _ hk).mono hle

end

/-! ### Chains in all states -/

/-- From a scope outwards the scopes are `cs`, different ones, up to one with none around it.  That
is the scope of the builtins, unless the chain passes a scope from outside.  Reading and writing a
name from there comes to an end within the chain, and a write comes to no scope that it holds
already.  In the first case all builtins are visible that no scope of the chain binds again. -/
structure Anchor.Leads (a : Anchor) (s : Store) (c : ScopeId) (cs : List ScopeId) : Prop where
  chain : s.ChainFrom c cs
  nodup : cs.Nodup
  last : cs.getLast? = some a.root ∨ ∃ d ∈ cs, a.foreign d
  lookup : ∀ n length, cs.length ≤ length → s.lookupWithin n length c = some (s.lookup? c n)
  assign : ∀ n v length, cs.length ≤ length →
    s.assignHolding n v length [] c = some (s.assign c n v)
  builtin : cs.getLast? = some a.root → ∀ n b, a.bound n = some b →
    (∀ d ∈ cs, d ≠ a.root → s.binding? d n = none) → s.lookup? c n = some b.value

theorem Store.Anchored.exists_leads {s : Store} {c : ScopeId} (h : s.Anchored a) (hc : a.Has s c) :
    ∃ cs, a.Leads s c cs := by
  obtain ⟨cs, hcs, -, hlast⟩ := h.exists_chain hc
  refine ⟨cs, hcs, hcs.nodup, hlast, fun n length hlength => hcs.lookupWithin_eq hlength,
    fun n v length hlength => hcs.assignHolding_eq v (by simp) hlength, ?_⟩
  intro hr n b hb hfree
  exact hcs.lookup?_last hr hfree ((h.root_bound n).trans hb)

namespace Interpreter

/-- **Chains of scopes have an end and visit no scope twice.**  Let all values from outside, in the
store, in arguments, in answers of the host and from its functions, be such that their closures
captured scopes that are there: scopes that the run created, or scopes of the host's own with chains
that end.  Then a chain leads outwards from every scope in reach, between the uses of an
interpreter, and in every use at the beginning and at the end of all moments to which it comes.  In
reach are the environment, those set aside, all handlers, also those set aside, the values at hand,
and what these lead to. -/
theorem scope_chains_end {i : Interpreter} (hi : i.InUse a) :
    (∀ c, i.machine.store.InReach i.machine.Refers c → ∃ cs, a.Leads i.machine.store c cs) ∧
    ∀ root, i.Starts root → root.Supplied a i.program → ∀ π x, Reaches i.program root π x →
      ∀ s, s = x.machine ∨ s = (x.result i.program).2 →
        ∀ c, s.store.InReach (Moment.Refers i.program root π x s) c →
          ∃ cs, a.Leads s.store c cs := by
  have hanchored := hi.anchored
  constructor
  · intro c hc
    refine hanchored.store.exists_leads (hanchored.store.has_of_inReach (fun c hc => ?_) hc)
    exact hanchored.has_of_refers hc
  · intro root hr hsupplied π x hx s hs c hc
    have hroot := hr.anchored hanchored hsupplied
    obtain ⟨hbegins, hanswers⟩ := hroot.of_reaches hsupplied.answers hx
    have hends := hbegins.ends hanswers
    obtain ⟨hs, hsize⟩ : s.Anchored a ∧ x.machine.store.cells.size ≤ s.store.cells.size := by
      rcases hs with rfl | rfl
      · exact ⟨hbegins.machine, Nat.le_refl _⟩
      · exact ⟨hends.anchored hbegins.machine, hends.size⟩
    refine hs.store.exists_leads (hs.store.has_of_inReach (fun c hc => ?_) hc)
    exact hroot.has_of_refers hsupplied.answers hx hs hsize hc

/-- `function main() fn() True` -/
def capturing : Tree.File :=
  ⟨"", [.function "main" [] none (.node (.function [] none (.node (.ident "True") [] .dummy))
    [] .dummy) .dummy]⟩

/-- The closure that an evaluation ends with. -/
def closure? : Outcome Value → Option Closure
  | .value (.closure c) => some c
  | _ => none

theorem eq_of_closure? {r : Outcome Value} {c : Closure} (h : closure? r = some c) :
    r = .value (.closure c) := by
  unfold closure? at h
  split at h
  · cases h
    rfl
  · cases h

/-- The closure that a call gives has captured the scope of that call. -/
theorem capturing_chain_ends : ∃ m interner types interner',
    (Module.ofTree capturing .new = (.ok m, interner) ∧
      m.resolve .core interner = (types, [], interner')) ∧
    let a := Anchor.alone types interner' .empty
    let i := ((new m.arena interner' types ⟨default, none, none⟩ .empty).load m 9).2
    i.InUse a ∧ ∃ callee c, i.lookup? "main" = some callee ∧
      let root : Moment := ⟨9, .call callee [] .dummy, i.machine⟩
      root.Supplied a i.program ∧ (root.result i.program).1 = .value (.closure c) ∧
        ∃ cs, a.Leads (root.result i.program).2.store c.captured cs := by
  have hok : (capturing.resolved? .core).any fun found =>
      let i := ((new found.1.arena found.2.2 found.2.1 ⟨default, none, none⟩ .empty).load
        found.1 9).2
      (i.lookup? "main").any fun callee => (closure? (Moment.result i.program
        ⟨9, .call callee [] .dummy, i.machine⟩).1).isSome := by decide +kernel
  obtain ⟨⟨m, types, interner'⟩, hok, hmain⟩ := (Option.any_eq_true _ _).1 hok
  obtain ⟨callee, hcallee, hclosure⟩ := (Option.any_eq_true _ _).1 hmain
  obtain ⟨c, hc⟩ := Option.isSome_iff_exists.1 hclosure
  obtain ⟨interner, hm, hres⟩ := Tree.File.of_resolved? hok
  let a := Anchor.alone types interner' .empty
  let i := ((new m.arena interner' types ⟨default, none, none⟩ .empty).load m 9).2
  have hi : i.InUse a := .load (.new (Anchor.grounds_alone ..)) fun s _ =>
    ⟨nofun, Moment.answeredWithin_of_host rfl rfl _⟩
  let root : Moment := ⟨9, .call callee [] .dummy, i.machine⟩
  have hroot : root.Supplied a i.program := by
    refine ⟨?_, Moment.answeredWithin_of_host rfl rfl _⟩
    rintro _ _ _ ⟨⟩ v hv
    cases hv
  have hgiven : (root.result i.program).1 = .value (.closure c) := eq_of_closure? hc
  refine ⟨m, interner, types, interner', ⟨hm, hres⟩, hi, callee, c, hcallee, hroot, hgiven, ?_⟩
  refine (scope_chains_end hi).2 root (.call hcallee) hroot [] root .root _ (.inr rfl) c.captured
    (.start (.given .root (Nat.le_refl _) ?_ .self))
  rw [hgiven]
  rfl

/-- `let variable f = main; function main(g) { set f = g }; function x() True` -/
def lending : Tree.File :=
  ⟨"", [.binding "f" true none (.node (.ident "main") [] .dummy) .dummy,
    .function "main" [⟨"g", .dummy, none⟩] none
      (.node (.block [.set "f" (.node (.ident "g") [] .dummy) .dummy]) [] .dummy) .dummy,
    .function "x" [] none (.node (.ident "True") [] .dummy) .dummy]⟩

/-- A scope of the host's own, with nothing in it. -/
def hostStore : Store := ⟨#[⟨none, []⟩], 0⟩

/-- A closure that captured that scope.  Its body is the name `True` in the function `x`. -/
def lent : Closure := ⟨⟨0⟩, none, [], none, ⟨3⟩, ⟨0⟩⟩

/-- **The chain from the scope that a closure from outside captured need not end at the scope of the
builtins.**  The module binds `f` to the closure, and there is no `True` where that runs. -/
theorem foreign_chain_ends_apart : ¬ ∀ i : Interpreter, i.Session →
    ∀ c, i.machine.store.InReach i.machine.Refers c →
      ∃ cs, i.machine.store.ChainFrom c cs ∧ cs.Nodup ∧
        cs.getLast? = some i.machine.env.root := by
  intro h
  have hok : (lending.resolved? .core).any fun found =>
      let i := (((new found.1.arena found.2.2 found.2.1 ⟨default, none, none⟩ hostStore).load
        found.1 9).2.call "main" [.closure lent] 9).2
      ((i.program.interner.find? "f").any fun n =>
        (i.machine.store.binding? i.machine.env.current n).any fun b => b.value.isClosure lent) ∧
      (i.machine.store.cell lent.captured).parent = none ∧
      i.machine.env.root ≠ lent.captured := by decide +kernel
  obtain ⟨⟨m, types, interner⟩, -, hstate⟩ := (Option.any_eq_true _ _).1 hok
  obtain ⟨hf, hparent, hroot⟩ := of_decide_eq_true hstate
  obtain ⟨n, -, hn⟩ := (Option.any_eq_true _ _).1 hf
  obtain ⟨b, hb, hlent⟩ := (Option.any_eq_true _ _).1 hn
  have hv := Value.isClosure_iff.1 hlent
  let i := (((new m.arena interner types ⟨default, none, none⟩ hostStore).load m 9).2.call
    "main" [.closure lent] 9).2
  have hi : i.Session := .call (.load (.new ..) m 9) "main" _ 9
  obtain ⟨cs, hcs, -, hlast⟩ := h i hi lent.captured
    (.bound (.start (.scope i.machine.env.current_mem_scopes)) hb (hv ▸ .self))
  cases hcs with
  | last => exact hroot (by simpa using hlast.symm)
  | outer hp => cases hparent.symm.trans hp

end Interpreter

end SignalLang
