import SignalLang.Proofs.ScopedRuns
import SignalLang.Proofs.Weaving

/-!
# What a run writes

A run changes the store in few ways.  It creates scopes, it gives out identities, and it binds and
sets names at moments that can be told.  This file shows that it does nothing else, for every
program, whether resolution accepts it or not, and that it does so in order.

* `Writes` : the bindings and the `set`s of a run; `Store.Written w s s'` : they make `s'` out of
  `s`, with new scopes.
* `Moment.Listed p w m` : the list `w` has all that moments reached from `m` bind and set.
* `Moment.Listed.written` : **an evaluation writes nothing but that.**
* `Interpreter.written` : the same for a run.
-/

namespace SignalLang

variable {p : Program}

/-- A list of writes: names that are bound in the current scope of a machine, and names that are set
there. -/
structure Writes where
  binds : Machine → Name → Binding → Prop
  sets : Machine → Name → Value → Prop

/-- One store comes out of another by the writes of a list, new scopes and new identities. -/
inductive Store.Written (w : Writes) (s : Store) : Store → Prop
  | refl : Written w s s
  /-- Identities change no scope. -/
  | cells {t t'} (h : Written w s t) (hc : t'.cells = t.cells) : Written w s t'
  | scope {t} (h : Written w s t) (parent : Option ScopeId) : Written w s (t.addScope parent).2
  | binds {t : Machine} {n b} (h : Written w s t.store) (hb : w.binds t n b) :
      Written w s (t.store.define t.env.current n b.value b.isVariable)
  | sets {t : Machine} {n v found} (h : Written w s t.store) (hs : w.sets t n v)
      (howner : t.store.owner t.env.current n = .ok found) :
      Written w s (t.store.define found n v true)

namespace Store.Written

variable {w : Writes} {s s' s'' : Store}

theorem trans (h : Written w s s') (h' : Written w s' s'') : Written w s s'' := by
  induction h' with
  | refl => exact h
  | cells _ hc ih => exact ih.cells hc
  | scope _ parent ih => exact ih.scope parent
  | binds _ hb ih => exact ih.binds hb
  | sets _ hs howner ih => exact ih.sets hs howner

end Store.Written

/-- A list has all that a moment binds and sets itself. -/
def Moment.Noted (p : Program) (w : Writes) (m : Moment) : Prop :=
  (∀ t n b, m.Defines p t n b → w.binds t n b) ∧ ∀ t n v, m.Sets p t n v → w.sets t n v

section

variable {w : Writes} {m : Moment}

/-- Writes go along with new scopes, and with all that leaves the scopes as they are. -/
instance : Thread (fun s t : Machine => s.store.Written w t.store) where
  trans := Store.Written.trans
  still hcells _ := .cells .refl hcells
  scope parent hstore _ := hstore ▸ .scope .refl parent

/-- What a moment asks of the host is no write. -/
theorem Moment.Noted.owns (h : m.Noted p w) :
    m.Owns (fun s t => s.store.Written w t.store) p where
  binds t n b hb := .binds .refl (h.1 t n b hb)
  sets t n v _ hs howner := .sets .refl (h.2 t n v hs) howner
  asks type signal _ := .cells .refl (Eval.quiet_unhandled type signal m.machine)

end

/-- A list has all that is bound and set at the moments reached from one. -/
def Moment.Listed (p : Program) (w : Writes) (m : Moment) : Prop :=
  ∀ π m', Reaches p m π m' → (∀ t n b, m'.Defines p t n b → w.binds t n b) ∧
    ∀ t n v, m'.Sets p t n v → w.sets t n v

namespace Moment.Listed

variable {w : Writes} {m m' a b : Moment} {k k' : Option ActivityKind} {π : List Activity}

theorem noted (h : m.Listed p w) : m.Noted p w := h [] m .root

theorem of_enters (h : m.Listed p w) (hs : Enters p m k m') : m'.Listed p w := by
  intro π m'' hr
  obtain ⟨ρ, hr⟩ := hr.head hs
  exact h ρ m'' hr

/-- **An evaluation writes nothing but what its moments bind and set.** -/
theorem written (h : m.Listed p w) : m.machine.store.Written w (m.result p).2.store := by
  induction m using Moment.part_induction with
  | h m ih =>
    refine (Moment.woven h.noted.owns).whole fun a ha => ?_
    obtain ⟨k, hs⟩ := Moment.mem_parts_iff.1 ha
    exact ih k a hs (h.of_enters hs)

/-- So do the evaluations of its parts. -/
theorem written_parts (h : m.Listed p w) :
    ∀ a ∈ m.parts p, a.machine.store.Written w (a.result p).2.store := by
  intro a ha
  obtain ⟨k, hs⟩ := Moment.mem_parts_iff.1 ha
  exact (h.of_enters hs).written

/-- What is written before a part begins. -/
theorem written_before (h : m.Listed p w) (hs : Enters p m k a) :
    m.machine.store.Written w a.machine.store :=
  (Moment.woven h.noted.owns).before h.written_parts (Moment.mem_parts_iff.2 ⟨k, hs⟩)

/-- What is written behind a part. -/
theorem written_behind (h : m.Listed p w) (hs : Enters p m k a) :
    (a.result p).2.store.Written w (m.result p).2.store :=
  (Moment.woven h.noted.owns).behind h.written_parts (Moment.mem_parts_iff.2 ⟨k, hs⟩)

/-- Of two parts of an evaluation, one ends before the other begins. -/
theorem ordered_parts (h : m.Listed p w) (ha : Enters p m k a) (hb : Enters p m k' b) :
    a = b ∨ (a.result p).2.store.Written w b.machine.store ∨
      (b.result p).2.store.Written w a.machine.store :=
  (Moment.woven h.noted.owns).ordered h.written_parts (Moment.mem_parts_iff.2 ⟨k, ha⟩)
    (Moment.mem_parts_iff.2 ⟨k', hb⟩)

end Moment.Listed

/-! ### Runs -/

namespace Interpreter

variable {i : Interpreter} {m : Module} {fuel : Nat} {calls : List Call}

/-- The run in which a module is loaded and some calls are made comes to set a name. -/
inductive Sets (i : Interpreter) (m : Module) (fuel : Nat) (calls : List Call) :
    Machine → Name → Value → Prop
  | moment {x t n v} (hx : i.Visits m fuel calls x) (h : x.Sets i.program t n v) :
      Sets i m fuel calls t n v

/-- The writes of a run. -/
def writes (i : Interpreter) (m : Module) (fuel : Nat) (calls : List Call) : Writes :=
  ⟨i.Declares m fuel calls, i.Sets m fuel calls⟩

/-- The moment at which loading the module, or one of the calls, begins to evaluate. -/
inductive Root (i : Interpreter) (m : Module) (fuel : Nat) (calls : List Call) : Moment → Prop
  | load {s} (hs : Eval.bindAllHoisted i.program m.decls i.machine = (.value (), s)) :
      Root i m fuel calls ⟨fuel, .lets m.decls, s⟩
  | call {pre c post callee} (hcalls : calls = pre ++ c :: post)
      (hc : ((i.load m fuel).2.after pre).lookup? c.name = some callee) :
      Root i m fuel calls
        ⟨c.fuel, .call callee c.args .dummy, ((i.load m fuel).2.after pre).machine⟩

theorem visits_iff {x : Moment} :
    i.Visits m fuel calls x ↔ ∃ r π, i.Root m fuel calls r ∧ Reaches i.program r π x := by
  constructor
  · rintro (⟨hs, hx⟩ | ⟨hcalls, hc, hx⟩)
    · exact ⟨_, _, .load hs, hx⟩
    · exact ⟨_, _, .call hcalls hc, hx⟩
  · rintro ⟨r, π, hs | ⟨hcalls, hc⟩, hx⟩
    · exact .load hs hx
    · exact .call hcalls hc hx

theorem Root.listed {r : Moment} (h : i.Root m fuel calls r) :
    r.Listed i.program (i.writes m fuel calls) := fun π _ hx =>
  ⟨fun _ _ _ hd => .moment (visits_iff.2 ⟨r, π, h, hx⟩) hd,
    fun _ _ _ hs => .moment (visits_iff.2 ⟨r, π, h, hx⟩) hs⟩

theorem written_hoisted : i.machine.store.Written (i.writes m fuel calls)
    (Eval.bindAllHoisted i.program m.decls i.machine).2.store :=
  Eval.own_bindAllHoisted (R := fun s t => s.store.Written (i.writes m fuel calls) t.store)
    fun _ _ v h => .binds (b := ⟨v, false⟩) .refl (Declares.hoisted h)

theorem written_load :
    i.machine.store.Written (i.writes m fuel calls) (i.load m fuel).2.machine.store := by
  have hmodule : i.machine.store.Written (i.writes m fuel calls)
      (Eval.bindModule i.program (Eval.expr i.program fuel) m.decls i.machine).2.store := by
    refine Eval.own_bind (R := fun s t => s.store.Written (i.writes m fuel calls) t.store)
      written_hoisted fun _ s hs => ?_
    exact Eval.store_lets m.decls (Eval.expr i.program fuel) s ▸
      (show i.Root m fuel calls _ from .load hs).listed.written
  exact hmodule

theorem written_make {pre post : List Call} {c : Call} (hcalls : calls = pre ++ c :: post) :
    ((i.load m fuel).2.after pre).machine.store.Written (i.writes m fuel calls)
      (((i.load m fuel).2.after pre).make c).2.machine.store := by
  have hp : ((i.load m fuel).2.after pre).program = i.program :=
    program_after.trans (program_load i m fuel)
  cases hcallee : ((i.load m fuel).2.after pre).lookup? c.name with
  | none =>
    simp only [make, call, hcallee]
    exact .refl
  | some callee =>
    rw [machine_make hcallee, hp]
    exact (Root.call hcalls hcallee).listed.written

/-- What some calls write, behind others. -/
theorem written_after (pre mid post : List Call) (hcalls : calls = pre ++ mid ++ post) :
    ((i.load m fuel).2.after pre).machine.store.Written (i.writes m fuel calls)
      ((i.load m fuel).2.after (pre ++ mid)).machine.store := by
  induction mid generalizing pre with
  | nil =>
    rw [List.append_nil]
    exact .refl
  | cons c mid ih =>
    have hcalls' : calls = pre ++ c :: (mid ++ post) := by simp [hcalls]
    have hrest := ih (pre ++ [c]) (by simp [hcalls])
    rw [after_append, List.append_assoc, List.singleton_append] at hrest
    exact (written_make hcalls').trans hrest

/-- **A run writes nothing but what its moments bind and set.** -/
theorem written : i.machine.store.Written (i.writes m fuel calls)
    ((i.load m fuel).2.after calls).machine.store :=
  written_load.trans (written_after [] calls [] (List.append_nil calls).symm)

end Interpreter

end SignalLang
