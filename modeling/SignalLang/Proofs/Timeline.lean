import SignalLang.Proofs.Dealings
import SignalLang.Proofs.Order

/-!
# The timeline of a run

The moments of an evaluation are a tree: each has its parts.  This file lists them in the order in
which they begin, and shows that the host sees the run in that order.

* `Moment.timeline p m` : the moments reached from `m`, in the order in which they begin.
* `Moment.mem_timeline_iff` : these are all of them.
* `Interpreter.timeline` : the same for a run.
* `Interpreter.Deals` : **what is known of the host at each moment of a run follows from the moments
  before it that turned to the host.**
-/

namespace SignalLang

variable {p : Program}

namespace Moment

/-- The moments reached from one, in the order in which they begin. -/
def timeline (p : Program) (m : Moment) : List Moment :=
  m :: (m.parts p).attach.flatMap fun a => timeline p a.1
termination_by (m.fuel, rank m.task)
decreasing_by
  obtain ⟨k, hs⟩ := mem_parts_iff.1 a.2
  rcases smaller_of_enters hs with h | ⟨heq, h⟩
  · exact .left _ _ h
  · exact heq ▸ .right _ h

theorem timeline_eq (m : Moment) : m.timeline p = m :: (m.parts p).flatMap (timeline p) := by
  rw [timeline, List.flatMap_subtype (g := timeline p) fun _ _ => rfl, List.unattach_attach]

theorem mem_timeline_iff {m x : Moment} : x ∈ m.timeline p ↔ ∃ π, Reaches p m π x := by
  induction m using Moment.part_induction with
  | h m ih =>
    rw [timeline_eq, List.mem_cons, List.mem_flatMap]
    constructor
    · rintro (rfl | ⟨a, ha, hx⟩)
      · exact ⟨[], .root⟩
      · obtain ⟨k, hs⟩ := mem_parts_iff.1 ha
        obtain ⟨π, hx⟩ := (ih k a hs).1 hx
        exact hx.head hs
    · rintro ⟨π, hx⟩
      obtain rfl | ⟨k, a, ρ, hs, hx⟩ := hx.eq_or_enters
      · exact .inl rfl
      · exact .inr ⟨a, mem_parts_iff.2 ⟨k, hs⟩, (ih k a hs).2 ⟨ρ, hx⟩⟩

end Moment

/-! ### Dealings in order -/

/-- What comes of some dealings when moments begin, one after the other: those that turn to the host
deal with it. -/
def Program.dealAll (p : Program) (d : HostLog × Nat) (ms : List Moment) : HostLog × Nat :=
  (ms.filterMap (Moment.unhandled? p)).foldl (fun d q => p.deal d q.1 q.2) d

theorem Program.dealAll_append (d : HostLog × Nat) (ms ms' : List Moment) :
    p.dealAll d (ms ++ ms') = p.dealAll (p.dealAll d ms) ms' := by
  simp only [dealAll, List.filterMap_append, List.foldl_append]

theorem Program.dealAll_cons_of_eq_none {m : Moment} (h : m.unhandled? p = none)
    (d : HostLog × Nat) (ms : List Moment) : p.dealAll d (m :: ms) = p.dealAll d ms := by
  simp only [dealAll, List.filterMap_cons_none h]

/-- From some dealings, some moments lead to others, and each of them begins with what those before
it lead to. -/
structure Program.Tells (p : Program) (d : HostLog × Nat) (ms : List Moment) (d' : HostLog × Nat) :
    Prop where
  result : d' = p.dealAll d ms
  before : ∀ pre x post, ms = pre ++ x :: post → x.machine.dealings = p.dealAll d pre

namespace Program.Tells

variable {d d' d'' : HostLog × Nat} {ms ms' : List Moment}

theorem nil (d : HostLog × Nat) : p.Tells d [] d where
  result := rfl
  before pre x post h := by simp at h

theorem append (h : p.Tells d ms d') (h' : p.Tells d' ms' d'') : p.Tells d (ms ++ ms') d'' where
  result := by rw [h'.result, h.result, dealAll_append]
  before pre x post hsplit := by
    rcases List.append_eq_append_iff.1 hsplit with ⟨mid, rfl, hmid⟩ | ⟨mid, rfl, hmid⟩
    · rw [dealAll_append, ← h.result]
      exact h'.before mid x post hmid
    · cases mid with
      | nil =>
        rw [List.append_nil] at h
        rw [← h.result]
        exact h'.before [] x post hmid.symm
      | cons y mid =>
        cases hmid
        exact h.before pre x mid rfl

/-- A moment that does not turn to the host, before others. -/
theorem cons {m : Moment} (hm : m.unhandled? p = none) (h : p.Tells m.machine.dealings ms d') :
    p.Tells m.machine.dealings (m :: ms) d' where
  result := by rw [dealAll_cons_of_eq_none hm]; exact h.result
  before pre x post hsplit := by
    cases pre with
    | nil => cases hsplit; rfl
    | cons y pre =>
      cases hsplit
      rw [dealAll_cons_of_eq_none hm]
      exact h.before pre x post rfl

end Program.Tells

/-- Evaluations one after the other, each of which is told by its timeline. -/
theorem Dealings.tells {d d' : HostLog × Nat} {ms : List Moment} (h : Dealings p d ms d')
    (hms : ∀ m ∈ ms, p.Tells m.machine.dealings (m.timeline p) (m.result p).2.dealings) :
    p.Tells d (ms.flatMap (Moment.timeline p)) d' := by
  induction h with
  | nil d => exact .nil d
  | cons _ ih =>
    obtain ⟨hm, hms⟩ := List.forall_mem_cons.1 hms
    exact hm.append (ih hms)

/-- **The dealings of an evaluation are told by its timeline.** -/
theorem Moment.tells (m : Moment) :
    p.Tells m.machine.dealings (m.timeline p) (m.result p).2.dealings := by
  induction m using Moment.part_induction with
  | h m ih =>
    rw [timeline_eq]
    cases hm : m.unhandled? p with
    | none =>
      refine .cons hm ((dealings_threaded hm).tells fun a ha => ?_)
      obtain ⟨k, hs⟩ := mem_parts_iff.1 ha
      exact ih k a hs
    | some q =>
      obtain ⟨hparts, hdeal⟩ := dealings_of_unhandled hm
      rw [hparts]
      exact {
        result := by simp [Program.dealAll, hm, hdeal]
        before := fun pre x post hsplit => by
          rw [List.flatMap_nil, List.singleton_eq_append_iff] at hsplit
          obtain ⟨rfl, h⟩ | ⟨-, h⟩ := hsplit
          · cases h; rfl
          · cases h }

/-! ### Runs -/

namespace Interpreter

/-- The moment at which loading a module begins to evaluate. -/
def loadRoot? (i : Interpreter) (m : Module) (fuel : Nat) : Option Moment :=
  match Eval.bindAllHoisted i.program m.decls i.machine with
  | (.value (), s) => some ⟨fuel, .lets m.decls, s⟩
  | _ => none

/-- The moment at which a call begins to evaluate. -/
def callRoot? (i : Interpreter) (c : Call) : Option Moment :=
  (i.lookup? c.name).map fun callee => ⟨c.fuel, .call callee c.args .dummy, i.machine⟩

/-- The moments at which some calls begin to evaluate. -/
def callRoots (i : Interpreter) : List Call → List Moment
  | [] => []
  | c :: calls => (i.callRoot? c).toList ++ (i.make c).2.callRoots calls

/-- The moments at which loading a module, and some calls behind it, begin to evaluate. -/
def roots (i : Interpreter) (m : Module) (fuel : Nat) (calls : List Call) : List Moment :=
  (i.loadRoot? m fuel).toList ++ (i.load m fuel).2.callRoots calls

/-- The moments of the run in which a module is loaded and some calls are made, in the order in
which they begin. -/
def timeline (i : Interpreter) (m : Module) (fuel : Nat) (calls : List Call) : List Moment :=
  (i.roots m fuel calls).flatMap (Moment.timeline i.program)

variable {i : Interpreter} {m : Module} {fuel : Nat} {calls : List Call} {x r : Moment}

theorem mem_callRoots_iff : r ∈ i.callRoots calls ↔ ∃ pre c post callee,
    calls = pre ++ c :: post ∧ (i.after pre).lookup? c.name = some callee ∧
      r = ⟨c.fuel, .call callee c.args .dummy, (i.after pre).machine⟩ := by
  induction calls generalizing i with
  | nil => simp [callRoots]
  | cons c calls ih =>
    simp only [callRoots, List.mem_append, Option.mem_toList, callRoot?, Option.map_eq_some_iff, ih]
    constructor
    · rintro (⟨callee, hc, rfl⟩ | ⟨pre, c', post, callee, rfl, hc, rfl⟩)
      · exact ⟨[], c, calls, callee, rfl, hc, rfl⟩
      · exact ⟨c :: pre, c', post, callee, rfl, hc, rfl⟩
    · rintro ⟨pre, c', post, callee, hcalls, hc, rfl⟩
      cases pre with
      | nil =>
        cases hcalls
        exact .inl ⟨callee, hc, rfl⟩
      | cons c'' pre =>
        cases hcalls
        exact .inr ⟨pre, c', post, callee, rfl, hc, rfl⟩

theorem mem_roots_iff : r ∈ i.roots m fuel calls ↔ i.Root m fuel calls r := by
  simp only [roots, List.mem_append, Option.mem_toList, mem_callRoots_iff]
  constructor
  · rintro (h | ⟨pre, c, post, callee, hcalls, hc, rfl⟩)
    · unfold loadRoot? at h
      split at h
      · cases h
        exact .load ‹_›
      · cases h
    · exact .call hcalls hc
  · rintro (hs | ⟨hcalls, hc⟩)
    · exact .inl (by simp only [loadRoot?, hs])
    · exact .inr ⟨_, _, _, _, hcalls, hc, rfl⟩

theorem mem_timeline_iff : x ∈ i.timeline m fuel calls ↔ i.Visits m fuel calls x := by
  simp only [timeline, List.mem_flatMap, mem_roots_iff, Moment.mem_timeline_iff, visits_iff,
    exists_and_left]

theorem dealings_callRoots (calls : List Call) (i : Interpreter) :
    Dealings i.program i.machine.dealings (i.callRoots calls)
      (i.after calls).machine.dealings := by
  induction calls generalizing i with
  | nil => exact .nil _
  | cons c calls ih =>
    have hrest := ih (i.make c).2
    rw [program_make] at hrest
    cases hcallee : i.lookup? c.name with
    | none =>
      have hsame : (i.make c).2 = i := by simp only [make, call, hcallee]
      simpa only [callRoots, callRoot?, hcallee, Option.map_none, Option.toList, List.nil_append,
        after, hsame] using hrest
    | some callee =>
      rw [machine_make hcallee] at hrest
      simpa only [callRoots, callRoot?, hcallee, Option.map_some, Option.toList,
        List.singleton_append, after] using Dealings.cons hrest

theorem dealings_loadRoot (i : Interpreter) (m : Module) (fuel : Nat) :
    Dealings i.program i.machine.dealings (i.loadRoot? m fuel).toList
      (i.load m fuel).2.machine.dealings := by
  have hmute := Eval.mute_bindAllHoisted (p := i.program) m.decls i.machine
  simp only [loadRoot?, load, run, Eval.bindModule]
  cases hs : Eval.bindAllHoisted i.program m.decls i.machine with
  | mk r s =>
    rw [hs] at hmute
    simp only [Bind.bind, Eval.bind, hs]
    cases r with
    | value _ =>
      have hlets := Dealings.single (p := i.program) ⟨fuel, .lets m.decls, s⟩
      rw [show s.dealings = i.machine.dealings from hmute] at hlets
      exact Eval.dealings_bind_of_mute (fun _ => Eval.mute_pure Value.action)
        (Eval.bindAllLets i.program (Eval.expr i.program fuel) m.decls) s ▸ hlets
    | _ => exact .of_eq hmute.symm

/-- **The dealings of a run are told by its timeline.** -/
theorem tells (i : Interpreter) (m : Module) (fuel : Nat) (calls : List Call) :
    i.program.Tells i.machine.dealings (i.timeline m fuel calls)
      ((i.load m fuel).2.after calls).machine.dealings := by
  have hload := dealings_loadRoot i m fuel
  have hcalls := dealings_callRoots calls (i.load m fuel).2
  rw [program_load] at hcalls
  exact (hload.append hcalls).tells fun r _ => r.tells

end Interpreter

end SignalLang
