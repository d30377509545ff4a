import SignalLang.Proofs.Weaving

/-!
# Dealings with the host

An evaluation deals with the host at one place only: where a signal is caused that no handler
matches.  Everywhere else the log and the count of answers stay as they are, so what an evaluation
does to them is what its parts do, one after the other.

* `Program.deal` : what comes of a signal that is turned over to the host.
* `Dealings` : what the evaluations that begin at some moments make of the dealings, one after the
  other.
* `Moment.dealings_threaded`, `Moment.dealings_of_unhandled` : **a moment that does not turn to the
  host deals with it through its parts only; any other has no parts, and turns to it once.**
-/

namespace SignalLang

variable {p : Program}

/-- What comes of a signal that is turned over to the host.  Without a host, nothing. -/
def Program.deal (p : Program) (d : HostLog × Nat) (type : TypeId) (signal : Value) :
    HostLog × Nat :=
  match p.host with
  | none => d
  | some h =>
    let (answer, log) := h.ask d.1 ⟨p.interner.text (p.types.get type).name, signal⟩
    match answer with
    | some _ => (log, d.2 + 1)
    | none =>
      if type = .debug then (h.debug log (Eval.debugLine p signal), d.2 + 1) else (log, d.2)

/-- From some dealings, the evaluations that begin at some moments, one after the other, lead to
others, with no dealings in between. -/
inductive Dealings (p : Program) : HostLog × Nat → List Moment → HostLog × Nat → Prop
  | nil (d) : Dealings p d [] d
  | cons {m ms d'} (h : Dealings p (m.result p).2.dealings ms d') :
    Dealings p m.machine.dealings (m :: ms) d'

namespace Dealings

variable {d d' d'' : HostLog × Nat} {ms ms' : List Moment}

theorem single (m : Moment) : Dealings p m.machine.dealings [m] (m.result p).2.dealings :=
  .cons (.nil _)

theorem append (h : Dealings p d ms d') (h' : Dealings p d' ms' d'') :
    Dealings p d (ms ++ ms') d'' := by
  induction h with
  | nil => exact h'
  | cons _ ih => exact .cons (ih h')

theorem of_eq (h : d = d') : Dealings p d [] d' := h ▸ .nil d

end Dealings

/-- To leave the dealings as they are goes along with new scopes, and with all that leaves them. -/
instance : Thread (fun s t : Machine => t.dealings = s.dealings) where
  trans h h' := h'.trans h
  still _ hdealings := hdealings
  scope _ _ hdealings := hdealings

/-- What a moment binds and sets is no dealing. -/
theorem Moment.owns_dealings {m : Moment} (h : m.unhandled? p = none) :
    m.Owns (fun s t => t.dealings = s.dealings) p where
  binds _ _ _ _ := rfl
  sets _ _ _ _ _ _ := rfl
  asks type signal hasks := by simp [h] at hasks

/-- What is woven by steps without dealings has those of the evaluations. -/
theorem Woven.dealings {s t : Machine} {ms : List Moment}
    (h : Woven (fun s t => t.dealings = s.dealings) p s ms t) :
    Dealings p s.dealings ms t.dealings := by
  induction h with
  | own h => exact h ▸ .nil _
  | part h _ ih => exact h ▸ .cons ih

namespace Eval

theorem mute_defineAll (bs : Bindings) : Mute (defineAll bs) := fun _ =>
  own_defineAll (R := fun s t => t.dealings = s.dealings) fun _ _ _ _ => rfl

theorem mute_bindAllHoisted (ds : List DeclId) : Mute (bindAllHoisted p ds) := fun _ =>
  own_bindAllHoisted (R := fun s t => t.dealings = s.dealings) fun _ _ _ _ => rfl

theorem dealings_located (span : Span) (x : Eval α) (s : Machine) :
    (located span x s).2.dealings = (x s).2.dealings := by
  simp only [located]
  cases x s with
  | mk r t => cases r <;> rfl

/-- What no handler matches goes to the host, once. -/
theorem dealings_unhandled (type : TypeId) (signal : Value) (s : Machine) :
    (unhandled p type signal s).2.dealings = p.deal s.dealings type signal := by
  unfold unhandled Program.deal
  cases p.host with
  | none => rfl
  | some h =>
    simp only [Bind.bind, Eval.bind, askHost, Machine.dealings]
    cases h.ask s.log ⟨p.interner.text (p.types.get type).name, signal⟩ with
    | mk answer log =>
      cases answer with
      | some v => exact mute_resume type v _
      | none =>
        by_cases hd : type = .debug
        · simp only [if_pos hd]
          rfl
        · simp only [if_neg hd]
          rfl

end Eval

namespace Moment

variable {m : Moment}

/-- **A moment that does not turn to the host deals with it through its parts only, in order.** -/
theorem dealings_threaded (h : m.unhandled? p = none) :
    Dealings p m.machine.dealings (m.parts p) (m.result p).2.dealings :=
  (Moment.woven (owns_dealings h)).dealings

/-- **Any other moment has no parts, and turns to the host once.** -/
theorem dealings_of_unhandled {type : TypeId} {signal : Value}
    (h : m.unhandled? p = some (type, signal)) : m.parts p = [] ∧
      (m.result p).2.dealings = p.deal m.machine.dealings type signal := by
  obtain ⟨n, task, s⟩ := m
  cases task with
  | cause v =>
    cases v with
    | signal identity type' fields =>
      cases hm : s.handlers.findMatch? p.types (.signal identity type' fields) with
      | some found => simp [unhandled?, hm] at h
      | none =>
        simp only [unhandled?, hm, Option.some.injEq, Prod.mk.injEq] at h
        obtain ⟨rfl, rfl⟩ := h
        refine ⟨by simp only [parts, causeParts, hm], ?_⟩
        rw [result, Task.eval, Eval.cause_of_no_match hm]
        exact Eval.dealings_unhandled type' _ s
    | _ => simp [unhandled?] at h
  | _ => simp [unhandled?] at h

end Moment

end SignalLang
