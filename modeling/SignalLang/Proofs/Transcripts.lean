import SignalLang.Proofs.MirroredRuns
import SignalLang.Run
import Mathlib.Data.Prod.Basic

/-!
# What is seen of a run

Whoever makes a module run sees texts: that of the result or of the error, the lines of `Debug`
signals, and what the host was asked.  Runs that mirror each other look the same.

* `Interpreter.transcript` : all that is seen of a call.
* `Host.Alike r h h'` : the hosts give the same answers to the same questions.
* `Interpreter.Mirrors.transcript_eq` : **runs that mirror each other look the same.**
-/

namespace SignalLang

/-! ### Texts -/

/-- An error in texts: its report, with code, wording and labels, its place, the calls that were
active, its notes, and the signal that nobody handled. -/
structure ErrorTranscript where
  report : Diagnostic
  span : Option Span
  backtrace : Option Backtrace
  notes : List EvalNote
  signal : Option String

/-- A question in texts: the name of the signal, and the kind and the text of each argument. -/
structure AskedTranscript where
  signal : String
  arguments : List (String × String)
deriving DecidableEq

/-- All that is seen of a run: its result, unless it was given too little fuel, the lines, and what
the host was asked, the latest first. -/
structure Transcript where
  result : Option (Except ErrorTranscript String)
  lines : List String
  asked : List AskedTranscript

namespace Interpreter

/-- An error in texts. -/
def errorTranscript (i : Interpreter) (e : EvalError) : ErrorTranscript :=
  ⟨e.diagnostic, e.span, e.backtrace, e.notes, e.problem.signal?.map i.display⟩

/-- A question in texts. -/
def askedTranscript (i : Interpreter) (q : Question) : AskedTranscript :=
  ⟨q.name, q.arguments.map fun v => (v.kindName, i.display v)⟩

/-- How something ends, in texts. -/
def resultTranscript (i : Interpreter) : Outcome Value → Option (Except ErrorTranscript String)
  | .value v => some (.ok (i.display v))
  | .interrupt e => some (.error (i.errorTranscript e.toError))
  | .outOfFuel => none

/-- All that is seen of a run that has ended. -/
def transcript (run : Outcome Value × Interpreter) : Transcript :=
  ⟨run.2.resultTranscript run.1, run.2.output, run.2.machine.log.questions.map run.2.askedTranscript⟩

/-! ### Interpreters that mirror each other -/

/-- The interpreters differ in the numbering of types and identities, and do the same. -/
structure Mirrors (r : Renaming) (i i' : Interpreter) : Prop where
  program : i.program.Mirrors r i'.program
  machine : i.machine.Mirrors r i'.machine

namespace Mirrors

variable {r : Renaming} {i i' : Interpreter} (h : i.Mirrors r i')

include h

theorem run {A : α → β → Prop} {x : Eval α} {x' : Eval β} (hx : Eval.Mirrors r x x' A) :
    (i.run x).1.Mirrors r A (i'.run x').1 ∧ (i.run x).2.Mirrors r (i'.run x').2 :=
  have hrun := hx i.machine i'.machine h.machine
  ⟨hrun.1, h.program, hrun.2⟩

theorem display_rename (v : Value) : i'.display (v.rename r) = i.display v := by
  rw [display, display, h.program.interner, Value.display_rename h.program.types]

theorem lookup? (name : String) : i'.lookup? name = (i.lookup? name).map (Value.rename r) := by
  rw [Interpreter.lookup?, Interpreter.lookup?, h.program.interner]
  cases i.program.interner.find? name with
  | none => rfl
  | some n =>
    simp only [Option.bind_some, Environment.lookup?, h.machine.env, h.machine.store.lookup?]

/-- Calling a function does the same. -/
theorem call (name : String) (args : List Value) (fuel : Nat) :
    (i.call name args fuel).1.Mirrors r (Eval.Renamed r)
        (i'.call name (args.map (Value.rename r)) fuel).1 ∧
      (i.call name args fuel).2.Mirrors r (i'.call name (args.map (Value.rename r)) fuel).2 := by
  unfold Interpreter.call
  rw [h.lookup?]
  cases i.lookup? name with
  | none => exact ⟨.interrupt (.fault (.new (.unboundName name))), h⟩
  | some callee =>
    obtain ⟨hr, hi⟩ := h.run (Eval.mirrors_callValue h.program (Eval.mirrors_expr h.program fuel)
      callee args .dummy)
    exact ⟨hr.settle, hi⟩

/-- **Runs that mirror each other look the same.** -/
theorem transcript_eq {o o' : Outcome Value} (ho : o.Mirrors r (Eval.Renamed r) o') :
    transcript (o', i') = transcript (o, i) := by
  have hasked : ∀ q, i'.askedTranscript (q.rename r) = i.askedTranscript q := by
    intro q
    simp only [askedTranscript, Question.rename, Question.arguments, q.signal.fields?_rename]
    cases q.signal.fields? with
    | none => rfl
    | some fields =>
      simp [Value.renameFields_eq_map, h.display_rename]
  have hresult : i'.resultTranscript o' = i.resultTranscript o := by
    cases ho with
    | value hv =>
      obtain rfl := hv
      simp only [resultTranscript, h.display_rename]
    | outOfFuel => rfl
    | interrupt e =>
      have hsignal : (e.toError.problem.rename r).signal?.map i'.display =
          e.toError.problem.signal?.map i.display := by
        rw [e.toError.problem.signal?_rename, Option.map_map]
        exact congrArg (Option.map · _) (funext h.display_rename)
      simp only [resultTranscript, errorTranscript, e.toError_rename, EvalError.diagnostic_rename]
      simp only [EvalError.rename, hsignal]
  simp only [transcript, hresult, output, h.machine.log, HostLog.rename, List.map_map]
  congr 1
  exact List.map_congr_left fun q _ => hasked q

end Mirrors

end Interpreter

/-! ### Hosts -/

theorem Question.rename_injective (r : Renaming) : Function.Injective (Question.rename r) := by
  rintro ⟨n, v⟩ ⟨n', v'⟩ heq
  simp only [Question.rename, Question.mk.injEq] at heq
  rw [heq.1, Value.rename_inj r heq.2]

/-- Numbers, strings, booleans and `Action`. -/
inductive Value.Plain : Value → Prop
  | number (n) : Plain (.number n)
  | string (s) : Plain (.string s)
  | boolean (b) : Plain (.boolean b)
  | action : Plain .action

theorem Value.Plain.rename {v : Value} (h : v.Plain) (r : Renaming) : v.rename r = v := by
  cases h with
  | boolean b => exact rename_boolean r b
  | _ => rfl

namespace Host

/-- A host that answers numbers, strings, booleans and `Action` only. -/
def Plain (h : Host) : Prop := ∀ earlier q v, h.answer earlier q = some v → v.Plain

/-- The hosts give the same answers to the same questions, which are put to the second one with the
types and identities renamed. -/
structure Alike (r : Renaming) (h h' : Host) : Prop where
  answer : ∀ earlier q, h'.answer (earlier.map (Question.rename r)) (q.rename r) = h.answer earlier q
  keepsLines : h'.keepsLines = h.keepsLines

/-- What a host answers does not depend on the numbering of types and identities. -/
def Blind (h : Host) : Prop := ∀ r, h.Alike r h

variable {r : Renaming} {h h' : Host}

theorem Alike.mirrors (halike : h.Alike r h') (hplain : h.Plain) : h.Mirrors r h' where
  answer earlier q := by
    rw [halike.answer]
    cases hv : h.answer earlier q with
    | none => rfl
    | some v => rw [Option.map_some, (hplain earlier q v hv).rename]
  keepsLines := halike.keepsLines

/-- For every host there is one that gives the same answers when types and identities are renamed.
-/
theorem exists_alike (r : Renaming) (h : Host) : ∃ h', h.Alike r h' := by
  cases h with
  | responding respond =>
    let translated := Prod.map (List.map (Question.rename r)) (Question.rename r)
    have hinjective : Function.Injective translated :=
      Function.Injective.prodMap (List.map_injective_iff.2 (Question.rename_injective r))
        (Question.rename_injective r)
    let asked (x : List Question × Question) : Option Value := respond x.1 x.2
    refine ⟨.responding fun earlier q =>
      Function.extend translated asked (fun _ => none) (earlier, q), fun earlier q => ?_, rfl⟩
    exact hinjective.extend_apply asked (fun _ => none) (earlier, q)
  | _ => exact ⟨_, fun _ _ => rfl, rfl⟩

/-- Rules do not look at types and identities. -/
theorem blind_byRules (rules : List HostRule) : (byRules rules).Blind := fun r => by
  refine ⟨fun earlier q => ?_, rfl⟩
  simp only [byRules, answer, List.countP_map]
  rfl

/-- Rules that say plain answers make a host that gives plain answers. -/
theorem plain_byRules {rules : List HostRule}
    (h : ∀ rule ∈ rules, ∀ v, some v ∈ rule.answers → v.Plain) : (byRules rules).Plain := by
  intro earlier q v hv
  simp only [byRules, answer] at hv
  split at hv
  · cases hv
  · obtain ⟨rule, hrule, hv⟩ := Option.bind_eq_some_iff.1 hv
    exact h rule (List.mem_of_getElem? hrule) v
      (List.mem_of_getElem? (Option.join_eq_some_iff.1 hv))

end Host

end SignalLang
