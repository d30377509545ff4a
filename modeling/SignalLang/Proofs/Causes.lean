import SignalLang.Proofs.Closures
import SignalLang.Proofs.Tables
import SignalLang.Proofs.Timeline

/-!
# Who answers a cause

A caused signal is answered by one party: by the innermost visible handler that matches it, or else
by the host.  Whoever it is, the cause gives a value of the type that the signal declares.

* `Program.resumption` : how a cause ends that was answered with a value.
* `Host.Records line lines h lines'` : what becomes of the lines of a host that is given one more.
* `Answered p y span type signal r` : what holds of the cause of a signal that begins at the moment
  `y` and ends with `r`.
* `Moment.question? p m` : the question that a moment puts to the host.
* `Interpreter.causes_answered` : **every cause of a run is answered so, and the host sees the
  questions of the timeline, in its order.**
-/

namespace SignalLang

variable {p : Program}

/-- The question that is put to the host about a signal. -/
def Program.question (p : Program) (type : TypeId) (signal : Value) : Question :=
  ⟨p.interner.text (p.types.get type).name, signal⟩

/-- How the cause of a signal ends, at some place, if it is answered with a value. -/
def Program.resumption (p : Program) (span : Span) (type : TypeId) (v : Value) : Outcome Value :=
  let expected := p.types.signalResult type
  if expected = .action then .value .action
  else if v.hasType p.types expected then .value v
  else .interrupt (.fault (.newAt (.typeMismatch (p.types.display p.interner expected)
    (v.typeName p.types p.interner)) span))

/-- A signal of some type can resume with a value: with `Action` if this is its result, else with a
value of its result. -/
def Program.Resumes (p : Program) (type : TypeId) (v : Value) : Prop :=
  if p.types.signalResult type = .action then v = .action
  else v.hasType p.types (p.types.signalResult type)

theorem Program.resumes_of_resumption {span : Span} {type : TypeId} {v w : Value}
    (h : p.resumption span type v = .value w) : p.Resumes type w := by
  simp only [resumption] at h
  unfold Resumes
  split at h
  · rename_i haction
    cases h
    rw [if_pos haction]
  · rename_i haction
    rw [if_neg haction]
    split at h
    · cases h
      assumption
    · cases h

/-- Some handler matches a signal. -/
def HandlerStack.Matches (h : HandlerStack) (t : TypeTable) (signal : Value) : Prop :=
  ∃ f ∈ h.frames, (signal.matchPattern? f.pattern t).isSome

/-- What a `Debug` signal has to say: the text of its field `value`, nothing if there is none. -/
def Program.debugText (p : Program) (signal : Value) : String :=
  match signal.field? (p.interner.intern "value").1 with
  | some v => v.display p.types p.interner
  | none => ""

/-- The lines of a host that is given one more.  Two of the hosts keep it behind those they have,
the others print it or drop it. -/
inductive Host.Records (line : String) (lines : Array String) : Host → Array String → Prop
  | buffer : Records line lines .buffer (lines.push line)
  | responding {respond} : Records line lines (.responding respond) (lines.push line)
  | stdout : Records line lines .stdout lines
  | silent : Records line lines .silent lines

theorem Host.records_debug (h : Host) (log : HostLog) (line : String) :
    h.Records line log.lines (h.debug log line).lines := by
  cases h <;> constructor

/-- What a host does about a signal that is caused at a place where `log` is what it was asked
before, if the cause ends with `r`. -/
structure Host.Decides (h : Host) (p : Program) (log : HostLog) (span : Span) (type : TypeId)
    (signal : Value) (r : Outcome Value × Machine) : Prop where
  /-- It is asked once. -/
  asked : r.2.log.questions = p.question type signal :: log.questions
  answers : ∀ v, h.answer log.questions (p.question type signal) = some v →
    r.1 = p.resumption span type v ∧ r.2.log.lines = log.lines
  /-- A `Debug` that it declines is recorded, once. -/
  records : h.answer log.questions (p.question type signal) = none → type = .debug →
    r.1 = .value .action ∧ h.Records (p.debugText signal) log.lines r.2.log.lines
  declines : h.answer log.questions (p.question type signal) = none → type ≠ .debug →
    r.1 = .interrupt (.fault
      (.newAt (.unhandledSignal (p.question type signal).name signal) span)) ∧
      r.2.log.lines = log.lines

/-- The cause of a signal, at a place, that begins at the moment `y` and ends with `r`. -/
structure Answered (p : Program) (y : Moment) (span : Span) (type : TypeId) (signal : Value)
    (r : Outcome Value × Machine) : Prop where
  /-- If a visible handler matches, the innermost such handler answers.  The host is asked only what
  is asked in its body. -/
  by_handler : y.machine.handlers.Matches p.types signal →
    ∃ outer f bs a, y.machine.handlers.findMatch? p.types signal = some (outer, f, bs) ∧
      Enters p y (some (.handle f outer)) a ∧ a.machine.dealings = y.machine.dealings ∧
      r.2.dealings = (a.result p).2.dealings ∧
      r.1 = match (a.result p).1 with
        | .value v => p.resumption span type v
        | .interrupt i => .interrupt (i.withSpan span)
        | .outOfFuel => .outOfFuel
  by_host : ¬ y.machine.handlers.Matches p.types signal → ∀ h, p.host = some h →
    h.Decides p y.machine.log span type signal r
  without_host : ¬ y.machine.handlers.Matches p.types signal → p.host = none →
    r.1 = .interrupt (.fault
      (.newAt (.unhandledSignal (p.question type signal).name signal) span)) ∧
      r.2.log = y.machine.log
  /-- Whoever answers. -/
  resumes : ∀ v, r.1 = .value v → p.Resumes type v

/-- What a cause gives after the host has decided is what the signal can resume with. -/
theorem Host.Decides.resumes {h : Host} {log : HostLog} {span : Span} {type : TypeId}
    {signal v : Value} {r : Outcome Value × Machine}
    (hd : h.Decides p log span type signal r) (hdebug : p.types.signalResult .debug = .action)
    (hv : r.1 = .value v) : p.Resumes type v := by
  cases ha : h.answer log.questions (p.question type signal) with
  | some w =>
    rw [(hd.answers w ha).1] at hv
    exact Program.resumes_of_resumption hv
  | none =>
    by_cases heq : type = .debug
    · rw [(hd.records ha heq).1] at hv
      cases hv
      subst heq
      unfold Program.Resumes
      rw [if_pos hdebug]
    · rw [(hd.declines ha heq).1] at hv
      cases hv

/-! ### One cause -/

theorem HandlerStack.findMatch?_eq_none_iff {h : HandlerStack} {t : TypeTable} {signal : Value} :
    h.findMatch? t signal = none ↔ ¬ h.Matches t signal := by
  unfold findMatch? Matches
  induction h.frames with
  | nil => simp [firstMatch?]
  | cons f fs ih => cases hf : signal.matchPattern? f.pattern t <;> simp [firstMatch?, hf, ih]

namespace Eval

variable {ev : Evaluator} {s : Machine} {span : Span} {type : TypeId}

theorem located_resume (v : Value) (s : Machine) :
    located span (resume p type v) s = (p.resumption span type v, s) := by
  unfold resume Program.resumption checkType
  dsimp only
  by_cases haction : p.types.signalResult type = .action
  · simp only [if_pos haction]
    rfl
  · simp only [if_neg haction]
    split <;> rfl

/-- The body of a handler decides how the handler ends. -/
theorem runHandler_of_value {outer : Nat} {f : HandlerFrame} {bs : Bindings} {t : Machine}
    (hd : defineAll bs (s.inHandler f outer) = (.value (), t)) :
    (runHandler ev outer f bs s).1 = (ev f.body t).1 ∧
      (runHandler ev outer f bs s).2.dealings = (ev f.body t).2.dealings := by
  rw [← bind_of_value (f := fun _ => ev f.body) hd]
  exact ⟨rfl, rfl⟩

section

variable {identity : Option Identity} {fields : List (Name × Value)} {signal : Value} {h : Host}

/-- A handler that answers with a value. -/
theorem located_bind_resume (x : Eval Value) (s : Machine) :
    (located span (x >>= resume p type) s).1 = match (x s).1 with
      | .value v => p.resumption span type v
      | .interrupt i => .interrupt (i.withSpan span)
      | .outOfFuel => .outOfFuel := by
  simp only [located, Bind.bind, Eval.bind]
  cases x s with
  | mk r t =>
    cases r with
    | value v => exact congrArg Prod.fst (located_resume v t)
    | _ => rfl

theorem debugLine_eq (p : Program) (signal : Value) : debugLine p signal = p.debugText signal := by
  unfold debugLine debugField Program.debugText
  cases signal.field? (p.interner.intern "value").1 <;> rfl

theorem askHost_eq (q : Question) (s : Machine) : askHost h q s =
    (.value (h.answer s.log.questions q),
      { s with log := ⟨q :: s.log.questions, s.log.lines⟩ }) := rfl

theorem unhandled_of_answer {v : Value} (hh : p.host = some h)
    (ha : h.answer s.log.questions (p.question type signal) = some v) :
    unhandled p type signal s = resume p type v
      { s with log := ⟨p.question type signal :: s.log.questions, s.log.lines⟩,
               hostTicks := s.hostTicks + 1 } := by
  have hask := askHost_eq (h := h) (p.question type signal) s
  rw [ha] at hask
  simp only [unhandled, hh]
  exact bind_of_value hask

theorem unhandled_of_decline (hh : p.host = some h)
    (ha : h.answer s.log.questions (p.question type signal) = none) :
    unhandled p type signal s = (if type = .debug then do
        update fun s => { s with log := h.debug s.log (debugLine p signal) }
        tick
        return .action
      else fault (.unhandledSignal (p.question type signal).name signal) : Eval Value)
      { s with log := ⟨p.question type signal :: s.log.questions, s.log.lines⟩ } := by
  have hask := askHost_eq (h := h) (p.question type signal) s
  rw [ha] at hask
  simp only [unhandled, hh]
  exact bind_of_value hask

/-- **The host is asked once, and its answer, or the lack of it, decides.** -/
theorem decides_unhandled (hh : p.host = some h) (signal : Value) (s : Machine) :
    h.Decides p s.log span type signal (located span (unhandled p type signal) s) := by
  cases ha : h.answer s.log.questions (p.question type signal) with
  | some v =>
    have hrun : located span (unhandled p type signal) s = (p.resumption span type v,
        { s with log := ⟨p.question type signal :: s.log.questions, s.log.lines⟩,
                 hostTicks := s.hostTicks + 1 }) := by
      rw [← located_resume]
      simp only [located, unhandled_of_answer hh ha]
    rw [hrun]
    exact {
      asked := rfl
      answers := fun w hw => by
        cases ha.symm.trans hw
        exact ⟨rfl, rfl⟩
      records := fun hno => by simp [ha] at hno
      declines := fun hno => by simp [ha] at hno }
  | none =>
    have hrun := unhandled_of_decline hh ha
    by_cases hdebug : type = .debug
    · rw [if_pos hdebug] at hrun
      simp only [located, hrun]
      have hlines : h.Records (p.debugText signal) s.log.lines
          (h.debug ⟨p.question type signal :: s.log.questions, s.log.lines⟩
            (debugLine p signal)).lines := by
        rw [debugLine_eq]
        exact h.records_debug ⟨p.question type signal :: s.log.questions, s.log.lines⟩ _
      exact {
        asked := h.questions_debug _ _
        answers := fun w hw => by simp [ha] at hw
        records := fun _ _ => ⟨rfl, hlines⟩
        declines := fun _ hne => absurd hdebug hne }
    · rw [if_neg hdebug] at hrun
      simp only [located, hrun]
      exact {
        asked := rfl
        answers := fun w hw => by simp [ha] at hw
        records := fun _ heq => absurd heq hdebug
        declines := fun _ _ => ⟨rfl, rfl⟩ }

theorem located_unhandled_of_no_host (hh : p.host = none) (signal : Value) (s : Machine) :
    located span (unhandled p type signal) s = (.interrupt (.fault
      (.newAt (.unhandledSignal (p.question type signal).name signal) span)), s) := by
  simp only [located, unhandled, hh]
  rfl

/-- If no visible handler matches, the host decides. -/
theorem located_cause_of_no_match
    (hno : ¬ s.handlers.Matches p.types (.signal identity type fields)) :
    located span (cause p ev (.signal identity type fields)) s =
      located span (unhandled p type (.signal identity type fields)) s := by
  simp only [located, cause_of_no_match (HandlerStack.findMatch?_eq_none_iff.2 hno)]

end

end Eval

namespace Answered

variable {n : Nat} {span : Span} {t : Machine} {identity : Option Identity} {type : TypeId}
  {fields : List (Name × Value)}

/-- Where a handler answers. -/
theorem of_match (hmatch : t.handlers.Matches p.types (.signal identity type fields)) :
    Answered p ⟨n, .cause (.signal identity type fields), t⟩ span type
      (.signal identity type fields) (Eval.located span
        (Eval.cause p (Eval.expr p n) (.signal identity type fields)) t) := by
  have hsome : t.handlers.findMatch? p.types (.signal identity type fields) ≠ none := by
    rwa [Ne, HandlerStack.findMatch?_eq_none_iff, not_not]
  obtain ⟨⟨outer, f, bs⟩, hm⟩ := Option.ne_none_iff_exists'.1 hsome
  obtain ⟨u, hd⟩ := Eval.exists_defineAll bs (t.inHandler f outer)
  obtain ⟨hout, hdealings⟩ :
      (Eval.runHandler (Eval.expr p n) outer f bs t).1 = (Eval.expr p n f.body u).1 ∧
        (Eval.runHandler (Eval.expr p n) outer f bs t).2.dealings =
          (Eval.expr p n f.body u).2.dealings := Eval.runHandler_of_value hd
  have hcause : Eval.located span (Eval.cause p (Eval.expr p n) (.signal identity type fields)) t =
      Eval.located span (Eval.runHandler (Eval.expr p n) outer f bs >>= Eval.resume p type) t := by
    simp only [Eval.located, Eval.cause_of_match hm]
  have hresumed : (Eval.located span
      (Eval.runHandler (Eval.expr p n) outer f bs >>= Eval.resume p type) t).1 = _ :=
    Eval.located_bind_resume _ t
  rw [hout] at hresumed
  have hparams := Eval.mute_defineAll bs (t.inHandler f outer)
  rw [hd] at hparams
  rw [hcause]
  exact {
    by_handler := fun _ => by
      refine ⟨outer, f, bs, _, hm, .handler hm hd, hparams, ?_, hresumed⟩
      rw [Eval.dealings_located, Eval.dealings_bind_of_mute (Eval.mute_resume type)]
      exact hdealings
    by_host := absurd hmatch
    without_host := absurd hmatch
    resumes := fun v hv => by
      rw [hresumed] at hv
      split at hv
      · exact Program.resumes_of_resumption hv
      · cases hv
      · cases hv }

/-- Where no visible handler matches. -/
theorem of_no_match (hdebug : p.types.signalResult .debug = .action)
    (hno : ¬ t.handlers.Matches p.types (.signal identity type fields)) :
    Answered p ⟨n, .cause (.signal identity type fields), t⟩ span type
      (.signal identity type fields) (Eval.located span
        (Eval.cause p (Eval.expr p n) (.signal identity type fields)) t) := by
  rw [Eval.located_cause_of_no_match hno]
  generalize Value.signal identity type fields = signal at hno ⊢
  exact {
    by_handler := fun h => absurd h hno
    by_host := fun _ h hh => Eval.decides_unhandled hh signal t
    without_host := fun _ hh => by
      rw [Eval.located_unhandled_of_no_host hh]
      exact ⟨rfl, rfl⟩
    resumes := fun v hv => by
      cases hh : p.host with
      | none =>
        rw [Eval.located_unhandled_of_no_host hh] at hv
        cases hv
      | some h => exact (Eval.decides_unhandled hh signal t).resumes hdebug hv }

end Answered

/-- **A cause is answered by one party.** -/
theorem Moment.answered {n : Nat} {id payload : ExprId} {s t : Machine}
    {identity : Option Identity} {type : TypeId} {fields : List (Name × Value)}
    (hdebug : p.types.signalResult .debug = .action)
    (hk : (p.arena.expr id).kind = .cause payload)
    (hv : Eval.expr p n payload s = (.value (.signal identity type fields), t)) :
    Answered p ⟨n, .cause (.signal identity type fields), t⟩ (p.arena.expr id).span type
      (.signal identity type fields) (Moment.result p ⟨n + 1, .expr id, s⟩) := by
  have hresult : Moment.result p ⟨n + 1, .expr id, s⟩ = Eval.located (p.arena.expr id).span
      (Eval.cause p (Eval.expr p n) (.signal identity type fields)) t := by
    simp only [result, Task.eval, Eval.expr, Eval.node, hk, Eval.bind_of_value hv]
  rw [hresult]
  by_cases hmatch : t.handlers.Matches p.types (.signal identity type fields)
  · exact .of_match hmatch
  · exact .of_no_match hdebug hmatch

/-! ### The questions of a run -/

/-- The question that a moment puts to the host, if there is one. -/
def Moment.question? (p : Program) (m : Moment) : Option Question :=
  p.host.bind fun _ => (m.unhandled? p).map fun q => p.question q.1 q.2

/-- **The host is asked where a signal is caused that no visible handler matches.** -/
theorem Moment.question?_eq_some_iff {m : Moment} {q : Question} :
    m.question? p = some q ↔ (∃ h, p.host = some h) ∧ ∃ identity type fields,
      m.task = .cause (.signal identity type fields) ∧
        ¬ m.machine.handlers.Matches p.types (.signal identity type fields) ∧
        q = p.question type (.signal identity type fields) := by
  simp only [question?, Option.bind_eq_some_iff, Option.map_eq_some_iff, unhandled?]
  constructor
  · rintro ⟨h, hh, ⟨type, signal⟩, hm, rfl⟩
    refine ⟨⟨h, hh⟩, ?_⟩
    split at hm
    · rename_i identity type' fields htask
      split at hm
      · cases hm
      · rename_i hno
        cases hm
        exact ⟨identity, type, fields, htask, HandlerStack.findMatch?_eq_none_iff.1 hno, rfl⟩
    · cases hm
  · rintro ⟨⟨h, hh⟩, identity, type, fields, htask, hno, rfl⟩
    refine ⟨h, hh, (type, .signal identity type fields), ?_, rfl⟩
    rw [htask]
    dsimp only
    rw [HandlerStack.findMatch?_eq_none_iff.2 hno]

theorem Program.questions_deal (p : Program) (d : HostLog × Nat) (type : TypeId) (signal : Value) :
    (p.deal d type signal).1.questions =
      (p.host.map fun _ => p.question type signal).toList ++ d.1.questions := by
  unfold deal
  cases p.host with
  | none => rfl
  | some h =>
    simp only [Host.ask]
    split
    · rfl
    · split
      · exact h.questions_debug _ _
      · rfl

/-- What the host was asked when some moments have begun, the latest question first. -/
theorem Program.questions_dealAll (p : Program) (d : HostLog × Nat) (ms : List Moment) :
    (p.dealAll d ms).1.questions =
      (ms.filterMap (Moment.question? p)).reverse ++ d.1.questions := by
  induction ms generalizing d with
  | nil => rfl
  | cons m ms ih =>
    cases hm : m.unhandled? p with
    | none =>
      have hquestion : m.question? p = none := by simp [Moment.question?, hm]
      rw [dealAll_cons_of_eq_none hm, ih, List.filterMap_cons_none hquestion]
    | some q =>
      have hdeal : p.dealAll d (m :: ms) = p.dealAll (p.deal d q.1 q.2) ms := by
        simp only [dealAll, List.filterMap_cons_some hm, List.foldl_cons]
      rw [hdeal, ih, questions_deal]
      cases hh : p.host with
      | none =>
        have hquestion : m.question? p = none := by simp [Moment.question?, hh]
        rw [List.filterMap_cons_none hquestion]
        rfl
      | some h =>
        have hquestion : m.question? p = some (p.question q.1 q.2) := by
          simp [Moment.question?, hh, hm]
        rw [List.filterMap_cons_some hquestion]
        simp

/-- A cause begins where the signal of a `cause` expression is known. -/
theorem Reaches.cause_iff {root : Moment} {n : Nat} {v : Value} {t : Machine}
    (hroot : ∀ v, root.task ≠ .cause v) : (∃ π, Reaches p root π ⟨n, .cause v, t⟩) ↔
      ∃ id s payload, (∃ π, Reaches p root π ⟨n + 1, .expr id, s⟩) ∧
        (p.arena.expr id).kind = .cause payload ∧ Eval.expr p n payload s = (.value v, t) := by
  constructor
  · rintro ⟨π, h⟩
    generalize hx : (⟨n, .cause v, t⟩ : Moment) = x at h
    cases h with
    | root =>
      subst hx
      exact absurd rfl (hroot v)
    | step h hs =>
      subst hx
      cases hs with
      | cause hk hv => exact ⟨_, _, _, ⟨_, h⟩, hk, hv⟩
    | enter h hs =>
      subst hx
      cases hs
  · rintro ⟨id, s, payload, ⟨π, h⟩, hk, hv⟩
    exact ⟨π, h.step (.cause hk hv)⟩

namespace Interpreter

variable {i : Interpreter} {m : Module} {fuel : Nat} {calls : List Call}

theorem Visits.cause_iff {n : Nat} {v : Value} {t : Machine} :
    i.Visits m fuel calls ⟨n, .cause v, t⟩ ↔ ∃ id s payload,
      i.Visits m fuel calls ⟨n + 1, .expr id, s⟩ ∧
        (i.program.arena.expr id).kind = .cause payload ∧
        Eval.expr i.program n payload s = (.value v, t) := by
  have hroot : ∀ r, i.Root m fuel calls r → ∀ v, r.task ≠ .cause v := by
    intro r hr
    cases hr <;> nofun
  simp only [visits_iff]
  constructor
  · rintro ⟨r, π, hr, hx⟩
    obtain ⟨id, s, payload, ⟨ρ, hx⟩, hk, hv⟩ := (Reaches.cause_iff (hroot r hr)).1 ⟨π, hx⟩
    exact ⟨id, s, payload, ⟨r, ρ, hr, hx⟩, hk, hv⟩
  · rintro ⟨id, s, payload, ⟨r, π, hr, hx⟩, hk, hv⟩
    exact ⟨r, π, hr, hx.step (.cause hk hv)⟩

/-- What a moment of a run asks the host is what an expression caused that no visible handler
matches. -/
theorem Visits.question?_eq_some_iff {x : Moment} {q : Question} (hx : i.Visits m fuel calls x) :
    x.question? i.program = some q ↔ (∃ h, i.program.host = some h) ∧
      ∃ n id s payload t identity type fields,
        x = ⟨n, .cause (.signal identity type fields), t⟩ ∧
        i.Visits m fuel calls ⟨n + 1, .expr id, s⟩ ∧
        (i.program.arena.expr id).kind = .cause payload ∧
        Eval.expr i.program n payload s = (.value (.signal identity type fields), t) ∧
        ¬ t.handlers.Matches i.program.types (.signal identity type fields) ∧
        q = i.program.question type (.signal identity type fields) := by
  rw [Moment.question?_eq_some_iff]
  refine and_congr Iff.rfl ?_
  constructor
  · rintro ⟨identity, type, fields, htask, hno, rfl⟩
    obtain ⟨n, task, t⟩ := x
    cases htask
    obtain ⟨id, s, payload, hy, hk, hv⟩ := Visits.cause_iff.1 hx
    exact ⟨n, id, s, payload, t, identity, type, fields, rfl, hy, hk, hv, hno, rfl⟩
  · rintro ⟨n, id, s, payload, t, identity, type, fields, rfl, -, -, -, hno, rfl⟩
    exact ⟨identity, type, fields, rfl, hno, rfl⟩

/-- Resolution leaves it at that a `Debug` signal is answered with nothing. -/
theorem signalResult_debug {file : Tree.File} {interner₀ interner interner' : Interner} {m : Module}
    {imports : Imports} {types : TypeTable} {errors : List ResolveError}
    (hm : Module.ofTree file interner₀ = (.ok m, interner))
    (hres : m.resolve imports interner = (types, errors, interner')) :
    types.signalResult .debug = .action := by
  have hkept := (Module.faithful_of_resolve hm hres).kept .debug
    (by rw [TypeTable.size_builtin]; decide)
  simp only [TypeTable.signalResult, hkept]
  rfl

/-- **Causes are answered by one party, and with the declared type.**  In every run of a module,
whatever errors resolution has found in it, every cause of a signal is answered by the innermost
visible handler that matches, and else by the host, which is asked once.  The questions that the
host has seen are those of the causes that no visible handler matched, in the order of the run: when
a moment begins, those before it, and in the end all of them. -/
theorem causes_answered {file : Tree.File} {interner₀ interner interner' : Interner} {m : Module}
    {imports : Imports} {types : TypeTable} {errors : List ResolveError} (settings : Settings)
    (store : Store) (functions : HostFunctions) (fuel : Nat) (calls : List Call)
    (hm : Module.ofTree file interner₀ = (.ok m, interner))
    (hres : m.resolve imports interner = (types, errors, interner')) :
    let i := new m.arena interner' types settings store functions
    (∀ n id s payload t identity type fields, i.Visits m fuel calls ⟨n + 1, .expr id, s⟩ →
      (m.arena.expr id).kind = .cause payload →
      Eval.expr i.program n payload s = (.value (.signal identity type fields), t) →
      i.Visits m fuel calls ⟨n, .cause (.signal identity type fields), t⟩ ∧
        Answered i.program ⟨n, .cause (.signal identity type fields), t⟩ (m.arena.expr id).span type
          (.signal identity type fields) (Moment.result i.program ⟨n + 1, .expr id, s⟩)) ∧
      (∀ x, x ∈ i.timeline m fuel calls ↔ i.Visits m fuel calls x) ∧
      (∀ x q, i.Visits m fuel calls x → (x.question? i.program = some q ↔
        (∃ h, settings.host = some h) ∧ ∃ n id s payload t identity type fields,
          x = ⟨n, .cause (.signal identity type fields), t⟩ ∧
          i.Visits m fuel calls ⟨n + 1, .expr id, s⟩ ∧
          (m.arena.expr id).kind = .cause payload ∧
          Eval.expr i.program n payload s = (.value (.signal identity type fields), t) ∧
          ¬ t.handlers.Matches types (.signal identity type fields) ∧
          q = i.program.question type (.signal identity type fields))) ∧
      (∀ pre x post, i.timeline m fuel calls = pre ++ x :: post →
        x.machine.log.questions = (pre.filterMap (Moment.question? i.program)).reverse) ∧
      ((i.load m fuel).2.after calls).machine.log.questions =
        ((i.timeline m fuel calls).filterMap (Moment.question? i.program)).reverse := by
  intro i
  have htells := i.tells m fuel calls
  -- the host was not asked anything before
  have hquestions : ∀ ms, (i.program.dealAll i.machine.dealings ms).1.questions =
      (ms.filterMap (Moment.question? i.program)).reverse := fun ms => by
    rw [Program.questions_dealAll]
    exact List.append_nil _
  refine ⟨fun n id s payload t identity type fields hx hk hv => ⟨?_, ?_⟩, fun x => mem_timeline_iff,
    fun x q hx => hx.question?_eq_some_iff, fun pre x post hsplit => ?_, ?_⟩
  · exact Visits.cause_iff.2 ⟨id, s, payload, hx, hk, hv⟩
  · exact Moment.answered (signalResult_debug hm hres) hk hv
  · rw [← hquestions]
    exact congrArg (fun d => d.1.questions) (htells.before pre x post hsplit)
  · rw [← hquestions]
    exact congrArg (fun d => d.1.questions) htells.result

/-- `signal Ask(): Number; signal Tell(): Number;
function main() { effect for Tell cause Ask; cause Tell }` -/
def telling : Tree.File :=
  let number : Tree.TypeExpr := .named "Number" .dummy
  let causing (signal : String) : Tree.Expr :=
    .node (.cause (.node (.ident signal) [] .dummy)) [] .dummy
  ⟨"", [.signal "Ask" [] (some number) .dummy, .signal "Tell" [] (some number) .dummy,
    .function "main" [] none (.node (.block [
      .effect ⟨.named "Tell" .dummy, none, .dummy⟩ (causing "Ask") .dummy,
      .expr (causing "Tell") .dummy]) [] .dummy) .dummy]⟩

/-- A host that always answers with 1. -/
def answeringOne : Settings := ⟨default, none, some (.responding fun _ _ => some (.number 1))⟩

/-- The host is asked about `Ask` only, by the handler that answers `Tell`. -/
theorem telling_answered : ∃ m interner types interner',
    (Module.ofTree telling .new = (.ok m, interner) ∧
      m.resolve .core interner = (types, [], interner')) ∧
    let i := new m.arena interner' types answeringOne .empty
    ((i.timeline m 20 [⟨"main", [], 20⟩]).filterMap
      (Moment.question? i.program)).map (fun q => q.name) = ["Ask"] ∧
    ∃ n id s payload t identity type fields, i.Visits m 20 [⟨"main", [], 20⟩] ⟨n + 1, .expr id, s⟩ ∧
      (m.arena.expr id).kind = .cause payload ∧
      Eval.expr i.program n payload s = (.value (.signal identity type fields), t) ∧
      ¬ t.handlers.Matches types (.signal identity type fields) ∧
      (Moment.result i.program ⟨n + 1, .expr id, s⟩).2.log.questions.length =
        t.log.questions.length + 1 := by
  have hok : (telling.resolved? .core).any fun (m, types, interner') =>
      (((new m.arena interner' types answeringOne .empty).load m 20).2.after
        [⟨"main", [], 20⟩]).machine.log.questions.map (fun q => q.name) = ["Ask"] := by
    decide +kernel
  obtain ⟨⟨m, types, interner'⟩, hok, hasked⟩ := (Option.any_eq_true _ _).1 hok
  obtain ⟨interner, hm, hres⟩ := Tree.File.of_resolved? hok
  obtain ⟨hanswered, htimeline, hquestion, -, hall⟩ :=
    causes_answered answeringOne .empty .none 20 [⟨"main", [], 20⟩] hm hres
  have hnames : ((timeline (new m.arena interner' types answeringOne .empty) m 20
      [⟨"main", [], 20⟩]).filterMap (Moment.question? (new m.arena interner' types answeringOne
        .empty).program)).map (fun q => q.name) = ["Ask"] := by
    rw [← List.reverse_reverse (List.filterMap _ _), ← hall, List.map_reverse,
      of_decide_eq_true hasked]
    rfl
  refine ⟨m, interner, types, interner', ⟨hm, hres⟩, hnames, ?_⟩
  obtain ⟨q, hq, -⟩ := List.mem_map.1 (hnames ▸ List.mem_singleton_self "Ask")
  obtain ⟨x, hx, hxq⟩ := List.mem_filterMap.1 hq
  have hvisit := (htimeline x).1 hx
  obtain ⟨-, n, id, s, payload, t, identity, type, fields, rfl, hy, hk, hv, hno, -⟩ :=
    (hquestion x q hvisit).1 hxq
  have hasked := (((hanswered _ _ _ _ _ _ _ _ hy hk hv).2.by_host hno) _ rfl).asked
  exact ⟨n, id, s, payload, t, identity, type, fields, hy, hk, hv, hno, congrArg List.length hasked⟩

end Interpreter

end SignalLang
