import SignalLang.Proofs.Causes
import SignalLang.Proofs.Origins
import Mathlib.Data.List.DropRight

/-!
# Runaway loops

A loop may be limited in the rounds that it makes while the host says nothing.  It looks at the
count of answers at the beginning of each round only, so an answer counts for the round in which it
is given, wherever in there that is.

* `Moment.hostAnswers p m` : at the moment `m` the host answers a signal, or records a `Debug`.
* `Moment.hostTicks_result` : **the count of answers grows by one at each of these moments.**
* `silence p rounds` : how many rounds have gone by since the host last answered in one.
* `Rounds p n body s rounds t` : the rounds of a loop that come to their end.
* `Moment.loop_fails_iff` : **a loop itself fails when as many rounds as its limit says have gone by
  in silence, and at no other time.**
-/

namespace SignalLang

variable {p : Program}

/-! ### Answers of the host -/

/-- Whether the host, which was asked some questions, answers a signal.  To record a `Debug` is an
answer too. -/
def Program.answers (p : Program) (asked : List Question) (type : TypeId) (signal : Value) : Bool :=
  p.host.any fun h => (h.answer asked (p.question type signal)).isSome || type = .debug

theorem Program.hostTicks_deal (p : Program) (d : HostLog × Nat) (type : TypeId) (signal : Value) :
    (p.deal d type signal).2 = d.2 + (p.answers d.1.questions type signal).toNat := by
  unfold deal answers question
  cases p.host with
  | none => rfl
  | some h =>
    simp only [Host.ask, Option.any_some]
    cases h.answer d.1.questions ⟨p.interner.text (p.types.get type).name, signal⟩ with
    | some v => rfl
    | none => by_cases hd : type = .debug <;> simp [hd]

namespace Moment

/-- At a moment the host gives an answer: a signal is caused there that no handler matches, and the
host answers it or records it. -/
def hostAnswers (p : Program) (m : Moment) : Bool :=
  (m.unhandled? p).any fun q => p.answers m.machine.log.questions q.1 q.2

theorem hostTicks_dealAll (m : Moment) :
    (p.dealAll m.machine.dealings [m]).2 = m.machine.hostTicks + (m.hostAnswers p).toNat := by
  cases hm : m.unhandled? p with
  | none => simp [Program.dealAll, hostAnswers, hm, Machine.dealings]
  | some q =>
    simp only [Program.dealAll, hostAnswers, List.filterMap_cons_some hm, hm, Option.any_some]
    exact p.hostTicks_deal m.machine.dealings q.1 q.2

end Moment

/-- Each answer is counted, once. -/
theorem Program.Tells.hostTicks {d d' : HostLog × Nat} {ms : List Moment} (h : p.Tells d ms d') :
    d'.2 = d.2 + ms.countP (Moment.hostAnswers p) := by
  have hpre : ∀ pre post, ms = pre ++ post →
      (p.dealAll d pre).2 = d.2 + pre.countP (Moment.hostAnswers p) := by
    intro pre
    induction pre using List.reverseRecOn with
    | nil => intro _ _; rfl
    | append_singleton pre m ih =>
      intro post hsplit
      rw [List.append_assoc, List.singleton_append] at hsplit
      have hm := h.before pre m post hsplit
      rw [dealAll_append, ← hm, Moment.hostTicks_dealAll, List.countP_append, ← Nat.add_assoc,
        ← ih _ hsplit, ← hm, List.countP_singleton]
      cases m.hostAnswers p <;> rfl
  rw [h.result]
  exact hpre ms [] (List.append_nil ms).symm

namespace Moment

variable {m : Moment}

/-- **The count of answers grows by one wherever the host answers in an evaluation.** -/
theorem hostTicks_result (m : Moment) :
    (m.result p).2.hostTicks = m.machine.hostTicks + (m.timeline p).countP (hostAnswers p) :=
  m.tells.hostTicks

/-- The host does not answer in an evaluation, wherever it comes to. -/
def isSilent (p : Program) (m : Moment) : Bool := (m.timeline p).all fun x => !x.hostAnswers p

theorem isSilent_iff : m.isSilent p ↔ ∀ π x, Reaches p m π x → ¬ x.hostAnswers p := by
  simp only [isSilent, List.all_eq_true, mem_timeline_iff, Bool.not_eq_true', Bool.not_eq_true]
  exact ⟨fun h π x hx => h x ⟨π, hx⟩, fun h x ⟨π, hx⟩ => h π x hx⟩

theorem isSilent_iff_hostTicks :
    m.isSilent p ↔ (m.result p).2.hostTicks = m.machine.hostTicks := by
  simp [hostTicks_result, isSilent, List.countP_eq_zero]

end Moment

/-! ### Rounds -/

/-- From the machine `s` on, some rounds of a loop come to an end with a value, one after the other,
and the last one leaves `t`. -/
inductive Rounds (p : Program) (n : Nat) (body : ExprId) : Machine → List Moment → Machine → Prop
  | nil (s) : Rounds p n body s [] s
  | cons {s v s' rounds t} (hv : Eval.expr p n body s = (.value v, s'))
      (h : Rounds p n body s' rounds t) : Rounds p n body s (⟨n, .expr body, s⟩ :: rounds) t

/-- How many rounds have gone by since the last one in which the host answered, or all in all if
there is none. -/
def silence (p : Program) (rounds : List Moment) : Nat :=
  (rounds.rtakeWhile (Moment.isSilent p)).length

theorem silence_concat (rounds : List Moment) (m : Moment) :
    silence p (rounds ++ [m]) = if m.isSilent p then silence p rounds + 1 else 0 := by
  simp only [silence, List.rtakeWhile_concat]
  split <;> simp

/-- A limit on silence is reached behind some rounds, and not before. -/
@[mk_iff]
structure RunsAway (p : Program) (limit : Nat) (rounds : List Moment) : Prop where
  silence_eq : silence p rounds = limit
  silence_lt : ∀ pre, pre <+: rounds → pre ≠ rounds → silence p pre < limit

/-- What a loop counts at the beginning of a round is the silence behind the rounds before it. -/
theorem silence_round {n : Nat} {body : ExprId} {s s' : Machine} {v : Value} (pre : List Moment)
    (hv : Eval.expr p n body s = (.value v, s')) :
    (if s'.hostTicks = s.hostTicks then silence p pre + 1 else 0) =
      silence p (pre ++ [⟨n, .expr body, s⟩]) := by
  have hsilent : (⟨n, .expr body, s⟩ : Moment).isSilent p ↔ s'.hostTicks = s.hostTicks := by
    rw [Moment.isSilent_iff_hostTicks, Moment.result, Task.eval, hv]
  simp only [silence_concat, hsilent]

theorem runaway_succ_iff {ev : Evaluator} {body : ExprId} {fuel done ticks k : Nat}
    {s t : Machine} : Runaway p ev body (fuel + 1) done ticks s t k ↔
      ¬ Eval.goesOn p s done ticks ∧ t = s ∧ k = (if s.hostTicks = ticks then done else 0) ∨
      Eval.goesOn p s done ticks ∧ ∃ v s', ev body s = (.value v, s') ∧
        Runaway p ev body fuel ((if s.hostTicks = ticks then done else 0) + 1) s.hostTicks
          s' t k := by
  constructor
  · intro h
    cases h with
    | this h => exact .inl ⟨h, rfl, rfl⟩
    | later h hv ht => exact .inr ⟨h, _, _, hv, ht⟩
  · rintro (⟨h, rfl, rfl⟩ | ⟨h, v, s', hv, ht⟩)
    · exact .this h
    · exact .later h hv ht

theorem goesOn_iff {s : Machine} {done ticks : Nat} : Eval.goesOn p s done ticks ↔
    ∀ limit ∈ p.limits.loopRounds, (if s.hostTicks = ticks then done else 0) < limit := by
  rw [Eval.goesOn]
  cases p.limits.loopRounds <;> simp

/-- Behind some rounds, a loop comes to its limit where the silence reaches it for the first time.
What carries the induction is that the loop counts the silence, which is not above the limit. -/
theorem runaway_iff {n : Nat} {body : ExprId} {fuel done ticks k : Nat} {s t : Machine}
    {pre : List Moment} (hdone : (if s.hostTicks = ticks then done else 0) = silence p pre)
    (hle : ∀ limit ∈ p.limits.loopRounds, silence p pre ≤ limit) :
    Runaway p (Eval.expr p n) body fuel done ticks s t k ↔ p.limits.loopRounds = some k ∧
      ∃ rounds, rounds.length < fuel ∧ Rounds p n body s rounds t ∧
        silence p (pre ++ rounds) = k ∧
          ∀ mid, mid <+: rounds → mid ≠ rounds → silence p (pre ++ mid) < k := by
  induction fuel generalizing done ticks s pre with
  | zero =>
    constructor
    · intro h; cases h
    · rintro ⟨-, rounds, h, -⟩; cases h
  | succ fuel ih =>
    rw [runaway_succ_iff, goesOn_iff, hdone]
    -- behind a round, the loop still counts the silence
    have hnext : ∀ {v s'}, Eval.expr p n body s = (.value v, s') →
        (∀ limit ∈ p.limits.loopRounds, silence p pre < limit) →
        (Runaway p (Eval.expr p n) body fuel (silence p pre + 1) s.hostTicks s' t k ↔ _) :=
      fun hv hlt => ih (silence_round pre hv) fun limit hlimit => by
        have := hlt limit hlimit
        rw [silence_concat]
        split <;> omega
    simp only [List.append_assoc, List.singleton_append] at hnext
    constructor
    · rintro (⟨hstop, rfl, rfl⟩ | ⟨hlt, v, s', hv, hrest⟩)
      · simp only [not_forall, Nat.not_lt] at hstop
        obtain ⟨limit, hlimit, h⟩ := hstop
        obtain rfl := Nat.le_antisymm (hle limit hlimit) h
        refine ⟨hlimit, [], Nat.succ_pos _, .nil t, by rw [List.append_nil], fun mid hmid hne => ?_⟩
        exact absurd (List.prefix_nil.1 hmid) hne
      · obtain ⟨hk, rounds, hlength, hrounds, heq, hmid⟩ := (hnext hv hlt).1 hrest
        refine ⟨hk, _ :: rounds, Nat.succ_lt_succ hlength, .cons hv hrounds, heq, ?_⟩
        intro mid hprefix hne
        obtain rfl | ⟨mid, rfl, hrest⟩ := List.prefix_cons_iff.1 hprefix
        · rw [List.append_nil]
          exact hlt k hk
        · exact hmid mid hrest fun heq => hne (congrArg _ heq)
    · rintro ⟨hk, rounds, hlength, hrounds, heq, hmid⟩
      cases hrounds with
      | nil =>
        rw [List.append_nil] at heq
        exact .inl ⟨fun hlt => absurd heq (Nat.ne_of_lt (hlt k hk)), rfl, heq.symm⟩
      | @cons _ v s' rounds _ hv hrest =>
        have hbelow := hmid [] List.nil_prefix (List.cons_ne_nil _ _).symm
        rw [List.append_nil] at hbelow
        have hlt : ∀ limit ∈ p.limits.loopRounds, silence p pre < limit := fun limit hlimit => by
          cases hk.symm.trans hlimit
          exact hbelow
        refine .inr ⟨hlt, v, s', hv, (hnext hv hlt).2 ⟨hk, rounds, Nat.lt_of_succ_lt_succ hlength,
          hrest, heq, fun mid hprefix hne => ?_⟩⟩
        exact hmid (_ :: mid) (List.prefix_cons_inj _ |>.2 hprefix) fun heq =>
          hne (List.cons.inj heq).2

/-- No round fails of a loop that comes to its limit. -/
theorem Runaway.not_stops {ev : Evaluator} {body : ExprId} {fuel done ticks k : Nat}
    {s t u : Machine} {i : Interrupt} (h : Runaway p ev body fuel done ticks s t k)
    (hu : RoundBegins p ev body fuel done ticks s u) : ¬ Eval.Stops (ev body) u i := by
  induction h with
  | this hstop =>
    cases hu with
    | this hgo | later hgo => exact absurd hgo hstop
  | later _ hv _ ih =>
    cases hu with
    | this _ => simp [Eval.Stops, hv]
    | later _ hv' hu =>
      cases hv.symm.trans hv'
      exact ih hu

theorem enters_round_iff {n : Nat} {id body : ExprId} {s : Machine} {m' : Moment} :
    Enters p ⟨n + 1, .expr id, s⟩ (some (.loop id body)) m' ↔
      (p.arena.expr id).kind = .loop body ∧ ∃ u, m' = ⟨n, .expr body, u⟩ ∧
        RoundBegins p (Eval.expr p n) body n 0 s.hostTicks s.inLoop u := by
  constructor
  · intro h
    cases h with
    | loop hk hu => exact ⟨hk, _, rfl, hu⟩
  · rintro ⟨hk, u, rfl, hu⟩
    exact .loop hk hu

/-- **A loop itself fails when as many rounds as its limit says have gone by in silence, and at no
other time.**  That it fails itself means that it ends in an error and none of its rounds does.
Then there is a limit, the rounds so far have all come to an end with a value, without `break` or
`return`, and it is the first time that so many of them have gone by since the loop began or since
the last round in which the host answered: itself, or in a nested loop, a call or the body of a
handler (`Moment.isSilent_iff`).  The count in the error is the limit.  Without a limit this does
not happen. -/
theorem Moment.loop_fails_iff {id body : ExprId} (hk : (p.arena.expr id).kind = .loop body)
    (fuel : Nat) (s : Machine) (e : EvalError) :
    let m : Moment := ⟨fuel + 1, .expr id, s⟩
    (m.Stops p (.fault e) ∧
        ∀ m' e', Enters p m (some (.loop id body)) m' → ¬ m'.Stops p (.fault e')) ↔
      ∃ limit rounds t, p.limits.loopRounds = some limit ∧
        e = .newAt (.runawayLoop limit) (p.arena.expr id).span ∧
        rounds.length < fuel ∧ Rounds p fuel body s.inLoop rounds t ∧ RunsAway p limit rounds := by
  intro m
  have hresult : m.Stops p (.fault e) ↔ ∃ e', Eval.Stops (Eval.rounds p (Eval.expr p fuel)
      (.ofSerial s.activations) body fuel 0 s.hostTicks) s.inLoop (.fault e') ∧
        e = e'.withSpanIfNone (p.arena.expr id).span := by
    simp only [m, Moment.Stops, Task.eval, Eval.expr, Eval.node, hk]
    exact Eval.stops_located_iff
  have hrunaway : ∀ t k, Runaway p (Eval.expr p fuel) body fuel 0 s.hostTicks s.inLoop t k ↔
      p.limits.loopRounds = some k ∧ ∃ rounds, rounds.length < fuel ∧
        Rounds p fuel body s.inLoop rounds t ∧ RunsAway p k rounds := by
    intro t k
    have hstart : (if s.inLoop.hostTicks = s.hostTicks then 0 else 0) = silence p [] := by
      split <;> rfl
    rw [runaway_iff hstart fun _ _ => Nat.zero_le _]
    simp only [List.nil_append, runsAway_iff]
  rw [hresult]
  constructor
  · rintro ⟨⟨e', hstops, rfl⟩, hrounds⟩
    rcases Eval.rounds_fails hstops with ⟨t, k, h⟩ | ⟨t, e'', ht, h⟩
    · cases hstops.symm.trans h.stops_rounds
      obtain ⟨hlimit, rounds, hlength, h⟩ := (hrunaway t k).1 h
      exact ⟨k, rounds, t, hlimit, rfl, hlength, h⟩
    · exact absurd h (hrounds _ e'' (enters_round_iff.2 ⟨hk, t, rfl, ht⟩))
  · rintro ⟨limit, rounds, t, hlimit, rfl, hlength, h⟩
    have h := (hrunaway t limit).2 ⟨hlimit, rounds, hlength, h⟩
    refine ⟨⟨_, h.stops_rounds, rfl⟩, fun m' e' hm' => ?_⟩
    obtain ⟨-, u, rfl, hu⟩ := enters_round_iff.1 hm'
    exact h.not_stops hu

/-- `loop branch { when go { set go = False cause Debug("a") } }`, given the names in it. -/
def Arena.quieting (falseAnswer debug go a : Name) : Arena where
  exprs := #[⟨.ident falseAnswer, .dummy⟩, ⟨.ident debug, .dummy⟩, ⟨.string a, .dummy⟩,
    ⟨.call ⟨1⟩ [⟨2⟩], .dummy⟩, ⟨.cause ⟨3⟩, .dummy⟩,
    ⟨.block [⟨.set go ⟨0⟩, .dummy⟩, ⟨.expr ⟨4⟩, .dummy⟩], .dummy⟩, ⟨.ident go, .dummy⟩,
    ⟨.branch none [⟨.when ⟨6⟩ ⟨5⟩, .dummy⟩], .dummy⟩, ⟨.loop ⟨7⟩, .dummy⟩]
  decls := #[]
  typeRefs := #[]

/-- An interpreter for this loop, with a limit of two rounds, in which `go` is a variable. -/
def Interpreter.quieting : Interpreter :=
  let go := Interner.new.intern "go"
  let a := go.2.intern "a"
  let types := TypeTable.builtin a.2 0
  let arena := Arena.quieting (types.get .falseAnswer).name (types.get .debug).name go.1 a.1
  let i := Interpreter.new arena a.2 types ⟨.interpret, some (some 2), some .buffer⟩ .empty
  { i with machine := { i.machine with
      store := i.machine.env.define i.machine.store go.1 (.boolean true) true } }

/-- The machine behind some rounds of this loop. -/
def Interpreter.quietingBehind : Nat → Machine
  | 0 => quieting.machine.inLoop
  | rounds + 1 => (Eval.expr quieting.program 19 ⟨7⟩ (quietingBehind rounds)).2

/-- The host records a line in the first round; two more rounds, and the loop has run away. -/
theorem Interpreter.quieting_runs_away : Moment.Stops quieting.program
      ⟨20, .expr ⟨8⟩, quieting.machine⟩ (.fault (.newAt (.runawayLoop 2) .dummy)) ∧
    (quieting.eval ⟨8⟩ 20).2.output = ["a"] := by
  refine ⟨?_, by decide +kernel⟩
  have hround : ∀ n < 3, ∃ v, Eval.expr quieting.program 19 ⟨7⟩ (quietingBehind n) =
      (.value v, quietingBehind (n + 1)) := by
    have hvalue : ∀ n < 3,
        (Eval.expr quieting.program 19 ⟨7⟩ (quietingBehind n)).1.value?.isSome := by decide +kernel
    intro n hn
    obtain ⟨v, hv⟩ := Option.isSome_iff_exists.1 (hvalue n hn)
    exact ⟨v, Prod.ext (Outcome.eq_value_of_value? hv) rfl⟩
  obtain ⟨v₀, h₀⟩ := hround 0 (by decide)
  obtain ⟨v₁, h₁⟩ := hround 1 (by decide)
  obtain ⟨v₂, h₂⟩ := hround 2 (by decide)
  let m (n : Nat) : Moment := ⟨19, .expr ⟨7⟩, quietingBehind n⟩
  -- the silence behind the first one, two and three rounds
  have hsilence₁ : 0 = silence quieting.program [m 0] := by
    refine Eq.trans ?_ (silence_round [] h₀)
    rw [if_neg (by decide +kernel)]
  have hsilence₂ : 1 = silence quieting.program [m 0, m 1] := by
    refine Eq.trans ?_ (silence_round [m 0] h₁)
    rw [if_pos (by decide +kernel), ← hsilence₁]
  have hsilence₃ : 2 = silence quieting.program [m 0, m 1, m 2] := by
    refine Eq.trans ?_ (silence_round [m 0, m 1] h₂)
    rw [if_pos (by decide +kernel), ← hsilence₂]
  have hloop : (quieting.program.arena.expr ⟨8⟩).kind = .loop ⟨7⟩ := rfl
  refine ((Moment.loop_fails_iff hloop 19 quieting.machine _).2 ⟨2, [m 0, m 1, m 2], _, rfl, rfl,
    by decide, .cons h₀ (.cons h₁ (.cons h₂ (.nil _))), hsilence₃.symm, fun pre hpre hne => ?_⟩).1
  simp only [List.prefix_cons_iff, List.prefix_nil] at hpre
  obtain rfl | ⟨_, rfl, rfl | ⟨_, rfl, rfl | ⟨_, rfl, rfl⟩⟩⟩ := hpre
  · decide
  · exact hsilence₁ ▸ by decide
  · exact hsilence₂ ▸ by decide
  · exact absurd rfl hne

end SignalLang
