import SignalLang.Proofs.AnchoredScopes
import SignalLang.Proofs.KeptInvariants

/-!
# Evaluation keeps scopes anchored

Evaluation comes by the scopes that it refers to in few ways.  It creates one inside the current one
or inside one that was captured, and closures and handlers capture the current one.  Everything else
hands scopes on, in values, in handlers and in environments that are put back.

* `Moment.Anchored a m` : all that a machine refers to is anchored, and so are the values at hand.
* `Invariant.kept_anchored` : this is an invariant that evaluation keeps.
* `Eval.Anchors a p ms good x s` : from an anchored machine `s`, the step `x` begins the parts `ms`
  anchored and ends anchored, with environment and handlers put back and a `good` value if any.
* `Moment.Anchored.ends`, `Moment.Anchored.of_reaches` : **an evaluation that begins anchored ends
  anchored, and so are all the moments that it comes to**, if the host answers with values of which
  all closures captured scopes that are there.
-/

namespace SignalLang

variable {p : Program} {a : Anchor}

/-! ### Anchored moments -/

/-- A good value, or an interrupt that takes an anchored one along. -/
def Outcome.Anchored (a : Anchor) (s : Store) (good : Store → α → Prop) : Outcome α → Prop
  | .value v => good s v
  | .interrupt i => ∀ v ∈ i.carried?, a.Holds s v
  | .outOfFuel => True

theorem Outcome.Anchored.holds {s : Store} {r : Outcome Value} (h : r.Anchored a s a.Holds)
    {v : Value} (hv : r.carried? = some v) : a.Holds s v := by
  cases r with
  | value w =>
    cases hv
    exact h
  | interrupt i => exact h v hv
  | outOfFuel => cases hv

/-- A step from `s` has ended anchored. -/
structure Machine.EndsAnchored (a : Anchor) (s : Machine) (good : Store → α → Prop)
    (res : Outcome α × Machine) : Prop extends s.Upholds a res.2 where
  outcome : res.1.Anchored a res.2.store good

/-- All that there is at a moment is anchored. -/
structure Moment.Anchored (a : Anchor) (m : Moment) : Prop where
  machine : m.machine.Anchored a
  values : ∀ v ∈ m.task.values, a.Holds m.machine.store v

/-- What begins at a moment ends anchored. -/
def Moment.EndsAnchored (a : Anchor) (p : Program) (m : Moment) : Prop :=
  m.machine.EndsAnchored a a.Holds (m.result p)

/-! ### An invariant -/

namespace Invariant

/-- All that a machine refers to is anchored, and no scope is lost. -/
def anchored (a : Anchor) : Invariant where
  machine s := s.Anchored a
  value := a.Holds
  step s t := s.Upholds a t

theorem fits_anchored_iff {good : Store → α → Prop} {s : Store} {r : Outcome α} :
    (anchored a).Fits s good r ↔ r.Anchored a s good := by
  cases r <;> exact .rfl

theorem ends_anchored_iff {good : Store → α → Prop} {s : Machine} {res : Outcome α × Machine} :
    (anchored a).Ends s good res ↔ s.EndsAnchored a good res :=
  ⟨fun h => ⟨h.step, fits_anchored_iff.1 h.outcome⟩,
    fun h => ⟨h.toUpholds, fits_anchored_iff.2 h.outcome⟩⟩

theorem at_anchored_iff {m : Moment} : (anchored a).At m ↔ m.Anchored a :=
  ⟨fun h => ⟨h.machine, h.values⟩, fun h => ⟨h.machine, h.values⟩⟩

instance : (anchored a).Steady where
  refl hs := hs.upholds
  trans h h' := h.trans h'
  machine h hs := h.anchored hs
  value h hv := hv.mono h.size
  grow hsize hv := hv.mono hsize
  within h hsize hcells hlog henv hhandlers :=
    have hcells' := Nat.le_of_eq (congrArg Array.size hcells.symm)
    ⟨h.store.of_cells hcells, Nat.le_trans hsize (Nat.le_trans h.size hcells'), henv h.env,
      hhandlers h.handlers, fun q hq => (h.questions q (hlog ▸ hq)).mono hcells'⟩

theorem anchored_typeValue {d : DeclId} {fieldless isSignal : Bool} {s u : Machine} {v : Value}
    (hv : Eval.typeValue p d fieldless isSignal s = (.value v, u)) : a.Holds s.store v := by
  cases htype : p.types.declType? d with
  | none =>
    simp only [Eval.typeValue, htype] at hv
    cases hv
  | some type =>
    simp only [Eval.typeValue, htype] at hv
    cases fieldless <;> cases isSignal <;> cases hv
    · exact Value.only_constructor _
    · exact Value.only_constructor _
    · exact Value.only_object (by simp)
    · exact Value.only_signal (by simp)

/-- The new instance carries what its fields carry. -/
theorem anchored_addInstance {s : Store} (isSignal : Bool) (type : TypeId)
    {values : List (Name × Value)} (hall : ∀ x ∈ values, a.Holds s x.2) :
    a.Holds s (s.addInstance isSignal type values).1 := by
  cases isSignal with
  | true => exact Value.only_signal hall
  | false => exact Value.only_object hall

/-- **Evaluation keeps scopes anchored.** -/
theorem kept_anchored : (anchored a).Kept p where
  number _ := Value.only_number _
  string _ := Value.only_string _
  boolean _ := Value.only_boolean _
  action := Value.only_action
  native _ := Value.only_native _
  field hv hw := Value.Only.field? hv hw
  lookup hs hv := hs.store.holds_lookup hs.has_current hv
  closure hs hc := Value.only_closure.2 (hc ▸ hs.has_current)
  typeValue _ hv := anchored_typeValue hv
  addInstance _ hall _ _ := anchored_addInstance _ _ hall
  define n isVariable hs hv :=
    have hsize := Nat.le_of_eq (Store.size_define ..).symm
    ⟨hs.store.define hs.current n hv isVariable, hsize, rfl, rfl,
      fun q hq => (hs.questions q hq).mono hsize⟩
  assign hs hv ho :=
    have hsize := Nat.le_of_eq (Store.size_define ..).symm
    ⟨hs.store.assign ho hv, hsize, rfl, rfl, fun q hq => (hs.questions q hq).mono hsize⟩
  ask _ hs hsignal :=
    ⟨hs.store, Nat.le_refl _, rfl, rfl, List.forall_mem_cons.2 ⟨hsignal, hs.questions⟩⟩
  inScope hs := hs.inScope
  inBody _ _ hs hc := hs.inBody (Value.only_closure.1 hc) _ _
  inHandler outer hs hf := hs.inHandler hf outer
  install _ _ hs := hs.install hs.has_current

end Invariant

/-! ### Evaluations -/

namespace Eval

/-- From an anchored machine, the step `x` begins its parts `ms` anchored and, as long as these end
anchored, ends anchored itself, with a good value if any. -/
def Anchors (a : Anchor) (p : Program) (ms : List Moment) (good : Store → α → Prop) (x : Eval α)
    (s : Machine) : Prop :=
  s.Anchored a → (∀ m ∈ ms, m.Anchored a → m.EndsAnchored a p) →
    (∀ m ∈ ms, m.Anchored a) ∧ s.EndsAnchored a good (x s)

variable {ms : List Moment} {good : Store → α → Prop} {x : Eval α} {s : Machine}

theorem anchors_iff : Anchors a p ms good x s ↔ Keeps (Invariant.anchored a) p ms good x s := by
  simp only [Anchors, Keeps, Moment.EndsAnchored, ← Invariant.ends_anchored_iff,
    ← Invariant.at_anchored_iff]
  rfl

theorem anchors_bindAllHoisted (ds : List DeclId) :
    Anchors a p [] (fun _ _ => True) (bindAllHoisted p ds) s :=
  anchors_iff.2 (keeps_bindAllHoisted Invariant.kept_anchored ds)

end Eval

namespace Moment

variable {m m' : Moment}

/-- All that the host and its functions give in an evaluation is anchored. -/
def AnsweredWithin (a : Anchor) (p : Program) (m : Moment) : Prop :=
  ∀ π x v, Reaches p m π x → x.Answers p v → a.Holds x.machine.store v

/-- **An evaluation that begins anchored ends anchored.** -/
theorem Anchored.ends (h : m.Anchored a) (hanswers : m.AnsweredWithin a p) :
    m.EndsAnchored a p :=
  Invariant.ends_anchored_iff.1
    (Invariant.kept_anchored.ends (Invariant.at_anchored_iff.2 h) hanswers)

/-- **All moments that such an evaluation comes to are anchored.** -/
theorem Anchored.of_reaches (h : m.Anchored a) (hanswers : m.AnsweredWithin a p)
    {π : List Activity} (hr : Reaches p m π m') : m'.Anchored a ∧ m'.AnsweredWithin a p := by
  obtain ⟨hat, hanswered⟩ :=
    Invariant.kept_anchored.at_of_reaches (Invariant.at_anchored_iff.2 h) hanswers hr
  exact ⟨Invariant.at_anchored_iff.1 hat, hanswered⟩

end Moment

end SignalLang
