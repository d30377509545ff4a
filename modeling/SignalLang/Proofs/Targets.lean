import SignalLang.Proofs.Unwinding
import SignalLang.Proofs.Visibility
import Mathlib.Algebra.Group.Nat.Defs

/-!
# The targets of `break` and `return`

Where a `break` or `return` goes is decided by where it is written, but the evaluator only follows
the frames that a machine carries along.  This file states the lexical rule and proves that the
frames obey it.

* `Target arena j b π τ` : with the activities `π` in progress, a jump `j` that is written inside
  `b` goes to the activity at the head of `τ`.  A `break` goes to the loop around it, a `return` to
  the function, and out of the body of a handler both go where they would go from the statement
  that installed it.
* `Reaches.exists_target`, `Target.frame_eq` : the machine has a frame for a jump exactly if the
  jump has a target, and it is the frame of the target.
* `Interpreter.unwind_reaches_lexical_target` : **a `break` or `return` reaches exactly its lexical
  target**, through everything else that is in progress.
-/

namespace SignalLang

/-! ### Where expressions are written -/

/-- The expression `b` is written where the activities `π` are in progress. -/
def Stands (arena : Arena) : List Activity → ExprId → Prop
  | [], _ => True
  | a :: π, b =>
    match a.kind with
    | .loop id body => (arena.expr id).kind = .loop body ∧ arena.Inside body b ∧ Stands arena π id
    | .call c => arena.Inside c.body b
    | .install block f => arena.Installs block f.body ∧ Stands arena π b
    | .handle f _ => arena.Inside f.body b

/-- What a task evaluates is written where the activities `π` are in progress. -/
def Task.Stands (arena : Arena) (π : List Activity) : Task → Prop
  | .expr id => SignalLang.Stands arena π id
  | .stmts block _ rest => SignalLang.Stands arena π block ∧
      ∃ body, (arena.expr block).kind = .block body ∧ rest <:+ body
  | .arms branch _ rest => SignalLang.Stands arena π branch ∧
      ∃ subject options, (arena.expr branch).kind = .branch subject options ∧ rest <:+ options
  | .lets _ => π = []
  | .call _ _ _ | .cause _ => True

variable {arena : Arena} {π τ : List Activity}

theorem Stands.part {b e : ExprId} (h : Stands arena π b) (he : arena.Part b e) :
    Stands arena π e := by
  induction π with
  | nil => trivial
  | cons a π ih =>
    simp only [Stands] at h ⊢
    cases hk : a.kind with
    | loop id body =>
      simp only [hk] at h ⊢
      exact ⟨h.1, h.2.1.tail he, h.2.2⟩
    | call c => simp only [hk] at h ⊢; exact h.tail he
    | install block f => simp only [hk] at h ⊢; exact ⟨h.1, ih h.2⟩
    | handle f outer => simp only [hk] at h ⊢; exact h.tail he

section Reaches

variable {p : Program} {root m : Moment}

/-- A step that begins no activity stays in the same body. -/
theorem Enters.stands {m m' : Moment} (h : Enters p m none m') (hm : m.task.Stands p.arena π) :
    m'.task.Stands p.arena π := by
  cases h with
  | operand hops _ => exact Stands.part hm (.operand (hops ▸ by simp))
  | block hk _ => exact ⟨hm, _, hk, List.suffix_rfl⟩
  | branch hk _ => exact ⟨hm, _, _, hk, List.suffix_rfl⟩
  | cause _ _ | call _ _ | pipe _ _ => trivial
  | stmt he =>
    obtain ⟨hm, body, hk, hrest⟩ := hm
    exact hm.part (.stmt hk (hrest.subset (List.mem_cons_self ..)) he)
  | nextStmt _ _ =>
    obtain ⟨hm, body, hk, hrest⟩ := hm
    exact ⟨hm, body, hk, (List.suffix_cons _ _).trans hrest⟩
  | condition ha =>
    obtain ⟨hm, subject, options, hk, hrest⟩ := hm
    exact hm.part (.condition hk (hrest.subset (List.mem_cons_self ..)) ha)
  | whenTrue ha _ _ | isMatch ha _ _ | otherwise ha =>
    obtain ⟨hm, subject, options, hk, hrest⟩ := hm
    have := hm.part (.arm hk (hrest.subset (List.mem_cons_self ..)))
    rwa [ha] at this
  | whenFalse _ _ _ | isMiss _ _ =>
    obtain ⟨hm, subject, options, hk, hrest⟩ := hm
    exact ⟨hm, subject, options, hk, (List.suffix_cons _ _).trans hrest⟩
  | letValue _ =>
    cases (show π = [] from hm)
    trivial
  | nextLet _ => exact hm

theorem Enters.install_stands {m m' : Moment} {block : ExprId} {f : HandlerFrame}
    (h : Enters p m (some (.install block f)) m') (hm : m.task.Stands p.arena π) :
    p.arena.Installs block f.body ∧ Stands p.arena π block := by
  cases h with
  | @install n b last st rest s pattern body hst =>
    obtain ⟨hm, stmts, hk, hrest⟩ := hm
    exact ⟨⟨stmts, hk, st, hrest.subset (List.mem_cons_self ..), pattern, hst⟩, hm⟩

/-- A step that begins an activity enters its body. -/
theorem Enters.stands_cons {m m' : Moment} {k : ActivityKind} (h : Enters p m (some k) m')
    (hm : m.task.Stands p.arena π) : m'.task.Stands p.arena (⟨k, m⟩ :: π) := by
  cases h with
  | loop hk _ => exact ⟨hk, .refl, hm⟩
  | install hst =>
    have hinstall := Enters.install_stands (Enters.install hst) hm
    obtain ⟨-, stmts, hk, hrest⟩ := hm
    exact ⟨hinstall, stmts, hk, (List.suffix_cons _ _).trans hrest⟩
  | body _ _ _ _ => exact .refl
  | handler _ _ => exact .refl

theorem Reaches.stands (h : Reaches p root π m) (hroot : root.task.Stands p.arena []) :
    m.task.Stands p.arena π := by
  induction h with
  | root => exact hroot
  | step _ hs ih => exact hs.stands ih
  | enter _ hs ih => exact hs.stands_cons ih

end Reaches

/-! ### Jumps -/

/-- A `break` or a `return`. -/
inductive Jump where
  | brk
  | ret

namespace Jump

/-- The expression of a jump. -/
def exprKind : Jump → Option ExprId → Code.ExprKind
  | .brk, value => .brk value
  | .ret, value => .ret value

/-- The way of a jump to its target. -/
def unwind : Jump → FrameId → Value → Interrupt
  | .brk, target, v => .breakTo target v
  | .ret, target, v => .returnTo target v

end Jump

/-- The frame that a jump goes to. -/
def Machine.target (s : Machine) : Jump → Option FrameId
  | .brk => s.loopTarget
  | .ret => s.returnTarget

/-- The frame that a jump in the body of a handler goes to. -/
def HandlerFrame.target (f : HandlerFrame) : Jump → Option FrameId
  | .brk => f.loopTarget
  | .ret => f.returnTarget

/-- The frame that a jump inside an activity goes to. -/
def Activity.target (a : Activity) (j : Jump) : Option FrameId :=
  match a.kind, j with
  | .loop _ _, .brk => some a.frame
  | .loop _ _, .ret => a.start.machine.target .ret
  | .call _, .brk => none
  | .call _, .ret => some a.frame
  | .install _ _, j => a.start.machine.target j
  | .handle f _, j => f.target j

/-- `Target arena j b π τ` : with the activities `π` in progress, the jump `j` that is written
inside `b` goes to the activity at the head of `τ`, which is a part of `π`. -/
inductive Target (arena : Arena) : Jump → ExprId → List Activity → List Activity → Prop
  /-- The loop whose body is around a `break`. -/
  | loop {l body b start π} (hk : (arena.expr l).kind = .loop body) (hb : arena.Inside body b) :
      Target arena .brk b (⟨.loop l body, start⟩ :: π) (⟨.loop l body, start⟩ :: π)
  /-- A `return` goes where it would go from the loop around it. -/
  | outsideLoop {l body b start π τ} (hk : (arena.expr l).kind = .loop body)
      (hb : arena.Inside body b) (ht : Target arena .ret l π τ) :
      Target arena .ret b (⟨.loop l body, start⟩ :: π) τ
  /-- The closure whose body is around a `return`. -/
  | call {c b start π} (hb : arena.Inside c.body b) :
      Target arena .ret b (⟨.call c, start⟩ :: π) (⟨.call c, start⟩ :: π)
  /-- A handler that is installed does not matter. -/
  | outsideInstall {j b block f start π τ} (ht : Target arena j b π τ) :
      Target arena j b (⟨.install block f, start⟩ :: π) τ
  /-- Out of the body of a handler, a jump goes where it would go from the block that installed the
  handler, with the activities in progress that were so then. -/
  | handler {j b f outer start π above x below τ} (hb : arena.Inside f.body b)
      (hv : visible π = above ++ x :: below) (hlen : below.length = outer) (hx : x.frame = f)
      (hblock : arena.Installs x.block f.body) (ht : Target arena j x.block x.around τ) :
      Target arena j b (⟨.handle f outer, start⟩ :: π) τ

namespace Target

variable {j : Jump} {b b' : ExprId} {τ' : List Activity}

/-- The target of a jump is in progress. -/
theorem suffix (h : Target arena j b π τ) : τ <:+ π := by
  induction h with
  | loop _ _ | call _ => exact List.suffix_rfl
  | outsideLoop _ _ _ ih | outsideInstall _ ih => exact ih.trans (List.suffix_cons _ _)
  | @handler _ _ _ _ _ π _ x _ _ _ hv _ _ _ _ ih =>
    have hx : x.path <:+ π := path_suffix_of_mem_visible (by simp [hv])
    exact (ih.trans (List.suffix_cons _ _)).trans (hx.trans (List.suffix_cons _ _))

/-- A jump has one target. -/
theorem unique (h : Target arena j b π τ) (h' : Target arena j b' π τ') : τ' = τ := by
  induction h generalizing b' with
  | loop _ _ => cases h' with | loop _ _ => rfl
  | call _ => cases h' with | call _ => rfl
  | outsideLoop _ _ _ ih => cases h' with | outsideLoop _ _ ht => exact ih ht
  | outsideInstall _ ih => cases h' with | outsideInstall ht => exact ih ht
  | handler _ hv hlen _ _ _ ih =>
    cases h' with
    | handler _ hv' hlen' _ _ ht =>
      rw [hv] at hv'
      obtain ⟨-, hcons⟩ := List.append_inj' hv' (by simp [hlen, hlen'])
      cases hcons
      exact ih ht

/-- The target of a jump is an activation that catches it. -/
theorem exists_cons (h : Target arena j b π τ) :
    ∃ a outside, τ = a :: outside ∧ ∀ v, a.catches (j.unwind a.frame v) = true := by
  induction h with
  | loop _ _ => exact ⟨_, _, rfl, fun v => by simp [Activity.catches, Jump.unwind]⟩
  | call _ => exact ⟨_, _, rfl, fun v => by simp [Activity.catches, Jump.unwind]⟩
  | outsideLoop _ _ _ ih | outsideInstall _ ih | handler _ _ _ _ _ _ ih => exact ih

end Target

section Reaches

variable {p : Program} {root m : Moment} {a : Activity} {j : Jump}

theorem Machine.KeepsReach.target {s s' : Machine} (h : s.KeepsReach s') (j : Jump) :
    s'.target j = s.target j := by
  cases j with
  | brk => exact h.loopTarget
  | ret => exact h.returnTarget

/-- Inside an activity, the frames for jumps are those of the activity. -/
theorem Enters.target_cons {m m' : Moment} {k : ActivityKind} (h : Enters p m (some k) m')
    (j : Jump) : m'.machine.target j = (⟨k, m⟩ : Activity).target j := by
  cases k with
  | loop id body =>
    rw [h.loop_keepsReach.target]
    cases j <;> rfl
  | install block f =>
    obtain ⟨pattern, body, -, hm⟩ := h.install_machine
    rw [hm]
    cases j <;> rfl
  | call c =>
    obtain ⟨calls, hc⟩ := h.call_keepsReach
    rw [hc.target]
    cases j <;> rfl
  | handle f outer =>
    obtain ⟨v, bs, -, -, hk⟩ := h.handle_keepsReach
    rw [hk.target]
    cases j <;> rfl

theorem Reaches.target_cons (h : Reaches p root (a :: π) m) (j : Jump) :
    m.machine.target j = a.target j := by
  generalize hσ : a :: π = σ at h
  induction h with
  | root => cases hσ
  | step _ hs ih => rw [hs.keepsReach.target, ih hσ]
  | enter _ hs _ => cases hσ; exact hs.target_cons j

theorem Reaches.target_nil (h : Reaches p root [] m) (hroot : root.machine.AtRest) (j : Jump) :
    m.machine.target j = none := by
  generalize hσ : ([] : List Activity) = σ at h
  induction h with
  | root =>
    cases j with
    | brk => exact hroot.loopTarget
    | ret => exact hroot.returnTarget
  | step _ hs ih => rw [hs.keepsReach.target, ih hσ]
  | enter _ _ _ => cases hσ

/-- A handler carries the frames for jumps from where it was installed. -/
theorem Enters.install_target {m m' : Moment} {block : ExprId} {f : HandlerFrame}
    (h : Enters p m (some (.install block f)) m') (j : Jump) :
    f.target j = m.machine.target j := by
  obtain ⟨pattern, body, rfl, -⟩ := h.install_machine
  cases j <;> rfl

/-- A visible handler was installed on the way. -/
theorem Reaches.of_mem_visible (h : Reaches p root π m) {x : Installation} (hx : x ∈ visible π) :
    Reaches p root x.around x.start ∧
      ∃ m', Enters p x.start (some (.install x.block x.frame)) m' := by
  obtain ⟨ρ, hρ⟩ := path_suffix_of_mem_visible hx
  rw [← hρ] at h
  exact h.of_append

/-- The handler whose body runs, with the moment at which it was installed. -/
theorem Reaches.exists_installation (h : Reaches p root (a :: π) m) (hroot : root.machine.AtRest)
    {f : HandlerFrame} {outer : Nat} (ha : a.kind = .handle f outer) :
    ∃ above x below m', visible π = above ++ x :: below ∧ below.length = outer ∧ x.frame = f ∧
      Reaches p root x.around x.start ∧ Enters p x.start (some (.install x.block f)) m' := by
  obtain ⟨hstart, _, hs⟩ := h.of_cons
  rw [ha] at hs
  obtain ⟨v, bs, -, hm, -⟩ := hs.handle_keepsReach
  obtain ⟨above, x, below, hv, hlen, rfl, -⟩ := hstart.findMatch?_eq_some hroot hm
  obtain ⟨hinst, m', henter⟩ := hstart.of_mem_visible (x := x) (by simp [hv])
  exact ⟨above, x, below, m', hv, hlen, rfl, hinst, henter⟩

/-- **A frame to jump to belongs to the lexical target.** -/
theorem Reaches.exists_target (hroot : root.machine.AtRest) (hstands : root.task.Stands p.arena [])
    {b : ExprId} {frame : FrameId} (h : Reaches p root π m) (hb : Stands p.arena π b)
    (ht : m.machine.target j = some frame) :
    ∃ a outside, Target p.arena j b π (a :: outside) ∧ a.frame = frame := by
  -- by strong induction, since a handler leads back to the statement that installed it
  induction hn : π.length using Nat.strong_induction_on generalizing π m b with
  | _ n ih =>
    cases π with
    | nil =>
      rw [h.target_nil hroot] at ht
      cases ht
    | cons a π =>
      subst hn
      obtain ⟨hstart, m', hs⟩ := h.of_cons
      rw [h.target_cons] at ht
      obtain ⟨k, start⟩ := a
      cases k with
      | loop id body =>
        obtain ⟨hk, hin, hid⟩ := hb
        cases j with
        -- the loop itself is the target of a `break`, and a `return` passes by
        | brk => exact ⟨_, π, .loop hk hin, Option.some.inj ht⟩
        | ret =>
          obtain ⟨a, outside, hta, hframe⟩ := ih π.length (by simp) hstart hid ht rfl
          exact ⟨a, outside, .outsideLoop hk hin hta, hframe⟩
      | call c =>
        cases j with
        -- a call has no target for a `break`
        | brk => cases ht
        | ret => exact ⟨_, π, .call hb, Option.some.inj ht⟩
      | install block f =>
        obtain ⟨a, outside, hta, hframe⟩ := ih π.length (by simp) hstart hb.2 ht rfl
        exact ⟨a, outside, .outsideInstall hta, hframe⟩
      | handle f outer =>
        obtain ⟨above, x, below, _, hv, hlen, hx, hxs, henter⟩ := h.exists_installation hroot rfl
        obtain ⟨hinst, hxb⟩ := henter.install_stands (hxs.stands hstands)
        -- less was in progress when the handler was installed
        have hlt : x.around.length < (⟨.handle f outer, start⟩ :: π : List Activity).length := by
          have := (path_suffix_of_mem_visible (x := x) (π := π) (by simp [hv])).length_le
          simp only [Installation.path, List.length_cons] at this ⊢
          omega
        obtain ⟨a, outside, hta, hframe⟩ :=
          ih _ hlt hxs hxb ((henter.install_target j).symm.trans ht) rfl
        exact ⟨a, outside, .handler hb hv hlen hx hinst hta, hframe⟩

/-- **The lexical target has the frame to jump to.** -/
theorem Target.frame_eq {b : ExprId} {outside : List Activity}
    (ht : Target p.arena j b π (a :: outside)) (h : Reaches p root π m) :
    m.machine.target j = some a.frame := by
  generalize hτ : a :: outside = τ at ht
  induction ht generalizing m with
  | loop _ _ | call _ => cases hτ; exact h.target_cons _
  | outsideLoop _ _ _ ih | outsideInstall _ ih =>
    rw [h.target_cons]
    exact ih (h.of_cons).1 hτ
  | @handler j b f outer start π above x below τ _ hv _ hx _ _ ih =>
    obtain ⟨hxs, _, henter⟩ := h.of_cons.1.of_mem_visible (x := x) (by simp [hv])
    rw [h.target_cons, ← ih hxs hτ, ← henter.install_target, hx]
    rfl

/-! ### Activations -/

/-- An activity that is an activation of a loop or a closure. -/
def Activity.isActivation (a : Activity) : Bool :=
  match a.kind with
  | .loop _ _ => true
  | .call _ => true
  | _ => false

theorem Activity.isActivation_of_catches {i : Interrupt} (h : a.catches i = true) :
    a.isActivation = true := by
  simp only [catches] at h
  simp only [isActivation]
  split at h <;> simp_all

theorem Enters.activations_le {m m' : Moment} {k : Option ActivityKind} (h : Enters p m k m') :
    m.machine.activations ≤ m'.machine.activations := by
  cases k with
  | none => exact h.keepsReach.activations
  | some k =>
    cases k with
    | loop id body => exact (Nat.le_succ _).trans h.loop_keepsReach.activations
    | install block f =>
      obtain ⟨pattern, body, -, hm⟩ := h.install_machine
      rw [hm]
      exact Nat.le_refl _
    | call c =>
      obtain ⟨calls, hc⟩ := h.call_keepsReach
      exact (Nat.le_succ _).trans hc.activations
    | handle f outer =>
      obtain ⟨v, bs, -, -, hk⟩ := h.handle_keepsReach
      exact hk.activations

/-- The activation of a loop or a closure is counted. -/
theorem Enters.activations_lt {m m' : Moment} {k : ActivityKind} (h : Enters p m (some k) m')
    (hk : (⟨k, m⟩ : Activity).isActivation = true) :
    m.machine.activations < m'.machine.activations := by
  cases k with
  | loop id body => exact h.loop_keepsReach.activations
  | install block f => cases hk
  | call c =>
    obtain ⟨calls, hc⟩ := h.call_keepsReach
    exact hc.activations
  | handle f outer => cases hk

theorem Reaches.activations_le (h : Reaches p root π m) :
    root.machine.activations ≤ m.machine.activations := by
  induction h with
  | root => exact Nat.le_refl _
  | step _ hs ih => exact ih.trans hs.activations_le
  | enter _ hs ih => exact ih.trans hs.activations_le

/-- Inside an activation there are more than when it began. -/
theorem Reaches.activations_lt {ρ : List Activity} (h : Reaches p root (ρ ++ a :: π) m)
    (ha : a.isActivation = true) : a.start.machine.activations < m.machine.activations := by
  generalize hσ : ρ ++ a :: π = σ at h
  induction h generalizing ρ with
  | root => simp at hσ
  | step _ hs ih => exact (ih hσ).trans_le hs.activations_le
  | enter _ hs ih =>
    cases ρ with
    | nil => cases hσ; exact hs.activations_lt ha
    | cons b ρ => exact (ih (List.cons.inj hσ).2).trans_le hs.activations_le

/-- While there are not too many activations, no other one inside the target catches an unwind. -/
theorem Reaches.not_catches {ρ : List Activity} {v : Value} (h : Reaches p root (ρ ++ a :: π) m)
    (ha : a.isActivation = true)
    (hfew : m.machine.activations < root.machine.activations + 2 ^ 32) :
    ∀ b ∈ ρ, b.catches (j.unwind a.frame v) = false := by
  intro b hb
  by_contra hcatch
  rw [Bool.not_eq_false] at hcatch
  obtain ⟨ρ₁, ρ₂, rfl⟩ := List.append_of_mem hb
  rw [List.append_assoc] at h
  have hstart := h.of_append.1
  have hroot := (hstart.of_append).1.activations_le
  have hab := hstart.activations_lt ha
  have hbm := h.activations_lt (b.isActivation_of_catches hcatch)
  have hframe : a.frame = b.frame := by
    simp only [Activity.catches] at hcatch
    cases j <;> split at hcatch <;> simp_all [Jump.unwind]
  -- both would have the same number, although `b` began later than `a`
  rw [Activity.frame, Activity.frame, FrameId.ofSerial_inj hab.le (by simp only [UInt32.size]; omega)] at hframe
  omega

end Reaches

/-! ### Unwinding to the target -/

theorem Jump.isFault_unwind (j : Jump) (frame : FrameId) (v : Value) :
    (j.unwind frame v).isFault = false := by
  cases j <;> rfl

theorem Jump.value_unwind (j : Jump) (frame : FrameId) (v : Value) :
    (j.unwind frame v).value = v := by
  cases j <;> rfl

theorem Eval.stops_leaveLoop {s : Machine} {frame : FrameId} (h : s.loopTarget = some frame)
    (v : Value) : Stops (leaveLoop v) s (.breakTo frame v) := by
  have hread : read (fun s : Machine => s.loopTarget) s = (.value (some frame), s) := by
    rw [read, h]
  exact stops_bind_right hread rfl

theorem Eval.stops_leaveFunction {s : Machine} {frame : FrameId}
    (h : s.returnTarget = some frame) (v : Value) :
    Stops (leaveFunction v) s (.returnTo frame v) := by
  have hread : read (fun s : Machine => s.returnTarget) s = (.value (some frame), s) := by
    rw [read, h]
  exact stops_bind_right hread rfl

/-- A jump with a frame to go to sets out for it. -/
theorem Moment.stops_of_jump {p : Program} {n : Nat} {id : ExprId} {s s' : Machine} {j : Jump}
    {value : Option ExprId} {v : Value} {frame : FrameId}
    (hk : (p.arena.expr id).kind = j.exprKind value)
    (hv : Eval.optional (Eval.expr p n) value s = (.value v, s')) (ht : s'.target j = some frame) :
    Moment.Stops p ⟨n + 1, .expr id, s⟩ (j.unwind frame v) := by
  cases j with
  | brk =>
    simp only [Moment.Stops, Task.eval, Eval.expr, Eval.node, hk, Jump.exprKind]
    exact Eval.stops_bind_right hv (Eval.stops_leaveLoop ht v)
  | ret =>
    simp only [Moment.Stops, Task.eval, Eval.expr, Eval.node, hk, Jump.exprKind]
    exact Eval.stops_bind_right hv (Eval.stops_leaveFunction ht v)

namespace Interpreter

/-- What a use of an interpreter evaluates first stands outside every body. -/
theorem Starts.stands {i : Interpreter} {root : Moment} (h : i.Starts root) :
    root.task.Stands i.program.arena [] := by
  cases h with
  | load _ => rfl
  | call _ | eval => trivial

/-- **A `break` or `return` reaches exactly its lexical target.**  When one has been evaluated, it
has a frame to go to exactly if the lexical rule gives it a target.  This target is in progress;
every activity inside it, whether a loop, a call, a block under a handler or the body of a handler,
ends with the unwind as it is; and the target ends with the value. -/
theorem unwind_reaches_lexical_target {i : Interpreter} {root : Moment} {π : List Activity}
    {n : Nat} {id : ExprId} {s s' : Machine} {j : Jump} {value : Option ExprId} {v : Value}
    (hi : i.Session) (hr : i.Starts root) (h : Reaches i.program root π ⟨n + 1, .expr id, s⟩)
    (hk : (i.program.arena.expr id).kind = j.exprKind value)
    (hv : Eval.optional (Eval.expr i.program n) value s = (.value v, s'))
    (hfew : s.activations < root.machine.activations + 2 ^ 32) :
    (s'.target j = none ↔ ∀ τ, ¬ Target i.program.arena j id π τ) ∧
      ∀ frame, s'.target j = some frame →
        ∃ inside a outside, π = inside ++ a :: outside ∧ a.frame = frame ∧
          (∀ τ, Target i.program.arena j id π τ ↔ τ = a :: outside) ∧
          (Eval.expr i.program (n + 1) id s).1 = .interrupt (j.unwind frame v) ∧
          (∀ b ∈ inside, (b.result i.program).1 = .interrupt (j.unwind frame v)) ∧
          (a.result i.program).1 = .value v := by
  have hroot := hr.atRest hi
  -- the operand of the jump leaves the frames as they are
  have hsame : s'.target j = s.target j :=
    ((Eval.balanced_optional (Eval.balanced_expr n) value).keepsReach hv).target j
  have hstands := h.stands hr.stands
  have hexists : ∀ frame, s'.target j = some frame →
      ∃ a outside, Target i.program.arena j id π (a :: outside) ∧ a.frame = frame :=
    fun frame ht => h.exists_target hroot hr.stands hstands (hsame ▸ ht)
  refine ⟨⟨fun hnone τ ht => ?_, fun hno => ?_⟩, fun frame ht => ?_⟩
  · obtain ⟨a, outside, rfl, -⟩ := ht.exists_cons
    rw [hsame, ht.frame_eq h] at hnone
    cases hnone
  · cases ht : s'.target j with
    | none => rfl
    | some frame =>
      obtain ⟨a, outside, htarget, -⟩ := hexists frame ht
      exact absurd htarget (hno _)
  · obtain ⟨a, outside, htarget, rfl⟩ := hexists frame ht
    obtain ⟨inside, hπ⟩ := htarget.suffix
    have hcatch : ∀ v, a.catches (j.unwind a.frame v) = true := by
      obtain ⟨a', outside', heq, hcatch⟩ := htarget.exists_cons
      cases heq
      exact hcatch
    have hstops := Moment.stops_of_jump hk hv ht
    subst hπ
    -- nothing inside the target catches the unwind
    have hnot := h.not_catches (j := j) (v := v) (a.isActivation_of_catches (hcatch v)) hfew
    obtain ⟨hinside, ha⟩ := h.result_of_stops (j.isFault_unwind _ _) hnot hstops
    refine ⟨inside, a, outside, rfl, rfl, fun τ => ⟨fun hτ => htarget.unique hτ, ?_⟩, hstops,
      hinside, ?_⟩
    · rintro rfl
      exact htarget
    · rw [ha, Activity.after, if_pos (hcatch v), j.value_unwind]

/-- `{ signal Ask; loop { effect for Ask break; (fn() loop cause Ask)() } }` -/
def askingInLoops : Interpreter :=
  asking #[⟨.ident .empty, .dummy⟩, ⟨.cause ⟨0⟩, .dummy⟩, ⟨.loop ⟨1⟩, .dummy⟩,
    ⟨.function [] none ⟨2⟩, .dummy⟩, ⟨.call ⟨3⟩ [], .dummy⟩, ⟨.brk none, .dummy⟩,
    ⟨.block [⟨.effect ⟨⟨0⟩, none, .dummy⟩ ⟨5⟩, .dummy⟩, ⟨.expr ⟨4⟩, .dummy⟩], .dummy⟩,
    ⟨.loop ⟨6⟩, .dummy⟩, ⟨.block [⟨.decl ⟨0⟩, .dummy⟩, ⟨.expr ⟨7⟩, .dummy⟩], .dummy⟩]

/-- The `break` in the body of the handler ends the outer loop, through the inner one and a call. -/
theorem break_in_handler_ends_outer_loop :
    ∃ root π s, askingInLoops.Session ∧ askingInLoops.Starts root ∧
      Reaches askingInLoops.program root π ⟨5, .expr ⟨5⟩, s⟩ ∧
      ∃ inside a outside, π = inside ++ a :: outside ∧ inside.length = 4 ∧
        a.kind = .loop ⟨7⟩ ⟨6⟩ ∧ (∀ b ∈ inside, (b.result askingInLoops.program).1 =
          .interrupt (.breakTo a.frame .action)) ∧
        (a.result askingInLoops.program).1 = .value .action := by
  have h : Reaches askingInLoops.program ⟨11, .expr ⟨8⟩, askingInLoops.machine⟩ [] _ := .root
  have h := h.step (.block rfl rfl)
  have h := h.step (.nextStmt (by rintro _ _ ⟨⟩) rfl)
  have h := h.step (.stmt rfl)
  have h := h.enter (.loop rfl (.this (by decide)))
  have h := h.step (.block rfl rfl)
  have h := h.enter (.install rfl)
  have h := h.step (.stmt rfl)
  have h := h.step (.call rfl rfl)
  have h := h.enter (.body rfl rfl rfl rfl)
  have h := h.enter (.loop rfl (.this (by decide)))
  have h := h.step (.cause rfl rfl)
  have h := h.enter (.handler rfl rfl)
  have hi : askingInLoops.Session := .new ..
  have hk : (askingInLoops.program.arena.expr ⟨5⟩).kind = Jump.brk.exprKind none := rfl
  obtain ⟨-, hreach⟩ := unwind_reaches_lexical_target hi .eval h hk rfl (by decide)
  obtain ⟨inside, a, outside, hπ, hframe, htarget, -, hinside, ha⟩ := hreach _ rfl
  have hinstalls : askingInLoops.program.arena.Installs ⟨6⟩ ⟨5⟩ :=
    ⟨_, rfl, _, List.mem_cons_self .., _, rfl⟩
  have hτ := (htarget _).1 (.handler .refl (List.nil_append _).symm rfl rfl hinstalls
    (.loop rfl .refl))
  obtain ⟨rfl, rfl⟩ := List.cons.inj hτ
  have hlen := congrArg List.length hπ
  rw [List.length_append] at hlen
  exact ⟨_, _, _, hi, .eval, h, inside, _, [], hπ, Nat.succ.inj hlen.symm, rfl,
    hframe ▸ hinside, ha⟩

end Interpreter

end SignalLang
