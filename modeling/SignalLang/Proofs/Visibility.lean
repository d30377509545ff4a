import SignalLang.Proofs.Coverage
import Mathlib.Data.List.Pairwise

/-!
# Visible handlers

A handler that was installed is visible until its block ends, except while its own body runs, or
that of a handler around it: a running handler hides itself and all that was installed inside it.
This file says which handlers those are, from the activities in progress alone.

* `Installation` : a handler that was installed, with the activities around the statement.
* `visible π` : the installations that a cause can find inside the activities `π`, and
  `Running π x` : the body of the installation `x` is being evaluated.
* `Reaches.handlers_eq_visible` : the handler stack of a machine consists of the visible ones.
* `Interpreter.handler_never_handles_itself` : **while the body of a handler runs, exactly the
  handlers that were outside it and those installed since are visible, so no cause reaches a handler
  that is running already.**
-/

namespace SignalLang

/-! ### Installations -/

/-- A handler that was installed, the moment of the statement and the activities around it. -/
structure Installation where
  block : ExprId
  frame : HandlerFrame
  start : Moment
  around : List Activity

namespace Installation

/-- The activities around what the handler covers. -/
def path (x : Installation) : List Activity := ⟨.install x.block x.frame, x.start⟩ :: x.around

/-- Whether a handler was installed within what another one covers. -/
def Within (y x : Installation) : Prop := x.path <:+ y.around

theorem Within.length_lt {x y : Installation} (h : y.Within x) :
    x.around.length < y.around.length := by
  have := List.IsSuffix.length_le h
  simp only [path, List.length_cons] at this
  omega

end Installation

/-- The installations that a cause can find inside some activities, the innermost first.  The body
of a handler sees those that were outside the handler. -/
def visible : List Activity → List Installation
  | [] => []
  | a :: π =>
    match a.kind with
    | .install b f => ⟨b, f, a.start, π⟩ :: visible π
    | .handle _ outer => (visible π).drop ((visible π).length - outer)
    | _ => visible π

/-- The installations made by some activities inside others. -/
def installedIn (outside : List Activity) : List Activity → List Installation
  | [] => []
  | a :: π =>
    match a.kind with
    | .install b f => ⟨b, f, a.start, π ++ outside⟩ :: installedIn outside π
    | _ => installedIn outside π

/-- Whether an activity is the body of a handler. -/
def Activity.handles (a : Activity) : Bool :=
  match a.kind with
  | .handle _ _ => true
  | _ => false

/-- The body of an installed handler is being evaluated: a cause found it when `outer` others were
visible outside it. -/
def Running (π : List Activity) (x : Installation) : Prop :=
  ∃ inside f outer start outside, π = inside ++ ⟨.handle f outer, start⟩ :: outside ∧
    ∃ above below, visible outside = above ++ x :: below ∧ below.length = outer

/-! ### Where the visible ones were installed -/

variable {π : List Activity} {x y : Installation}

theorem mem_visible_cons {a : Activity} (h : x ∈ visible (a :: π)) :
    x.path = a :: π ∨ x ∈ visible π := by
  simp only [visible] at h
  cases hk : a.kind with
  | install b f =>
    simp only [hk, List.mem_cons] at h
    rcases h with rfl | h
    · left; simp only [Installation.path, ← hk]
    · exact .inr h
  | handle f outer =>
    simp only [hk] at h
    exact .inr (List.mem_of_mem_drop h)
  | loop id body => simp only [hk] at h; exact .inr h
  | call c => simp only [hk] at h; exact .inr h

theorem path_suffix_of_mem_visible (h : x ∈ visible π) : x.path <:+ π := by
  induction π with
  | nil => simp [visible] at h
  | cons a π ih =>
    rcases mem_visible_cons h with h | h
    · rw [h]
    · exact (ih h).trans (List.suffix_cons a π)

/-- Each visible handler was installed within what those after it in the list cover. -/
theorem visible_pairwise (π : List Activity) : (visible π).Pairwise Installation.Within := by
  induction π with
  | nil => exact .nil
  | cons a π ih =>
    simp only [visible]
    split
    · exact List.pairwise_cons.2 ⟨fun _ h => path_suffix_of_mem_visible h, ih⟩
    · exact ih.sublist (List.drop_sublist _ _)
    · exact ih

/-- Inside more activities, a handler is visible that was so before or that was installed there. -/
theorem mem_visible_append {ρ : List Activity} (h : x ∈ visible (ρ ++ π)) :
    x ∈ visible π ∨ π <:+ x.around := by
  induction ρ with
  | nil => exact .inl h
  | cons a ρ ih =>
    rcases mem_visible_cons h with h | h
    · right
      have : x.around = ρ ++ π := (List.cons.inj h).2
      exact ⟨ρ, this.symm⟩
    · exact ih h

theorem visible_append_of_not_handles {ρ : List Activity} (h : ∀ b ∈ ρ, b.handles = false) :
    visible (ρ ++ π) = installedIn π ρ ++ visible π := by
  induction ρ with
  | nil => rfl
  | cons a ρ ih =>
    obtain ⟨ha, hρ⟩ := List.forall_mem_cons.1 h
    simp only [List.cons_append, visible, installedIn]
    cases hk : a.kind with
    | install b f => simp only [ih hρ, List.cons_append]
    | handle f outer => simp [Activity.handles, hk] at ha
    | loop id body => exact ih hρ
    | call c => exact ih hρ

/-! ### What a running handler hides -/

section Hiding

variable {inside outside : List Activity} {f : HandlerFrame} {outer : Nat} {start : Moment}
  {above below : List Installation}

/-- The body of a handler sees the handlers outside it. -/
theorem visible_handle (hv : visible outside = above ++ x :: below) (hlen : below.length = outer) :
    visible (⟨.handle f outer, start⟩ :: outside) = below := by
  have h : (above ++ x :: below).length - outer = (above ++ [x]).length := by
    simp only [List.length_append, List.length_cons, List.length_nil]; omega
  simp only [visible, hv, h]
  rw [List.append_cons above x below, List.drop_left]

/-- Until the body of a handler is left, the handler and those inside it are not visible. -/
theorem not_mem_visible_of_handle (hv : visible outside = above ++ x :: below)
    (hlen : below.length = outer) (hy : y ∈ above ++ [x]) :
    y ∉ visible (inside ++ ⟨.handle f outer, start⟩ :: outside) := by
  intro h
  have hpair := visible_pairwise outside
  rw [hv, List.append_cons, List.pairwise_append] at hpair
  rcases mem_visible_append h with h | h
  -- visible outside the handler: but `y` is the handler, or within it
  · rw [visible_handle hv hlen] at h
    have := (hpair.2.2 y hy y h).length_lt
    omega
  -- installed since: then it would be within itself
  · have hmem : y ∈ visible outside := by
      rw [hv, List.append_cons]
      exact List.mem_append_left _ hy
    have h₁ := (path_suffix_of_mem_visible hmem).length_le
    have h₂ := h.length_le
    simp only [Installation.path, List.length_cons] at h₁ h₂
    omega

theorem not_mem_visible_of_running (h : Running π x) : x ∉ visible π := by
  obtain ⟨inside, f, outer, start, outside, rfl, above, below, hv, hlen⟩ := h
  exact not_mem_visible_of_handle hv hlen (by simp)

end Hiding

/-! ### The handlers of a machine -/

variable {p : Program} {root m : Moment}

/-- **The handler stack consists of the visible handlers**, in this order. -/
theorem Reaches.handlers_eq_visible (h : Reaches p root π m) (hroot : root.machine.AtRest) :
    m.machine.handlers.frames = (visible π).map (·.frame) := by
  induction h with
  | root => rw [hroot.handlers]; rfl
  | step _ hs ih => rw [hs.keepsReach.handlers, ih]
  | @enter π m k m' _ hs ih =>
    cases k with
    | loop id body => rw [hs.loop_keepsReach.handlers]; exact ih
    | install b f =>
      obtain ⟨pattern, body, -, hm⟩ := hs.install_machine
      rw [hm]
      exact congrArg (f :: ·) ih
    | call c =>
      obtain ⟨calls, hc⟩ := hs.call_keepsReach
      rw [hc.handlers]
      exact ih
    | handle f outer =>
      obtain ⟨v, bs, -, -, hk⟩ := hs.handle_keepsReach
      -- splitting the stack drops exactly the handlers that the body hides
      rw [hk.handlers]
      simp only [Machine.inHandler, Machine.inBody, HandlerStack.splitOff, visible, ih,
        List.length_map, List.map_drop]

/-- The handler that a cause finds, among the visible ones. -/
theorem Reaches.findMatch?_eq_some (h : Reaches p root π m) (hroot : root.machine.AtRest)
    {v : Value} {outer : Nat} {f : HandlerFrame} {bs : Bindings}
    (hm : m.machine.handlers.findMatch? p.types v = some (outer, f, bs)) :
    ∃ above x below, visible π = above ++ x :: below ∧ below.length = outer ∧ x.frame = f ∧
      v.matchPattern? f.pattern p.types = some bs ∧
      ∀ y ∈ above, v.matchPattern? y.frame.pattern p.types = none := by
  obtain ⟨inner, rest, hframes, hlen, hf, hinner⟩ := HandlerStack.firstMatch?_eq_some_iff.1 hm
  rw [h.handlers_eq_visible hroot, List.map_eq_append_iff] at hframes
  obtain ⟨above, l, hv, rfl, hl⟩ := hframes
  obtain ⟨x, below, rfl, rfl, rfl⟩ := List.map_eq_cons_iff.1 hl
  exact ⟨above, x, below, hv, by simpa using hlen, rfl, hf, fun y hy =>
    hinner y.frame (List.mem_map_of_mem hy)⟩

/-- The result of a moment has the handlers of the moment. -/
theorem Moment.handlers_result (p : Program) (m : Moment) :
    (m.result p).2.handlers = m.machine.handlers := by
  have hev := fun id => Eval.balanced_expr (p := p) m.fuel id
  have h : Eval.Balanced (m.task.eval p (Eval.expr p m.fuel)) := by
    cases m.task with
    | expr id => exact hev id
    | stmts block last rest => exact Eval.balanced_stmts hev last rest
    | arms branch subject rest => exact Eval.balanced_arms hev subject rest
    | lets ds => exact (Eval.balanced_bindAllLets hev ds).bind fun _ => Eval.balanced_pure _
    | call callee args span => exact Eval.balanced_callValue hev callee args span
    | cause signal => exact Eval.balanced_cause hev signal
  exact (h m.machine).handlers

/-! ### Handlers that run -/

/-- What holds inside the body `a` of a handler, behind the activities `inside` and within the
activities `outside` : the cause of `v` found `x`, with the handlers `above` inside it and `below`
outside it. -/
structure Hides (p : Program) (inside : List Activity) (a : Activity) (outside : List Activity)
    (v : Value) (above : List Installation) (x : Installation) (below : List Installation) :
    Prop where
  raised : a.start.task = .cause v
  /-- The handlers when the signal was caused. -/
  before : a.start.machine.handlers.frames = (above ++ x :: below).map (·.frame)
  visible_outside : visible outside = above ++ x :: below
  matches_found : ∃ bs, v.matchPattern? x.frame.pattern p.types = some bs
  not_matches_above : ∀ y ∈ above, v.matchPattern? y.frame.pattern p.types = none
  /-- As long as no other handler runs inside, the handlers outside `x` are visible, and within them
  those installed since. -/
  visible_inside : (∀ b ∈ inside, b.handles = false) →
    visible (inside ++ a :: outside) = installedIn (a :: outside) inside ++ below
  /-- Whatever runs inside, all that is visible was outside `x` or was installed since. -/
  below_or_installed : ∀ y ∈ visible (inside ++ a :: outside), y ∈ below ∨ a :: outside <:+ y.around
  hidden : ∀ y ∈ above ++ [x], y ∉ visible (inside ++ a :: outside)
  /-- The handlers when the body has been left. -/
  restored : (a.result p).2.handlers.frames = (above ++ x :: below).map (·.frame)

theorem Reaches.hides (h : Reaches p root π m) (hroot : root.machine.AtRest)
    {inside outside : List Activity} {a : Activity} {f : HandlerFrame} {outer : Nat}
    (hπ : π = inside ++ a :: outside) (ha : a.kind = .handle f outer) :
    ∃ v above x below, x.frame = f ∧ below.length = outer ∧
      Hides p inside a outside v above x below := by
  subst hπ
  obtain ⟨hstart, m', hs⟩ := h.of_append
  rw [ha] at hs
  obtain ⟨v, bs, hv, hm, -⟩ := hs.handle_keepsReach
  obtain ⟨above, x, below, hvis, hlen, hx, hmatch, habove⟩ := hstart.findMatch?_eq_some hroot hm
  have hbefore : a.start.machine.handlers.frames = (above ++ x :: below).map (·.frame) := by
    rw [hstart.handlers_eq_visible hroot, hvis]
  have hbelow : visible (a :: outside) = below := by
    obtain ⟨k, start⟩ := a
    subst ha
    exact visible_handle hvis hlen
  refine ⟨v, above, x, below, hx, hlen, hv, hbefore, hvis, ⟨bs, hx ▸ hmatch⟩, habove,
    ?_, ?_, ?_, ?_⟩
  · intro hin
    rw [visible_append_of_not_handles hin, hbelow]
  · intro y hy
    rw [← hbelow]
    exact mem_visible_append hy
  · intro y hy
    obtain ⟨k, start⟩ := a
    subst ha
    exact not_mem_visible_of_handle hvis hlen hy
  · rw [← hbefore]
    exact congrArg _ (Moment.handlers_result p a.start)

namespace Interpreter

/-- **A handler never handles causes of its own.**  At every moment of every run the handler stack
consists of the visible handlers.  While the body of a handler runs, these are the ones outside it
and those installed since; it and the ones inside it are visible again when the body has been left.
A cause runs the innermost visible handler that matches, and never one whose body is running.
No expression is evaluated but at the moments of which this is said. -/
theorem handler_never_handles_itself {i : Interpreter} (hi : i.Session) (hr : i.Starts root)
    (h : Reaches i.program root π m) :
    m.machine.handlers.frames = (visible π).map (·.frame) ∧
      (m.result i.program).2.handlers = m.machine.handlers ∧
      m.Covered i.program ∧
      (∀ inside a outside f outer, π = inside ++ a :: outside → a.kind = .handle f outer →
        ∃ v above x below, x.frame = f ∧ below.length = outer ∧
          Hides i.program inside a outside v above x below) ∧
      ∀ v outer f bs, m.machine.handlers.findMatch? i.program.types v = some (outer, f, bs) →
        ∃ above x below, visible π = above ++ x :: below ∧ below.length = outer ∧ x.frame = f ∧
          (∀ y ∈ above, v.matchPattern? y.frame.pattern i.program.types = none ∧ y.Within x) ∧
          ¬ Running π x := by
  have hroot := hr.atRest hi
  refine ⟨h.handlers_eq_visible hroot, m.handlers_result _, m.covered _, ?_, ?_⟩
  · intro inside a outside f outer hπ ha
    exact h.hides hroot hπ ha
  · intro v outer f bs hm
    obtain ⟨above, x, below, hvis, hlen, hx, -, habove⟩ := h.findMatch?_eq_some hroot hm
    refine ⟨above, x, below, hvis, hlen, hx, fun y hy => ⟨habove y hy, ?_⟩, ?_⟩
    · have hpair := visible_pairwise π
      rw [hvis, List.pairwise_append] at hpair
      exact hpair.2.2 y hy x (List.mem_cons_self ..)
    · intro hrun
      exact not_mem_visible_of_running hrun (by simp [hvis])

/-- An interpreter for code that declares one signal, `Ask`, as its first declaration and names it
by the first written type. -/
def asking (exprs : Array Code.Expr) : Interpreter :=
  .new ⟨exprs, #[⟨.signal .empty [] none, .dummy⟩], #[]⟩ .new
    ⟨#[⟨.empty, .signal [] .action, none⟩], .insert ∅ 0 ⟨0⟩, ∅, #[some (.named ⟨0⟩)]⟩
    ⟨default, none, none⟩ .empty

/-- `{ signal Ask; effect for Ask {}; effect for Ask { effect for Ask {}; cause Ask }; cause Ask }`.
-/
def askingInHandler : Interpreter :=
  asking #[⟨.ident .empty, .dummy⟩, ⟨.cause ⟨0⟩, .dummy⟩, ⟨.block [], .dummy⟩,
    ⟨.block [⟨.effect ⟨⟨0⟩, none, .dummy⟩ ⟨2⟩, .dummy⟩, ⟨.expr ⟨1⟩, .dummy⟩], .dummy⟩,
    ⟨.block [⟨.decl ⟨0⟩, .dummy⟩, ⟨.effect ⟨⟨0⟩, none, .dummy⟩ ⟨2⟩, .dummy⟩,
      ⟨.effect ⟨⟨0⟩, none, .dummy⟩ ⟨3⟩, .dummy⟩, ⟨.expr ⟨1⟩, .dummy⟩], .dummy⟩]

/-- In the body of the second handler, the first and the one installed there are visible. -/
theorem handlers_visible_in_handler :
    ∃ root π m x, askingInHandler.Session ∧ askingInHandler.Starts root ∧
      Reaches askingInHandler.program root π m ∧ m.task = .cause (.signal none ⟨0⟩ []) ∧
      Running π x ∧ x.frame.body = ⟨3⟩ ∧ m.machine.handlers.frames.map (·.body) = [⟨2⟩, ⟨2⟩] := by
  have h : Reaches askingInHandler.program ⟨9, .expr ⟨4⟩, askingInHandler.machine⟩ [] _ := .root
  have h := h.step (.block rfl rfl)
  have h := h.step (.nextStmt (by rintro _ _ ⟨⟩) rfl)
  have h := h.enter (.install rfl)
  have h := h.enter (.install rfl)
  have h := h.step (.stmt rfl)
  have h := h.step (.cause rfl rfl)
  have h := h.enter (.handler rfl rfl)
  have h := h.step (.block rfl rfl)
  have h := h.enter (.install rfl)
  have h := h.step (.stmt rfl)
  have h := h.step (.cause rfl rfl)
  have hi : askingInHandler.Session := .new ..
  have hframes := (handler_never_handles_itself hi .eval h).1
  refine ⟨_, _, _, _, hi, .eval, h, rfl, ⟨[_], _, _, _, _, rfl, [], [_], rfl, rfl⟩, rfl, ?_⟩
  rw [hframes]
  rfl

end Interpreter

end SignalLang
