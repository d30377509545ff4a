import SignalLang.Proofs.Fuel
import SignalLang.Proofs.Numbering
import Mathlib.Algebra.GroupWithZero.Nat
import Mathlib.Algebra.Order.BigOperators.Group.List
import Mathlib.Algebra.Order.Group.Nat
import Mathlib.Data.Finset.Lattice.Fold
import Mathlib.Order.Lattice.Nat

/-!
# Termination under limits

A limit on the rounds of a loop bounds each loop, and a limit on the active calls bounds the chains
of calls.  Neither bounds a chain of causes, since the body of a handler is not a call.  But while
it runs, the handler is set aside, so what is left is smaller by the size of that body; and a
handler that is installed on the way comes out of the block that is being run.

* `Arena.size` : the size of an expression with all that is written in it.
* `Program.nesting` : how deep evaluations can nest, from the number of calls that can still be
  made and the size of what is left: the current expressions and the bodies of the handlers.
* `Eval.Halts` : a step that does not run out of fuel, and after which handlers, calls and the
  count of answers are as before.
* `Eval.haltsBelow_expr` : an evaluation with more fuel than evaluations can nest halts.
* `Interpreter.load_call_ends` : **under limits and without a host, loading the module and calling
  any of its functions end.**
-/

namespace SignalLang

/-! ### The size of expressions -/

namespace Arena

/-- The number of expressions down to a depth in an expression, itself included. -/
def sizeWithin (arena : Arena) : Nat → ExprId → Nat
  | 0, _ => 0
  | depth + 1, id => 1 + ((arena.inner id).map (arena.sizeWithin depth)).sum

/-- The number of expressions in an expression, itself included.  They nest at most as deep as the
numbers go down. -/
def size (arena : Arena) (id : ExprId) : Nat := arena.sizeWithin (id.index + 1) id

/-- The number of expressions in several ones. -/
def sizes (arena : Arena) (es : List ExprId) : Nat := (es.map arena.size).sum

/-- The size of the largest expression.  Numbers not given out stand for an empty block. -/
def largest (arena : Arena) : Nat :=
  1 + (Finset.range arena.exprs.size).sup fun i => arena.size ⟨i⟩

variable {arena : Arena}

@[simp] theorem sizes_nil : arena.sizes [] = 0 := rfl

@[simp] theorem sizes_cons (e : ExprId) (es : List ExprId) :
    arena.sizes (e :: es) = arena.size e + arena.sizes es := by
  simp [sizes]

@[simp] theorem sizes_append (es es' : List ExprId) :
    arena.sizes (es ++ es') = arena.sizes es + arena.sizes es' := by
  simp [sizes]

theorem sizes_le_of_sublist {es es' : List ExprId} (h : es.Sublist es') :
    arena.sizes es ≤ arena.sizes es' :=
  (h.map arena.size).sum_le_sum fun _ _ => Nat.zero_le _

theorem Ordered.sizeWithin_eq (h : arena.Ordered) {depth depth' : Nat} {id : ExprId}
    (hd : id.index < depth) (hd' : id.index < depth') :
    arena.sizeWithin depth id = arena.sizeWithin depth' id := by
  induction depth generalizing depth' id with
  | zero => omega
  | succ depth ih =>
    obtain ⟨depth', rfl⟩ : ∃ k, depth' = k + 1 := ⟨depth' - 1, by omega⟩
    have hinner : (arena.inner id).map (arena.sizeWithin depth) =
        (arena.inner id).map (arena.sizeWithin depth') := by
      refine List.map_congr_left fun e he => ?_
      have := h.lt_of_mem_inner he
      exact ih (by omega) (by omega)
    simp only [sizeWithin, hinner]

theorem Ordered.size_eq (h : arena.Ordered) (id : ExprId) :
    arena.size id = 1 + arena.sizes (arena.inner id) := by
  have hinner : (arena.inner id).map (arena.sizeWithin id.index) =
      (arena.inner id).map arena.size :=
    List.map_congr_left fun e he => h.sizeWithin_eq (h.lt_of_mem_inner he) (Nat.lt_succ_self _)
  simp only [size, sizeWithin, sizes, hinner]

theorem size_le_largest (id : ExprId) : arena.size id ≤ arena.largest := by
  by_cases hid : id.index < arena.exprs.size
  · have hsup : arena.size id ≤ (Finset.range arena.exprs.size).sup fun i => arena.size ⟨i⟩ :=
      Finset.le_sup (f := fun i => arena.size ⟨i⟩) (Finset.mem_range.2 hid)
    exact Nat.le_trans hsup (Nat.le_add_left _ _)
  · have hexpr : arena.expr id = ⟨.block [], .dummy⟩ := by
      simp [expr, Array.getD_eq_getD_getElem?, Array.getElem?_eq_none (Nat.le_of_not_lt hid)]
    simp [size, sizeWithin, inner, Code.ExprKind.inner, hexpr, largest]

end Arena

/-- The size of the bodies of the installed handlers. -/
def HandlerStack.size (arena : Arena) (h : HandlerStack) : Nat :=
  arena.sizes (h.frames.map fun f => f.body)

theorem HandlerStack.size_push (arena : Arena) (h : HandlerStack) (f : HandlerFrame) :
    (h.push f).size arena = arena.size f.body + h.size arena := by
  simp [size, push]

/-- While the body of a handler runs, that handler is set aside. -/
theorem HandlerStack.size_splitOff {arena : Arena} {h : HandlerStack} {t : TypeTable}
    {signal : Value} {outer : Nat} {f : HandlerFrame} {bs : Bindings}
    (hm : h.findMatch? t signal = some (outer, f, bs)) :
    arena.size f.body + (h.splitOff outer).2.size arena ≤ h.size arena := by
  obtain ⟨inner, rest, hframes, rfl, -, -⟩ := firstMatch?_eq_some_iff.1 hm
  have hdrop : h.frames.drop (h.frames.length - rest.length) = rest := by
    rw [hframes]
    simp only [List.length_append, List.length_cons]
    rw [show inner.length + (rest.length + 1) - rest.length = inner.length + 1 by omega]
    simp
  simp only [size, splitOff, hdrop]
  simp only [hframes, List.map_append, List.map_cons, Arena.sizes_append, Arena.sizes_cons]
  omega

/-! ### How deep evaluations nest -/

/-- A bound on the nesting of evaluations, if `calls` more calls can be made and `size` is the size
of what is left outside them.  A call adds at most one of the largest expressions. -/
def nestingBound (largest : Nat) : Nat → Nat → Nat
  | 0, size => size
  | calls + 1, size => size + 1 + nestingBound largest calls (size + largest)

theorem nestingBound_lt (largest calls : Nat) {size size' : Nat} (h : size < size') :
    nestingBound largest calls size < nestingBound largest calls size' := by
  induction calls generalizing size size' with
  | zero => exact h
  | succ calls ih =>
    have := ih (Nat.add_lt_add_right h largest)
    simp only [nestingBound]
    omega

theorem nestingBound_le (largest calls : Nat) {size size' : Nat} (h : size ≤ size') :
    nestingBound largest calls size ≤ nestingBound largest calls size' := by
  rcases Nat.lt_or_eq_of_le h with h | rfl
  · exact Nat.le_of_lt (nestingBound_lt largest calls h)
  · exact Nat.le_refl _

namespace Program

/-- What bounds the evaluations of a program: loops, calls and the nesting of its expressions.
There is no host, whose answers would let a loop go on. -/
structure Limited (p : Program) (rounds depth : Nat) : Prop where
  loopRounds : p.limits.loopRounds = some rounds
  callDepth : p.limits.callDepth = some depth
  host : p.host = none
  ordered : p.arena.Ordered

/-- How deep the evaluation of some expressions can nest, given the handlers, the active calls and
the limit on these. -/
def nesting (p : Program) (depth : Nat) (h : HandlerStack) (c : CallStack) (es : List ExprId) :
    Nat :=
  nestingBound p.arena.largest (depth - c.depth) (p.arena.sizes es + h.size p.arena)

variable {p : Program} {depth : Nat} {h h' : HandlerStack} {c : CallStack} {es es' : List ExprId}

theorem nesting_le
    (hle : p.arena.sizes es + h.size p.arena ≤ p.arena.sizes es' + h'.size p.arena) :
    p.nesting depth h c es ≤ p.nesting depth h' c es' :=
  nestingBound_le _ _ hle

theorem nesting_lt_of_sublist {bound : Nat} (hs : es.Sublist es')
    (hlt : p.nesting depth h c es' < bound) : p.nesting depth h c es < bound :=
  Nat.lt_of_le_of_lt (nesting_le (Nat.add_le_add_right (Arena.sizes_le_of_sublist hs) _)) hlt

theorem nesting_inner_lt (ho : p.arena.Ordered) (id : ExprId) :
    p.nesting depth h c (p.arena.inner id) < p.nesting depth h c [id] := by
  refine nestingBound_lt _ _ ?_
  have := ho.size_eq id
  simp only [Arena.sizes_cons, Arena.sizes_nil]
  omega

/-- Whatever a call evaluates, one call less can be made inside it. -/
theorem nesting_call_lt {c' : CallStack} (hc : c'.depth = c.depth + 1) (hlt : c.depth < depth)
    (id : ExprId) : p.nesting depth h c' [id] < p.nesting depth h c [] := by
  have hid : p.arena.size id ≤ p.arena.largest := Arena.size_le_largest id
  obtain ⟨calls, hcalls⟩ : ∃ k, depth - c.depth = k + 1 := ⟨depth - c.depth - 1, by omega⟩
  have hcalls' : depth - c'.depth = calls := by omega
  have hsize : p.arena.sizes [id] + h.size p.arena ≤ h.size p.arena + p.arena.largest := by
    simp only [Arena.sizes_cons, Arena.sizes_nil]
    omega
  have hle := nestingBound_le p.arena.largest calls hsize
  simp only [nesting, hcalls, hcalls', nestingBound, Arena.sizes_nil]
  rw [Nat.zero_add]
  omega

end Program

namespace Eval

/-! ### Steps in general -/

/-- From machines with the handlers `h` and the active calls `c`, a step does not run out of fuel,
and leaves the handlers, the calls and the count of answers as they are. -/
def Halts (h : HandlerStack) (c : CallStack) (x : Eval α) : Prop :=
  ∀ s : Machine, s.handlers = h → s.calls = c →
    (x s).1 ≠ .outOfFuel ∧ (x s).2.handlers = h ∧ (x s).2.calls = c ∧
      (x s).2.hostTicks = s.hostTicks

variable {p : Program} {ev : Evaluator} {h : HandlerStack} {c : CallStack}

theorem halts_pure (a : α) : Halts h c (pure a : Eval α) :=
  fun _ hh hc => ⟨nofun, hh, hc, rfl⟩

theorem halts_interrupt (i : Interrupt) : Halts h c (interrupt i : Eval α) :=
  fun _ hh hc => ⟨nofun, hh, hc, rfl⟩

theorem halts_fault (e : EvalProblem) : Halts h c (fault e : Eval α) := halts_interrupt _

theorem halts_faultAt (e : EvalProblem) (span : Span) : Halts h c (faultAt e span : Eval α) :=
  halts_interrupt _

theorem halts_read (f : Machine → α) : Halts h c (read f) :=
  fun _ hh hc => ⟨nofun, hh, hc, rfl⟩

theorem halts_ofExcept (r : Except EvalError α) : Halts h c (ofExcept r) := by
  cases r with
  | ok a => exact halts_pure a
  | error e => exact halts_interrupt _

/-- A step that changes nothing but the store and does not evaluate anything. -/
theorem halts_of_frame {x : Eval α}
    (hx : ∀ s, ∃ r store, x s = (r, { s with store }) ∧ r ≠ .outOfFuel) : Halts h c x := by
  intro s hh hc
  obtain ⟨r, store, hr, hne⟩ := hx s
  rw [hr]
  exact ⟨hne, hh, hc, rfl⟩

theorem halts_define (n : Name) (v : Value) (isVariable : Bool) :
    Halts h c (define n v isVariable) :=
  halts_of_frame fun _ => ⟨_, _, rfl, nofun⟩

theorem halts_childEnvironment (captured : ScopeId) : Halts h c (childEnvironment captured) :=
  halts_of_frame fun _ => ⟨_, _, rfl, nofun⟩

theorem halts_freshFrame : Halts h c freshFrame :=
  fun _ hh hc => ⟨nofun, hh, hc, rfl⟩

theorem Halts.bind {x : Eval α} {f : α → Eval β} (hx : Halts h c x)
    (hf : ∀ a, Halts h c (f a)) : Halts h c (x >>= f) := by
  intro s hh hc
  obtain ⟨hne, hh', hc', hticks⟩ := hx s hh hc
  simp only [Bind.bind, Eval.bind]
  cases hr : x s with
  | mk r t =>
    rw [hr] at hne hh' hc' hticks
    cases r with
    | value a =>
      obtain ⟨hne', hh'', hc'', hticks'⟩ := hf a t hh' hc'
      exact ⟨hne', hh'', hc'', hticks'.trans hticks⟩
    | interrupt i => exact ⟨by simp, hh', hc', hticks⟩
    | outOfFuel => exact absurd rfl hne

theorem halts_defineAll (bs : Bindings) : Halts h c (defineAll bs) := by
  induction bs with
  | nil => exact halts_pure ()
  | cons b bs ih => exact (halts_define b.1 b.2 false).bind fun _ => ih

theorem Halts.located {x : Eval α} (hx : Halts h c x) (span : Span) :
    Halts h c (located span x) := by
  intro s hh hc
  have hx := hx s hh hc
  simp only [Eval.located]
  cases hr : x s with
  | mk r t =>
    rw [hr] at hx
    cases r with
    | interrupt i => exact ⟨by simp, hx.2⟩
    | _ => exact hx

theorem Halts.inScope {x : Eval α} (hx : Halts h c x) : Halts h c (inScope x) :=
  fun s hh hc => hx s.inScope hh hc

theorem Halts.withBindings {x : Eval α} (hx : Halts h c x) (bs : Bindings) :
    Halts h c (withBindings bs x) :=
  ((halts_defineAll bs).bind fun _ => hx).inScope

theorem Halts.inContext {x : Eval α} (hx : Halts h c x) (env : Environment)
    (l r : Option FrameId) : Halts h c (inContext env l r x) :=
  fun s hh hc => hx { s with env, loopTarget := l, returnTarget := r } hh hc

theorem Halts.withHandler {x : Eval α} {f : HandlerFrame} (hx : Halts (h.push f) c x) :
    Halts h c (withHandler f x) := by
  intro s hh hc
  obtain ⟨hne, hh', hc', hticks⟩ := hx (s.install f) (by rw [← hh]; rfl) hc
  refine ⟨hne, ?_, hc', hticks⟩
  simp only [Machine.install] at hh'
  simp only [Eval.withHandler, hh', HandlerStack.pop_push]

theorem Halts.withOuterHandlers {x : Eval α} {outer : Nat}
    (hx : Halts (h.splitOff outer).2 c x) : Halts h c (withOuterHandlers outer x) := by
  intro s hh hc
  obtain ⟨hne, hh', hc', hticks⟩ := hx { s with handlers := (s.handlers.splitOff outer).2 }
    (by rw [← hh]) hc
  refine ⟨hne, ?_, hc', hticks⟩
  simp only [Eval.withOuterHandlers, hh']
  rw [hh]
  exact h.restore_splitOff outer

/-! ### Calls -/

theorem halts_checkType (v : Value) (expected : Ty) : Halts h c (checkType p v expected) := by
  unfold checkType
  split
  · exact halts_pure ()
  · exact halts_fault _

theorem halts_checkArguments (params : List Code.Param) (args : List Value) :
    Halts h c (checkArguments p params args) := by
  induction params generalizing args with
  | nil => exact halts_pure ()
  | cons q params ih =>
    cases args with
    | nil => exact halts_pure ()
    | cons v args =>
      simp only [checkArguments]
      cases q.typeRef.bind p.types.resolved? with
      | none => exact (halts_pure ()).bind fun _ => ih args
      | some expected => exact (halts_checkType v expected).bind fun _ => ih args

theorem halts_callNative (f : NativeFunction) (args : List Value) :
    Halts h c (callNative p f args) :=
  halts_ofExcept _

theorem halts_fieldValues (fields : List FieldType) (args : List Value) :
    Halts h c (fieldValues p fields args) := by
  induction fields generalizing args with
  | nil => exact halts_pure []
  | cons f fields ih =>
    cases args with
    | nil => exact halts_pure []
    | cons v args =>
      exact (halts_checkType v f.type).bind fun _ => (ih args).bind fun _ => halts_pure _

theorem halts_construct (type : TypeId) (args : List Value) :
    Halts h c (construct p type args) := by
  simp only [construct]
  split
  · exact halts_fault _
  · exact (halts_fieldValues _ _).bind fun _ => halts_of_frame fun _ => ⟨_, _, rfl, by simp⟩

/-- A call that is made is one more active call, within the limit. -/
theorem depth_of_push {limit : Nat} {f : CallFrame} {c' : CallStack}
    (hpush : c.push (some limit) f = .ok c') : c'.depth = c.depth + 1 ∧ c.depth < limit := by
  obtain ⟨rfl, hlt⟩ := CallStack.eq_of_push hpush
  exact ⟨rfl, hlt limit rfl⟩

/-- The body of a call runs with the call active, which is over behind it. -/
theorem Halts.activation {x : Eval Value} {c' : CallStack} (hx : Halts h c' x) (frame : FrameId)
    {s : Machine} (hh : s.handlers = h) (hc : s.calls = c') :
    (activation frame x s).1 ≠ .outOfFuel ∧ (activation frame x s).2.handlers = h ∧
      (activation frame x s).2.calls = c'.pop ∧
      (activation frame x s).2.hostTicks = s.hostTicks := by
  obtain ⟨hne, hh', hc', hticks⟩ := hx s hh hc
  simp only [Eval.activation]
  cases hr : x s with
  | mk r t =>
    rw [hr] at hne hh' hc' hticks
    have hpop : t.calls.pop = c'.pop := congrArg CallStack.pop hc'
    cases r with
    | value v => exact ⟨by simp, hh', hpop, hticks⟩
    | outOfFuel => exact absurd rfl hne
    | interrupt i =>
      cases i with
      | fault e => exact ⟨by simp, hh', hpop, hticks⟩
      | breakTo target v => exact ⟨by simp, hh', hpop, hticks⟩
      | returnTo target v =>
        refine ⟨?_, hh', hpop, hticks⟩
        dsimp only
        split <;> simp

/-! ### Parts of a bounded nesting -/

/-- Expressions whose evaluation nests less deep than `bound` are evaluated without running out of
fuel. -/
def HaltsBelow (p : Program) (depth bound : Nat) (ev : Evaluator) : Prop :=
  ∀ id h c, p.nesting depth h c [id] < bound → Halts h c (ev id)

variable {rounds depth bound : Nat}

section

variable (hev : HaltsBelow p depth bound ev)

include hev

theorem HaltsBelow.mem {es : List ExprId} {e : ExprId} (he : e ∈ es)
    (hlt : p.nesting depth h c es < bound) : Halts h c (ev e) :=
  hev e h c (Program.nesting_lt_of_sublist (List.singleton_sublist.2 he) hlt)

theorem halts_callClosure (hp : p.Limited rounds depth) (f : Closure) (args : List Value)
    (span : Span) (hlt : p.nesting depth h c [] < bound) :
    Halts h c (callClosure p ev f args span) := by
  unfold callClosure
  split
  · exact halts_fault _
  · refine (halts_checkArguments _ _).bind fun _ s hh hc => ?_
    simp only [Bind.bind, Eval.bind, pushCall]
    cases hpush : s.calls.push p.limits.callDepth ⟨callName p f, some span⟩ with
    | error e => exact ⟨by simp, hh, hc, rfl⟩
    | ok calls =>
      have hpop := CallStack.pop_push hpush
      rw [hp.callDepth] at hpush
      obtain ⟨hdepth, hlimit⟩ := depth_of_push hpush
      rw [hc] at hdepth hlimit hpop
      have hbody : Halts h calls (ev f.body) :=
        hev f.body h calls (Nat.lt_trans (Program.nesting_call_lt hdepth hlimit f.body) hlt)
      have := (((halts_defineAll ((f.params.map fun q => q.name).zip args)).bind
        fun _ => hbody).inContext (s.env.childOf f.captured s.store).1 none
          (some (.ofSerial s.activations))).activation (.ofSerial s.activations)
        (s := { s with calls, activations := s.activations + 1,
                       store := (s.env.childOf f.captured s.store).2 }) hh rfl
      rw [hpop] at this
      exact this

theorem halts_callValue (hp : p.Limited rounds depth) (callee : Value) (args : List Value)
    (span : Span) (hlt : p.nesting depth h c [] < bound) :
    Halts h c (callValue p ev callee args span) := by
  unfold callValue
  split
  · exact halts_callClosure hev hp _ _ _ hlt
  · exact halts_callNative _ _
  · exact halts_construct _ _
  · split
    · exact halts_pure _
    · exact halts_fault _

/-! ### Causes -/

omit hev in
theorem halts_resume (type : TypeId) (v : Value) : Halts h c (resume p type v) := by
  simp only [resume]
  split
  · exact halts_pure _
  · exact (halts_checkType v _).bind fun _ => halts_pure v

/-- A cause takes a handler away before it runs its body. -/
theorem halts_cause (hp : p.Limited rounds depth) (v : Value)
    (hlt : p.nesting depth h c [] < bound) : Halts h c (cause p ev v) := by
  unfold cause
  split
  · intro s hh hc
    simp only [Bind.bind, Eval.bind, read]
    cases hm : s.handlers.findMatch? p.types _ with
    | none =>
      simp only [unhandled, hp.host]
      exact halts_fault _ s hh hc
    | some found =>
      obtain ⟨outer, f, bs⟩ := found
      rw [hh] at hm
      have hsize : p.arena.size f.body + (h.splitOff outer).2.size p.arena ≤ h.size p.arena :=
        HandlerStack.size_splitOff hm
      have hbody : Halts (h.splitOff outer).2 c (ev f.body) := by
        refine hev _ _ _ (Nat.lt_of_le_of_lt (Program.nesting_le ?_) hlt)
        simp only [Arena.sizes_cons, Arena.sizes_nil]
        omega
      refine Halts.bind (Halts.withOuterHandlers ?_) (fun answer => halts_resume _ answer) s hh hc
      exact (halts_childEnvironment _).bind fun env =>
        ((halts_defineAll bs).bind fun _ => hbody).inContext env _ _
  · exact halts_fault _

/-! ### Declarations -/

omit hev in
theorem halts_bindImport (path : String) (items : List Code.ImportItem) :
    Halts h c (bindImport p path items) := by
  induction items with
  | nil => exact halts_pure ()
  | cons item rest ih =>
    simp only [bindImport]
    cases Native.find? path (p.interner.text item.name) with
    | some n => exact (halts_define _ _ _).bind fun _ => ih
    | none => exact (halts_faultAt _ _).bind fun _ => ih

omit hev in
theorem halts_closure (name : Option Name) (params : List Code.Param)
    (result : Option TypeRefId) (body : ExprId) : Halts h c (closure name params result body) :=
  halts_of_frame fun _ => ⟨_, _, rfl, nofun⟩

omit hev in
theorem halts_typeValue (d : DeclId) (fieldless isSignal : Bool) :
    Halts h c (typeValue p d fieldless isSignal) := by
  unfold typeValue
  cases p.types.declType? d with
  | none => exact halts_faultAt _ _
  | some type =>
    simp only
    split
    · exact halts_pure _
    · split <;> exact halts_pure _

omit hev in
theorem halts_bindHoisted (d : DeclId) : Halts h c (bindHoisted p d) := by
  unfold bindHoisted
  split
  · exact halts_bindImport _ _
  · exact (halts_closure _ _ _ _).bind fun _ => halts_define _ _ _
  · exact (halts_typeValue _ _ _).bind fun _ => halts_define _ _ _
  · exact (halts_typeValue _ _ _).bind fun _ => halts_define _ _ _
  · exact halts_pure ()
  · exact halts_faultAt _ _

omit hev in
theorem halts_bindAllHoisted (ds : List DeclId) : Halts h c (bindAllHoisted p ds) := by
  induction ds with
  | nil => exact halts_pure ()
  | cons d ds ih =>
    simp only [bindAllHoisted]
    split
    · exact (halts_bindHoisted d).bind fun _ => ih
    · exact (halts_pure ()).bind fun _ => ih

omit hev in
theorem halts_checkDeclared (typeRef : Option TypeRefId) (v : Value) (span : Span) :
    Halts h c (checkDeclared p typeRef v span) := by
  unfold checkDeclared
  split
  · exact halts_pure ()
  · split
    · exact halts_pure ()
    · exact halts_faultAt _ _

theorem halts_bindLet (d : DeclId)
    (hlt : p.nesting depth h c (p.arena.decl d).kind.subexprs < bound) :
    Halts h c (bindLet p ev d) := by
  unfold bindLet
  split
  · rename_i n isVariable typeRef value hk
    rw [hk] at hlt
    exact (hev.mem (List.mem_singleton.2 rfl) hlt).bind fun v =>
      (halts_checkDeclared _ v _).bind fun _ => halts_define _ _ _
  · exact halts_pure ()

theorem halts_bindModule (ds : List DeclId)
    (hlt : p.nesting depth h c (ds.flatMap fun d => (p.arena.decl d).kind.subexprs) < bound) :
    Halts h c (bindModule p ev ds) := by
  refine (halts_bindAllHoisted ds).bind fun _ => ?_
  induction ds with
  | nil => exact halts_pure ()
  | cons d ds ih =>
    rw [List.flatMap_cons] at hlt
    exact (halts_bindLet hev d (Program.nesting_lt_of_sublist (List.sublist_append_left _ _)
      hlt)).bind fun _ => ih (Program.nesting_lt_of_sublist (List.sublist_append_right _ _) hlt)

/-! ### Blocks, branches and loops -/

omit hev in
theorem halts_set (target : Name) (v : Value) (span : Span) : Halts h c (set p target v span) := by
  refine halts_of_frame fun s => ?_
  simp only [set]
  split <;> exact ⟨_, _, rfl, by simp⟩

/-- What an installed handler adds to the handlers, it takes from the statements. -/
theorem halts_stmts (last : Value) (body : List Code.Stmt)
    (hlt : p.nesting depth h c (body.flatMap fun st => st.inner p.arena) < bound) :
    Halts h c (stmts p ev last body) := by
  induction body generalizing last h with
  | nil => exact halts_pure last
  | cons st rest ih =>
    rw [List.flatMap_cons] at hlt
    have hrest := Program.nesting_lt_of_sublist (List.sublist_append_right _ _) hlt
    have hst := Program.nesting_lt_of_sublist (List.sublist_append_left _ _) hlt
    simp only [stmts]
    split
    · rename_i e hk
      have he : e ∈ st.inner p.arena := by simp [Code.Stmt.inner, hk]
      exact (hev.mem he hst).bind fun v => ih v hrest
    · rename_i d hk
      refine (halts_bindLet hev d ?_).bind fun _ => ih _ hrest
      simpa only [Code.Stmt.inner, hk] using hst
    · rename_i target value hk
      have he : value ∈ st.inner p.arena := by simp [Code.Stmt.inner, hk]
      exact (hev.mem he hst).bind fun v => (halts_set _ v _).bind fun _ => ih _ hrest
    · rename_i pattern body hk
      intro s hh hc
      simp only [Bind.bind, Eval.bind, handlerFrame, read]
      refine Halts.withHandler (ih _ (Nat.lt_of_le_of_lt (Program.nesting_le ?_) hlt)) s hh hc
      simp only [HandlerStack.size_push, Code.Stmt.inner, hk, Code.StmtKind.subexprs,
        Arena.sizes_append, Arena.sizes_cons, Arena.sizes_nil]
      omega

omit hev in
theorem halts_condition (v : Value) : Halts h c (condition p v) := by
  unfold condition
  split
  · exact halts_pure _
  · exact halts_fault _

theorem halts_arms (subject : Option Value) (options : List Code.Arm)
    (hlt : p.nesting depth h c (options.flatMap fun a => a.kind.subexprs) < bound) :
    Halts h c (arms p ev subject options) := by
  induction options with
  | nil => exact halts_pure _
  | cons a rest ih =>
    rw [List.flatMap_cons] at hlt
    have ih := ih (Program.nesting_lt_of_sublist (List.sublist_append_right _ _) hlt)
    have ha := Program.nesting_lt_of_sublist (List.sublist_append_left _ _) hlt
    simp only [arms]
    split
    · rename_i cond body hk
      rw [hk] at ha
      refine (hev.mem (e := cond) (by simp) ha).bind fun v => (halts_condition v).bind fun b => ?_
      split
      · exact hev.mem (e := body) (by simp) ha
      · exact ih
    · rename_i pattern body hk
      rw [hk] at ha
      split
      · exact halts_faultAt _ _
      · split
        · exact (hev.mem (e := body) (by simp) ha).withBindings _
        · exact ih
    · rename_i body hk
      rw [hk] at ha
      exact hev.mem (e := body) (by simp) ha

theorem halts_branch (subject : Option ExprId) (options : List Code.Arm)
    (hlt : p.nesting depth h c
      (subject.toList ++ options.flatMap fun a => a.kind.subexprs) < bound) :
    Halts h c (branch p ev subject options) := by
  have harms := Program.nesting_lt_of_sublist (List.sublist_append_right _ _) hlt
  cases subject with
  | none => exact halts_arms hev _ _ harms
  | some e => exact (hev.mem (e := e) (by simp) hlt).bind fun v => halts_arms hev _ _ harms

/-- Since the host never answers, the rounds count up to the limit. -/
theorem halts_rounds (hp : p.Limited rounds depth) (frame : FrameId) (body : ExprId)
    (hlt : p.nesting depth h c [body] < bound) {fuel done : Nat} (hdone : done ≤ rounds)
    (hfuel : rounds < done + fuel) {s : Machine} (hh : s.handlers = h) (hc : s.calls = c) :
    (Eval.rounds p ev frame body fuel done s.hostTicks s).1 ≠ .outOfFuel ∧
      (Eval.rounds p ev frame body fuel done s.hostTicks s).2.handlers = h ∧
      (Eval.rounds p ev frame body fuel done s.hostTicks s).2.calls = c ∧
      (Eval.rounds p ev frame body fuel done s.hostTicks s).2.hostTicks = s.hostTicks := by
  induction fuel generalizing done s with
  | zero => omega
  | succ fuel ih =>
    simp only [Eval.rounds, if_true, hp.loopRounds, Option.any_some, decide_eq_true_eq]
    by_cases hlimit : rounds ≤ done
    · rw [if_pos hlimit]
      exact ⟨by simp, hh, hc, rfl⟩
    · rw [if_neg hlimit]
      obtain ⟨hne, hh', hc', hticks⟩ := hev body h c hlt s hh hc
      cases hr : ev body s with
      | mk r t =>
        rw [hr] at hne hh' hc' hticks
        dsimp only at hh' hc' hticks
        cases r with
        | value v =>
          have hdone' : done + 1 ≤ rounds := by omega
          rw [← hticks]
          exact ih hdone' (by omega) hh' hc'
        | outOfFuel => exact absurd rfl hne
        | interrupt i =>
          cases i with
          | breakTo target v =>
            refine ⟨?_, hh', hc', hticks⟩
            dsimp only
            split <;> simp
          | _ => exact ⟨by simp, hh', hc', hticks⟩

theorem halts_loop (hp : p.Limited rounds depth) {fuel : Nat} (hfuel : rounds < fuel)
    (body : ExprId) (hlt : p.nesting depth h c [body] < bound) :
    Halts h c (loop p ev fuel body) := by
  refine halts_freshFrame.bind fun frame s hh hc => ?_
  exact halts_rounds hev hp frame body hlt (Nat.zero_le _) (by omega)
    (s := { s with loopTarget := some frame }) hh hc

/-! ### Expressions -/

theorem halts_arguments (es : List ExprId) (hlt : p.nesting depth h c es < bound) :
    Halts h c (arguments ev es) := by
  induction es with
  | nil => exact halts_pure []
  | cons e es ih =>
    have hes := Program.nesting_lt_of_sublist (List.sublist_cons_self e es) hlt
    exact (hev.mem (by simp) hlt).bind fun v => (ih hes).bind fun vs => halts_pure _

theorem halts_optional (e : Option ExprId) (hlt : p.nesting depth h c e.toList < bound) :
    Halts h c (optional ev e) := by
  cases e with
  | none => exact halts_pure _
  | some e => exact hev.mem (by simp) hlt

omit hev in
theorem halts_ident (n : Name) : Halts h c (ident p n) := by
  refine halts_of_frame fun s => ?_
  simp only [ident]
  split <;> exact ⟨_, s.store, rfl, by simp⟩

omit hev in
theorem halts_member (receiver : Value) (field : Name) : Halts h c (member p receiver field) := by
  unfold member
  split
  · exact halts_pure _
  · exact halts_fault _

omit hev in
theorem halts_leaveFunction (v : Value) : Halts h c (leaveFunction v) := by
  refine (halts_read _).bind fun target => ?_
  cases target with
  | some frame => exact halts_interrupt _
  | none => exact halts_fault _

omit hev in
theorem halts_leaveLoop (v : Value) : Halts h c (leaveLoop v) := by
  refine (halts_read _).bind fun target => ?_
  cases target with
  | some frame => exact halts_interrupt _
  | none => exact halts_fault _

/-- Every construct halts if what is written in it does and its calls and causes do. -/
theorem halts_node (hp : p.Limited rounds depth) {fuel : Nat} (hfuel : rounds < fuel) (id : ExprId)
    (hlt : p.nesting depth h c (p.arena.inner id) < bound) : Halts h c (node p ev fuel id) := by
  have hempty := Program.nesting_lt_of_sublist (List.nil_sublist _) hlt
  simp only [node]
  unfold Arena.inner Code.ExprKind.inner at hlt
  cases hk : (p.arena.expr id).kind with
  | group inner =>
    rw [hk] at hlt
    exact (hev.mem (e := inner) (by simp) hlt).located _
  | block body =>
    rw [hk] at hlt
    exact (((halts_bindAllHoisted _).bind fun _ => halts_stmts hev _ body hlt).inScope).located _
  | function params result body => exact halts_closure _ _ _ _
  | branch subject options =>
    rw [hk] at hlt
    exact (halts_branch hev subject options hlt).located _
  | loop body =>
    rw [hk] at hlt
    exact (halts_loop hev hp hfuel body hlt).located _
  | cause payload =>
    rw [hk] at hlt
    exact (hev.mem (e := payload) (by simp) hlt).bind fun v =>
      (halts_cause hev hp v hempty).located _
  | ret value =>
    rw [hk] at hlt
    exact (halts_optional hev value hlt).bind fun v => halts_leaveFunction v
  | brk value =>
    rw [hk] at hlt
    exact (halts_optional hev value hlt).bind fun v => halts_leaveLoop v
  | string text => exact halts_pure _
  | number n => exact halts_pure _
  | ident n => exact (halts_ident n).located _
  | call callee args =>
    rw [hk] at hlt
    have hargs := Program.nesting_lt_of_sublist (List.sublist_cons_self callee args) hlt
    exact (hev.mem (e := callee) (by simp) hlt).bind fun f =>
      (halts_arguments hev args hargs).bind fun vs =>
        (halts_callValue hev hp f vs _ hempty).located _
  | member receiver field =>
    rw [hk] at hlt
    exact (hev.mem (e := receiver) (by simp) hlt).bind fun v => (halts_member v field).located _
  | pipe subject callee args =>
    rw [hk] at hlt
    have hargs := Program.nesting_lt_of_sublist
      (((List.sublist_cons_self callee args)).trans (List.sublist_cons_self subject _)) hlt
    exact (hev.mem (e := subject) (by simp) hlt).bind fun v =>
      (hev.mem (e := callee) (by simp) hlt).bind fun f =>
        (halts_arguments hev args hargs).bind fun vs =>
          (halts_callValue hev hp f _ _ hempty).located _

end

/-- **An evaluation with more fuel than evaluations can nest halts.**  Each level takes one unit of
fuel, and what is left at the deepest one has to do for the rounds of a loop. -/
theorem haltsBelow_expr (hp : p.Limited rounds depth) {fuel : Nat}
    (hfuel : bound + rounds < fuel) : HaltsBelow p depth bound (expr p fuel) := by
  induction fuel generalizing bound with
  | zero => omega
  | succ fuel ih =>
    intro id h c hlt
    obtain ⟨bound, rfl⟩ : ∃ k, bound = k + 1 := ⟨bound - 1, by omega⟩
    have hinner : p.nesting depth h c (p.arena.inner id) < p.nesting depth h c [id] :=
      Program.nesting_inner_lt hp.ordered id
    have hev : HaltsBelow p depth bound (expr p fuel) := ih (by omega)
    exact halts_node hev hp (by omega) id (by omega)

end Eval

/-! ### Interpreters -/

namespace Interpreter

variable {i : Interpreter} {rounds depth : Nat}

theorem exists_fuel_load (hp : i.program.Limited rounds depth) (m : Module) :
    ∃ fuel, (i.load m fuel).1 ≠ .outOfFuel := by
  refine ⟨_, settle_ne_outOfFuel.2 (Eval.halts_bindModule (Eval.haltsBelow_expr hp
    (Nat.lt_succ_self _)) m.decls (Nat.lt_succ_self _) i.machine rfl rfl).1⟩

/-- How much fuel calls need does not depend on what is called, nor on the arguments. -/
theorem exists_fuel_call (hp : i.program.Limited rounds depth) :
    ∃ fuel, ∀ name args, (i.call name args fuel).1 ≠ .outOfFuel := by
  refine ⟨i.program.nesting depth i.machine.handlers i.machine.calls [] + 1 + rounds + 1,
    fun name args => ?_⟩
  unfold call
  cases i.lookup? name with
  | none => exact nofun
  | some callee =>
    exact settle_ne_outOfFuel.2 (Eval.halts_callValue (Eval.haltsBelow_expr hp
      (Nat.lt_succ_self _)) hp callee args .dummy (Nat.lt_succ_self _) i.machine rfl rfl).1

/-- **Evaluation under limits ends.**  Whatever the module, the state of the interpreter, the
function and its arguments, loading and calling come to a result, which is the same for any larger
amount of fuel. -/
theorem load_call_ends {file : Tree.File} {interner interner' : Interner} {m : Module}
    (hm : Module.ofTree file interner = (.ok m, interner')) (harena : i.program.arena = m.arena)
    (hlimits : i.program.limits = ⟨some rounds, some depth⟩) (hhost : i.program.host = none) :
    ∃ fuel, (∃ r, r.1 ≠ .outOfFuel ∧ ∀ fuel' ≥ fuel, i.load m fuel' = r) ∧
      ∀ name args, ∃ r, r.1 ≠ .outOfFuel ∧ ∀ fuel' ≥ fuel, i.call name args fuel' = r := by
  have hp : i.program.Limited rounds depth :=
    ⟨by rw [hlimits], by rw [hlimits], hhost, harena ▸ (Module.numbered_of_ofTree hm).ordered⟩
  obtain ⟨fuel, hload⟩ := exists_fuel_load hp m
  obtain ⟨fuel', hcall⟩ := exists_fuel_call hp
  refine ⟨max fuel fuel', ⟨i.load m fuel, hload, fun n hn => ?_⟩, fun name args =>
    ⟨i.call name args fuel', hcall name args, fun n hn => ?_⟩⟩
  · exact i.load_eq_of_le m (Nat.le_trans (Nat.le_max_left _ _) hn) hload
  · exact i.call_eq_of_le name args (Nat.le_trans (Nat.le_max_right _ _) hn) (hcall name args)

/-- `function main() loop main()` -/
def recursing : Tree.File :=
  ⟨"", [.function "main" [] none
    (.node (.loop (.node (.ident "main") [.call [] .dummy] .dummy)) [] .dummy) .dummy]⟩

/-- In a test run, the call of a function that calls itself in an endless loop ends. -/
theorem recursing_ends : ∃ m interner, Module.ofTree recursing .new = (.ok m, interner) ∧
    ∃ fuel r, r.1 ≠ .outOfFuel ∧ ∀ fuel' ≥ fuel,
      ((Interpreter.new m.arena interner (.builtin interner 0) ⟨.testRun, none, none⟩ .empty).load
        m).2.call "main" [] fuel' = r := by
  have hok : (Module.ofTree recursing .new).1.toOption.isSome := by decide +kernel
  cases hm : Module.ofTree recursing .new with
  | mk r interner =>
    rw [hm] at hok
    cases r with
    | error errors => cases hok
    | ok m =>
      refine ⟨m, interner, rfl, ?_⟩
      have hp := program_load (.new m.arena interner (.builtin interner 0)
        ⟨.testRun, none, none⟩ .empty) m ampleFuel
      obtain ⟨fuel, -, hcall⟩ := load_call_ends hm (by rw [hp]; rfl) (by rw [hp]; rfl)
        (by rw [hp]; rfl)
      exact ⟨fuel, hcall "main" []⟩

end Interpreter

end SignalLang
