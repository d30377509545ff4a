import SignalLang.Proofs.Parts
import SignalLang.Proofs.ScopedEvaluation

/-!
# What an evaluation is made of

An evaluation is made of the evaluations of its parts, one after the other, and of what it does
itself before, between and behind them.  It creates scopes, binds names, sets names and turns to the
host; all that it does else leaves the scopes and the dealings with the host as they are.

* `Machine.dealings` : what a machine knows of the host; `Eval.Mute x` : the step `x` does not deal
  with the host.
* `Moment.Sets p m t n v` : what begins at the moment `m` comes to set the name `n` to `v` at the
  machine `t`; `Moment.unhandled? p m` : the signal with which `m` turns to the host.
* `Thread R` : the relation `R` goes along with new scopes, and with all that changes neither scopes
  nor dealings; `Moment.Owns R p m` : it also goes along with what `m` binds, sets and asks itself.
* `Woven R p s ms t` : the machine `t` comes out of `s` by `R` and by the evaluations that begin at
  the moments `ms`, one after the other.
* `Moment.woven` : **so does the machine behind an evaluation, with its parts for these moments.**
* `Woven.whole`, `Woven.before`, `Woven.behind`, `Woven.ordered` : if `R` goes along with the parts
  too, it holds between the beginning, the beginnings and ends of the parts, and the end.
-/

namespace SignalLang

variable {p : Program} {n : Nat}

/-- What a machine knows of the host: what it was asked and given, and how often it answered. -/
def Machine.dealings (s : Machine) : HostLog × Nat := (s.log, s.hostTicks)

/-! ### What a moment does itself -/

/-- What begins at a moment comes to set a name that is looked up from the current scope of a
machine. -/
inductive Moment.Sets (p : Program) : Moment → Machine → Name → Value → Prop
  | set {fuel b last st rest s target e t v} (hst : st.kind = .set target e)
      (hv : Eval.expr p fuel e s = (.value v, t)) :
      Sets p ⟨fuel, .stmts b last (st :: rest), s⟩ t target v

/-- The signal with which a moment turns to the host, and its type: the signal is caused there, and
no handler matches it. -/
def Moment.unhandled? (p : Program) (m : Moment) : Option (TypeId × Value) :=
  match m.task with
  | .cause (.signal identity type fields) =>
    match m.machine.handlers.findMatch? p.types (.signal identity type fields) with
    | some _ => none
    | none => some (type, .signal identity type fields)
  | _ => none

/-- A relation between machines goes along with what a moment binds, sets and asks itself. -/
structure Moment.Owns (R : Machine → Machine → Prop) (p : Program) (m : Moment) : Prop where
  binds : ∀ t n b, m.Defines p t n b →
    R t { t with store := t.store.define t.env.current n b.value b.isVariable }
  sets : ∀ t n v found, m.Sets p t n v → t.store.owner t.env.current n = .ok found →
    R t { t with store := t.store.define found n v true }
  asks : ∀ type signal, m.unhandled? p = some (type, signal) →
    R m.machine (Eval.unhandled p type signal m.machine).2

/-- A relation between machines goes along with new scopes, and with all that changes neither the
scopes nor the dealings with the host. -/
class Thread (R : Machine → Machine → Prop) : Prop where
  trans {s t u} : R s t → R t u → R s u
  still {s t} : t.store.cells = s.store.cells → t.dealings = s.dealings → R s t
  scope {s t} (parent : Option ScopeId) : t.store = (s.store.addScope parent).2 →
    t.dealings = s.dealings → R s t

/-- One machine comes out of another by a relation and by evaluations, one after the other, that
begin at some moments. -/
inductive Woven (R : Machine → Machine → Prop) (p : Program) :
    Machine → List Moment → Machine → Prop
  | own {s t} (h : R s t) : Woven R p s [] t
  | part {s m ms t} (h : R s m.machine) (ht : Woven R p (m.result p).2 ms t) :
      Woven R p s (m :: ms) t

namespace Woven

variable {R : Machine → Machine → Prop} [Thread R] {s t u : Machine} {ms ms' : List Moment}

theorem prepend (h : R s t) (h' : Woven R p t ms u) : Woven R p s ms u := by
  cases h' with
  | own h' => exact .own (Thread.trans h h')
  | part h' ht => exact .part (Thread.trans h h') ht

theorem append (h : Woven R p s ms t) (h' : Woven R p t ms' u) : Woven R p s (ms ++ ms') u := by
  induction h with
  | own h => exact h'.prepend h
  | part h _ ih => exact .part h (ih h')

theorem extend (h : Woven R p s ms t) (h' : R t u) : Woven R p s ms u := by
  have happ := h.append (.own h')
  rwa [List.append_nil] at happ

variable {a b : Moment} (h : Woven R p s ms t) (hms : ∀ m ∈ ms, R m.machine (m.result p).2)

include h hms

/-- A relation that goes along with the evaluations too goes along with the whole. -/
theorem whole : R s t := by
  induction h with
  | own h => exact h
  | part h _ ih =>
    obtain ⟨hm, hms⟩ := List.forall_mem_cons.1 hms
    exact Thread.trans (Thread.trans h hm) (ih hms)

theorem before (ha : a ∈ ms) : R s a.machine := by
  induction h with
  | own h => cases ha
  | part h _ ih =>
    obtain ⟨hm, hms⟩ := List.forall_mem_cons.1 hms
    rcases List.mem_cons.1 ha with rfl | ha
    · exact h
    · exact Thread.trans (Thread.trans h hm) (ih hms ha)

theorem behind (ha : a ∈ ms) : R (a.result p).2 t := by
  induction h with
  | own h => cases ha
  | part h ht ih =>
    have hrest := (List.forall_mem_cons.1 hms).2
    rcases List.mem_cons.1 ha with rfl | ha
    · exact ht.whole hrest
    · exact ih hrest ha

/-- Of two evaluations one ends before the other begins. -/
theorem ordered (ha : a ∈ ms) (hb : b ∈ ms) :
    a = b ∨ R (a.result p).2 b.machine ∨ R (b.result p).2 a.machine := by
  induction h with
  | own h => cases ha
  | part h ht ih =>
    have hrest := (List.forall_mem_cons.1 hms).2
    rcases List.mem_cons.1 ha with rfl | ha
    · rcases List.mem_cons.1 hb with rfl | hb
      · exact .inl rfl
      · exact .inr (.inl (ht.before hrest hb))
    · rcases List.mem_cons.1 hb with rfl | hb
      · exact .inr (.inr (ht.before hrest ‹_›))
      · exact ih hrest ha hb

end Woven

namespace Eval

/-! ### Steps that do not deal with the host -/

/-- A step does not deal with the host. -/
def Mute (x : Eval α) : Prop := ∀ s, (x s).2.dealings = s.dealings

theorem mute_pure (a : α) : Mute (pure a : Eval α) := fun _ => rfl

theorem mute_fault (e : EvalProblem) : Mute (fault e : Eval α) := fun _ => rfl

theorem mute_faultAt (e : EvalProblem) (span : Span) : Mute (faultAt e span : Eval α) :=
  fun _ => rfl

theorem mute_of_snd {x : Eval α} (h : ∀ s, (x s).2 = s) : Mute x := fun s => by rw [h s]

/-- Behind a step comes nothing that deals with the host. -/
theorem dealings_bind_of_mute {f : α → Eval β} (hf : ∀ a, Mute (f a)) (x : Eval α) (s : Machine) :
    ((x >>= f) s).2.dealings = (x s).2.dealings := by
  simp only [Bind.bind, Eval.bind]
  cases x s with
  | mk r t =>
    cases r with
    | value a => exact hf a t
    | _ => rfl

theorem Mute.bind {x : Eval α} {f : α → Eval β} (hx : Mute x) (hf : ∀ a, Mute (f a)) :
    Mute (x >>= f) :=
  fun s => (dealings_bind_of_mute hf x s).trans (hx s)

theorem mute_closure (name : Option Name) (params : List Code.Param) (result : Option TypeRefId)
    (body : ExprId) : Mute (closure name params result body) := fun _ => rfl

theorem mute_typeValue (d : DeclId) (fieldless isSignal : Bool) :
    Mute (typeValue p d fieldless isSignal) := by
  unfold typeValue
  split
  · exact mute_faultAt _ _
  · split
    · exact mute_pure _
    · split <;> exact mute_pure _

theorem mute_imported (path : String) (item : Code.ImportItem) : Mute (imported p path item) := by
  unfold imported
  split
  · exact mute_pure _
  · exact mute_faultAt _ _

theorem still_of_mem_allHoistSteps {ds : List DeclId} {x : Name × Eval Value}
    (hx : x ∈ allHoistSteps p ds) : Quiet x.2 ∧ Mute x.2 := by
  obtain ⟨d, -, hx⟩ := List.mem_flatMap.1 hx
  unfold hoistSteps at hx
  split at hx
  · obtain ⟨item, -, rfl⟩ := List.mem_map.1 hx
    exact ⟨quiet_imported _ item, mute_imported _ item⟩
  · cases List.mem_singleton.1 hx
    exact ⟨quiet_closure _ _ _ _, mute_closure _ _ _ _⟩
  · cases List.mem_singleton.1 hx
    exact ⟨quiet_typeValue _ _ _, mute_typeValue _ _ _⟩
  · cases List.mem_singleton.1 hx
    exact ⟨quiet_typeValue _ _ _, mute_typeValue _ _ _⟩
  · cases hx
  · cases hx

theorem mute_checkType (v : Value) (expected : Ty) : Mute (checkType p v expected) :=
  mute_of_snd (checkType_snd v expected)

theorem mute_fieldValues (fields : List FieldType) (args : List Value) :
    Mute (fieldValues p fields args) := by
  induction fields generalizing args with
  | nil => exact mute_pure []
  | cons f fields ih =>
    cases args with
    | nil => exact mute_pure []
    | cons v args =>
      exact (mute_checkType v f.type).bind fun _ => (ih args).bind fun _ => mute_pure _

theorem mute_construct (type : TypeId) (args : List Value) : Mute (construct p type args) := by
  unfold construct
  dsimp only
  split
  · exact mute_fault _
  · exact (mute_fieldValues _ _).bind fun _ _ => rfl

theorem mute_callNative (f : NativeFunction) (args : List Value) : Mute (callNative p f args) :=
  mute_of_snd (snd_ofExcept _)

theorem mute_resume (type : TypeId) (v : Value) : Mute (resume p type v) := by
  unfold resume
  dsimp only
  split
  · exact mute_pure _
  · exact (mute_checkType _ _).bind fun _ => mute_pure v

theorem mute_ident (x : Name) : Mute (ident p x) := by
  intro s
  unfold ident
  split <;> rfl

theorem mute_member (receiver : Value) (field : Name) : Mute (member p receiver field) := by
  unfold member
  split
  · exact mute_pure _
  · exact mute_fault _

theorem mute_leaveFunction (v : Value) : Mute (leaveFunction v) := by
  intro s
  cases h : s.returnTarget <;> simp only [leaveFunction, Bind.bind, Eval.bind, read, h] <;> rfl

theorem mute_leaveLoop (v : Value) : Mute (leaveLoop v) := by
  intro s
  cases h : s.loopTarget <;> simp only [leaveLoop, Bind.bind, Eval.bind, read, h] <;> rfl

/-! ### Steps of its own -/

section

variable {R : Machine → Machine → Prop} [Thread R] {s : Machine}

theorem own_still {x : Eval α} (hquiet : Quiet x) (hmute : Mute x) (s : Machine) : R s (x s).2 :=
  Thread.still (hquiet s) (hmute s)

theorem own_same {x : Eval α} (h : (x s).2 = s) : R s (x s).2 :=
  Thread.still (by rw [h]) (by rw [h])

theorem own_bind {x : Eval α} {f : α → Eval β} (hx : R s (x s).2)
    (hf : ∀ a t, x s = (.value a, t) → R t (f a t).2) : R s ((x >>= f) s).2 := by
  simp only [Bind.bind, Eval.bind]
  cases hr : x s with
  | mk r t =>
    rw [hr] at hx
    cases r with
    | value a => exact Thread.trans hx (hf a t hr)
    | _ => exact hx

/-- Names are bound one after the other. -/
theorem own_defineEach {xs : List (Name × Eval Value)} (hstill : ∀ x ∈ xs, Quiet x.2 ∧ Mute x.2)
    (hR : ∀ t n v, DefinesAmong xs s t n v →
      R t { t with store := t.store.define t.env.current n v false }) :
    R s (defineEach xs s).2 := by
  induction xs generalizing s with
  | nil => exact own_same rfl
  | cons x xs ih =>
    obtain ⟨hx, hxs⟩ := List.forall_mem_cons.1 hstill
    simp only [defineEach]
    refine own_bind (own_still hx.1 hx.2 s) fun v t hv => ?_
    have hbinds := hR t x.1 v ⟨[], x.2, xs, s, rfl, rfl, hv⟩
    refine own_bind hbinds fun _ u hu => ih hxs ?_
    rintro t' n v' ⟨pre, y, post, s', rfl, hpre, hy⟩
    refine hR t' n v' ⟨x :: pre, y, post, s', rfl, ?_, hy⟩
    simp only [defineEach]
    rw [bind_of_value hv, bind_of_value hu]
    exact hpre

theorem own_defineAll {bs : Bindings} (hR : ∀ t n v, DefinesAmong (given bs) s t n v →
      R t { t with store := t.store.define t.env.current n v false }) :
    R s (defineAll bs s).2 := by
  rw [defineAll_eq]
  refine own_defineEach (fun x hx => ?_) hR
  obtain ⟨b, -, rfl⟩ := List.mem_map.1 hx
  exact ⟨quiet_pure b.2, mute_pure b.2⟩

theorem own_bindAllHoisted {ds : List DeclId}
    (hR : ∀ t n v, DefinesAmong (allHoistSteps p ds) s t n v →
      R t { t with store := t.store.define t.env.current n v false }) :
    R s (bindAllHoisted p ds s).2 := by
  rw [bindAllHoisted_eq]
  exact own_defineEach (fun _ => still_of_mem_allHoistSteps) hR

end

/-! ### Steps with parts -/

/-- The step `x` is made of the evaluations of its parts `ms`, in order, and of steps of its own. -/
def Weaves (R : Machine → Machine → Prop) (p : Program) (ms : List Moment) (x : Eval α)
    (s : Machine) : Prop := Woven R p s ms (x s).2

variable {R : Machine → Machine → Prop} [Thread R] {ms : List Moment} {s : Machine}

omit [Thread R] in
theorem weaves_of {x : Eval α} (h : R s (x s).2) : Weaves R p [] x s := .own h

theorem weaves_same {x : Eval α} (h : (x s).2 = s) : Weaves R p [] x s := weaves_of (own_same h)

theorem weaves_still {x : Eval α} (hquiet : Quiet x) (hmute : Mute x) : Weaves R p [] x s :=
  weaves_of (own_still hquiet hmute s)

/-- The evaluation of one part. -/
theorem weaves_part (m : Moment) {x : Eval Value} (hx : x m.machine = m.result p) :
    Weaves R p [m] x m.machine :=
  .part (Thread.still rfl rfl) (.own (by rw [hx]; exact Thread.still rfl rfl))

theorem weaves_expr (n : Nat) (e : ExprId) (s : Machine) :
    Weaves R p [⟨n, .expr e, s⟩] (expr p n e) s :=
  weaves_part ⟨n, .expr e, s⟩ rfl

namespace Weaves

variable {x : Eval α} {f : α → Eval β}

/-- The parts of a step, and those of what comes behind it. -/
theorem bind {g : α → Machine → List Moment} (hx : Weaves R p ms x s)
    (hf : ∀ a t, x s = (.value a, t) → Weaves R p (g a t) (f a) t) :
    Weaves R p (ms ++ behind x s g) (x >>= f) s := by
  simp only [Weaves, Bind.bind, Eval.bind, behind] at hx ⊢
  cases hr : x s with
  | mk r t =>
    rw [hr] at hx
    cases r with
    | value a => exact hx.append (hf a t hr)
    | _ => exact hx.append (.own (Thread.still rfl rfl))

/-- What comes behind has no parts. -/
theorem bind_step (hx : Weaves R p ms x s) (hf : ∀ a t, x s = (.value a, t) → R t (f a t).2) :
    Weaves R p ms (x >>= f) s := by
  have h := hx.bind (g := fun _ _ => []) fun a t hv => weaves_of (hf a t hv)
  rwa [behind_nil, List.append_nil] at h

/-- Only what comes behind has parts. -/
theorem behind {g : α → Machine → List Moment} (hx : R s (x s).2)
    (hf : ∀ a t, x s = (.value a, t) → Weaves R p (g a t) (f a) t) :
    Weaves R p (behind x s g) (x >>= f) s := by
  have h := (weaves_of (p := p) hx).bind hf
  rwa [List.nil_append] at h

/-- Behind a step of which the value is known. -/
theorem of_value {a : α} {t : Machine} (h : x s = (.value a, t)) (hf : Weaves R p ms (f a) t)
    (ht : R s t) : Weaves R p ms (x >>= f) s := by
  unfold Weaves
  rw [bind_of_value h]
  exact hf.prepend ht

/-- A step that does what another one does from another machine. -/
theorem within {y : Eval α} {s' : Machine} (hx : Weaves R p ms x s') (hs : R s s')
    (hstore : (y s).2.store.cells = (x s').2.store.cells)
    (hdealings : (y s).2.dealings = (x s').2.dealings) : Weaves R p ms y s :=
  (hx.prepend hs).extend (Thread.still hstore hdealings)

omit [Thread R] in
theorem located (hx : Weaves R p ms x s) (span : Span) : Weaves R p ms (located span x) s := by
  simp only [Weaves, Eval.located] at hx ⊢
  cases hr : x s with
  | mk r t =>
    rw [hr] at hx
    cases r <;> exact hx

omit [Thread R] in
theorem locatedWhole {x : Eval Value} (hx : Weaves R p ms x s) (id : ExprId) :
    Weaves R p ms (locatedWhole p id x) s := by
  rcases locatedWhole_cases p id with hwhole | hwhole <;> rw [hwhole]
  · exact hx.located _
  · exact hx

theorem inScope (hx : Weaves R p ms x s.inScope) : Weaves R p ms (inScope x) s :=
  hx.within (Thread.scope (some s.env.current) rfl rfl) rfl rfl

theorem activation {x : Eval Value} (hx : Weaves R p ms x s) (frame : FrameId) :
    Weaves R p ms (activation frame x) s := by
  have hpop := hx.extend (u := { (x s).2 with calls := (x s).2.calls.pop }) (Thread.still rfl rfl)
  simp only [Weaves, Eval.activation]
  cases hr : x s with
  | mk r t =>
    rw [hr] at hpop
    cases r with
    | interrupt i => cases i <;> exact hpop
    | _ => exact hpop

end Weaves

/-! ### Tasks -/

/-- A `let` evaluates its value, and then binds its name. -/
theorem weaves_bindLet {d : DeclId}
    (hR : ∀ x isVariable type e t v, (p.arena.decl d).kind = .binding x isVariable type e →
      expr p n e s = (.value v, t) →
      checkDeclared p type v (p.arena.decl d).span t = (.value (), t) →
      R t { t with store := t.store.define t.env.current x v isVariable })
    (hms : ms = match (p.arena.decl d).kind with
      | .binding _ _ _ e => [⟨n, .expr e, s⟩]
      | _ => []) :
    Weaves R p ms (bindLet p (expr p n) d) s := by
  subst hms
  cases hd : (p.arena.decl d).kind with
  | binding x isVariable type e =>
    simp only [bindLet, hd]
    refine (weaves_expr n e s).bind_step fun v t hv => ?_
    have hcheck := checkDeclared_snd (p := p) type v (p.arena.decl d).span t
    refine own_bind (own_same hcheck) fun _ u hu => ?_
    obtain rfl : t = u := by
      rw [hu] at hcheck
      exact hcheck.symm
    exact hR _ _ _ _ t v hd hv hu
  | _ =>
    simp only [bindLet, hd]
    exact weaves_same rfl

theorem weaves_stmt {b : ExprId} {last : Value} {st : Code.Stmt} {rest : List Code.Stmt}
    (h : Moment.Owns R p ⟨n, .stmts b last (st :: rest), s⟩)
    (hst : ∀ pattern body, st.kind ≠ .effect pattern body) :
    Weaves R p ((st.operand? p.arena).toList.map fun e => ⟨n, .expr e, s⟩)
      (stmts p (expr p n) last [st]) s := by
  cases hk : st.kind with
  | expr e =>
    simp only [stmts, hk, Code.Stmt.operand?]
    exact (weaves_expr n e s).bind_step fun _ _ _ => own_same rfl
  | decl d =>
    simp only [stmts, hk]
    refine (weaves_bindLet (fun x isVariable type e t v hd hv hc =>
      h.binds _ _ _ (.value hk hd hv hc)) ?_).bind_step fun _ _ _ => own_same rfl
    simp only [Code.Stmt.operand?, hk]
    cases (p.arena.decl d).kind <;> rfl
  | effect pattern body => exact absurd hk (hst pattern body)
  | set target value =>
    simp only [stmts, hk, Code.Stmt.operand?]
    refine (weaves_expr n value s).bind_step fun v t hv => own_bind ?_ fun _ _ _ => own_same rfl
    simp only [set]
    cases howner : t.store.owner t.env.current target with
    | ok found => exact h.sets _ _ _ _ (.set hk hv) howner
    | error e => exact Thread.still rfl rfl

theorem weaves_stmts {b : ExprId} {last : Value} {rest : List Code.Stmt}
    (h : Moment.Owns R p ⟨n, .stmts b last rest, s⟩) :
    Weaves R p (Moment.stmtsParts p n b last s rest) (stmts p (expr p n) last rest) s := by
  cases rest with
  | nil => exact weaves_same rfl
  | cons st rest =>
    by_cases hst : ∀ pattern body, st.kind ≠ .effect pattern body
    · rw [stmts_cons hst, Moment.stmtsParts_of_ne hst]
      exact (weaves_stmt h hst).bind fun v t _ => weaves_part ⟨n, .stmts b v rest, t⟩ rfl
    · push Not at hst
      obtain ⟨pattern, body, hk⟩ := hst
      simp only [stmts, Moment.stmtsParts, hk]
      have hrest : Weaves R p _ (stmts p (expr p n) .action rest) _ :=
        weaves_part ⟨n, .stmts b .action rest, s.install (s.handlerFrame pattern body)⟩ rfl
      exact hrest.within (Thread.still rfl rfl) rfl rfl

theorem weaves_arms {b : ExprId} {subject : Option Value} {rest : List Code.Arm}
    (h : Moment.Owns R p ⟨n, .arms b subject rest, s⟩) :
    Weaves R p (Moment.armsParts p n b subject s rest) (arms p (expr p n) subject rest) s := by
  cases rest with
  | nil => exact weaves_same rfl
  | cons a rest =>
    cases ha : a.kind with
    | when c body =>
      simp only [arms, Moment.armsParts, ha]
      refine (weaves_expr n c s).bind fun v t hv => ?_
      cases hb : v.bool? with
      | none =>
        simp only [condition, hb]
        exact weaves_same rfl
      | some answer =>
        simp only [condition, hb]
        cases answer with
        | true => exact weaves_expr n body t
        | false => exact weaves_part ⟨n, .arms b subject rest, t⟩ rfl
    | is pattern body =>
      cases subject with
      | none =>
        simp only [arms, Moment.armsParts, ha]
        exact weaves_same rfl
      | some v =>
        cases hm : v.matchPattern? pattern p.types with
        | none =>
          simp only [arms, Moment.armsParts, ha, hm]
          exact weaves_part ⟨n, .arms b (some v) rest, s⟩ rfl
        | some bs =>
          simp only [arms, Moment.armsParts, ha, hm]
          have hbinds : R s.inScope (defineAll bs s.inScope).2 :=
            own_defineAll fun t x v hd => h.binds _ _ _ (.arm ha hm hd)
          exact (Weaves.behind hbinds fun _ t _ => weaves_expr n body t).inScope
    | otherwise body =>
      simp only [arms, Moment.armsParts, ha]
      exact weaves_expr n body s

theorem weaves_lets {ds : List DeclId} (h : Moment.Owns R p ⟨n, .lets ds, s⟩) :
    Weaves R p (Moment.letsParts p n s ds)
      (bindAllLets p (expr p n) ds >>= fun _ => pure Value.action) s := by
  cases ds with
  | nil => exact weaves_same rfl
  | cons d ds =>
    simp only [bindAllLets, bind_assoc]
    refine (weaves_bindLet (fun x isVariable type e t v hd hv hc =>
      h.binds _ _ _ (.moduleValue hd hv hc)) rfl).bind fun _ t _ => ?_
    exact weaves_part ⟨n, .lets ds, t⟩ rfl

theorem weaves_callClosure {c : Closure} {args : List Value} {span : Span}
    (h : Moment.Owns R p ⟨n, .call (.closure c) args span, s⟩) :
    Weaves R p (Moment.callParts p n (.closure c) args span s)
      (callClosure p (expr p n) c args span) s := by
  by_cases hlen : args.length = c.params.length
  case neg =>
    simp only [callClosure, Moment.callParts, if_pos hlen, if_neg hlen]
    exact weaves_same rfl
  have hcheck := checkArguments_snd (p := p) c.params args s
  simp only [callClosure, Moment.callParts, if_pos hlen, if_neg (not_not_intro hlen)]
  refine Weaves.behind (own_same hcheck) fun _ t hargs => ?_
  obtain rfl : t = s := by rw [← hcheck, hargs]
  cases hcalls : t.calls.push p.limits.callDepth ⟨callName p c, some span⟩ with
  | error problem =>
    refine weaves_of ?_
    simp only [Bind.bind, Eval.bind, pushCall, hcalls]
    exact Thread.still rfl rfl
  | ok calls =>
    have hpush : pushCall p ⟨callName p c, some span⟩ t = (.value (), { t with calls }) := by
      simp only [pushCall, hcalls]
    have hbinds : R (t.inCall c calls) (defineAll ((c.params.map fun q => q.name).zip args)
        (t.inCall c calls)).2 :=
      own_defineAll fun t' x v hd => h.binds _ _ _ (.param hlen hargs hcalls hd)
    have hbody := Weaves.behind hbinds fun _ u _ => weaves_expr (p := p) n c.body u
    have hcalled : Weaves R p _
        (inContext (t.inCall c calls).env none (some (.ofSerial t.activations)) _)
        { t with calls, activations := t.activations + 1, store := (t.inCall c calls).store } :=
      hbody.within (Thread.still rfl rfl) rfl rfl
    refine Weaves.of_value hpush ?_ (Thread.still rfl rfl)
    exact (hcalled.activation (.ofSerial t.activations)).within
      (Thread.scope (some c.captured) rfl rfl) rfl rfl

theorem weaves_callValue {callee : Value} {args : List Value} {span : Span}
    (h : Moment.Owns R p ⟨n, .call callee args span, s⟩) :
    Weaves R p (Moment.callParts p n callee args span s)
      (callValue p (expr p n) callee args span) s := by
  cases callee with
  | closure c => exact weaves_callClosure h
  | native f => exact weaves_still (quiet_callNative _ _) (mute_callNative _ _)
  | constructor type => exact weaves_still (quiet_construct _ _) (mute_construct _ _)
  | _ =>
    simp only [callValue]
    split <;> exact weaves_same rfl

theorem weaves_cause {v : Value} (h : Moment.Owns R p ⟨n, .cause v, s⟩) :
    Weaves R p (Moment.causeParts p n v s) (cause p (expr p n) v) s := by
  cases v with
  | signal identity type fields =>
    cases hm : s.handlers.findMatch? p.types (.signal identity type fields) with
    | none =>
      simp only [Moment.causeParts, hm]
      refine weaves_of ?_
      rw [cause_of_no_match hm]
      exact h.asks type _ (by simp only [Moment.unhandled?, hm])
    | some found =>
      obtain ⟨outer, f, bs⟩ := found
      have hbinds : R (s.inHandler f outer) (defineAll bs (s.inHandler f outer)).2 :=
        own_defineAll fun t x v hd => h.binds _ _ _ (.capture hm hd)
      have hbody := Weaves.behind hbinds fun _ t _ => weaves_expr (p := p) n f.body t
      have hhandler : Weaves R p _ (runHandler (expr p n) outer f bs) s :=
        hbody.within (Thread.scope (some f.scope) rfl rfl) rfl rfl
      simp only [Moment.causeParts, hm]
      unfold Weaves
      rw [cause_of_match hm]
      exact hhandler.bind_step fun answer t _ =>
        own_still (quiet_resume type answer) (mute_resume type answer) t
  | _ => exact weaves_same rfl

/-! ### Expressions -/

variable {id : ExprId}

theorem weaves_arguments (es : List ExprId) (s : Machine) :
    Weaves R p (operandParts p n es s) (arguments (expr p n) es) s := by
  induction es generalizing s with
  | nil => exact weaves_same rfl
  | cons e es ih =>
    exact (weaves_expr n e s).bind fun v t _ => (ih t).bind_step fun _ _ _ => own_same rfl

theorem weaves_rounds (frame : FrameId) (body : ExprId) (fuel done ticks : Nat) (s : Machine) :
    Weaves R p (roundParts p n body fuel done ticks s)
      (rounds p (expr p n) frame body fuel done ticks) s := by
  induction fuel generalizing done ticks s with
  | zero => exact weaves_same rfl
  | succ fuel ih =>
    unfold Weaves
    by_cases hgo : goesOn p s done ticks
    · simp only [roundParts, if_pos hgo, Eval.behind]
      simp only [goesOn] at hgo
      simp only [rounds, if_neg hgo]
      have hround : Woven R p s _ (expr p n body s).2 := weaves_expr n body s
      cases hv : expr p n body s with
      | mk r t =>
        rw [hv] at hround
        cases r with
        | value v => exact hround.append (ih _ _ t)
        | interrupt i => cases i <;> exact hround
        | outOfFuel => exact hround
    · simp only [roundParts, if_neg hgo]
      rw [goesOn, not_not] at hgo
      simp only [rounds, if_pos hgo]
      exact .own (Thread.still rfl rfl)

/-- What an expression does behind its operands. -/
theorem weaves_mainStep (h : Moment.Owns R p ⟨n + 1, .expr id, s⟩) {vs : List Value} {t : Machine}
    (hvs : arguments (expr p n) (p.arena.expr id).kind.operands s = (.value vs, t)) :
    Weaves R p (mainParts p n id vs t) (mainStep p (expr p n) n id vs) t := by
  simp only [mainStep, mainParts]
  cases hk : (p.arena.expr id).kind with
  | group _ | string _ | number _ => exact weaves_same rfl
  | function params result body =>
    exact weaves_still (quiet_closure _ _ _ _) (mute_closure _ _ _ _)
  | ident x => exact weaves_still (quiet_ident x) (mute_ident x)
  | ret value => exact weaves_still (quiet_leaveFunction _) (mute_leaveFunction _)
  | brk value => exact weaves_still (quiet_leaveLoop _) (mute_leaveLoop _)
  | member receiver field =>
    exact (weaves_still (quiet_member _ _) (mute_member _ _)).located _
  | block body =>
    rw [hk] at hvs
    cases hvs
    have hbinds : R s.inScope (bindAllHoisted p (declsOf body) s.inScope).2 :=
      own_bindAllHoisted fun t x v hd => h.binds _ _ _ (.hoisted hk hd)
    exact (Weaves.behind hbinds fun _ t _ =>
      weaves_part ⟨n, .stmts id .action body, t⟩ rfl).inScope
  | branch subject options => exact weaves_part ⟨n, .arms id vs.head? options, t⟩ rfl
  | loop body =>
    exact (weaves_rounds (.ofSerial t.activations) body n 0 t.hostTicks t.inLoop).within
      (Thread.still rfl rfl) rfl rfl
  | cause payload =>
    rw [hk] at hvs
    obtain ⟨v, _, _, -, hnil, rfl⟩ := arguments_cons_eq_value_iff.1 hvs
    cases hnil
    exact (weaves_part ⟨n, .cause v, t⟩ rfl).located _
  | call callee args =>
    rw [hk] at hvs
    obtain ⟨f, _, args, -, -, rfl⟩ := arguments_cons_eq_value_iff.1 hvs
    exact (weaves_part ⟨n, .call f args _, t⟩ rfl).located _
  | pipe subject callee args =>
    rw [hk] at hvs
    obtain ⟨v, _, _, -, hws, rfl⟩ := arguments_cons_eq_value_iff.1 hvs
    obtain ⟨f, _, args, -, -, rfl⟩ := arguments_cons_eq_value_iff.1 hws
    exact (weaves_part ⟨n, .call f (v :: args) _, t⟩ rfl).located _

/-- An expression evaluates its operands, and then what is its own. -/
theorem weaves_node (h : Moment.Owns R p ⟨n + 1, .expr id, s⟩) :
    Weaves R p (Moment.exprParts p id s (n + 1)) (node p (expr p n) n id) s := by
  have hparts : Weaves R p (Moment.exprParts p id s (n + 1))
      (arguments (expr p n) (p.arena.expr id).kind.operands >>= mainStep p (expr p n) n id) s :=
    (weaves_arguments _ s).bind fun vs t hvs => weaves_mainStep h hvs
  rw [node_eq]
  exact hparts.locatedWhole id

end Eval

/-- **An evaluation is made of its own steps and of the evaluations of its parts, in order.** -/
theorem Moment.woven {R : Machine → Machine → Prop} [Thread R] {m : Moment} (h : m.Owns R p) :
    Woven R p m.machine (m.parts p) (m.result p).2 := by
  obtain ⟨n, task, s⟩ := m
  cases task with
  | expr id =>
    cases n with
    | zero => exact .own (Thread.still rfl rfl)
    | succ n => exact Eval.weaves_node h
  | stmts block last rest => exact Eval.weaves_stmts h
  | arms branch subject rest => exact Eval.weaves_arms h
  | lets ds => exact Eval.weaves_lets h
  | call callee args span => exact Eval.weaves_callValue h
  | cause signal => exact Eval.weaves_cause h

end SignalLang
