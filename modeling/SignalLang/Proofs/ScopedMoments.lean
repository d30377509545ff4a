import SignalLang.Proofs.Weaving

/-!
# Moments in scopes that show their contexts

What holds at the beginning of a run holds at every moment to which it comes: the current scope
shows a context in which the code that comes next was accepted, and the names that this code is
about to bind are free there.  All that is bound at a moment is still bound when the run ends.

* `Moment.Fits g m` : what has to be true of a moment, with one constructor for each task.
* `Moment.Fits.arrives` : what begins at such a moment arrives.
* `Enters.fits` : one step into an evaluation.
* `Moment.Fits.owns` : the store grows with all that a moment binds, sets and asks itself, so that
  `Enters.grows` is about what an evaluation is made of.
* `Reaches.fits`, `Reaches.grows` : **all moments of a run fit if its first one does, and the store
  at the end of the run has grown from that at the end of each of them.**
-/

namespace SignalLang

variable {p : Program} {g : Scoping p}

/-! ### Moments that fit -/

/-- The code that comes next was accepted in a context that the current scope shows. -/
inductive Moment.Fits (g : Scoping p) : Moment → Prop
  | expr {n id s c} (h : g.Accepts c id) (hs : s.Ready g c) : Fits g ⟨n, .expr id, s⟩
  | stmts {n b last rest s c c'}
      (h : Resolve.AcceptsItems p.arena g.Accepts .inPlace c (rest.map .ofStmt) c')
      (hs : s.Ready g c) (hopen : s.Open p.arena (rest.map .ofStmt))
      (hcapture : ∀ st ∈ rest, ∀ pattern body, st.kind = .effect pattern body →
        ∀ n ∈ pattern.binding.toList, g.constant n)
      (hlast : g.Holds s.store last) : Fits g ⟨n, .stmts b last rest, s⟩
  | arms {n b subject rest s c hasSubject}
      (h : ∀ a ∈ rest, Resolve.AcceptsArm g.Accepts c hasSubject a.kind) (hs : s.Ready g c)
      (hcapture : ∀ a ∈ rest, ∀ pattern body, a.kind = .is pattern body →
        ∀ n ∈ pattern.binding.toList, g.constant n)
      (hsubject : ∀ v ∈ subject, g.Holds s.store v) : Fits g ⟨n, .arms b subject rest, s⟩
  | lets {n ds s c c'}
      (h : Resolve.AcceptsItems p.arena g.Accepts .afterScope c (ds.map .decl) c')
      (hs : s.Ready g c) (hopen : s.Open p.arena (ds.map .decl)) : Fits g ⟨n, .lets ds, s⟩
  | call {n callee args span s} (hs : s.Scoped g) (hcallee : g.Holds s.store callee)
      (hargs : ∀ v ∈ args, g.Holds s.store v) : Fits g ⟨n, .call callee args span, s⟩
  | cause {n v s} (hs : s.Scoped g) (hv : g.Holds s.store v) : Fits g ⟨n, .cause v, s⟩

section

variable (hord : p.arena.Ordered) (hhost : g.TrustsHost)

include hord hhost

/-- What begins at a moment that fits arrives. -/
theorem Moment.Fits.arrives {m : Moment} (h : m.Fits g) :
    m.machine.Arrives g g.Holds (m.result p) := by
  have hev := fun n => Eval.arrives_expr (g := g) hord hhost n
  have hspares := fun n => Eval.spares_expr (p := p) n
  cases h with
  | expr h hs => exact hev _ _ _ _ h hs
  | stmts h hs hopen hcapture hlast =>
    exact Eval.arrives_stmts (hev _) (hspares _) hs h hcapture hopen hlast
  | arms h hs hcapture hsubject => exact Eval.arrives_arms (hev _) hs h hcapture hsubject
  | lets h hs hopen =>
    exact (Eval.arrives_bindAllLets (hev _) (hspares _) hs h hopen).bind fun _ t _ ht _ =>
      Eval.arrives_pure ht.fits Value.only_action
  | call hs hcallee hargs => exact Eval.arrives_callValue (hev _) hhost hs hcallee hargs _
  | cause hs hv => exact Eval.arrives_cause (hev _) hhost hs hv

/-! ### One step into an evaluation -/

/-- A round of a loop begins where the scope shows the same context. -/
theorem RoundBegins.ready {c : Resolve.Context} {n fuel done ticks : Nat} {body : ExprId}
    {s t : Machine} (h : RoundBegins p (Eval.expr p n) body fuel done ticks s t)
    (hbody : g.Accepts c body) (hs : s.Ready g c) : t.Ready g c := by
  induction h with
  | this _ => exact hs
  | later _ hv _ ih =>
    have hround := Eval.arrives_expr hord hhost n c body _ hbody hs
    rw [hv] at hround
    exact ih (hround.toBehind.ready hs)

/-- Operands that gave values. -/
theorem Machine.Ready.arguments {c : Resolve.Context} {n : Nat} {es : List ExprId}
    {s t : Machine} {vs : List Value} (hs : s.Ready g c) (hes : ∀ e ∈ es, g.Accepts c e)
    (h : Eval.arguments (Eval.expr p n) es s = (.value vs, t)) :
    t.Ready g c ∧ ∀ v ∈ vs, g.Holds t.store v := by
  have hvs := Eval.arrives_arguments (Eval.arrives_expr (g := g) hord hhost n) hes hs
  rw [h] at hvs
  exact ⟨hvs.toBehind.ready hs, hvs.outcome⟩

/-- An operand that gave a value. -/
theorem Machine.Ready.operand {c : Resolve.Context} {n : Nat} {e : ExprId} {s t : Machine}
    {v : Value} (hs : s.Ready g c) (he : g.Accepts c e)
    (h : Eval.expr p n e s = (.value v, t)) : t.Ready g c ∧ g.Holds t.store v := by
  have hv := Eval.arrives_expr (g := g) hord hhost n c e s he hs
  rw [h] at hv
  exact ⟨hv.toBehind.ready hs, hv.outcome⟩

namespace Enters

variable {n : Nat} {s : Machine} {c c' : Resolve.Context} {k : Option ActivityKind}
  {m m' : Moment}

/-- To what an expression comes that was accepted in a context that the scope shows. -/
theorem fits_expr {id : ExprId} (h : g.Accepts c id) (hs : s.Ready g c)
    (henters : Enters p ⟨n, .expr id, s⟩ k m') : m'.Fits g := by
  have hnode : Resolve.AcceptsNode g.known g.Accepts c (p.arena.expr id).kind :=
    Resolve.Accepted.node (k := g.known) hord h
  have hoperands := hnode.operands_accepted
  cases henters with
  | operand hops hpre =>
    rw [hops] at hoperands
    obtain ⟨hready, -⟩ := hs.arguments hord hhost
      (fun e he => hoperands e (List.mem_append_left _ he)) hpre
    exact .expr (hoperands _ (by simp)) hready
  | block hk hb =>
    obtain ⟨c₀, c₁, items, hbegins⟩ := Eval.begins_block hk hs (hk ▸ hnode).of_block
    obtain ⟨hready, hopen⟩ := hbegins.next _ hb
    refine .stmts items hready hopen ?_ Value.only_action
    exact fun st hst pattern body hkst n hn => g.constant_of_binds n (.handler hk hst hkst hn)
  | branch hk hv =>
    rw [hk] at hoperands
    obtain ⟨hready, hvs⟩ := hs.arguments hord hhost hoperands hv
    refine .arms (hk ▸ hnode).of_branch hready ?_ fun v hv => hvs v (List.mem_of_mem_head? hv)
    exact fun a ha pattern body hka n hn => g.constant_of_binds n (.arm hk ha hka hn)
  | loop hk hr =>
    have hbody := (hk ▸ hnode).of_loop
    exact .expr hbody (hr.ready hord hhost hbody (Eval.ready_inLoop hs))
  | cause hk hv =>
    obtain ⟨hready, hv⟩ := hs.operand hord hhost (hoperands _ (by simp [hk])) hv
    exact .cause hready.fits hv
  | call hk hv =>
    rw [hk] at hoperands
    obtain ⟨hready, hvs⟩ := hs.arguments hord hhost hoperands hv
    obtain ⟨hf, hvs⟩ := List.forall_mem_cons.1 hvs
    exact .call hready.fits hf hvs
  | pipe hk hv =>
    rw [hk] at hoperands
    obtain ⟨hready, hvs⟩ := hs.arguments hord hhost hoperands hv
    obtain ⟨hv, hvs⟩ := List.forall_mem_cons.1 hvs
    obtain ⟨hf, hvs⟩ := List.forall_mem_cons.1 hvs
    -- the subject is the first of the arguments
    exact .call hready.fits hf (List.forall_mem_cons.2 ⟨hv, hvs⟩)

/-- To what statements come. -/
theorem fits_stmts {b : ExprId} {last : Value} {rest : List Code.Stmt}
    (h : Resolve.AcceptsItems p.arena g.Accepts .inPlace c (rest.map .ofStmt) c')
    (hs : s.Ready g c) (hopen : s.Open p.arena (rest.map .ofStmt))
    (hcapture : ∀ st ∈ rest, ∀ pattern body, st.kind = .effect pattern body →
      ∀ n ∈ pattern.binding.toList, g.constant n)
    (henters : Enters p ⟨n, .stmts b last rest, s⟩ k m') : m'.Fits g := by
  cases rest with
  | nil => cases henters
  | cons st rest =>
    obtain ⟨hcap, hcapture⟩ := List.forall_mem_cons.1 hcapture
    cases h with
    | cons hi his =>
      cases henters with
      | stmt he => exact .expr (Eval.accepts_operand hi he) hs
      | nextStmt hst hv =>
        obtain ⟨hb, ho⟩ := Eval.arrives_stmt (Eval.arrives_expr hord hhost n)
          (Eval.spares_expr n) hs hi hst hopen.head last
        rw [hv] at hb ho
        obtain ⟨hv, hbinds⟩ := ho
        exact .stmts his (Eval.ready_item hs hi hb hbinds) (hopen.tail hb.env hbinds) hcapture hv
      | install hst =>
        obtain ⟨hready, hopen⟩ := Eval.ready_effect hs hi hst (hcap _ _ hst) hopen
        exact .stmts his hready hopen hcapture Value.only_action

/-- To what the arms of a branch come. -/
theorem fits_arms {b : ExprId} {subject : Option Value} {rest : List Code.Arm} {hasSubject : Bool}
    (h : ∀ a ∈ rest, Resolve.AcceptsArm g.Accepts c hasSubject a.kind) (hs : s.Ready g c)
    (hcapture : ∀ a ∈ rest, ∀ pattern body, a.kind = .is pattern body →
      ∀ n ∈ pattern.binding.toList, g.constant n)
    (hsubject : ∀ v ∈ subject, g.Holds s.store v)
    (henters : Enters p ⟨n, .arms b subject rest, s⟩ k m') : m'.Fits g := by
  cases rest with
  | nil => cases henters
  | cons a rest =>
    obtain ⟨harm, h⟩ := List.forall_mem_cons.1 h
    obtain ⟨hcap, hcapture⟩ := List.forall_mem_cons.1 hcapture
    cases henters with
    | condition ha =>
      rw [ha] at harm
      cases harm with
      | when hc _ => exact .expr hc hs
    | whenTrue ha hv hb =>
      rw [ha] at harm
      cases harm with
      | when hc hbody => exact .expr hbody (hs.operand hord hhost hc hv).1
    | @whenFalse _ _ _ _ _ _ condition _ _ _ ha hv hb =>
      rw [ha] at harm
      cases harm with
      | when hc _ =>
        have hgrows := (Eval.spares_expr (p := p) n condition s).grows
        rw [hv] at hgrows
        exact .arms h (hs.operand hord hhost hc hv).1 hcapture
          fun v hv => (hsubject v hv).grows hgrows
    | isMatch ha hm hd =>
      rw [ha] at harm
      cases harm with
      | is _ hunder =>
        obtain ⟨ctx, hbody, hready⟩ :=
          (Eval.opens_isArm hs hunder (hcap _ _ ha) (hsubject _ rfl) hm).ready hd
        exact .expr hbody hready
    | isMiss => exact .arms h hs hcapture hsubject
    | otherwise ha =>
      rw [ha] at harm
      cases harm with
      | otherwise hbody => exact .expr hbody hs

/-- To what the values of a module come. -/
theorem fits_lets {ds : List DeclId}
    (h : Resolve.AcceptsItems p.arena g.Accepts .afterScope c (ds.map .decl) c')
    (hs : s.Ready g c) (hopen : s.Open p.arena (ds.map .decl))
    (henters : Enters p ⟨n, .lets ds, s⟩ k m') : m'.Fits g := by
  cases ds with
  | nil => cases henters
  | cons d ds =>
    cases h with
    | cons hi his =>
      cases henters with
      | letValue hd => exact .expr (hi.value hd) hs
      | nextLet hd =>
        have hlet := Eval.arrives_bindLet (Eval.arrives_expr hord hhost n) (Eval.spares_expr n)
          hs hi hopen.head
        rw [hd] at hlet
        exact .lets his (Eval.ready_item hs hi hlet.toBehind hlet.outcome)
          (hopen.tail hlet.env hlet.outcome)

/-- **Where a moment fits, so does every moment to which it comes.** -/
theorem fits (h : Enters p m k m') (hm : m.Fits g) : m'.Fits g := by
  cases hm with
  | expr ha hs => exact fits_expr hord hhost ha hs h
  | stmts hi hs hopen hcapture _ => exact fits_stmts hord hhost hi hs hopen hcapture h
  | arms ha hs hcapture hsubject => exact fits_arms hord hhost ha hs hcapture hsubject h
  | lets hi hs hopen => exact fits_lets hord hhost hi hs hopen h
  | call hs hcallee hargs =>
    cases h with
    | body hlen hchecked hcalls hd =>
      obtain ⟨ctx, hbody, hready⟩ :=
        (Eval.opens_call hs (Value.only_closure.1 hcallee) hargs hlen _).ready hd
      exact .expr hbody hready
  | cause hs hv =>
    cases h with
    | handler hm hd =>
      obtain ⟨hf, hmatch⟩ := Eval.mem_frames_of_findMatch? hm
      obtain ⟨ctx, hbody, hready⟩ := (Eval.opens_handler hs _ hf hv hmatch).ready hd
      exact .expr hbody hready

end Enters

end

/-! ### Names that are bound -/

namespace Eval

variable {ev : Evaluator} {s t : Machine} {st : Store}

/-- The store from the end of a step grows if what comes behind it lets it grow. -/
theorem grows_bind {x : Eval α} {f : α → Eval β} (h : st.Grows (x s).2.store)
    (hf : ∀ a t, x s = (.value a, t) → t.store.Grows (f a t).2.store) :
    st.Grows ((x >>= f) s).2.store := by
  simp only [Bind.bind, Eval.bind]
  cases hr : x s with
  | mk r t =>
    rw [hr] at h
    cases r with
    | value a => exact h.trans (hf a t hr)
    | _ => exact h

theorem store_located (span : Span) (x : Eval α) (s : Machine) :
    (located span x s).2.store = (x s).2.store := by
  simp only [located]
  cases x s with
  | mk r t => cases r <;> rfl

theorem store_lets (ds : List DeclId) (ev : Evaluator) (s : Machine) :
    ((do bindAllLets p ev ds; return .action : Eval Value) s).2.store =
      (bindAllLets p ev ds s).2.store := by
  simp only [Bind.bind, Eval.bind]
  cases bindAllLets p ev ds s with
  | mk r t => cases r <;> rfl

/-- Behind the value of a `let`, its name is still free. -/
theorem binding?_of_value {e : ExprId} {n : Name} {v : Value} (hspares : Spares (ev e))
    (hb : Balanced (ev e)) (hs : s.env.current.index < s.store.cells.size)
    (hfree : s.store.binding? s.env.current n = none) (hv : ev e s = (.value v, t)) :
    t.store.binding? t.env.current n = none := by
  have hkeeps := hspares s
  have henv := (hb s).env
  rw [hv] at hkeeps henv
  rw [henv]
  exact (hkeeps.binds hs).other n (by simp) hfree

theorem bindLet_of_value {d : DeclId} {n : Name} {isVariable : Bool} {type : Option TypeRefId}
    {e : ExprId} {v : Value} (hd : (p.arena.decl d).kind = .binding n isVariable type e)
    (hv : ev e s = (.value v, t))
    (hc : checkDeclared p type v (p.arena.decl d).span t = (.value (), t)) :
    bindLet p ev d s =
      (.value (), { t with store := t.store.define t.env.current n v isVariable }) := by
  simp only [bindLet, hd]
  rw [bind_of_value hv, bind_of_value hc]
  rfl

end Eval

/-- A store grows with new scopes, and with all that leaves the scopes as they are. -/
instance : Thread (fun s t : Machine => s.store.Grows t.store) where
  trans := Store.Grows.trans
  still hcells _ := (Store.keeps_of_cells hcells).grows
  scope parent hstore _ := hstore ▸ (Store.keeps_addScope parent).grows

section

variable (hord : p.arena.Ordered) (hhost : g.TrustsHost)

include hord hhost

/-- A moment that fits binds names that are not bound yet.  What is bound is there where a part
begins, or in the end. -/
theorem Moment.Fits.defines {m : Moment} (hm : m.Fits g) {t : Machine} {n : Name} {b : Binding}
    (h : m.Defines p t n b) : t.store.binding? t.env.current n = none ∧
      ((∃ k m', Enters p m k m' ∧
        (t.store.define t.env.current n b.value b.isVariable).Grows m'.machine.store) ∨
      (t.store.define t.env.current n b.value b.isVariable).Grows (m.result p).2.store) := by
  have hvalue : ∀ {fuel e s v t n}, s.env.current.index < s.store.cells.size →
      s.store.binding? s.env.current n = none → Eval.expr p fuel e s = (.value v, t) →
      t.store.binding? t.env.current n = none :=
    fun hcur hfree hv =>
      Eval.binding?_of_value (Eval.spares_expr _ _) (Eval.balanced_expr _ _) hcur hfree hv
  cases h with
  | @hoisted fuel id s body t n v hk hd =>
    have hstmts : ∀ s', Eval.bindAllHoisted p (Eval.declsOf body) s.inScope = (.value (), s') →
        Machine.Arrives g s' g.Holds (Moment.result p ⟨fuel, .stmts id .action body, s'⟩) :=
      fun s' hb => (Enters.fits hord hhost (.block hk hb) hm).arrives hord hhost
    cases hm with
    | expr h hs =>
      have hblock := (hk ▸ Resolve.Accepted.node (k := g.known) hord h).of_block
      obtain ⟨c₀, c₁, items, hbegins⟩ := Eval.begins_block hk hs hblock
      obtain ⟨hnone, hgrows⟩ := hbegins.prepared.fresh hd
      rw [← Eval.bindAllHoisted_eq] at hgrows
      -- an import can fail, and then no statement begins
      refine ⟨hnone, .inr ?_⟩
      simp only [Moment.result, Task.eval, Eval.expr, Eval.node, hk, Eval.store_located]
      exact Eval.grows_bind hgrows fun _ s' hb => (hstmts s' hb).grows
  | @value fuel b last st rest s d n isVariable type e t v hst hd hv hc =>
    cases hm with
    | stmts h hs hopen _ _ =>
      have hfree : s.store.binding? s.env.current n = none := by
        refine hopen.head n ?_
        simp [Resolve.Item.ofStmt, hst, Resolve.letNames, Resolve.letEntries,
          Resolve.Item.letBinding?, hd]
      have hstmt : Eval.stmts p (Eval.expr p fuel) last [st] s =
          (.value .action, { t with store := t.store.define t.env.current n v isVariable }) := by
        simp only [Eval.stmts, hst]
        exact Eval.bind_of_value (Eval.bindLet_of_value hd hv hc)
      exact ⟨hvalue hs.fits.current hfree hv,
        .inl ⟨_, _, .nextStmt (by simp [hst]) hstmt, .refl _⟩⟩
  | @moduleValue fuel d ds s n isVariable type e t v hd hv hc =>
    cases hm with
    | lets h hs hopen =>
      have hfree : s.store.binding? s.env.current n = none := by
        refine hopen.head n ?_
        simp [Resolve.letNames, Resolve.letEntries, Resolve.Item.letBinding?, hd]
      exact ⟨hvalue hs.fits.current hfree hv,
        .inl ⟨_, _, .nextLet (Eval.bindLet_of_value hd hv hc), .refl _⟩⟩
  | @arm fuel b v a rest s pattern body bs t n w ha hmatch hd =>
    obtain ⟨s', hs'⟩ := Eval.exists_defineAll bs s.inScope
    cases hm with
    | arms h hs hcapture hsubject =>
      have harm := h a List.mem_cons_self
      rw [ha] at harm
      cases harm with
      | is _ hunder =>
        obtain ⟨hnone, hgrows⟩ := (Eval.opens_isArm hs hunder
          (hcapture a List.mem_cons_self pattern body ha) (hsubject v rfl) hmatch).prepared.fresh hd
        rw [← Eval.defineAll_eq, hs'] at hgrows
        exact ⟨hnone, .inl ⟨_, _, .isMatch ha hmatch hs', hgrows⟩⟩
  | @param fuel c args span s calls t n v hlen hargs hcalls hd =>
    obtain ⟨s', hs'⟩ := Eval.exists_defineAll ((c.params.map fun q => q.name).zip args)
      (s.inCall c calls)
    cases hm with
    | call hs hcallee hvalues =>
      obtain ⟨hnone, hgrows⟩ :=
        (Eval.opens_call hs (Value.only_closure.1 hcallee) hvalues hlen calls).prepared.fresh hd
      rw [← Eval.defineAll_eq, hs'] at hgrows
      exact ⟨hnone, .inl ⟨_, _, .body hlen hargs hcalls hs', hgrows⟩⟩
  | @capture fuel identity type fields s outer f bs t n v hfound hd =>
    obtain ⟨s', hs'⟩ := Eval.exists_defineAll bs (s.inHandler f outer)
    cases hm with
    | cause hs hv =>
      obtain ⟨hf, hmatch⟩ := Eval.mem_frames_of_findMatch? hfound
      obtain ⟨hnone, hgrows⟩ := (Eval.opens_handler hs outer hf hv hmatch).prepared.fresh hd
      rw [← Eval.defineAll_eq, hs'] at hgrows
      exact ⟨hnone, .inl ⟨_, _, .handler hfound hs', hgrows⟩⟩

/-- The store grows with all that a moment does itself. -/
theorem Moment.Fits.owns {m : Moment} (hm : m.Fits g) :
    m.Owns (fun s t => s.store.Grows t.store) p where
  binds _ _ b hb := Store.grows_define (hm.defines hord hhost hb).1 b.value b.isVariable
  sets _ _ v _ _ howner := (Store.keeps_assign howner v).grows
  asks type signal _ := (Store.keeps_of_cells (Eval.quiet_unhandled type signal m.machine)).grows

/-! ### What comes behind a part -/

section

variable {m m' : Moment} {k : Option ActivityKind}

/-- What a moment leaves in the store is still there behind the moment from which it was entered. -/
theorem Enters.grows (h : Enters p m k m') (hm : m.Fits g) :
    (m'.result p).2.store.Grows (m.result p).2.store := by
  refine (Moment.woven (hm.owns hord hhost)).behind (fun a ha => ?_)
    (Moment.mem_parts_iff.2 ⟨k, h⟩)
  obtain ⟨_, ha⟩ := Moment.mem_parts_iff.1 ha
  exact ((ha.fits hord hhost hm).arrives hord hhost).grows

/-- What is in the store when a part begins is still there in the end. -/
theorem Enters.grows_machine (h : Enters p m k m') (hm : m.Fits g) :
    m'.machine.store.Grows (m.result p).2.store :=
  ((h.fits hord hhost hm).arrives hord hhost).grows.trans (h.grows hord hhost hm)

/-- **Where a moment fits, it binds names that are not bound yet**, and what is bound stays. -/
theorem Moment.Fits.fresh (hm : m.Fits g) {t : Machine} {n : Name} {b : Binding}
    (h : m.Defines p t n b) : t.store.binding? t.env.current n = none ∧
      (t.store.define t.env.current n b.value b.isVariable).Grows (m.result p).2.store := by
  obtain ⟨hnone, ⟨_, _, hs, hgrows⟩ | hgrows⟩ := hm.defines hord hhost h
  · exact ⟨hnone, hgrows.trans (hs.grows_machine hord hhost hm)⟩
  · exact ⟨hnone, hgrows⟩

end

/-! ### Runs -/

variable {root m : Moment} {π : List Activity}

/-- **All moments of a run fit if its first one does.** -/
theorem Reaches.fits (h : Reaches p root π m) (hroot : root.Fits g) : m.Fits g := by
  induction h with
  | root => exact hroot
  | step _ hs ih => exact hs.fits hord hhost ih
  | enter _ hs ih => exact hs.fits hord hhost ih

/-- What a part of a run leaves in the store is still there when the run ends. -/
theorem Reaches.grows (h : Reaches p root π m) (hroot : root.Fits g) :
    (m.result p).2.store.Grows (root.result p).2.store := by
  induction h with
  | root => exact .refl _
  | step h hs ih => exact (hs.grows hord hhost (h.fits hord hhost hroot)).trans ih
  | enter h hs ih => exact (hs.grows hord hhost (h.fits hord hhost hroot)).trans ih

end

end SignalLang
