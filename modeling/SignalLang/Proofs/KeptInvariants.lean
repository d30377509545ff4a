import SignalLang.Proofs.Invariants

/-!
# Evaluation keeps invariants

What is kept in the few ways in which evaluation changes a machine of its own, is kept by every
evaluation.

* `Eval.keeps_node`, `Eval.keeps_stmts` and so on : every construct keeps an invariant if its parts
  do, with one lemma for each function of the evaluator.
* `Invariant.Kept.ends`, `Invariant.Kept.at_of_reaches` : **if an invariant holds at the beginning
  of an evaluation and of all that the host gives, then it holds in the end, and at all moments that
  the evaluation comes to.**
-/

namespace SignalLang

variable {p : Program}

namespace Eval

open Invariant (Steady ends_value ends_interrupt)

variable {I : Invariant} [I.Steady] {ms : List Moment} {n : Nat} {s : Machine}

/-! ### Calls -/

theorem keeps_checkType (v : Value) (expected : Ty) :
    Keeps I p [] (fun _ _ => v.hasType p.types expected) (checkType p v expected) s := by
  unfold checkType
  split
  · exact keeps_pure ‹_›
  · exact keeps_fault rfl

theorem keeps_checkArguments (params : List Code.Param) (args : List Value) :
    Keeps I p [] (fun _ _ => True) (checkArguments p params args) s := by
  induction params generalizing args s with
  | nil => exact keeps_pure trivial
  | cons q params ih =>
    cases args with
    | nil => exact keeps_pure trivial
    | cons v args =>
      simp only [checkArguments]
      cases q.typeRef.bind p.types.resolved? with
      | none => exact ih args
      | some expected => exact (keeps_checkType v expected).bind_step fun _ _ _ _ _ => ih args

/-- The values of fields are the arguments, and of the declared types. -/
theorem keeps_fieldValues {fields : List FieldType} {args : List Value}
    (hlen : args.length = fields.length) (hargs : ∀ v ∈ args, I.value s.store v) :
    Keeps I p [] (fun t vs => (∀ x ∈ vs, I.value t x.2) ∧
        vs.map Prod.fst = fields.map (fun f => f.name) ∧
        ∀ x ∈ vs.zip fields, x.1.2.hasType p.types x.2.type)
      (fieldValues p fields args) s := by
  induction fields generalizing args s with
  | nil => exact keeps_pure (by simp)
  | cons f fields ih =>
    cases args with
    | nil => cases hlen
    | cons v args =>
      obtain ⟨hv, hargs⟩ := List.forall_mem_cons.1 hargs
      refine (keeps_checkType v f.type).bind_step fun _ u _ hu htype => ?_
      refine (ih (Nat.succ.inj hlen) fun w hw => Steady.value hu (hargs w hw)).bind_step
        fun vs t _ ht hvs => keeps_pure ?_
      obtain ⟨hall, hnames, htypes⟩ := hvs
      exact ⟨List.forall_mem_cons.2 ⟨Steady.value ht (Steady.value hu hv), hall⟩,
        by simp [hnames], List.forall_mem_cons.2 ⟨htype, htypes⟩⟩

theorem keeps_construct (hI : I.Kept p) {type : TypeId}
    (htype : I.value s.store (.constructor type)) {args : List Value}
    (hargs : ∀ v ∈ args, I.value s.store v) :
    Keeps I p [] I.value (construct p type args) s := by
  simp only [construct]
  split
  · exact keeps_fault rfl
  rename_i hlen
  refine (keeps_fieldValues (not_not.1 hlen) hargs).bind_step fun vs u _ hu hvs =>
    keeps_of fun hs => ?_
  have hcells := u.store.cells_addInstance (p.types.isSignal type) type vs
  have hv := hI.addInstance (Steady.value hu htype) hvs.1 hvs.2.1 hvs.2.2
  exact ⟨Steady.congr (Steady.refl hs) hcells rfl rfl rfl, Steady.of_cells hv hcells⟩

theorem keeps_callNative (hI : I.Kept p) (f : NativeFunction) (args : List Value) (span : Span)
    (hanswers : ∀ v, Moment.Answers p ⟨n, .call (.native f) args span, s⟩ v → I.value s.store v) :
    Keeps I p [] I.value (callNative p f args) s := by
  unfold callNative
  cases hres : f.call p.functions args with
  | ok v =>
    rcases NativeFunction.ok_of_call hres with hv | hv
    · exact keeps_pure (hI.result hv)
    · exact keeps_pure (hanswers v (.value hv))
  | error e =>
    rcases NativeFunction.error_of_call hres with ⟨problem, hproblem, rfl⟩ | he
    · exact keeps_fault hproblem.signal?
    · exact keeps_interrupt fun v hv => hanswers v (.error he hv)

theorem Keeps.activation {x : Eval Value} (hx : Keeps I p ms I.value x s) (frame : FrameId) :
    Keeps I p ms I.value (activation frame x) s := by
  intro hs hend
  obtain ⟨hms, hu, ho⟩ := hx hs hend
  refine ⟨hms, ?_⟩
  -- an interrupt that is caught here, or that gets the call stack attached, takes along what it did
  have hpop : I.step s { (x s).2 with calls := (x s).2.calls.pop } :=
    Steady.congr hu rfl rfl rfl rfl
  simp only [Eval.activation]
  cases hr : x s with
  | mk r u =>
    rw [hr] at ho hpop
    cases r with
    | value v => exact ⟨hpop, ho⟩
    | outOfFuel => exact ⟨hpop, trivial⟩
    | interrupt i =>
      cases i with
      | fault e =>
        refine ⟨hpop, fun v hv => ho v ?_⟩
        simp only [Interrupt.carried?, CallStack.problem_attach] at hv ⊢
        exact hv
      | breakTo target v => exact ⟨hpop, ho⟩
      | returnTo target v =>
        refine ⟨hpop, ?_⟩
        dsimp only
        split
        · exact ho v rfl
        · exact ho

theorem keeps_callClosure (hI : I.Kept p) {c : Closure} (hc : I.value s.store (.closure c))
    {args : List Value} (hargs : ∀ v ∈ args, I.value s.store v) (span : Span) :
    Keeps I p (Moment.callParts p n (.closure c) args span s) I.value
      (callClosure p (expr p n) c args span) s := by
  by_cases hlen : args.length = c.params.length
  case neg =>
    simp only [callClosure, Moment.callParts, if_pos hlen, if_neg hlen]
    exact keeps_fault rfl
  simp only [callClosure, Moment.callParts, if_pos hlen, if_neg (not_not_intro hlen)]
  refine (keeps_checkArguments c.params args).behind fun _ u hu _ _ => ?_
  obtain rfl : u = s := by rw [← checkArguments_snd (p := p) c.params args s, hu]
  cases hcalls : u.calls.push p.limits.callDepth ⟨callName p c, some span⟩ with
  | error problem =>
    refine keeps_of fun hs => ?_
    simp only [Bind.bind, Eval.bind, pushCall, hcalls]
    exact ends_interrupt hs (CallStack.signal?_of_push hcalls)
  | ok calls =>
    have hpush : pushCall p ⟨callName p c, some span⟩ u = (.value (), { u with calls }) := by
      simp only [pushCall, hcalls]
    have hsize : u.store.cells.size ≤ (u.inCall c calls).store.cells.size :=
      u.store.size_le_addScope _
    have hzip : ∀ b ∈ (c.params.map fun q => q.name).zip args,
        I.value (u.inCall c calls).store b.2 :=
      fun b hb => Steady.grow hsize (hargs _ (List.of_mem_zip hb).2)
    have hbody := (keeps_defineAll hI (s := u.inCall c calls) hzip).behind
      fun _ t _ _ _ => keeps_expr n c.body t
    have hcalled := hbody.inBody (s := { u with calls, activations := u.activations + 1 })
      fun hs => hI.inBody none _ hs hc
    refine Keeps.of_value hpush ?_ fun hs => Steady.congr (Steady.refl hs) rfl rfl rfl rfl
    exact (hcalled.activation (.ofSerial u.activations)).within
      (fun hs => Steady.machine (Steady.congr (Steady.refl hs) rfl rfl rfl rfl) hs)
      (Nat.le_refl _) rfl rfl rfl id id

theorem keeps_callValue (hI : I.Kept p) {callee : Value} (hcallee : I.value s.store callee)
    {args : List Value} (hargs : ∀ v ∈ args, I.value s.store v) (span : Span)
    (hanswers : ∀ v, Moment.Answers p ⟨n, .call callee args span, s⟩ v → I.value s.store v) :
    Keeps I p (Moment.callParts p n callee args span s) I.value
      (callValue p (expr p n) callee args span) s := by
  cases callee with
  | closure c => exact keeps_callClosure hI hcallee hargs span
  | native f => exact keeps_callNative hI f args span hanswers
  | constructor type => exact keeps_construct hI hcallee hargs
  | _ =>
    simp only [callValue]
    split
    · exact keeps_pure hcallee
    · exact keeps_fault rfl

/-! ### Causes -/

theorem keeps_resume (hI : I.Kept p) (type : TypeId) {v : Value} (hv : I.value s.store v) :
    Keeps I p [] I.value (resume p type v) s := by
  simp only [resume]
  split
  · exact keeps_pure hI.action
  · exact (keeps_checkType v _).bind_step fun _ _ _ hu _ => keeps_pure (Steady.value hu hv)

theorem keeps_unhandled (hI : I.Kept p) (type : TypeId) {signal : Value}
    (hsignal : I.value s.store signal)
    (hanswer : ∀ host v, p.host = some host → host.answer s.log.questions
      ⟨p.interner.text (p.types.get type).name, signal⟩ = some v → I.value s.store v) :
    Keeps I p [] I.value (unhandled p type signal) s := by
  have hproblem : ∀ u : Machine, I.value u.store signal → Keeps I p [] I.value
      (fault (.unhandledSignal (p.interner.text (p.types.get type).name) signal)) u :=
    fun u hu => keeps_interrupt fun v hv => by
      cases hv
      exact hu
  simp only [unhandled]
  cases hhost : p.host with
  | none => exact hproblem s hsignal
  | some host =>
    -- the question stays in the log
    have hask : Keeps I p [] (fun t answer => ∀ v ∈ answer, I.value t v)
        (askHost host ⟨p.interner.text (p.types.get type).name, signal⟩) s :=
      keeps_of fun hs => ⟨hI.ask host hs hsignal, fun v hv => hanswer host v hhost hv⟩
    refine hask.bind_step fun answer u _ hu hanswer => ?_
    cases answer with
    | some v =>
      refine (keeps_update rfl rfl rfl rfl).bind_step fun _ t _ ht _ => ?_
      exact keeps_resume hI type (Steady.value ht (hanswer v rfl))
    | none =>
      dsimp only
      split
      · refine (keeps_update rfl rfl rfl (Host.questions_debug _ _ _)).bind_step
          fun _ _ _ _ _ => ?_
        exact (keeps_update rfl rfl rfl rfl).bind_step fun _ _ _ _ _ => keeps_pure hI.action
      · exact hproblem u (Steady.value hu hsignal)

theorem keeps_runHandler (hI : I.Kept p) (outer : Nat) {f : HandlerFrame}
    (hf : f ∈ s.handlers.frames) {bs : Bindings} (hbs : ∀ b ∈ bs, I.value s.store b.2) :
    Keeps I p (Eval.behind (defineAll bs) (s.inHandler f outer) fun _ t =>
      [⟨n, .expr f.body, t⟩]) I.value (runHandler (expr p n) outer f bs) s := by
  have hsize : s.store.cells.size ≤ (s.inHandler f outer).store.cells.size :=
    s.store.size_le_addScope _
  have hbody := (keeps_defineAll hI (s := s.inHandler f outer)
    fun b hb => Steady.grow hsize (hbs b hb)).behind fun _ t _ _ _ => keeps_expr n f.body t
  -- the body runs with the handlers further out only, and then all are put back
  refine hbody.within (fun hs => hI.inHandler outer hs hf) hsize rfl rfl rfl (fun _ => rfl)
    fun hhandlers => ?_
  refine (congrArg (fun h => h.restore (s.handlers.splitOff outer).1) hhandlers).trans ?_
  exact s.handlers.restore_splitOff outer

theorem keeps_cause (hI : I.Kept p) {signal : Value} (hsignal : I.value s.store signal)
    (hanswers : ∀ v, Moment.Answers p ⟨n, .cause signal, s⟩ v → I.value s.store v) :
    Keeps I p (Moment.causeParts p n signal s) I.value (cause p (expr p n) signal) s := by
  cases signal with
  | signal identity type fields =>
    refine keeps_read ?_
    cases hm : s.handlers.findMatch? p.types (.signal identity type fields) with
    | none =>
      simp only [Moment.causeParts, hm]
      exact keeps_unhandled hI type hsignal fun host v hhost hv => hanswers v (.cause hm hhost hv)
    | some found =>
      obtain ⟨outer, f, bs⟩ := found
      simp only [Moment.causeParts, hm]
      obtain ⟨inner, rest, hframes, -, hmatch, -⟩ := HandlerStack.firstMatch?_eq_some_iff.1 hm
      have hf : f ∈ s.handlers.frames := by simp [hframes]
      have hbs := Invariant.value_of_matchPattern? hsignal hmatch
      exact (keeps_runHandler hI outer hf hbs).bind_step fun answer _ _ _ hv =>
        keeps_resume hI type hv
  | _ => exact keeps_fault rfl

/-! ### Declarations -/

theorem keeps_closure (hI : I.Kept p) (name : Option Name) (params : List Code.Param)
    (result : Option TypeRefId) (body : ExprId) :
    Keeps I p [] I.value (closure name params result body) s :=
  keeps_of fun hs => ⟨Steady.congr (Steady.refl hs) rfl rfl rfl rfl,
    Steady.of_cells (hI.closure hs rfl) rfl⟩

theorem keeps_typeValue (hI : I.Kept p) {d : DeclId} {x : Name} {fields : List Code.Field}
    {isSignal : Bool} (hd : (p.arena.decl d).kind = .object x fields ∧ isSignal = false ∨
      ∃ result, (p.arena.decl d).kind = .signal x fields result ∧ isSignal = true) :
    Keeps I p [] I.value (typeValue p d fields.isEmpty isSignal) s := by
  have hv := fun v => hI.typeValue (s := s) (t := s) (v := v) hd
  cases htype : p.types.declType? d with
  | none =>
    simp only [typeValue, htype]
    exact keeps_faultAt rfl _
  | some type =>
    simp only [typeValue, htype] at hv ⊢
    generalize fields.isEmpty = fieldless at hv ⊢
    cases fieldless <;> cases isSignal <;> exact keeps_pure (hv _ rfl)

theorem keeps_hoistSteps (hI : I.Kept p) (d : DeclId) {x : Name × Eval Value}
    (hx : x ∈ hoistSteps p d) : Keeps I p [] I.value x.2 s := by
  unfold hoistSteps at hx
  cases hk : (p.arena.decl d).kind with
  | imports path items =>
    simp only [hk, List.mem_map] at hx
    obtain ⟨item, -, rfl⟩ := hx
    simp only [imported]
    split
    · exact keeps_pure (hI.native _)
    · exact keeps_faultAt rfl _
  | function x params result body =>
    simp only [hk, List.mem_singleton] at hx
    cases hx
    exact keeps_closure hI _ _ _ _
  | object x fields =>
    simp only [hk, List.mem_singleton] at hx
    cases hx
    exact keeps_typeValue hI (.inl ⟨hk, rfl⟩)
  | signal x fields result =>
    simp only [hk, List.mem_singleton] at hx
    cases hx
    exact keeps_typeValue hI (.inr ⟨result, hk, rfl⟩)
  | _ => simp [hk] at hx

theorem keeps_bindAllHoisted (hI : I.Kept p) (ds : List DeclId) :
    Keeps I p [] (fun _ _ => True) (bindAllHoisted p ds) s := by
  rw [bindAllHoisted_eq]
  refine keeps_defineEach hI fun x hx s => ?_
  obtain ⟨d, -, hx⟩ := List.mem_flatMap.1 hx
  exact keeps_hoistSteps hI d hx

theorem keeps_checkDeclared (typeRef : Option TypeRefId) (v : Value) (span : Span) :
    Keeps I p [] (fun _ _ => True) (checkDeclared p typeRef v span) s := by
  unfold checkDeclared
  split
  · exact keeps_pure trivial
  · split
    · exact keeps_pure trivial
    · exact keeps_faultAt rfl _

theorem keeps_bindLet (hI : I.Kept p) {d : DeclId} (hms : ms = match (p.arena.decl d).kind with
      | .binding _ _ _ e => [⟨n, .expr e, s⟩]
      | _ => []) :
    Keeps I p ms (fun _ _ => True) (bindLet p (expr p n) d) s := by
  subst hms
  cases hd : (p.arena.decl d).kind with
  | binding x isVariable type e =>
    simp only [bindLet, hd]
    refine (keeps_expr n e s).bind_step fun v _ _ _ hv => ?_
    exact (keeps_checkDeclared _ _ _).bind_step fun _ _ _ hu _ =>
      keeps_define hI _ (Steady.value hu hv) _
  | _ =>
    simp only [bindLet, hd]
    exact keeps_pure trivial

theorem keeps_lets (hI : I.Kept p) (ds : List DeclId) :
    Keeps I p (Moment.letsParts p n s ds) I.value
      (bindAllLets p (expr p n) ds >>= fun _ => pure .action) s := by
  cases ds with
  | nil => exact keeps_pure hI.action
  | cons d ds =>
    simp only [bindAllLets, bind_assoc]
    exact (keeps_bindLet hI rfl).bind fun _ t _ _ _ =>
      keeps_part ⟨n, .lets ds, t⟩ (fun v hv => absurd hv List.not_mem_nil) rfl

/-! ### Blocks, branches and loops -/

theorem keeps_set (hI : I.Kept p) (target : Name) {v : Value} (hv : I.value s.store v)
    (span : Span) : Keeps I p [] (fun _ _ => True) (set p target v span) s := by
  refine keeps_of fun hs => ?_
  unfold set
  cases ho : s.store.owner s.env.current target with
  | ok found => exact ⟨hI.assign hs hv ho, trivial⟩
  | error e => exact ends_interrupt hs (by cases e <;> rfl)

theorem keeps_stmt (hI : I.Kept p) {last : Value} {st : Code.Stmt}
    (hst : ∀ pattern body, st.kind ≠ .effect pattern body) :
    Keeps I p ((st.operand? p.arena).toList.map fun e => ⟨n, .expr e, s⟩) I.value
      (stmts p (expr p n) last [st]) s := by
  cases hk : st.kind with
  | expr e =>
    simp only [stmts, hk, Code.Stmt.operand?]
    exact (keeps_expr n e s).bind_step fun v _ _ _ hv => keeps_pure hv
  | decl d =>
    simp only [stmts, hk]
    refine (keeps_bindLet hI ?_).bind_step fun _ _ _ _ _ => keeps_pure hI.action
    simp only [Code.Stmt.operand?, hk]
    cases (p.arena.decl d).kind <;> rfl
  | effect pattern body => exact absurd hk (hst pattern body)
  | set target value =>
    simp only [stmts, hk, Code.Stmt.operand?]
    refine (keeps_expr n value s).bind_step fun v _ _ _ hv => ?_
    exact (keeps_set hI target hv _).bind_step fun _ _ _ _ _ => keeps_pure hI.action

theorem keeps_stmts (hI : I.Kept p) (b : ExprId) {last : Value} (hlast : I.value s.store last)
    (rest : List Code.Stmt) :
    Keeps I p (Moment.stmtsParts p n b last s rest) I.value (stmts p (expr p n) last rest) s := by
  cases rest with
  | nil => exact keeps_pure hlast
  | cons st rest =>
    by_cases hst : ∀ pattern body, st.kind ≠ .effect pattern body
    · rw [stmts_cons hst, Moment.stmtsParts_of_ne hst]
      exact (keeps_stmt hI hst).bind fun v t _ _ hv =>
        keeps_part ⟨n, .stmts b v rest, t⟩ (List.forall_mem_singleton.2 hv) rfl
    · push Not at hst
      obtain ⟨pattern, body, hk⟩ := hst
      simp only [stmts, Moment.stmtsParts, hk]
      -- the handler is gone in the end
      have hrest : Keeps I p _ I.value (stmts p (expr p n) .action rest) _ :=
        keeps_part ⟨n, .stmts b .action rest, s.install (s.handlerFrame pattern body)⟩
          (List.forall_mem_singleton.2 hI.action) rfl
      exact hrest.within (hI.install pattern body) (Nat.le_refl _) rfl rfl rfl id
        fun hhandlers => congrArg HandlerStack.pop hhandlers

theorem keeps_arms (hI : I.Kept p) (b : ExprId) {subject : Option Value}
    (hsubject : ∀ v ∈ subject, I.value s.store v) (rest : List Code.Arm) :
    Keeps I p (Moment.armsParts p n b subject s rest) I.value (arms p (expr p n) subject rest)
      s := by
  have hvalues : ∀ v ∈ (Task.arms b subject rest).values, I.value s.store v := fun v hv =>
    hsubject v (Option.mem_toList.1 hv)
  cases rest with
  | nil => exact keeps_pure hI.action
  | cons arm rest =>
    cases ha : arm.kind with
    | when c body =>
      simp only [arms, Moment.armsParts, ha]
      refine (keeps_expr n c s).bind fun v t _ ht _ => ?_
      cases hb : v.bool? with
      | none =>
        simp only [condition, hb]
        exact keeps_of fun hs => ends_interrupt hs rfl
      | some answer =>
        simp only [condition, hb]
        cases answer with
        | true => exact keeps_expr n body t
        | false =>
          exact keeps_part ⟨n, .arms b subject rest, t⟩
            (fun v hv => Steady.value ht (hvalues v hv)) rfl
    | is pattern body =>
      cases subject with
      | none =>
        simp only [arms, Moment.armsParts, ha]
        exact keeps_faultAt rfl _
      | some v =>
        cases hm : v.matchPattern? pattern p.types with
        | none =>
          simp only [arms, Moment.armsParts, ha, hm]
          exact keeps_part ⟨n, .arms b (some v) rest, s⟩ hvalues rfl
        | some bs =>
          simp only [arms, Moment.armsParts, ha, hm]
          have hsize : s.store.cells.size ≤ s.inScope.store.cells.size :=
            s.store.size_le_addScope _
          have hbs := Invariant.value_of_matchPattern? (hsubject v rfl) hm
          exact ((keeps_defineAll hI fun b hb => Steady.grow hsize (hbs b hb)).behind
            fun _ t _ _ _ => keeps_expr n body t).inScope hI
    | otherwise body =>
      simp only [arms, Moment.armsParts, ha]
      exact keeps_expr n body s

theorem keeps_rounds (frame : FrameId) (body : ExprId) (fuel done ticks : Nat) (s : Machine) :
    Keeps I p (roundParts p n body fuel done ticks s) I.value
      (rounds p (expr p n) frame body fuel done ticks) s := by
  induction fuel generalizing done ticks s with
  | zero => exact keeps_outOfFuel
  | succ fuel ih =>
    intro hs hend
    by_cases hgo : goesOn p s done ticks
    · simp only [roundParts, if_pos hgo, Eval.behind] at hend ⊢
      simp only [goesOn] at hgo
      simp only [rounds, if_neg hgo]
      obtain ⟨hm, hu, ho⟩ := keeps_expr n body s hs fun m hm =>
        hend m (List.mem_cons.2 (.inl (List.mem_singleton.1 hm)))
      cases hv : expr p n body s with
      | mk r u =>
        rw [hv] at ho hu hend
        cases r with
        | value v =>
          obtain ⟨hms, hrest⟩ := ih _ _ u (Steady.machine hu hs) fun m hm =>
            hend m (List.mem_cons_of_mem _ hm)
          exact ⟨List.forall_mem_append.2 ⟨hm, hms⟩, Steady.trans hu hrest.step, hrest.outcome⟩
        | outOfFuel => exact ⟨hm, hu, trivial⟩
        | interrupt i =>
          cases i with
          | breakTo target v =>
            refine ⟨hm, hu, ?_⟩
            dsimp only
            split
            · exact ho v rfl
            · exact ho
          | _ => exact ⟨hm, hu, ho⟩
    · simp only [roundParts, if_neg hgo]
      rw [goesOn, not_not] at hgo
      simp only [rounds, if_pos hgo]
      exact ⟨by simp, ends_interrupt hs rfl⟩

/-! ### Expressions -/

theorem keeps_arguments (es : List ExprId) (s : Machine) :
    Keeps I p (operandParts p n es s) (fun t vs => ∀ v ∈ vs, I.value t v)
      (arguments (expr p n) es) s := by
  induction es generalizing s with
  | nil => exact keeps_pure (by simp)
  | cons e es ih =>
    refine (keeps_expr n e s).bind fun v t _ _ hv => ?_
    refine (ih t).bind_step fun vs _ _ hu hvs => keeps_pure ?_
    exact List.forall_mem_cons.2 ⟨Steady.value hu hv, hvs⟩

theorem keeps_ident (hI : I.Kept p) (x : Name) : Keeps I p [] I.value (ident p x) s := by
  refine keeps_of fun hs => ?_
  unfold ident
  split
  · rename_i v hv
    exact ends_value hs (hI.lookup hs hv)
  · exact ends_interrupt hs rfl

theorem keeps_member (hI : I.Kept p) {receiver : Value} (hreceiver : I.value s.store receiver)
    (field : Name) : Keeps I p [] I.value (member p receiver field) s := by
  unfold member
  split
  · rename_i v hv
    exact keeps_pure (hI.field hreceiver hv)
  · exact keeps_fault rfl

theorem keeps_leaveFunction {v : Value} (hv : I.value s.store v) :
    Keeps I p [] I.value (leaveFunction v) s := by
  refine keeps_read ?_
  split
  · exact keeps_interrupt (by simpa [Interrupt.carried?] using hv)
  · exact keeps_fault rfl

theorem keeps_leaveLoop {v : Value} (hv : I.value s.store v) :
    Keeps I p [] I.value (leaveLoop v) s := by
  refine keeps_read ?_
  split
  · exact keeps_interrupt (by simpa [Interrupt.carried?] using hv)
  · exact keeps_fault rfl

/-- What an expression does behind its operands. -/
theorem keeps_mainStep (hI : I.Kept p) (id : ExprId) {vs : List Value} {t : Machine}
    (hvs : arguments (expr p n) (p.arena.expr id).kind.operands s = (.value vs, t))
    (hall : ∀ v ∈ vs, I.value t.store v) :
    Keeps I p (mainParts p n id vs t) I.value (mainStep p (expr p n) n id vs) t := by
  simp only [mainStep, mainParts]
  cases hk : (p.arena.expr id).kind with
  | group inner => exact keeps_pure (hI.headD hall)
  | function params result body => exact keeps_closure hI _ _ _ _
  | string text => exact keeps_pure (hI.string _)
  | number x => exact keeps_pure (hI.number x)
  | ident x => exact keeps_ident hI x
  | ret value => exact keeps_leaveFunction (hI.headD hall)
  | brk value => exact keeps_leaveLoop (hI.headD hall)
  | member receiver field => exact (keeps_member hI (hI.headD hall) field).located _
  | block body =>
    exact ((keeps_bindAllHoisted hI _).behind fun _ u _ _ _ =>
      keeps_part ⟨n, .stmts id .action body, u⟩ (List.forall_mem_singleton.2 hI.action)
        rfl).inScope hI
  | branch subject options =>
    exact keeps_part ⟨n, .arms id vs.head? options, t⟩
      (fun v hv => hall v (List.mem_of_mem_head? (Option.mem_toList.1 hv))) rfl
  | loop body =>
    exact (keeps_rounds (.ofSerial t.activations) body n 0 t.hostTicks t.inLoop).within
      (fun hs => Steady.machine (Steady.congr (Steady.refl hs) rfl rfl rfl rfl) hs)
      (Nat.le_refl _) rfl rfl rfl (fun henv => henv) fun hhandlers => hhandlers
  | cause payload =>
    rw [hk] at hvs
    obtain ⟨v, _, _, -, hnil, rfl⟩ := arguments_cons_eq_value_iff.1 hvs
    cases hnil
    exact (keeps_part ⟨n, .cause v, t⟩ hall rfl).located _
  | call callee args =>
    rw [hk] at hvs
    obtain ⟨f, _, args, -, -, rfl⟩ := arguments_cons_eq_value_iff.1 hvs
    exact (keeps_part ⟨n, .call f args _, t⟩ hall rfl).located _
  | pipe subject callee args =>
    rw [hk] at hvs
    obtain ⟨v, _, _, -, hws, rfl⟩ := arguments_cons_eq_value_iff.1 hvs
    obtain ⟨f, _, args, -, -, rfl⟩ := arguments_cons_eq_value_iff.1 hws
    -- the subject is the first argument, behind what is called
    refine (keeps_part ⟨n, .call f (v :: args) _, t⟩ (fun w hw => hall w ?_) rfl).located _
    exact (List.Perm.swap v f args).mem_iff.1 hw

/-- An expression evaluates its operands, and then what is its own. -/
theorem keeps_node (hI : I.Kept p) (id : ExprId) :
    Keeps I p (Moment.exprParts p id s (n + 1)) I.value (node p (expr p n) n id) s := by
  have hparts : Keeps I p (Moment.exprParts p id s (n + 1)) I.value
      (arguments (expr p n) (p.arena.expr id).kind.operands >>= mainStep p (expr p n) n id) s :=
    (keeps_arguments _ s).bind fun vs t hvs _ hall => keeps_mainStep hI id hvs hall
  rw [node_eq]
  exact hparts.locatedWhole id

end Eval

/-! ### Evaluations -/

/-- All that the host and its functions give in an evaluation meets the invariant. -/
def Moment.AnsweredBy (I : Invariant) (p : Program) (m : Moment) : Prop :=
  ∀ π x v, Reaches p m π x → x.Answers p v → I.value x.machine.store v

theorem Moment.AnsweredBy.of_enters {I : Invariant} {m m' : Moment} {k : Option ActivityKind}
    (h : m.AnsweredBy I p) (hs : Enters p m k m') : m'.AnsweredBy I p := by
  intro π x v hx
  obtain ⟨ρ, hx⟩ := hx.head hs
  exact h ρ x v hx

namespace Invariant.Kept

variable {I : Invariant} [I.Steady] {m m' : Moment}

/-- Where the invariant holds, an evaluation begins its parts that way, and ends that way if these
do. -/
theorem keeps (hI : I.Kept p) (h : I.At m)
    (hanswers : ∀ v, m.Answers p v → I.value m.machine.store v) :
    Eval.Keeps I p (m.parts p) I.value (m.task.eval p (Eval.expr p m.fuel)) m.machine := by
  obtain ⟨n, task, s⟩ := m
  cases task with
  | expr id =>
    cases n with
    | zero => exact Eval.keeps_outOfFuel
    | succ n => exact Eval.keeps_node hI id
  | stmts block last rest =>
    exact Eval.keeps_stmts hI block (h.values last (List.mem_singleton_self _)) rest
  | arms branch subject rest =>
    exact Eval.keeps_arms hI branch (fun v hv => h.values v (Option.mem_toList.2 hv)) rest
  | lets ds => exact Eval.keeps_lets hI ds
  | call callee args span =>
    obtain ⟨hcallee, hargs⟩ := List.forall_mem_cons.1 h.values
    exact Eval.keeps_callValue hI hcallee hargs span hanswers
  | cause signal => exact Eval.keeps_cause hI (h.values signal (List.mem_singleton_self _)) hanswers

/-- **An evaluation keeps the invariant.** -/
theorem ends (hI : I.Kept p) (h : I.At m) (hanswers : m.AnsweredBy I p) :
    I.Ends m.machine I.value (m.result p) := by
  induction m using Moment.part_induction with
  | h m ih =>
    refine (hI.keeps h (fun v => hanswers [] m v .root) h.machine fun x hx hat => ?_).2
    obtain ⟨k, hs⟩ := Moment.mem_parts_iff.1 hx
    exact ih k x hs hat (hanswers.of_enters hs)

theorem at_of_enters (hI : I.Kept p) (h : I.At m) (hanswers : m.AnsweredBy I p)
    {k : Option ActivityKind} (hs : Enters p m k m') : I.At m' := by
  refine (hI.keeps h (fun v => hanswers [] m v .root) h.machine fun x hx hat => ?_).1 m'
    (Moment.mem_parts_iff.2 ⟨k, hs⟩)
  obtain ⟨k, hs⟩ := Moment.mem_parts_iff.1 hx
  exact hI.ends hat (hanswers.of_enters hs)

/-- **The invariant holds at all moments that an evaluation comes to.** -/
theorem at_of_reaches (hI : I.Kept p) (h : I.At m) (hanswers : m.AnsweredBy I p)
    {π : List Activity} (hr : Reaches p m π m') : I.At m' ∧ m'.AnsweredBy I p := by
  induction hr with
  | root => exact ⟨h, hanswers⟩
  | step _ hs ih => exact ⟨hI.at_of_enters ih.1 ih.2 hs, ih.2.of_enters hs⟩
  | enter _ hs ih => exact ⟨hI.at_of_enters ih.1 ih.2 hs, ih.2.of_enters hs⟩

end Invariant.Kept

end SignalLang
