import SignalLang.Proofs.Mirroring
import SignalLang.Proofs.WellFormedness

/-!
# Runs that mirror each other

Every construct of the language does the same with renamed values, if its parts do.  The numbering
of types and identities could only be noticed by looking at it, and nothing does: types are found by
name or reference, values are compared with each other, and texts come from the table.

* `Eval.mirrors_node` : every construct, given its parts.
* `Eval.mirrors_expr` : **evaluation does not depend on the numbering**, by induction on the fuel.
* `Interpreter.Mirrors.call` : the same of calling a function.
-/

namespace SignalLang

variable {r : Renaming}

/-! ### What programs read -/

theorem Renaming.Retypes.bind {t t' : TypeTable} (h : r.Retypes t t') (ref : Option TypeRefId) :
    Option.Rel (Ty.Alike r.Places) (ref.bind t.resolved?) (ref.bind t'.resolved?) := by
  cases ref with
  | none => exact .none
  | some ref => exact h.refs ref

theorem Value.renameFields_zip (r : Renaming) (names : List Name) (args : List Value) :
    renameFields r (names.zip args) = names.zip (args.map (rename r)) := by
  rw [renameFields_eq_map, List.zip_map_right]
  rfl

/-- The same handler matches the renamed signal, and its pattern binds the renamed values. -/
theorem HandlerStack.findMatch?_rename {t t' : TypeTable} (h : r.Retypes t t') (stack : HandlerStack)
    (signal : Value) : stack.findMatch? t' (signal.rename r) =
      (stack.findMatch? t signal).map fun (outer, f, bs) => (outer, f, Value.renameFields r bs) := by
  unfold findMatch?
  induction stack.frames with
  | nil => rfl
  | cons f frames ih =>
    simp only [firstMatch?, Value.matchPattern?_rename h]
    cases signal.matchPattern? f.pattern t with
    | none => exact ih
    | some bs => rfl

namespace Eval

variable {p p' : Program} (hp : p.Mirrors r p')

/-! ### Checks -/

section

include hp

theorem mirrors_checkType (v : Value) {ty ty' : Ty} (hty : ty.Alike r.Places ty') :
    Mirrors r (checkType p v ty) (checkType p' (v.rename r) ty') Eq := by
  simp only [checkType, Value.hasType_rename hp.types v hty, Value.typeName_rename hp.types,
    hp.interner, hp.types.display _ hty]
  split
  · exact mirrors_pure rfl
  · exact mirrors_fault rfl

theorem mirrors_checkArguments (params : List Code.Param) (args : List Value) :
    Mirrors r (checkArguments p params args) (checkArguments p' params (args.map (Value.rename r)))
      Eq := by
  induction params generalizing args with
  | nil => exact mirrors_pure rfl
  | cons q params ih =>
    cases args with
    | nil => exact mirrors_pure rfl
    | cons v args =>
      have hrefs := hp.types.bind q.typeRef
      simp only [List.map_cons, checkArguments]
      generalize q.typeRef.bind p.types.resolved? = ty,
        q.typeRef.bind p'.types.resolved? = ty' at hrefs
      cases hrefs with
      | none => exact (mirrors_pure rfl).andThen (ih args)
      | some hty => exact (mirrors_checkType hp v hty).andThen (ih args)

theorem mirrors_checkDeclared (typeRef : Option TypeRefId) (v : Value) (span : Span) :
    Mirrors r (checkDeclared p typeRef v span) (checkDeclared p' typeRef (v.rename r) span) Eq := by
  have hrefs := hp.types.bind typeRef
  unfold checkDeclared
  generalize typeRef.bind p.types.resolved? = ty, typeRef.bind p'.types.resolved? = ty' at hrefs
  cases hrefs with
  | none => exact mirrors_pure rfl
  | some hty =>
    simp only [Value.hasType_rename hp.types v hty, Value.typeName_rename hp.types, hp.interner,
      hp.types.display _ hty]
    split
    · exact mirrors_pure rfl
    · exact mirrors_faultAt span rfl

theorem mirrors_fieldValues {fields fields' : List FieldType} {args : List Value}
    (h : List.Forall₂ (FieldType.Alike r.Places) fields fields') :
    Mirrors r (fieldValues p fields args) (fieldValues p' fields' (args.map (Value.rename r)))
      fun vs vs' => vs' = Value.renameFields r vs := by
  induction h generalizing args with
  | nil => exact mirrors_pure rfl
  | @cons f f' fields fields' hf _ ih =>
    cases args with
    | nil => exact mirrors_pure rfl
    | cons v args =>
      refine (mirrors_checkType hp v hf.2).andThen (ih.bind ?_)
      rintro vs _ rfl
      exact mirrors_pure (congrArg (fun n => (n, v.rename r) :: Value.renameFields r vs) hf.1.symm)

theorem mirrors_condition (v : Value) :
    Mirrors r (condition p v) (condition p' (v.rename r)) Eq := by
  simp only [condition, v.bool?_rename, Value.typeName_rename hp.types, hp.interner]
  cases v.bool? with
  | some b => exact mirrors_pure rfl
  | none => exact mirrors_fault rfl

theorem mirrors_member (receiver : Value) (field : Name) :
    Mirrors r (member p receiver field) (member p' (receiver.rename r) field) (Renamed r) := by
  simp only [member, receiver.field?_rename, Value.typeName_rename hp.types, hp.interner]
  cases receiver.field? field with
  | some v => exact mirrors_pure rfl
  | none => exact mirrors_fault rfl

theorem mirrors_ident (n : Name) : Mirrors r (ident p n) (ident p' n) (Renamed r) := by
  intro s s' hs
  simp only [ident, Environment.lookup?, hs.env, hs.store.lookup?, hp.interner]
  cases s.store.lookup? s.env.current n with
  | some v => exact ⟨.value rfl, hs⟩
  | none => exact ⟨.interrupt (.fault (.new (.unboundName _))), hs⟩

theorem mirrors_set (target : Name) (v : Value) (span : Span) :
    Mirrors r (set p target v span) (set p' target (v.rename r) span) Eq := by
  intro s s' hs
  simp only [set, hs.env, hs.store.owner, hp.interner]
  cases s.store.owner s.env.current target with
  | ok found =>
    refine ⟨.value rfl, ?_⟩
    exact { hs with store := hs.store.define found target v true, env := rfl }
  | error e =>
    refine ⟨?_, hs⟩
    cases e
    · exact .interrupt (.fault (.newAt (.immutableBinding _) span))
    · exact .interrupt (.fault (.newAt (.unboundName _) span))

end

/-! ### Calls -/

include hp

theorem mirrors_callNative (f : NativeFunction) (args : List Value) :
    Mirrors r (callNative p f args) (callNative p' f (args.map (Value.rename r))) (Renamed r) := by
  simp only [callNative, f.call_rename hp.functions]
  cases f.call p.functions args with
  | ok v => exact mirrors_pure rfl
  | error e => exact mirrors_interrupt (.fault e)

theorem mirrors_pushCall (f : CallFrame) : Mirrors r (pushCall p f) (pushCall p' f) Eq := by
  intro s s' hs
  simp only [pushCall, hs.calls, hp.limits]
  cases hcalls : s.calls.push p.limits.callDepth f with
  | ok calls => exact ⟨.value rfl, { hs with calls := rfl }⟩
  | error problem =>
    exact mirrors_fault (problem.rename_of_signal? r (CallStack.signal?_of_push hcalls)) s s' hs

theorem mirrors_construct (type : TypeId) (args : List Value) :
    Mirrors r (construct p type args) (construct p' (r.type type) (args.map (Value.rename r)))
      (Renamed r) := by
  simp only [construct, List.length_map, hp.types.length_fields, hp.types.names, hp.interner]
  split
  · exact mirrors_fault rfl
  · refine (mirrors_fieldValues hp (hp.types.fields type)).bind ?_
    rintro values _ rfl s s' hs
    have hsignal : p'.types.isSignal (r.type type) = p.types.isSignal type :=
      hp.types.paired.isSignal_eq (r.places_self type)
    obtain ⟨hv, hstore⟩ := hs.store.addInstance (p.types.isSignal type) type values
    simp only [hsignal, hv]
    exact ⟨.value rfl, { hs with store := hstore }⟩

theorem mirrors_resume (type : TypeId) (v : Value) :
    Mirrors r (resume p type v) (resume p' (r.type type) (v.rename r)) (Renamed r) := by
  have hresult := hp.types.paired.signalResult (r.places_self type)
  simp only [resume, r.alike_action_iff hresult]
  split
  · exact mirrors_pure rfl
  · exact (mirrors_checkType hp v hresult).andThen (mirrors_pure rfl)

omit hp in
/-- The host is asked about the renamed signal, and gives the renamed answer. -/
theorem mirrors_askHost {h h' : Host} (hh : h.Mirrors r h') (q : Question) :
    Mirrors r (askHost h q) (askHost h' (q.rename r)) fun v v' => v' = v.map (Value.rename r) := by
  intro s s' hs
  have hlog := hs.log
  simp only [askHost, Host.ask]
  refine ⟨.value ?_, { hs with log := ?_ }⟩
  · rw [hlog]
    exact hh.answer s.log.questions q
  · rw [hlog]
    rfl

omit hp in
theorem mirrors_tick : Mirrors r tick tick Eq :=
  mirrors_update fun _ _ hs => { hs with hostTicks := congrArg (· + 1) hs.hostTicks }

theorem debugLine_rename (signal : Value) : debugLine p' (signal.rename r) = debugLine p signal := by
  simp only [debugLine, debugField, hp.interner, signal.field?_rename, Option.map_map]
  cases signal.field? (p.interner.intern "value").1 with
  | none => rfl
  | some v => exact congrArg (fun s => (some s).getD "") (Value.display_rename hp.types _ v)

theorem mirrors_unhandled (type : TypeId) (signal : Value) :
    Mirrors r (unhandled p type signal) (unhandled p' (r.type type) (signal.rename r))
      (Renamed r) := by
  have hhost := hp.host
  simp only [unhandled, hp.types.names, hp.interner, debugLine_rename hp,
    r.type_eq_iff (show TypeId.debug.index ≤ _ by decide)]
  generalize p.host = host, p'.host = host' at hhost
  cases hhost with
  | none => exact mirrors_interrupt (.fault (.new (.unhandledSignal _ signal)))
  | @some h h' hh =>
    refine (mirrors_askHost hh ⟨_, signal⟩).bind ?_
    rintro answer _ rfl
    cases answer with
    | some v => exact mirrors_tick.andThen (mirrors_resume hp type v)
    | none =>
      dsimp only [Option.map_none]
      split
      · refine Mirrors.andThen (mirrors_update fun s s' hs => { hs with log := ?_ })
          (mirrors_tick.andThen (mirrors_pure rfl))
        simp only [Host.debug, hh.keepsLines, hs.log]
        split <;> rfl
      · exact mirrors_interrupt (.fault (.new (.unhandledSignal _ signal)))

/-! ### Declarations -/

theorem mirrors_bindImport (path : String) (items : List Code.ImportItem) :
    Mirrors r (bindImport p path items) (bindImport p' path items) Eq := by
  induction items with
  | nil => exact mirrors_pure rfl
  | cons item items ih =>
    simp only [bindImport, hp.interner]
    cases Native.find? path (p.interner.text item.name) with
    | some n => exact (mirrors_define item.localName (.native n) false).andThen ih
    | none => exact (mirrors_faultAt (A := Eq) item.span rfl).andThen ih

omit hp in
theorem mirrors_closure (name : Option Name) (params : List Code.Param) (result : Option TypeRefId)
    (body : ExprId) :
    Mirrors r (closure name params result body) (closure name params result body) (Renamed r) := by
  intro s s' hs
  obtain ⟨hv, hstore⟩ := hs.store.addClosure name params result body s.env.current
  simp only [closure, hs.env, hv]
  exact ⟨.value rfl, { hs with store := hstore, env := rfl }⟩

theorem mirrors_typeValue (d : DeclId) (fieldless isSignal : Bool) :
    Mirrors r (typeValue p d fieldless isSignal) (typeValue p' d fieldless isSignal)
      (Renamed r) := by
  simp only [typeValue, hp.types.declTypes, hp.arena]
  cases p.types.declType? d with
  | none => exact mirrors_faultAt _ rfl
  | some type => cases fieldless <;> cases isSignal <;> exact mirrors_pure rfl

omit hp in
/-- A value is bound that a step gives. -/
theorem Mirrors.define {x x' : Eval Value} (h : Mirrors r x x' (Renamed r)) (n : Name)
    (isVariable : Bool) :
    Mirrors r (x >>= fun v => define n v isVariable) (x' >>= fun v => define n v isVariable) Eq := by
  refine h.bind ?_
  rintro v _ rfl
  exact mirrors_define n v isVariable

theorem mirrors_bindHoisted (d : DeclId) : Mirrors r (bindHoisted p d) (bindHoisted p' d) Eq := by
  simp only [bindHoisted, hp.arena]
  cases (p.arena.decl d).kind with
  | imports path items => exact mirrors_bindImport hp path items
  | function n params result body => exact (mirrors_closure _ params result body).define n false
  | object n fields => exact (mirrors_typeValue hp d _ false).define n false
  | signal n fields _ => exact (mirrors_typeValue hp d _ true).define n false
  | option => exact mirrors_pure rfl
  | binding => exact mirrors_faultAt _ rfl

theorem mirrors_bindAllHoisted (ds : List DeclId) :
    Mirrors r (bindAllHoisted p ds) (bindAllHoisted p' ds) Eq := by
  induction ds with
  | nil => exact mirrors_pure rfl
  | cons d ds ih =>
    simp only [bindAllHoisted, hp.arena]
    split
    · exact (mirrors_bindHoisted hp d).andThen ih
    · exact ih

/-! ### Constructs -/

variable {ev ev' : Evaluator} (hev : ∀ id, Mirrors r (ev id) (ev' id) (Renamed r))

include hev

theorem mirrors_callClosure (c : Closure) (args : List Value) (span : Span) :
    Mirrors r (callClosure p ev c args span)
      (callClosure p' ev' { c with identity := r.identity c.identity }
        (args.map (Value.rename r)) span) (Renamed r) := by
  simp only [callClosure, callName, List.length_map, hp.interner]
  split
  · exact mirrors_fault rfl
  · refine (mirrors_checkArguments hp c.params args).andThen
      ((mirrors_pushCall hp _).andThen (mirrors_freshFrame.bind ?_))
    rintro frame _ rfl
    refine (mirrors_childEnvironment c.captured).bind ?_
    rintro env _ rfl
    rw [← Value.renameFields_zip]
    exact (((mirrors_defineAll _).andThen (hev c.body)).inContext env none (some frame)).activation
      frame

omit hev in
/-- What is neither a closure nor a native function nor a constructor. -/
theorem mirrors_uncallable (v : Value) (args : List Value) :
    Mirrors r
      (if v.fields?.any (·.isEmpty) && args.isEmpty then pure v
        else fault (.notCallable (v.typeName p.types p.interner)))
      (if (v.rename r).fields?.any (·.isEmpty) && (args.map (Value.rename r)).isEmpty
        then pure (v.rename r)
        else fault (.notCallable ((v.rename r).typeName p'.types p'.interner))) (Renamed r) := by
  have hempty : (v.rename r).fields?.any (·.isEmpty) = v.fields?.any (·.isEmpty) := by
    rw [v.fields?_rename]
    cases v.fields? with
    | none => rfl
    | some fields => exact Value.isEmpty_renameFields r fields
  simp only [hempty, List.isEmpty_map, Value.typeName_rename hp.types, hp.interner]
  split
  · exact mirrors_pure rfl
  · exact mirrors_fault rfl

theorem mirrors_callValue (callee : Value) (args : List Value) (span : Span) :
    Mirrors r (callValue p ev callee args span)
      (callValue p' ev' (callee.rename r) (args.map (Value.rename r)) span) (Renamed r) := by
  cases callee with
  | closure c => exact mirrors_callClosure hp hev c args span
  | native f => exact mirrors_callNative hp f args
  | constructor type => exact mirrors_construct hp type args
  | _ => exact mirrors_uncallable hp _ args

omit hp in
theorem mirrors_runHandler (outer : Nat) (f : HandlerFrame) (bs : Bindings) :
    Mirrors r (runHandler ev outer f bs) (runHandler ev' outer f (Value.renameFields r bs))
      (Renamed r) := by
  refine Mirrors.withOuterHandlers ((mirrors_childEnvironment f.scope).bind ?_) outer
  rintro env _ rfl
  exact ((mirrors_defineAll bs).andThen (hev f.body)).inContext env _ _

theorem mirrors_cause (v : Value) :
    Mirrors r (cause p ev v) (cause p' ev' (v.rename r)) (Renamed r) := by
  have hname := Value.typeName_rename hp.types p.interner v
  cases v with
  | signal i type fields =>
    refine Mirrors.bind (mirrors_read fun s s' hs => ?_) ?_
      (A := fun found found' => found' =
        found.map fun (outer, f, bs) => (outer, f, Value.renameFields r bs))
    · rw [hs.handlers]
      exact s.handlers.findMatch?_rename hp.types (.signal i type fields)
    · rintro found _ rfl
      cases found with
      | none => exact mirrors_unhandled hp type (.signal i type fields)
      | some found =>
        obtain ⟨outer, f, bs⟩ := found
        refine (mirrors_runHandler hev outer f bs).bind ?_
        rintro answer _ rfl
        exact mirrors_resume hp type answer
  | _ =>
    simp only [Value.rename] at hname
    simp only [cause, Value.rename, hp.interner, hname]
    exact mirrors_fault rfl

theorem mirrors_bindLet (d : DeclId) : Mirrors r (bindLet p ev d) (bindLet p' ev' d) Eq := by
  simp only [bindLet, hp.arena]
  cases (p.arena.decl d).kind with
  | binding n isVariable typeRef value =>
    refine (hev value).bind ?_
    rintro v _ rfl
    exact (mirrors_checkDeclared hp typeRef v _).andThen (mirrors_define n v isVariable)
  | _ => exact mirrors_pure rfl

theorem mirrors_bindAllLets (ds : List DeclId) :
    Mirrors r (bindAllLets p ev ds) (bindAllLets p' ev' ds) Eq := by
  induction ds with
  | nil => exact mirrors_pure rfl
  | cons d ds ih => exact (mirrors_bindLet hp hev d).andThen ih

theorem mirrors_stmts (last : Value) (body : List Code.Stmt) :
    Mirrors r (stmts p ev last body) (stmts p' ev' (last.rename r) body) (Renamed r) := by
  induction body generalizing last with
  | nil => exact mirrors_pure rfl
  | cons st rest ih =>
    simp only [stmts]
    split
    · refine (hev _).bind ?_
      rintro v _ rfl
      exact ih v
    · exact (mirrors_bindLet hp hev _).andThen (ih .action)
    · refine (hev _).bind ?_
      rintro v _ rfl
      exact (mirrors_set hp _ v _).andThen (ih .action)
    · refine Mirrors.bind (A := Eq) (mirrors_read fun s s' hs => ?_) ?_
      · rw [hs.env, hs.loopTarget, hs.returnTarget]
      · rintro f _ rfl
        exact (ih .action).withHandler f

theorem mirrors_block (body : List Code.Stmt) :
    Mirrors r (block p ev body) (block p' ev' body) (Renamed r) :=
  ((mirrors_bindAllHoisted hp _).andThen (mirrors_stmts hp hev .action body)).inScope

theorem mirrors_arms (subject : Option Value) (options : List Code.Arm) :
    Mirrors r (arms p ev subject options) (arms p' ev' (subject.map (Value.rename r)) options)
      (Renamed r) := by
  induction options with
  | nil => exact mirrors_pure rfl
  | cons a rest ih =>
    simp only [arms]
    split
    · refine (hev _).bind ?_
      rintro v _ rfl
      refine (mirrors_condition hp v).bind ?_
      rintro b _ rfl
      split
      · exact hev _
      · exact ih
    · cases subject with
      | none => exact mirrors_faultAt _ rfl
      | some v =>
        simp only [Option.map_some, Value.matchPattern?_rename hp.types] at ih ⊢
        generalize v.matchPattern? _ p.types = found
        cases found with
        | some bs => exact (hev _).withBindings bs
        | none => exact ih
    · exact hev _

theorem mirrors_branch (subject : Option ExprId) (options : List Code.Arm) :
    Mirrors r (branch p ev subject options) (branch p' ev' subject options) (Renamed r) := by
  cases subject with
  | none => exact mirrors_arms hp hev none options
  | some e =>
    refine (hev e).bind ?_
    rintro v _ rfl
    exact mirrors_arms hp hev (some v) options

theorem mirrors_rounds (frame : FrameId) (body : ExprId) (fuel done ticks : Nat) :
    Mirrors r (rounds p ev frame body fuel done ticks) (rounds p' ev' frame body fuel done ticks)
      (Renamed r) := by
  induction fuel generalizing done ticks with
  | zero => exact mirrors_outOfFuel
  | succ fuel ih =>
    intro s s' hs
    obtain ⟨o, t, o', t', heq, heq', ho, ht⟩ := (hev body).outcomes hs
    simp only [rounds, hs.hostTicks, hp.limits, heq, heq']
    generalize (if s.hostTicks = ticks then done else 0) = n
    by_cases hstop : p.limits.loopRounds.any (· ≤ n)
    · rw [if_pos hstop, if_pos hstop]
      exact ⟨.interrupt (.fault (.new (.runawayLoop n))), hs⟩
    · rw [if_neg hstop, if_neg hstop]
      cases ho with
      | value => exact ih _ _ t t' ht
      | outOfFuel => exact ⟨.outOfFuel, ht⟩
      | interrupt i =>
        refine ⟨?_, ?_⟩
        · cases i with
          | breakTo target v =>
            dsimp only [Interrupt.rename]
            split
            · exact .value rfl
            · exact .interrupt (.breakTo target v)
          | fault e => exact .interrupt (.fault e)
          | returnTo target v => exact .interrupt (.returnTo target v)
        · cases i <;> exact ht

theorem mirrors_loop (fuel : Nat) (body : ExprId) :
    Mirrors r (loop p ev fuel body) (loop p' ev' fuel body) (Renamed r) := by
  refine mirrors_freshFrame.bind ?_
  rintro frame _ rfl s s' hs
  have hrounds := mirrors_rounds hp hev frame body fuel 0 s.hostTicks
    { s with loopTarget := some frame } { s' with loopTarget := some frame }
    { hs with loopTarget := rfl }
  have hticks : rounds p' ev' frame body fuel 0 s'.hostTicks =
      rounds p' ev' frame body fuel 0 s.hostTicks := by rw [hs.hostTicks]
  dsimp only
  rw [hticks]
  exact ⟨hrounds.1, { hrounds.2 with loopTarget := hs.loopTarget }⟩

omit hp in
theorem mirrors_arguments (es : List ExprId) :
    Mirrors r (arguments ev es) (arguments ev' es) fun vs vs' => vs' = vs.map (Value.rename r) := by
  induction es with
  | nil => exact mirrors_pure rfl
  | cons e es ih =>
    refine (hev e).bind ?_
    rintro v _ rfl
    refine ih.bind ?_
    rintro vs _ rfl
    exact mirrors_pure rfl

omit hp in
theorem mirrors_optional (e : Option ExprId) :
    Mirrors r (optional ev e) (optional ev' e) (Renamed r) := by
  cases e with
  | none => exact mirrors_pure rfl
  | some e => exact hev e

omit hp hev in
theorem mirrors_leaveFunction (v : Value) :
    Mirrors r (leaveFunction v) (leaveFunction (v.rename r)) (Renamed r) := by
  refine Mirrors.bind (A := Eq) (mirrors_read fun s s' hs => hs.returnTarget.symm) ?_
  rintro target _ rfl
  cases target with
  | none => exact mirrors_fault rfl
  | some target => exact mirrors_interrupt (.returnTo target v)

omit hp hev in
theorem mirrors_leaveLoop (v : Value) :
    Mirrors r (leaveLoop v) (leaveLoop (v.rename r)) (Renamed r) := by
  refine Mirrors.bind (A := Eq) (mirrors_read fun s s' hs => hs.loopTarget.symm) ?_
  rintro target _ rfl
  cases target with
  | none => exact mirrors_fault rfl
  | some target => exact mirrors_interrupt (.breakTo target v)

/-- Every construct does the same with renamed values, if its parts do. -/
theorem mirrors_node (fuel : Nat) (id : ExprId) :
    Mirrors r (node p ev fuel id) (node p' ev' fuel id) (Renamed r) := by
  simp only [node, hp.arena]
  cases (p.arena.expr id).kind with
  | group inner => exact (hev inner).located _
  | block body => exact (mirrors_block hp hev body).located _
  | function params result body => exact mirrors_closure none params result body
  | branch subject options => exact (mirrors_branch hp hev subject options).located _
  | loop body => exact (mirrors_loop hp hev fuel body).located _
  | cause payload =>
    refine (hev payload).bind ?_
    rintro v _ rfl
    exact (mirrors_cause hp hev v).located _
  | ret value =>
    refine (mirrors_optional hev value).bind ?_
    rintro v _ rfl
    exact mirrors_leaveFunction v
  | brk value =>
    refine (mirrors_optional hev value).bind ?_
    rintro v _ rfl
    exact mirrors_leaveLoop v
  | string text =>
    rw [hp.interner]
    exact mirrors_pure rfl
  | number n => exact mirrors_pure rfl
  | ident n => exact (mirrors_ident hp n).located _
  | call callee args =>
    refine (hev callee).bind ?_
    rintro f _ rfl
    refine (mirrors_arguments hev args).bind ?_
    rintro vs _ rfl
    exact (mirrors_callValue hp hev f vs _).located _
  | member receiver field =>
    refine (hev receiver).bind ?_
    rintro v _ rfl
    exact (mirrors_member hp v field).located _
  | pipe subject callee args =>
    refine (hev subject).bind ?_
    rintro v _ rfl
    refine (hev callee).bind ?_
    rintro f _ rfl
    refine (mirrors_arguments hev args).bind ?_
    rintro vs _ rfl
    exact (mirrors_callValue hp hev f (v :: vs) _).located _

omit hev in
/-- **Evaluation does not depend on the numbering of types and identities.** -/
theorem mirrors_expr (fuel : Nat) (id : ExprId) :
    Mirrors r (expr p fuel id) (expr p' fuel id) (Renamed r) := by
  induction fuel generalizing id with
  | zero => exact mirrors_outOfFuel
  | succ fuel ih => exact mirrors_node hp ih fuel id

end Eval

end SignalLang
