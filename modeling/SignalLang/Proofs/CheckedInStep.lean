import SignalLang.Proofs.InStep

/-!
# Expressions in step

Where names stand for the same, the check of an expression answers the same, whatever else the two
resolutions have found out before.

* `Resolve.ChecksInStep g check` : so it is for the expressions that `check` checks.
* `Resolve.checksInStep_expr` : **expressions are checked in step.**
-/

namespace SignalLang

namespace Resolve

section

variable {a : Arena} {π π₁ : Pairing} {c c' : Context}

/-- Types, each of which may not be known, are alike. -/
def FoundAlike (π : Pairing) : Option Ty → Option Ty → Prop := Option.Rel (Ty.Alike π.places)

theorem FoundAlike.mono {ty ty' : Option Ty} (h : FoundAlike π ty ty') (hle : π.Le π₁) :
    FoundAlike π₁ ty ty' :=
  Option.Rel.mono h fun _ _ h => h.mono hle.places

theorem FoundAlike.named? {ty ty' : Option Ty} (h : FoundAlike π ty ty') :
    Option.Rel π.places (ty.bind Ty.named?) (ty'.bind Ty.named?) := by
  cases h with
  | none => exact .none
  | some h =>
    cases h with
    | named h => exact .some h
    | function => exact .none

/-- The types of arguments for parameters are alike. -/
def ArgumentAlike (π : Pairing) (x x' : Ty × Option Ty × ExprId) : Prop :=
  x.1.Alike π.places x'.1 ∧ FoundAlike π x.2.1 x'.2.1 ∧ x.2.2 = x'.2.2

theorem ArgumentAlike.mono {x x' : Ty × Option Ty × ExprId} (h : ArgumentAlike π x x')
    (hle : π.Le π₁) : ArgumentAlike π₁ x x' :=
  ⟨h.1.mono hle.places, h.2.1.mono hle, h.2.2⟩

theorem argumentAlike_zip {params params' : List Ty} {types types' : List (Option Ty)}
    (hparams : List.Forall₂ (Ty.Alike π.places) params params')
    (htypes : List.Forall₂ (FoundAlike π) types types') (args : List ExprId) :
    List.Forall₂ (ArgumentAlike π) (params.zip (types.zip args))
      (params'.zip (types'.zip args)) := by
  induction hparams generalizing types types' args with
  | nil => exact .nil
  | cons hp _ ih =>
    cases htypes with
    | nil => exact .nil
    | cons ht htypes =>
      cases args with
      | nil => exact .nil
      | cons arg args => exact .cons ⟨hp, ht, rfl⟩ (ih htypes args)

/-- The fields of a type that is known in both or in none. -/
theorem foundAlike_field {t t' : TypeTable} {b b' : Option TypeId}
    (ht : TypeTable.Paired π.places t t') (hb : Option.Rel π.places b b') (field : Name) :
    FoundAlike π
      (b.bind fun id => ((t.fields id).find? fun f => f.name == field).map fun f => f.type)
      (b'.bind fun id => ((t'.fields id).find? fun f => f.name == field).map fun f => f.type) := by
  cases hb with
  | none => exact .none
  | @some id id' hid =>
    have hfields := ht.fields hid
    rw [Option.bind_some, Option.bind_some]
    generalize t.fields id = fs, t'.fields id' = fs' at hfields
    induction hfields with
    | nil => exact .none
    | @cons f f' fs fs' hf _ ih =>
      rw [List.find?_cons, List.find?_cons, ← hf.1]
      split
      · exact .some hf.2
      · exact ih

/-- The results of a signal that is known in both or in none. -/
theorem foundAlike_signalResult {t t' : TypeTable} {b b' : Option TypeId}
    (ht : TypeTable.Paired π.places t t') (hb : Option.Rel π.places b b') :
    FoundAlike π (b.bind fun id => if t.isSignal id then some (t.signalResult id) else none)
      (b'.bind fun id => if t'.isSignal id then some (t'.signalResult id) else none) := by
  cases hb with
  | none => exact .none
  | some hid =>
    rw [Option.bind_some, Option.bind_some, ht.isSignal_eq hid]
    split
    · exact .some (ht.signalResult hid)
    · exact .none

/-! ### Single steps -/

theorem inStep_assignable (hw : π.Whole) {ty ty' u u' : Ty} (hty : ty.Alike π.places ty')
    (hu : u.Alike π.places u') (span : Span) :
    InStep a π (assignable ty u span) (assignable ty' u' span) fun _ _ _ => True := by
  refine inStep_table_bind fun t t' ht => ?_
  rw [(ht.paired hw).accepts_eq hty hu]
  split
  · exact inStep_pure trivial
  · cases hty with
    | named =>
      cases hu with
      | named => exact inStep_report _ _ _ _
      | function => exact inStep_report _ _ _ _
    | function => exact inStep_report _ _ _ _

theorem inStep_functionArguments (hw : π.Whole) {args args' : List (Ty × Option Ty × ExprId)}
    (h : List.Forall₂ (ArgumentAlike π) args args') :
    InStep a π (functionArguments a args) (functionArguments a args') fun _ _ _ => True := by
  induction args generalizing args' π with
  | nil =>
    cases h
    exact inStep_pure trivial
  | cons x args ih =>
    obtain - | ⟨hx, hargs⟩ := h
    rename_i x' args'
    obtain ⟨ty, u, e⟩ := x
    obtain ⟨ty', u', e'⟩ := x'
    obtain ⟨hty, hu, he⟩ := hx
    obtain rfl : e = e' := he
    cases hty with
    | named =>
      simp only [functionArguments]
      exact ih hw hargs
    | function hlength hparams hresult =>
      cases hu with
      | none =>
        simp only [functionArguments]
        exact ih hw hargs
      | some hu =>
        exact (inStep_assignable hw (.function hlength hparams hresult) hu _).andThen
          fun _ _ π₁ hle => ih (hw.mono hle) (hargs.imp fun _ _ h => h.mono hle)

theorem inStep_setTarget (hc : c.Alike π.places c') (target : Name) (span : Span) :
    InStep a π (setTarget c target span) (setTarget c' target span) fun _ _ _ => True := by
  have htarget := hc.values target
  unfold setTarget
  generalize c.value? target = info, c'.value? target = info' at htarget
  cases htarget with
  | none => exact inStep_report _ _ _ _
  | some h =>
    dsimp only
    rw [h.1]
    split
    · exact inStep_pure trivial
    · exact inStep_report _ _ _ _

theorem inStep_pattern (hc : c.Alike π.places c') (p : Code.Pattern) :
    InStep a π (pattern a c p) (pattern a c' p) fun π₁ e e' => e.Alike π₁.places e' := by
  refine (inStep_typeRef hc.types p.typeRef).bind fun ty ty' π₁ hle hty => ?_
  have hc₁ := hc.mono hle.places
  cases p.binding with
  | none => exact inStep_pure hc₁
  | some n =>
    have hinfo : ValueInfo.Alike π₁.places ⟨.constant, some ty⟩ ⟨.constant, some ty'⟩ :=
      ⟨rfl, .some hty.1⟩
    exact inStep_pure ((entered_addValue c c' n hinfo).alike hc₁)

/-- A parameter has the type that was resolved with the signature of its function. -/
theorem inStep_parameter (hc : c.Alike π.places c') (p : Code.Param)
    (hp : ∀ r, p.typeRef = some r → π.refs r) :
    InStep a π (parameter c p) (parameter c' p) fun π₁ e e' => e.Alike π₁.places e' := by
  refine (inStep_declare p.span (hc.declared p.name)).bind fun e e' π₁ hle he => ?_
  refine inStep_table_bind fun t t' ht => ?_
  have htype : FoundAlike π₁ (p.typeRef.bind t.resolved?) (p.typeRef.bind t'.resolved?) := by
    cases hr : p.typeRef with
    | none => exact .none
    | some r => exact ht.refs r (hle.refs r (hp r hr))
  have hinfo : ValueInfo.Alike π₁.places ⟨.constant, p.typeRef.bind t.resolved?⟩
      ⟨.constant, p.typeRef.bind t'.resolved?⟩ := ⟨rfl, htype⟩
  exact inStep_pure ((entered_addValue e e' p.name hinfo).alike (he.alike (hc.mono hle.places)))

end

section

variable {g : Setting} {check : Checker} {π : Pairing} {c c' : Context}

/-- Where names stand for the same, the check of an expression answers the same. -/
def ChecksInStep (g : Setting) (check : Checker) : Prop :=
  ∀ {π c c'} id, π.Whole → c.Alike π.places c' →
    InStep g.arena π (check c id) (check c' id) FoundAlike

variable (hcheck : ChecksInStep g check)

include hcheck

theorem ChecksInStep.optional (hw : π.Whole) (hc : c.Alike π.places c') (e : Option ExprId) :
    InStep g.arena π (Resolve.optional check c e) (Resolve.optional check c' e)
      fun _ _ _ => True := by
  cases e with
  | none => exact inStep_pure trivial
  | some e => exact (hcheck e hw hc).andPure

theorem ChecksInStep.checkAll (hw : π.Whole) (hc : c.Alike π.places c') (es : List ExprId) :
    InStep g.arena π (Resolve.checkAll check c es) (Resolve.checkAll check c' es)
      fun π₁ => List.Forall₂ (FoundAlike π₁) := by
  induction es generalizing π with
  | nil => exact inStep_pure .nil
  | cons e es ih =>
    refine (hcheck e hw hc).bind fun ty ty' π₁ hle₁ hty => ?_
    refine (ih (hw.mono hle₁) (hc.mono hle₁.places)).bind fun tys tys' π₂ hle₂ htys => ?_
    exact inStep_pure (.cons (hty.mono hle₂) htys)

theorem ChecksInStep.functionBody (hw : π.Whole) (hc : c.Alike π.places c')
    (params : List Code.Param) (hparams : ∀ q ∈ params, ∀ r, q.typeRef = some r → π.refs r)
    (body : ExprId) :
    InStep g.arena π (Resolve.functionBody check c params body)
      (Resolve.functionBody check c' params body) fun _ _ _ => True := by
  refine (inStep_foldlM (C := fun π₁ c c' => c.Alike π₁.places c') (P := fun _ _ => True) params
    (fun _ h => h) (fun q hq c c' π₁ hle hc =>
      (inStep_parameter hc q fun r hr => hle.refs r (hparams q hq r hr)).weaken
        fun _ _ _ _ h => ⟨h, trivial⟩) hc.nested.calling).bind fun e e' π₁ hle he => ?_
  exact (hcheck body (hw.mono hle) he.1).andPure

theorem ChecksInStep.call (hw : π.Whole) (hc : c.Alike π.places c') (callee : ExprId)
    (args : List ExprId) (span : Span) :
    InStep g.arena π (Resolve.call g check c callee args span)
      (Resolve.call g check c' callee args span) FoundAlike := by
  refine (hcheck.checkAll hw hc args).bind fun types types' π₁ hle₁ htypes => ?_
  refine (hcheck callee (hw.mono hle₁) (hc.mono hle₁.places)).bind fun ty ty' π₂ hle₂ hty => ?_
  have hle := hle₁.trans hle₂
  have hknown : knownCallee g.arena c' callee = knownCallee g.arena c callee := by
    unfold knownCallee
    split
    · rename_i n _
      have hn := hc.values n
      generalize c.value? n = info, c'.value? n = info' at hn
      cases hn with
      | none => rfl
      | some h => simp only [Option.any_some, h.1]
    · rfl
  cases hty with
  | none => exact inStep_pure .none
  | some hty =>
    cases hty with
    | named => exact inStep_pure .none
    | @function params params' result result' hlength hparams hresult =>
      have hall := Ty.alike_function.1 (.function hlength hparams hresult)
      have htypes₂ := htypes.imp fun _ _ h => h.mono hle₂
      have hres : ∀ π₃, π₂.Le π₃ → InStep g.arena π₃
          (pure (if result.isUnknown then none else some result))
          (pure (if result'.isUnknown then none else some result')) FoundAlike := by
        intro π₃ hle₃ s s' hs
        have hresult₃ := hresult.mono hle₃.places
        rw [(hs.paired ((hw.mono hle).mono hle₃)).isUnknown_eq hresult₃]
        refine inStep_pure ?_ s s' hs
        split
        · exact .none
        · exact .some hresult₃
      have harguments : ∀ π₃, π₂.Le π₃ → InStep g.arena π₃
          (functionArguments g.arena (params.zip (types.zip args)))
          (functionArguments g.arena (params'.zip (types'.zip args))) fun _ _ _ => True :=
        fun π₃ hle₃ => inStep_functionArguments ((hw.mono hle).mono hle₃)
          ((argumentAlike_zip hall.1 htypes₂ args).imp fun _ _ h => h.mono hle₃)
      simp only [Option.bind_some, Ty.signature?, Signature.arity, hknown, hlength]
      split
      · split
        · exact (inStep_report _ _ _ _).andThen fun _ _ π₃ hle₃ =>
            (harguments π₃ hle₃).andThen fun _ _ π₄ hle₄ => hres π₄ (hle₃.trans hle₄)
        · exact (harguments π₂ (.refl π₂)).andThen fun _ _ π₃ hle₃ => hres π₃ hle₃
      · exact hres π₂ (.refl π₂)

/-! ### Declarations and statements -/

theorem ChecksInStep.binding (hw : π.Whole) (hc : c.Alike π.places c') (d : DeclId) (x : Name)
    (isVariable : Bool) (type : Option TypeRefId) (value : ExprId) :
    InStep g.arena π (Resolve.binding g check c d x isVariable type value)
      (Resolve.binding g check c' d x isVariable type value) (Entered c c') := by
  have hdone : ∀ {ty ty' : Option Ty} (kind : ValueKind) (π₁ : Pairing), π.Le π₁ →
      FoundAlike π₁ ty ty' → InStep g.arena π₁
        (do
          let c ← declare c x (g.arena.decl d).span
          return c.addValue x ⟨kind, ty⟩)
        (do
          let c ← declare c' x (g.arena.decl d).span
          return c.addValue x ⟨kind, ty'⟩) (Entered c c') := by
    intro ty ty' kind π₁ hle hty
    refine (inStep_declare _ (hc.declared x)).bind fun e e' π₂ hle₂ he => ?_
    have hinfo : ValueInfo.Alike π₂.places ⟨kind, ty⟩ ⟨kind, ty'⟩ := ⟨rfl, hty.mono hle₂⟩
    exact inStep_pure (he.trans (.refl π₂) (entered_addValue e e' x hinfo))
  refine (hcheck value hw hc).bind fun found found' π₁ hle₁ hfound => ?_
  cases type with
  | none => exact hdone _ π₁ hle₁ hfound
  | some r =>
    refine (inStep_typeRef (fun n => (hc.types n).mono hle₁.places) r).bind
      fun ty ty' π₂ hle₂ hty => ?_
    have hle := hle₁.trans hle₂
    cases hfound with
    | none => exact hdone _ π₂ hle (.some hty.1)
    | some hfound =>
      refine (inStep_assignable (hw.mono hle) hty.1 (hfound.mono hle₂.places) _).andThen
        fun _ _ π₃ hle₃ => ?_
      exact hdone _ π₃ (hle.trans hle₃) (.some (hty.1.mono hle₃.places))

theorem ChecksInStep.stmt (hw : π.Whole) (hc : c.Alike π.places c') (st : Code.Stmt) :
    InStep g.arena π (Resolve.stmt g check c st) (Resolve.stmt g check c' st) FoundAlike := by
  have haction : ∀ π₁, InStep g.arena π₁ (pure (some .action)) (pure (some .action))
      FoundAlike := fun π₁ s s' hs =>
    inStep_pure (.some (.named (hs.builtin _ (by decide)))) s s' hs
  unfold Resolve.stmt
  split
  · exact hcheck _ hw hc
  · exact haction π
  · refine (inStep_pattern hc.nested _).bind fun e e' π₁ hle he => ?_
    exact (hcheck _ (hw.mono hle) he).andThen fun _ _ π₂ _ => haction π₂
  · refine (hcheck _ hw hc).andThen fun _ _ π₁ hle => ?_
    exact (inStep_setTarget (hc.mono hle.places) _ _).andThen fun _ _ π₂ _ => haction π₂

theorem ChecksInStep.item (order : BodyOrder) (hw : π.Whole) (hc : c.Alike π.places c') (i : Item)
    (hsigned : order = .inPlace → ∀ d, i = .decl d → π.Signed g.arena d) :
    InStep g.arena π (Resolve.item g check order c i) (Resolve.item g check order c' i)
      fun π₁ r r' => Entered c c' π₁ r.1 r'.1 ∧ FoundAlike π₁ r.2 r'.2 := by
  cases i with
  | stmt st =>
    simp only [Resolve.item]
    refine (hcheck.stmt hw hc st).bind fun ty ty' π₁ _ hty => ?_
    exact inStep_pure ⟨.refl c c', hty⟩
  | decl d =>
    have hdone : ∀ {e e' : Context} (π₁ : Pairing), Entered c c' π₁ e e' →
        InStep g.arena π₁ (pure (e, some .action)) (pure (e', some .action)) fun π₁ r r' =>
          Entered c c' π₁ r.1 r'.1 ∧ FoundAlike π₁ r.2 r'.2 := fun π₁ he s s' hs =>
      ⟨π₁, .refl π₁, hs, Nat.add_comm .., he, .some (.named (hs.builtin _ (by decide)))⟩
    simp only [Resolve.item]
    cases hk : (g.arena.decl d).kind with
    | binding x isVariable type value =>
      exact (hcheck.binding hw hc d x isVariable type value).bind fun e e' π₁ _ he => hdone π₁ he
    | function x params result body =>
      dsimp only
      split
      · rename_i horder
        exact (hcheck.functionBody hw hc params
          (hsigned horder d rfl x params result body hk) body).andThen
            fun _ _ π₁ _ => hdone π₁ (.refl c c')
      · exact hdone π (.refl c c')
    | _ => exact hdone π (.refl c c')

/-- A declared function is checked in step where the types of its parameters are known. -/
theorem ChecksInStep.declaredBody (hw : π.Whole) (hc : c.Alike π.places c') (i : Item)
    (hsigned : ∀ d, i = .decl d → π.Signed g.arena d) :
    InStep g.arena π (Resolve.declaredBody g check c i) (Resolve.declaredBody g check c' i)
      fun _ _ _ => True := by
  cases i with
  | stmt st => exact inStep_pure trivial
  | decl d =>
    simp only [Resolve.declaredBody]
    cases hk : (g.arena.decl d).kind with
    | function x params result body =>
      exact hcheck.functionBody hw hc params (hsigned d rfl x params result body hk) body
    | _ => exact inStep_pure trivial

theorem ChecksInStep.items (order : BodyOrder) (hw : π.Whole) (hc : c.Alike π.places c')
    {last last' : Option Ty} (hlast : FoundAlike π last last') (is : List Item)
    (hsigned : order = .inPlace → ∀ d, .decl d ∈ is → π.Signed g.arena d) :
    InStep g.arena π (Resolve.items g check order c last is)
      (Resolve.items g check order c' last' is) fun π₁ r r' =>
        r.1.Alike π₁.places r'.1 ∧ FoundAlike π₁ r.2 r'.2 := by
  induction is generalizing π c c' last last' with
  | nil => exact inStep_pure ⟨hc, hlast⟩
  | cons i is ih =>
    refine (hcheck.item order hw hc i fun ho d hd =>
      hsigned ho d (hd ▸ List.mem_cons_self ..)).bind fun r r' π₁ hle ⟨hr, hty⟩ => ?_
    exact ih (hw.mono hle) (hr.alike (hc.mono hle.places)) hty
      fun ho d hd => (hsigned ho d (List.mem_cons_of_mem _ hd)).mono hle

/-- The members of a block are checked in step. -/
theorem ChecksInStep.scope (himports : g.imports.FromLibrary) (hw : π.Whole)
    (hc : c.Alike π.places c') (is : List Item) :
    InStep g.arena π (Resolve.scope g check .inPlace c is)
      (Resolve.scope g check .inPlace c' is) FoundAlike := by
  refine (inStep_hoist himports g.interner _ hc).bind fun e e' π₁ hle₁ ⟨he, hsigned⟩ => ?_
  -- only functions have a signature, and these are hoisted
  have hall : ∀ d, .decl d ∈ is → π₁.Signed g.arena d := by
    intro d hd x params result body hk
    refine hsigned d (List.mem_filterMap.2 ⟨.decl d, hd, ?_⟩) x params result body hk
    simp [hk, Code.DeclKind.hoisted]
  intro s s' hs
  have haction : FoundAlike π₁ (some .action) (some .action) :=
    .some (.named (hs.builtin _ (by decide)))
  refine InStep.bind (hcheck.items .inPlace (hw.mono hle₁) he haction is fun _ => hall)
    (fun r r' π₂ _ hr => ?_) s s' hs
  exact inStep_pure hr.2

theorem ChecksInStep.arm (hw : π.Whole) (hc : c.Alike π.places c') (hasSubject : Bool)
    (arm : Code.Arm) :
    InStep g.arena π (Resolve.arm g check c hasSubject arm)
      (Resolve.arm g check c' hasSubject arm) fun _ _ _ => True := by
  unfold Resolve.arm
  split
  · exact (hcheck _ hw hc).andThen fun _ _ π₁ hle =>
      (hcheck _ (hw.mono hle) (hc.mono hle.places)).andPure
  · rename_i p body _
    have hbody : ∀ π₁, π.Le π₁ → InStep g.arena π₁
        (do
          let inner ← pattern g.arena c.nested p
          let _ ← check inner body)
        (do
          let inner ← pattern g.arena c'.nested p
          let _ ← check inner body) fun _ _ _ => True := by
      intro π₁ hle
      refine (inStep_pattern (hc.mono hle.places).nested p).bind fun e e' π₂ hle₂ he => ?_
      exact (hcheck body ((hw.mono hle).mono hle₂) he).andPure
    split
    · exact (inStep_report _ _ _ _).andThen fun _ _ π₁ hle => hbody π₁ hle
    · exact hbody π (.refl π)
  · exact (hcheck _ hw hc).andPure

/-! ### Expressions -/

/-- What a step finds out of the table about a type is the same. -/
theorem ChecksInStep.andRead (hw : π.Whole) (hc : c.Alike π.places c') (id : ExprId)
    {f : TypeTable → Option TypeId → Option Ty}
    (hf : ∀ {π₁ : Pairing} {t t' b b'}, TypeTable.Paired π₁.places t t' →
      Option.Rel π₁.places b b' → FoundAlike π₁ (f t b) (f t' b')) :
    InStep g.arena π
      (do
        let ty ← check c id
        let t ← table
        return f t (ty.bind Ty.named?))
      (do
        let ty ← check c' id
        let t ← table
        return f t (ty.bind Ty.named?)) FoundAlike := by
  refine (hcheck id hw hc).bind fun ty ty' π₁ hle hty => ?_
  exact inStep_table_bind fun t t' ht => inStep_pure (hf (ht.paired (hw.mono hle)) hty.named?)

theorem ChecksInStep.node (himports : g.imports.FromLibrary) :
    ChecksInStep g (Resolve.node g check) := by
  intro π c c' id hw hc
  have hreported : ∀ (ok : Bool) (problem : ResolveProblem) (value : Option ExprId),
      InStep g.arena π
        (do
          if !ok then report problem (g.arena.expr id).span
          Resolve.optional check c value
          return none)
        (do
          if !ok then report problem (g.arena.expr id).span
          Resolve.optional check c' value
          return none) FoundAlike := by
    intro ok problem value
    have hvalue : ∀ π₁, π.Le π₁ → InStep g.arena π₁
        (do
          Resolve.optional check c value
          return none)
        (do
          Resolve.optional check c' value
          return none) FoundAlike := fun π₁ hle =>
      (hcheck.optional (hw.mono hle) (hc.mono hle.places) value).andThen
        fun _ _ _ _ => inStep_pure .none
    split
    · exact (inStep_report _ _ _ _).andThen fun _ _ π₁ hle => hvalue π₁ hle
    · exact hvalue π (.refl π)
  unfold Resolve.node
  dsimp only
  cases (g.arena.expr id).kind with
  | group inner => exact hcheck inner hw hc
  | block body => exact hcheck.scope himports hw hc.nested _
  | function params result body =>
    refine (inStep_params hc.types params).bind fun us us' π₁ hle₁ ⟨hus, hrefs⟩ => ?_
    refine (inStep_typeRef? (fun n => (hc.types n).mono hle₁.places) result).bind
      fun ty ty' π₂ hle₂ hty => ?_
    have hle := hle₁.trans hle₂
    refine (hcheck.functionBody (hw.mono hle) (hc.mono hle.places) params
      (fun q hq r hr => hle₂.refs r (hrefs q hq r hr)) body).andThen fun _ _ π₃ hle₃ => ?_
    exact inStep_pure (.some (Ty.alike_function.2
      ⟨hus.imp fun _ _ h => (h.mono hle₂.places).mono hle₃.places, hty.1.mono hle₃.places⟩))
  | branch subject arms =>
    refine (hcheck.optional hw hc subject).andThen fun _ _ π₁ hle => ?_
    refine (inStep_forM arms fun arm _ π₂ hle₂ => ?_).andThen fun _ _ _ _ => inStep_pure .none
    exact hcheck.arm ((hw.mono hle).mono hle₂) ((hc.mono hle.places).mono hle₂.places) _ arm
  | loop body => exact (hcheck body hw hc.looping).andThen fun _ _ _ _ => inStep_pure .none
  | cause payload =>
    exact hcheck.andRead hw hc payload fun ht hb => foundAlike_signalResult ht hb
  | ret value =>
    rw [← hc.inFunction]
    exact hreported _ _ value
  | brk value =>
    rw [← hc.inLoop]
    exact hreported _ _ value
  | string text =>
    exact fun s s' hs => inStep_pure (.some (.named (hs.builtin _ (by decide)))) s s' hs
  | number x =>
    exact fun s s' hs => inStep_pure (.some (.named (hs.builtin _ (by decide)))) s s' hs
  | ident x =>
    have hx := hc.values x
    dsimp only
    generalize c.value? x = info, c'.value? x = info' at hx
    cases hx with
    | none => exact (inStep_report _ _ _ _).andThen fun _ _ _ _ => inStep_pure .none
    | some h => exact inStep_pure h.2
  | call callee args =>
    exact hcheck.call hw hc callee args _
  | member receiver field =>
    exact hcheck.andRead hw hc receiver fun ht hb => foundAlike_field ht hb field
  | pipe subject callee args =>
    dsimp only
    exact hcheck.call hw hc callee (subject :: args) _

end

/-- **Expressions are checked in step.** -/
theorem checksInStep_expr {g : Setting} (himports : g.imports.FromLibrary) (depth : Nat) :
    ChecksInStep g (expr g depth) := by
  induction depth with
  | zero => exact fun _ _ _ => inStep_pure .none
  | succ depth ih => exact ih.node himports

end Resolve

end SignalLang
