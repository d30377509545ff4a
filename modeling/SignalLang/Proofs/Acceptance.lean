import SignalLang.Proofs.Checking
import SignalLang.Proofs.Numbering
import SignalLang.Resolve.Module

/-!
# What resolution accepts

If resolution finds no error, every expression has been checked in some context, and the check has
found out what this file states as a judgment: which names were in scope there, that names declared
side by side differ, that the target of a `set` is a variable, and that `break`, `return` and `is`
stand where they may.

* `Resolve.AcceptsNode` : the judgment about one expression, given what is known of its parts; there
  is one relation for each construct that opens a scope.
* `Resolve.Accepted k c id` : the expression `id` is accepted in the context `c`, with all
  that is written in it; `Accepted.node` leads from an expression to its parts.
* `Module.accepted_of_resolve` : **if resolution finds no error, the scope of the module is
  accepted, and with it every expression in its declarations.**
-/

namespace SignalLang

namespace Resolve

/-- The nearest value of a name is a variable. -/
def Context.IsVariable (c : Context) (n : Name) : Prop :=
  ∃ info, c.value? n = some info ∧ info.kind = .variable

/-! ### The judgment about one expression -/

section Judgment

variable (arena : Arena) (k : Known) (R : Context → ExprId → Prop)

/-- The body of a function is accepted in a scope with its parameters, which differ. -/
def AcceptsFunction (c : Context) (params : List Code.Param) (body : ExprId) : Prop :=
  ∃ c', c.nested.calling.Adds (params.map fun q => (q.name, false))
    (params.map fun q => q.name) c' ∧ R c' body

/-- A body under a pattern is accepted in a scope with what the pattern binds. -/
def AcceptsUnder (c : Context) (p : Code.Pattern) (body : ExprId) : Prop :=
  ∃ c', c.nested.Adds (p.binding.toList.map fun n => (n, false)) [] c' ∧ R c' body

/-- A statement that declares nothing is accepted. -/
inductive AcceptsStmt (c : Context) : Code.StmtKind → Prop
  | expr {e} (h : R c e) : AcceptsStmt c (.expr e)
  | decl {d} : AcceptsStmt c (.decl d)
  | effect {p body} (h : AcceptsUnder R c p body) : AcceptsStmt c (.effect p body)
  | set {target value} (hv : R c value) (ht : c.IsVariable target) :
      AcceptsStmt c (.set target value)

/-- A member of a scope is accepted, with the context behind it. -/
inductive AcceptsItem (order : BodyOrder) (c : Context) : Item → Context → Prop
  | stmt {st} (h : AcceptsStmt R c st.kind) : AcceptsItem order c (.stmt st) c
  | binding {d n isVariable type value c'}
      (hd : (arena.decl d).kind = .binding n isVariable type value) (hv : R c value)
      (hc : c.Adds [(n, isVariable)] [n] c') : AcceptsItem order c (.decl d) c'
  | function {d n params result body} (hd : (arena.decl d).kind = .function n params result body)
      (h : order = .inPlace → AcceptsFunction R c params body) : AcceptsItem order c (.decl d) c
  | other {d} (hd : (arena.decl d).kind.subexprs = []) : AcceptsItem order c (.decl d) c

/-- The members of a scope are accepted in order. -/
inductive AcceptsItems (order : BodyOrder) : Context → List Item → Context → Prop
  | nil {c} : AcceptsItems order c [] c
  | cons {c c' c'' i is} (h : AcceptsItem arena R order c i c')
      (hs : AcceptsItems order c' is c'') : AcceptsItems order c (i :: is) c''

/-- A scope is accepted: its hoisted declarations, its members in order and, if they are left for
the end, the bodies of its functions. -/
inductive AcceptsScope (order : BodyOrder) (c : Context) (is : List Item) : Prop
  | intro {c₀ c₁} (hoists : Hoists k c (hoistedDecls k.arena is) c₀)
      (items : AcceptsItems k.arena R order c₀ is c₁)
      (bodies : order = .afterScope → ∀ d, .decl d ∈ is → ∀ n params result body,
        (k.arena.decl d).kind = .function n params result body → AcceptsFunction R c₁ params body)

/-- An arm of a branch is accepted. -/
inductive AcceptsArm (c : Context) (hasSubject : Bool) : Code.ArmKind → Prop
  | when {condition body} (hc : R c condition) (hb : R c body) :
      AcceptsArm c hasSubject (.when condition body)
  | is {p body} (hs : hasSubject = true) (h : AcceptsUnder R c p body) :
      AcceptsArm c hasSubject (.is p body)
  | otherwise {body} (h : R c body) : AcceptsArm c hasSubject (.otherwise body)

/-- Expressions that are only about their operands. -/
def OnlyOperands : Code.ExprKind → Prop
  | .block _ | .function _ _ _ | .branch _ _ | .loop _ | .ret _ | .brk _ | .ident _ => False
  | _ => True

/-- An expression is accepted, given what is accepted of its parts. -/
inductive AcceptsNode (c : Context) : Code.ExprKind → Prop
  | block {body} (h : AcceptsScope k R .inPlace c.nested (body.map Item.ofStmt)) :
      AcceptsNode c (.block body)
  | function {params result body} (h : AcceptsFunction R c params body) :
      AcceptsNode c (.function params result body)
  | branch {subject arms} (hs : ∀ e ∈ subject.toList, R c e)
      (ha : ∀ a ∈ arms, AcceptsArm R c subject.isSome a.kind) : AcceptsNode c (.branch subject arms)
  | loop {body} (h : R c.looping body) : AcceptsNode c (.loop body)
  | ret {value} (hin : c.inFunction = true) (h : ∀ e ∈ value.toList, R c e) :
      AcceptsNode c (.ret value)
  | brk {value} (hin : c.inLoop = true) (h : ∀ e ∈ value.toList, R c e) : AcceptsNode c (.brk value)
  | ident {n} (h : (c.value? n).isSome) : AcceptsNode c (.ident n)
  | operands {kind} (hk : OnlyOperands kind) (h : ∀ e ∈ kind.operands, R c e) : AcceptsNode c kind

namespace AcceptsNode

variable {k R} {c : Context}

/-- The operands of an accepted expression are accepted in the same context. -/
theorem operands_accepted {kind : Code.ExprKind} (h : AcceptsNode k R c kind) :
    ∀ e ∈ kind.operands, R c e := by
  cases h with
  | branch hs _ => exact hs
  | ret _ h => exact h
  | brk _ h => exact h
  | operands _ h => exact h
  | block _ | function _ | loop _ | ident _ => simp

theorem of_block {body : List Code.Stmt} (h : AcceptsNode k R c (.block body)) :
    AcceptsScope k R .inPlace c.nested (body.map Item.ofStmt) := by
  cases h with
  | block h => exact h
  | operands hk _ => exact hk.elim

theorem of_function {params : List Code.Param} {result : Option TypeRefId} {body : ExprId}
    (h : AcceptsNode k R c (.function params result body)) : AcceptsFunction R c params body := by
  cases h with
  | function h => exact h
  | operands hk _ => exact hk.elim

theorem of_branch {subject : Option ExprId} {arms : List Code.Arm}
    (h : AcceptsNode k R c (.branch subject arms)) :
    ∀ a ∈ arms, AcceptsArm R c subject.isSome a.kind := by
  cases h with
  | branch _ ha => exact ha
  | operands hk _ => exact hk.elim

theorem of_loop {body : ExprId} (h : AcceptsNode k R c (.loop body)) : R c.looping body := by
  cases h with
  | loop h => exact h
  | operands hk _ => exact hk.elim

theorem of_ident {n : Name} (h : AcceptsNode k R c (.ident n)) : (c.value? n).isSome := by
  cases h with
  | ident h => exact h
  | operands hk _ => exact hk.elim

end AcceptsNode

/-- An expression is accepted down to a depth. -/
def AcceptedWithin : Nat → Context → ExprId → Prop
  | 0, _, _ => True
  | depth + 1, c, id => AcceptsNode k (AcceptedWithin depth) c (k.arena.expr id).kind

/-- An expression is accepted, with all that is written in it.  Its parts nest at most as deep as
the numbers go down. -/
def Accepted (c : Context) (id : ExprId) : Prop :=
  ∃ depth, id.index < depth ∧ AcceptedWithin k depth c id

end Judgment

/-! ### Other judgments about the parts -/

section Imp

variable {arena : Arena} {k : Known} {R R' : Context → ExprId → Prop} {c : Context}

theorem AcceptsFunction.imp {params : List Code.Param} {body : ExprId}
    (h : AcceptsFunction R c params body) (hR : ∀ c, R c body → R' c body) :
    AcceptsFunction R' c params body := by
  obtain ⟨c', hc, hbody⟩ := h
  exact ⟨c', hc, hR c' hbody⟩

theorem AcceptsUnder.imp {p : Code.Pattern} {body : ExprId} (h : AcceptsUnder R c p body)
    (hR : ∀ c, R c body → R' c body) : AcceptsUnder R' c p body := by
  obtain ⟨c', hc, hbody⟩ := h
  exact ⟨c', hc, hR c' hbody⟩

theorem AcceptsStmt.imp {kind : Code.StmtKind} (h : AcceptsStmt R c kind)
    (hR : ∀ c, ∀ e ∈ kind.subexprs, R c e → R' c e) : AcceptsStmt R' c kind := by
  cases h with
  | expr h => exact .expr (hR c _ (by simp) h)
  | decl => exact .decl
  | effect h => exact .effect (h.imp fun c => hR c _ (by simp))
  | set hv ht => exact .set (hR c _ (by simp) hv) ht

/-- The expressions to which a member of a scope refers. -/
def Item.subexprs (arena : Arena) : Item → List ExprId
  | .stmt st => st.kind.subexprs
  | .decl d => (arena.decl d).kind.subexprs

theorem Item.subexprs_ofStmt (st : Code.Stmt) :
    (Item.ofStmt st).subexprs arena = st.inner arena := by
  cases hk : st.kind <;> simp [Item.ofStmt, Item.subexprs, Code.Stmt.inner, hk]

theorem AcceptsItem.imp {order : BodyOrder} {i : Item} {c' : Context}
    (h : AcceptsItem arena R order c i c') (hR : ∀ c, ∀ e ∈ i.subexprs arena, R c e → R' c e) :
    AcceptsItem arena R' order c i c' := by
  cases h with
  | stmt h => exact .stmt (h.imp hR)
  | binding hd hv hc => exact .binding hd (hR c _ (by simp [Item.subexprs, hd]) hv) hc
  | function hd h =>
    exact .function hd fun ho => (h ho).imp fun c => hR c _ (by simp [Item.subexprs, hd])
  | other hd => exact .other hd

theorem AcceptsItems.imp {order : BodyOrder} {is : List Item} {c' : Context}
    (h : AcceptsItems arena R order c is c')
    (hR : ∀ c, ∀ i ∈ is, ∀ e ∈ i.subexprs arena, R c e → R' c e) :
    AcceptsItems arena R' order c is c' := by
  induction h with
  | nil => exact .nil
  | cons hi _ ih =>
    exact .cons (hi.imp fun c => hR c _ List.mem_cons_self)
      (ih fun c i hi => hR c i (List.mem_cons_of_mem _ hi))

theorem AcceptsScope.imp {order : BodyOrder} {is : List Item}
    (h : AcceptsScope k R order c is)
    (hR : ∀ c, ∀ i ∈ is, ∀ e ∈ i.subexprs k.arena, R c e → R' c e) :
    AcceptsScope k R' order c is := by
  obtain ⟨hoists, items, bodies⟩ := h
  refine ⟨hoists, items.imp hR, fun ho d hd n params result body hk => ?_⟩
  exact (bodies ho d hd n params result body hk).imp fun c =>
    hR c _ hd _ (by simp [Item.subexprs, hk])

theorem AcceptsArm.imp {hasSubject : Bool} {kind : Code.ArmKind}
    (h : AcceptsArm R c hasSubject kind) (hR : ∀ c, ∀ e ∈ kind.subexprs, R c e → R' c e) :
    AcceptsArm R' c hasSubject kind := by
  cases h with
  | when hc hb => exact .when (hR c _ (by simp) hc) (hR c _ (by simp) hb)
  | is hs h => exact .is hs (h.imp fun c => hR c _ (by simp))
  | otherwise h => exact .otherwise (hR c _ (by simp) h)

theorem AcceptsNode.imp {kind : Code.ExprKind} (h : AcceptsNode k R c kind)
    (hR : ∀ c, ∀ e ∈ kind.inner k.arena, R c e → R' c e) : AcceptsNode k R' c kind := by
  cases h with
  | block h =>
    refine .block (h.imp fun c i hi e he => hR c e ?_)
    obtain ⟨st, hst, rfl⟩ := List.mem_map.1 hi
    exact List.mem_flatMap.2 ⟨st, hst, Item.subexprs_ofStmt st ▸ he⟩
  | function h => exact .function (h.imp fun c => hR c _ (by simp [Code.ExprKind.inner]))
  | branch hs ha =>
    refine .branch (fun e he => hR c e (List.mem_append_left _ he) (hs e he)) fun a hmem => ?_
    exact (ha a hmem).imp fun c e he =>
      hR c e (List.mem_append_right _ (List.mem_flatMap.2 ⟨a, hmem, he⟩))
  | loop h => exact .loop (hR _ _ (by simp [Code.ExprKind.inner]) h)
  | ret hin h => exact .ret hin fun e he => hR c e he (h e he)
  | brk hin h => exact .brk hin fun e he => hR c e he (h e he)
  | ident h => exact .ident h
  | operands hk h =>
    refine .operands hk fun e he => hR c e ?_ (h e he)
    cases kind <;> first | exact he | exact hk.elim

/-! ### Expressions inside -/

theorem AcceptsItems.exists_item {order : BodyOrder} {is : List Item} {c' : Context}
    (h : AcceptsItems arena R order c is c') {i : Item} (hi : i ∈ is) :
    ∃ c c', AcceptsItem arena R order c i c' := by
  induction h with
  | nil => cases hi
  | cons h _ ih =>
    rcases List.mem_cons.1 hi with rfl | hi
    · exact ⟨_, _, h⟩
    · exact ih hi

/-- The value of a `let` is accepted in the context in front of it. -/
theorem AcceptsItem.value {order : BodyOrder} {d : DeclId} {c' : Context}
    (h : AcceptsItem arena R order c (.decl d) c') {n : Name} {isVariable : Bool}
    {type : Option TypeRefId} {value : ExprId}
    (hd : (arena.decl d).kind = .binding n isVariable type value) : R c value := by
  cases h with
  | binding hd' hv _ =>
    cases hd.symm.trans hd'
    exact hv
  | function hd' _ => cases hd.symm.trans hd'
  | other hd' => simp [hd, Code.DeclKind.subexprs] at hd'

theorem AcceptsStmt.exists_accepted {kind : Code.StmtKind} (h : AcceptsStmt R c kind) {e : ExprId}
    (he : e ∈ kind.subexprs) : ∃ c, R c e := by
  cases h with
  | decl => cases he
  | expr h | set h _ => exact List.mem_singleton.1 he ▸ ⟨c, h⟩
  | effect h =>
    obtain ⟨c', -, h⟩ := h
    exact List.mem_singleton.1 he ▸ ⟨c', h⟩

theorem AcceptsItem.exists_accepted {i : Item} {c' : Context}
    (h : AcceptsItem arena R .inPlace c i c') {e : ExprId} (he : e ∈ i.subexprs arena) :
    ∃ c, R c e := by
  cases h with
  | stmt h => exact h.exists_accepted he
  | binding hd hv _ =>
    simp only [Item.subexprs, hd, Code.DeclKind.subexprs, List.mem_singleton] at he
    exact he ▸ ⟨c, hv⟩
  | function hd h =>
    obtain ⟨c', -, h⟩ := h rfl
    simp only [Item.subexprs, hd, Code.DeclKind.subexprs, List.mem_singleton] at he
    exact he ▸ ⟨c', h⟩
  | other hd =>
    rw [Item.subexprs, hd] at he
    cases he

theorem AcceptsArm.exists_accepted {hasSubject : Bool} {kind : Code.ArmKind}
    (h : AcceptsArm R c hasSubject kind) {e : ExprId} (he : e ∈ kind.subexprs) : ∃ c, R c e := by
  cases h with
  | when hc hb =>
    rcases List.mem_pair.1 he with rfl | rfl
    · exact ⟨c, hc⟩
    · exact ⟨c, hb⟩
  | is _ h =>
    obtain ⟨c', -, h⟩ := h
    exact List.mem_singleton.1 he ▸ ⟨c', h⟩
  | otherwise h => exact List.mem_singleton.1 he ▸ ⟨c, h⟩

/-- All that is written directly in an accepted expression is accepted in some context. -/
theorem AcceptsNode.exists_accepted {kind : Code.ExprKind} (h : AcceptsNode k R c kind) {e : ExprId}
    (he : e ∈ kind.inner k.arena) : ∃ c, R c e := by
  have hops : e ∈ kind.operands → ∃ c, R c e := fun he => ⟨c, h.operands_accepted e he⟩
  cases h with
  | block h =>
    obtain ⟨-, items, -⟩ := h
    obtain ⟨st, hst, he⟩ := List.mem_flatMap.1 he
    obtain ⟨c₁, c₂, h⟩ := items.exists_item (List.mem_map_of_mem hst)
    exact h.exists_accepted (Item.subexprs_ofStmt st ▸ he)
  | function h =>
    obtain ⟨c', -, h⟩ := h
    exact List.mem_singleton.1 he ▸ ⟨c', h⟩
  | branch _ ha =>
    rcases List.mem_append.1 he with he | he
    · exact hops he
    · obtain ⟨a, hmem, he⟩ := List.mem_flatMap.1 he
      exact (ha a hmem).exists_accepted he
  | loop h => exact List.mem_singleton.1 he ▸ ⟨_, h⟩
  | ret | brk | ident => exact hops he
  | operands hk =>
    refine hops ?_
    cases kind <;> first | exact he | exact hk.elim

/-- The parts of an accepted expression are accepted. -/
theorem Accepted.node (hord : k.arena.Ordered) {id : ExprId} (h : Accepted k c id) :
    AcceptsNode k (Accepted k) c (k.arena.expr id).kind := by
  obtain ⟨depth, hid, h⟩ := h
  obtain ⟨depth, rfl⟩ : ∃ k, depth = k + 1 := ⟨depth - 1, by omega⟩
  refine AcceptsNode.imp h fun c e he h => ?_
  have := hord.lt_of_mem_inner he
  exact ⟨depth, by omega, h⟩

end Imp

/-! ### The checks -/

/-- What is known behind a resolution with some settings. -/
def Setting.known (g : Setting) (typed : DeclId → Prop) : Known :=
  ⟨g.arena, typed, fun path n => (g.imports.find? path (g.interner.text n)).isSome⟩

section Checks

variable {g : Setting} {check : Checker} {R : (DeclId → Prop) → Context → ExprId → Prop}

theorem checks_assignable (expected found : Ty) (span : Span) :
    Checks (assignable expected found span) fun _ _ => True := by
  unfold assignable
  refine checks_table.andThen fun t => ?_
  split
  · exact checks_pure fun _ => trivial
  · split <;> exact (checks_report _ _).weaken fun _ _ h => h.elim

theorem checks_parameter (c : Context) (q : Code.Param) :
    Checks (parameter c q) fun _ c' => c.Adds [(q.name, false)] [q.name] c' :=
  (checks_declare c _ _).bind fun c' => checks_table.andThen fun _ =>
    checks_pure fun _ hc => hc.trans (c'.adds_addValue _ rfl)

theorem checks_setTarget (c : Context) (target : Name) (span : Span) :
    Checks (setTarget c target span) fun _ _ => c.IsVariable target := by
  unfold setTarget
  split
  · exact (checks_report _ _).weaken fun _ _ h => h.elim
  · rename_i info hinfo
    split
    · rename_i hkind
      exact checks_pure fun _ => ⟨info, hinfo, hkind⟩
    · exact (checks_report _ _).weaken fun _ _ h => h.elim

theorem checks_functionArguments (arena : Arena) (args : List (Ty × Option Ty × ExprId)) :
    Checks (functionArguments arena args) fun _ _ => True := by
  induction args using functionArguments.induct with
  | case1 => exact checks_pure fun _ => trivial
  | case2 ps r found arg rest ih =>
    exact (checks_assignable _ _ _).andThen fun _ => ih
  | case3 head rest hne ih =>
    rw [functionArguments.eq_3 _ _ _ hne]
    exact ih

variable (hcheck : ∀ c e, Checks (check c e) fun typed _ => R typed c e)

include hcheck

theorem checks_functionBody (c : Context) (params : List Code.Param) (body : ExprId) :
    Checks (functionBody check c params body) fun typed _ =>
      AcceptsFunction (R typed) c params body := by
  refine (checks_foldlM_adds checks_parameter params c.nested.calling).bind fun c' => ?_
  refine (hcheck c' body).bind fun _ => checks_pure fun typed hbody hc => ⟨c', ?_, hbody⟩
  rwa [← List.map_eq_flatMap, ← List.map_eq_flatMap] at hc

theorem checks_binding (c : Context) (d : DeclId) (n : Name) (isVariable : Bool)
    (type : Option TypeRefId) (value : ExprId) :
    Checks (binding g check c d n isVariable type value) fun typed c' =>
      R typed c value ∧ c.Adds [(n, isVariable)] [n] c' := by
  have hrest : ∀ ty, Checks (do
      let c ← declare c n (g.arena.decl d).span
      return c.addValue n ⟨if isVariable then .variable else .constant, ty⟩)
      fun typed c' => R typed c value → R typed c value ∧ c.Adds [(n, isVariable)] [n] c' :=
    fun ty => (checks_declareValue c n _ (by cases isVariable <;> rfl)).weaken
      fun _ _ hc hv => ⟨hv, hc⟩
  unfold binding
  refine (hcheck c value).bind fun found => ?_
  cases type with
  | none => exact hrest found
  | some t =>
    refine (checks_typeRef c t).andThen fun expected => ?_
    cases found with
    | none => exact hrest (some expected)
    | some found => exact (checks_assignable _ _ _).andThen fun _ => hrest (some expected)

theorem checks_stmt (c : Context) (st : Code.Stmt) :
    Checks (stmt g check c st) fun typed _ => AcceptsStmt (R typed) c st.kind := by
  unfold stmt
  cases st.kind with
  | expr e => exact (hcheck c e).weaken fun _ _ h => .expr h
  | decl d => exact checks_pure fun _ => .decl
  | effect p body =>
    refine (checks_pattern c.nested p).bind fun inner => (hcheck inner body).bind fun _ => ?_
    exact checks_pure fun _ hbody hinner => .effect ⟨inner, hinner, hbody⟩
  | set target value =>
    exact (hcheck c value).bind fun _ => (checks_setTarget c target st.span).bind fun _ =>
      checks_pure fun _ ht hv => .set hv ht

theorem checks_item (order : BodyOrder) (c : Context) (i : Item) :
    Checks (item g check order c i) fun typed r =>
      AcceptsItem g.arena (R typed) order c i r.1 := by
  cases i with
  | stmt st => exact (checks_stmt hcheck c st).bind fun _ => checks_pure fun _ h => .stmt h
  | decl d =>
    simp only [item]
    cases hk : (g.arena.decl d).kind with
    | binding n isVariable type value =>
      exact (checks_binding hcheck c d n isVariable type value).bind fun c' =>
        checks_pure fun _ h => .binding hk h.1 h.2
    | function n params result body =>
      -- bodies that are checked behind the scope are left to `checks_declaredBody`
      by_cases ho : order = .inPlace
      · simp only [if_pos ho]
        exact (checks_functionBody hcheck c params body).bind fun _ =>
          checks_pure fun _ h => .function hk fun _ => h
      · simp only [if_neg ho]
        exact checks_pure fun _ => .function hk fun h => absurd h ho
    | _ => exact checks_pure fun _ => .other (by rw [hk]; rfl)

theorem checks_items (order : BodyOrder) (c : Context) (last : Option Ty) (is : List Item) :
    Checks (items g check order c last is) fun typed r =>
      AcceptsItems g.arena (R typed) order c is r.1 := by
  induction is generalizing c last with
  | nil => exact checks_pure fun _ => .nil
  | cons i is ih =>
    simp only [items]
    exact (checks_item hcheck order c i).bind fun r => (ih r.1 r.2).weaken
      fun _ _ hrest hhead => .cons hhead hrest

theorem checks_declaredBody (c : Context) (i : Item) :
    Checks (declaredBody g check c i) fun typed _ => ∀ d, i = .decl d → ∀ n params result body,
      (g.arena.decl d).kind = .function n params result body →
        AcceptsFunction (R typed) c params body := by
  cases i with
  | stmt st => exact checks_pure fun _ => nofun
  | decl d =>
    simp only [declaredBody]
    cases hk : (g.arena.decl d).kind with
    | function n params result body =>
      refine (checks_functionBody hcheck c params body).weaken fun typed _ h => ?_
      rintro d' ⟨⟩ _ _ _ _ hk'
      cases hk.symm.trans hk'
      exact h
    | _ =>
      refine checks_pure fun _ => ?_
      rintro d' ⟨⟩ _ _ _ _ hk'
      cases hk.symm.trans hk'

omit hcheck in
theorem hoisted_of_mem_hoistedDecls {arena : Arena} {is : List Item} {d : DeclId}
    (hd : d ∈ hoistedDecls arena is) : .decl d ∈ is ∧ (arena.decl d).kind.hoisted := by
  obtain ⟨i, hi, hd⟩ := List.mem_filterMap.1 hd
  cases i with
  | stmt st => cases hd
  | decl d' =>
    dsimp only at hd
    split at hd
    · rename_i h
      cases hd
      exact ⟨hi, h⟩
    · cases hd

theorem checks_scope (order : BodyOrder) (c : Context) (is : List Item) :
    Checks (scope g check order c is) fun typed _ =>
      AcceptsScope (g.known typed) (R typed) order c is := by
  unfold scope
  refine (checks_hoist _ _ c fun d hd => (hoisted_of_mem_hoistedDecls hd).2).bind fun c₀ => ?_
  refine (checks_items hcheck order c₀ (some .action) is).bind fun ⟨c₁, last⟩ => ?_
  cases order with
  | inPlace => exact checks_pure fun _ hitems hhoist => ⟨hhoist, hitems, nofun⟩
  | afterScope =>
    refine (checks_forM is fun i _ => checks_declaredBody hcheck c₁ i).bind fun _ => ?_
    exact checks_pure fun typed hbodies hitems hhoist =>
      ⟨hhoist, hitems, fun _ d hd => hbodies (.decl d) hd d rfl⟩

theorem checks_checkAll (c : Context) (es : List ExprId) :
    Checks (checkAll check c es) fun typed _ => ∀ e ∈ es, R typed c e := by
  induction es with
  | nil => exact checks_pure fun _ => by simp
  | cons e es ih =>
    exact (hcheck c e).bind fun _ => ih.bind fun _ =>
      checks_pure fun _ hrest hhead => List.forall_mem_cons.2 ⟨hhead, hrest⟩

theorem checks_call (c : Context) (callee : ExprId) (args : List ExprId) (span : Span) :
    Checks (call g check c callee args span) fun typed _ => ∀ e ∈ callee :: args, R typed c e := by
  unfold call
  refine (checks_checkAll hcheck c args).bind fun types => ?_
  refine (hcheck c callee).bind fun calleeType => ?_
  refine (?_ : Checks _ fun _ _ => True).weaken fun typed _ _ hcallee hargs =>
    List.forall_mem_cons.2 ⟨hcallee, hargs⟩
  split
  · exact checks_pure fun _ => trivial
  · rename_i signature _
    have hresult : Checks (pure (if signature.result.isUnknown then none
        else some signature.result)) fun _ _ => True := checks_pure fun _ => trivial
    by_cases hknown : knownCallee g.arena c callee
    · have hrest := (checks_functionArguments g.arena
        (signature.params.zip (types.zip args))).andThen fun _ => hresult
      simp only [if_pos hknown]
      by_cases harity : signature.arity ≠ args.length
      · simp only [if_pos harity]
        exact checks_report_bind _ _ hrest
      · simp only [if_neg harity]
        exact hrest
    · simp only [if_neg hknown]
      exact hresult

theorem checks_optional (c : Context) (value : Option ExprId) :
    Checks (optional check c value) fun typed _ => ∀ e ∈ value.toList, R typed c e := by
  cases value with
  | none => exact checks_pure fun _ => by simp
  | some e =>
    exact (hcheck c e).bind fun _ => checks_pure fun _ h => by simpa using h

theorem checks_arm (c : Context) (hasSubject : Bool) (a : Code.Arm) :
    Checks (arm g check c hasSubject a) fun typed _ =>
      AcceptsArm (R typed) c hasSubject a.kind := by
  unfold arm
  cases a.kind with
  | when condition body =>
    exact (hcheck c condition).bind fun _ => (hcheck c body).bind fun _ =>
      checks_pure fun _ hb hc => .when hc hb
  | otherwise body => exact (hcheck c body).bind fun _ => checks_pure fun _ h => .otherwise h
  | is p body =>
    have hrest : Checks (do
        let inner ← pattern g.arena c.nested p
        let _ ← check inner body) fun typed _ => AcceptsArm (R typed) c true (.is p body) := by
      refine (checks_pattern c.nested p).bind fun inner => (hcheck inner body).bind fun _ => ?_
      exact checks_pure fun _ hbody hinner => .is rfl ⟨inner, hinner, hbody⟩
    cases hasSubject with
    | false => exact checks_report_bind _ _ (hrest.weaken fun _ _ _ => trivial)
    | true => exact hrest

/-- A `break` or `return` is accepted if it is allowed where it stands. -/
theorem checks_jump (c : Context) (value : Option ExprId) (allowed : Bool)
    (problem : ResolveProblem) (span : Span) :
    Checks (do
      if !allowed then report problem span
      optional check c value
      return (none : Option Ty)) fun typed _ =>
        allowed = true ∧ ∀ e ∈ value.toList, R typed c e := by
  have hvalue : Checks (do optional check c value; return (none : Option Ty))
      fun typed _ => ∀ e ∈ value.toList, R typed c e :=
    (checks_optional hcheck c value).bind fun _ => checks_pure fun _ h => h
  cases allowed with
  | false => exact checks_report_bind _ _ (hvalue.weaken fun _ _ _ => trivial)
  | true => exact hvalue.weaken fun _ _ h => ⟨rfl, h⟩

/-- **If the parts of an expression are accepted, so is the expression itself.** -/
theorem checks_node (c : Context) (id : ExprId) :
    Checks (node g check c id) fun typed _ =>
      AcceptsNode (g.known typed) (R typed) c (g.arena.expr id).kind := by
  simp only [node]
  cases (g.arena.expr id).kind with
  | group inner =>
    exact (hcheck c inner).weaken fun _ _ h => .operands trivial (by simpa using h)
  | block body => exact (checks_scope hcheck .inPlace c.nested _).weaken fun _ _ h => .block h
  | function params result body =>
    refine (checks_mapM (fun p => checks_typeRef? c _) _).andThen fun types => ?_
    refine (checks_typeRef? c _).andThen fun result => ?_
    exact (checks_functionBody hcheck c params body).bind fun _ =>
      checks_pure fun _ h => .function h
  | branch subject arms =>
    refine (checks_optional hcheck c subject).bind fun _ => ?_
    refine (checks_forM arms fun a _ => checks_arm hcheck c subject.isSome a).bind fun _ => ?_
    exact checks_pure fun _ harms hsubject => .branch hsubject harms
  | loop body => exact (hcheck c.looping body).bind fun _ => checks_pure fun _ h => .loop h
  | cause payload | member payload _ =>
    refine (hcheck c payload).bind fun ty => checks_table.andThen fun t => ?_
    exact checks_pure fun _ h => .operands trivial (by simpa using h)
  | ret value => exact (checks_jump hcheck c value _ _ _).weaken fun _ _ h => .ret h.1 h.2
  | brk value => exact (checks_jump hcheck c value _ _ _).weaken fun _ _ h => .brk h.1 h.2
  | string _ | number _ => exact checks_pure fun _ => .operands trivial (by simp)
  | ident n =>
    dsimp only
    split
    · rename_i hinfo
      exact checks_pure fun _ => .ident (by rw [hinfo]; rfl)
    · exact checks_report_bind _ _ (checks_pure fun _ => trivial)
  | call callee args =>
    exact (checks_call hcheck c callee args _).weaken fun _ _ h => .operands trivial h
  | pipe subject callee args =>
    -- the callee is checked behind all arguments, but evaluated behind the subject
    refine (checks_call hcheck c callee (subject :: args) _).weaken fun _ _ h => ?_
    refine .operands trivial fun e he => h e ?_
    simp only [Code.ExprKind.operands, List.mem_cons] at he ⊢
    exact or_left_comm.1 he

end Checks

/-- An expression that is checked without an error is accepted, as deep as the check goes. -/
theorem checks_expr (g : Setting) (depth : Nat) (c : Context) (id : ExprId) :
    Checks (expr g depth c id) fun typed _ => AcceptedWithin (g.known typed) depth c id := by
  induction depth generalizing c id with
  | zero => exact checks_pure fun _ => trivial
  | succ depth ih => exact checks_node ih c id

/-! ### The names of the library -/

/-- What is known stays known as the names of functions are interned. -/
theorem find?_internNames {interner : Interner} {s : String} {n : Name}
    (h : interner.find? s = some n) (fs : List (String × Signature)) :
    (internNames interner fs).2.find? s = some n := by
  induction fs generalizing interner with
  | nil => exact h
  | cons f fs ih => exact ih (Interner.find?_intern h f.1)

theorem exists_of_mem_internNames {interner : Interner} {fs : List (String × Signature)}
    {x : Name × Signature} (hx : x ∈ (internNames interner fs).1) :
    ∃ s, (s, x.2) ∈ fs ∧ (internNames interner fs).2.find? s = some x.1 := by
  induction fs generalizing interner with
  | nil => cases hx
  | cons f fs ih =>
    rcases List.mem_cons.1 hx with rfl | hx
    · exact ⟨f.1, List.mem_cons_self, find?_internNames (Interner.find?_intern_self _ _) fs⟩
    · obtain ⟨s, hs, hfind⟩ := ih hx
      exact ⟨s, List.mem_cons_of_mem _ hs, hfind⟩

end Resolve

/-- What is known of a module behind its resolution. -/
def Module.known (m : Module) (imports : Imports) (interner : Interner) (types : TypeTable) :
    Resolve.Known :=
  Resolve.Setting.known ⟨m.arena, interner, imports⟩ types.Declares

/-- The context around a module: the builtins. -/
def Module.outerContext (m : Module) (imports : Imports) (interner : Interner) : Resolve.Context :=
  ⟨Resolve.builtinScope (.builtin interner m.arena.typeRefs.size)
    (Resolve.internNames interner imports.prelude).1, [], false, false⟩

/-- The context of the declarations of a module. -/
def Module.context (m : Module) (imports : Imports) (interner : Interner) : Resolve.Context :=
  Resolve.moduleContext (.builtin interner m.arena.typeRefs.size)
    (Resolve.internNames interner imports.prelude).1

theorem Module.context_eq_nested (m : Module) (imports : Imports) (interner : Interner) :
    m.context imports interner = (m.outerContext imports interner).nested :=
  rfl

/-- **If resolution finds no error, the scope of the module is accepted.** -/
theorem Module.accepted_of_resolve {m : Module} (hm : m.arena.Numbered) {imports : Imports}
    {interner interner' : Interner} {types : TypeTable}
    (h : m.resolve imports interner = (types, [], interner')) :
    Resolve.AcceptsScope (m.known imports interner' types)
      (Resolve.Accepted (m.known imports interner' types)) .afterScope
      (m.context imports interner) (m.decls.map Resolve.Item.decl) := by
  obtain rfl : (m.resolve imports interner).2.2 = interner' := by rw [h]
  obtain rfl : (m.resolve imports interner).1 = types := by rw [h]
  have herrors : (m.resolve imports interner).2.1 = [] := by rw [h]
  obtain ⟨-, haccepted⟩ := Resolve.checks_scope (Resolve.checks_expr
    ⟨m.arena, (Resolve.internNames interner imports.prelude).2, imports⟩ m.arena.exprs.size)
    .afterScope (m.context imports interner) (m.decls.map Resolve.Item.decl)
    ⟨.builtin interner m.arena.typeRefs.size, #[]⟩
  refine (haccepted (congrArg List.length herrors) _ fun _ h => h).imp fun c i hi e he h => ?_
  obtain ⟨d, -, rfl⟩ := List.mem_map.1 hi
  exact ⟨_, hm.bodies d e he, h⟩

/-- The module of a file, with its types and the interner behind resolution, if nothing is wrong
with it. -/
def Tree.File.resolved? (file : Tree.File) (imports : Imports) :
    Option (Module × TypeTable × Interner) :=
  match Module.ofTree file .new with
  | (.error _, _) => none
  | (.ok m, interner) =>
    match m.resolve imports interner with
    | (types, [], interner') => some (m, types, interner')
    | _ => none

theorem Tree.File.of_resolved? {file : Tree.File} {imports : Imports} {m : Module}
    {types : TypeTable} {interner' : Interner}
    (h : file.resolved? imports = some (m, types, interner')) :
    ∃ interner, Module.ofTree file .new = (.ok m, interner) ∧
      m.resolve imports interner = (types, [], interner') := by
  unfold Tree.File.resolved? at h
  split at h
  · cases h
  · rename_i m' interner hm
    split at h
    · rename_i hres
      cases h
      exact ⟨interner, hm, hres⟩
    · cases h

end SignalLang
