import SignalLang.Proofs.Acceptance

/-!
# What is accepted is well placed

If resolution finds no error, every expression of the module is well placed: a context in which an
expression is accepted says what it has around it.

* `Resolve.AcceptsScope.placed` : what the members of an accepted scope evaluate is placed, if this
  holds of the expressions in them.
* `Resolve.Accepted.placed` : **an accepted expression is placed as its context says.**
* `Module.placed_of_resolve` : **if resolution finds no error, all that the declarations of a module
  evaluate is well placed.**
-/

namespace SignalLang

namespace Resolve

variable {arena : Arena} {typed : DeclId → Prop} {k : Known} {R : Context → ExprId → Prop}

/-! ### Statements and declarations -/

/-- Whether an expression is placed as its context says. -/
def PlacedIn (arena : Arena) (typed : DeclId → Prop) (c : Context) (e : ExprId) : Prop :=
  Placed arena typed c.inLoop c.inFunction e

theorem PlacedIn.of_eq {c c' : Context} {e : ExprId} (hl : c'.inLoop = c.inLoop)
    (hf : c'.inFunction = c.inFunction) (h : PlacedIn arena typed c' e) :
    PlacedIn arena typed c e := by
  rwa [PlacedIn, hl, hf] at h

theorem PlacedIn.of_adds {c c' : Context} {es : List (Name × Bool)} {ns : List Name} {e : ExprId}
    (hc : c.Adds es ns c') (h : PlacedIn arena typed c' e) : PlacedIn arena typed c e :=
  h.of_eq hc.inLoop hc.inFunction

/-- The body of a function has the function around it and no loop. -/
theorem AcceptsFunction.placed {c : Context} {params : List Code.Param} {body : ExprId}
    (h : AcceptsFunction (PlacedIn arena typed) c params body) :
    Placed arena typed false true body :=
  let ⟨_, hc, hbody⟩ := h
  hbody.of_adds hc

theorem AcceptsUnder.placed {c : Context} {p : Code.Pattern} {body : ExprId}
    (h : AcceptsUnder (PlacedIn arena typed) c p body) : PlacedIn arena typed c body :=
  let ⟨_, hc, hbody⟩ := h
  (hbody.of_adds hc : PlacedIn arena typed c.nested body).of_eq rfl rfl

theorem AcceptsStmt.placed {c : Context} {kind : Code.StmtKind}
    (h : AcceptsStmt (PlacedIn arena typed) c kind) :
    ∀ e ∈ kind.subexprs, PlacedIn arena typed c e := by
  cases h with
  | expr h => simpa using h
  | decl => simp
  | effect h => simpa using h.placed
  | set hv _ => simpa using hv

/-! ### Scopes -/

/-- What a member of a scope evaluates there is placed.  Bodies of functions are left out unless
they are checked in place. -/
def ItemPlaced (arena : Arena) (typed : DeclId → Prop) (order : BodyOrder) (c : Context) :
    Item → Prop
  | .stmt st => ∀ e ∈ st.kind.subexprs, PlacedIn arena typed c e
  | .decl d =>
    (∀ x isVariable type value, (arena.decl d).kind = .binding x isVariable type value →
      PlacedIn arena typed c value) ∧
    (order = .inPlace → ∀ x params result body,
      (arena.decl d).kind = .function x params result body → Placed arena typed false true body)

theorem AcceptsItem.placed {order : BodyOrder} {c c' : Context} {i : Item}
    (h : AcceptsItem arena (PlacedIn arena typed) order c i c') :
    ItemPlaced arena typed order c i := by
  cases h with
  | stmt h => exact h.placed
  | binding hd hv _ => exact ⟨fun _ _ _ _ hk => by cases hd.symm.trans hk; exact hv, by simp [hd]⟩
  | function hd h =>
    exact ⟨by simp [hd], fun ho _ _ _ _ hk => by cases hd.symm.trans hk; exact (h ho).placed⟩
  | other hd => constructor <;> intros <;> simp_all

/-- A member leaves what there is around the scope. -/
theorem AcceptsItem.around {order : BodyOrder} {c c' : Context} {i : Item}
    (h : AcceptsItem arena R order c i c') :
    c'.inLoop = c.inLoop ∧ c'.inFunction = c.inFunction := by
  cases h with
  | binding _ _ hc => exact ⟨hc.inLoop, hc.inFunction⟩
  | stmt | function | other => exact ⟨rfl, rfl⟩

theorem ItemPlaced.of_eq {order : BodyOrder} {c c' : Context} {i : Item}
    (hc : c'.inLoop = c.inLoop ∧ c'.inFunction = c.inFunction)
    (h : ItemPlaced arena typed order c' i) : ItemPlaced arena typed order c i := by
  cases i with
  | stmt st => exact fun e he => (h e he).of_eq hc.1 hc.2
  | decl d => exact ⟨fun x v t e hk => (h.1 x v t e hk).of_eq hc.1 hc.2, h.2⟩

theorem AcceptsItems.placed {order : BodyOrder} {c c' : Context} {is : List Item}
    (h : AcceptsItems arena (PlacedIn arena typed) order c is c') :
    ∀ i ∈ is, ItemPlaced arena typed order c i := by
  induction h with
  | nil => simp
  | cons hi _ ih =>
    exact List.forall_mem_cons.2 ⟨hi.placed, fun i hi' => (ih i hi').of_eq hi.around⟩

/-- The declared types of a scope are known. -/
def TypesKnown (arena : Arena) (typed : DeclId → Prop) (is : List Item) : Prop :=
  ∀ d, .decl d ∈ is → (typeName? (arena.decl d).kind).isSome → typed d

theorem mem_hoistedDecls {is : List Item} {d : DeclId} (hd : .decl d ∈ is)
    (ht : (typeName? (arena.decl d).kind).isSome) : d ∈ hoistedDecls arena is := by
  refine List.mem_filterMap.2 ⟨.decl d, hd, ?_⟩
  cases hk : (arena.decl d).kind <;> simp_all [typeName?, Code.DeclKind.hoisted]

/-- The members of an accepted scope are placed, and so are the bodies of the functions among
them. -/
theorem AcceptsScope.placed {order : BodyOrder} {c : Context} {is : List Item}
    (h : AcceptsScope k (PlacedIn k.arena k.typed) order c is) :
    TypesKnown k.arena k.typed is ∧ ∀ i ∈ is, ItemPlaced k.arena k.typed .inPlace c i := by
  obtain ⟨hoists, items, bodies⟩ := h
  refine ⟨fun d hd ht => hoists.types d (mem_hoistedDecls hd ht) ht, fun i hi => ?_⟩
  have hplaced := (items.placed i hi).of_eq ⟨hoists.adds.inLoop, hoists.adds.inFunction⟩
  cases order with
  | inPlace => exact hplaced
  | afterScope =>
    cases i with
    | stmt st => exact hplaced
    | decl d =>
      exact ⟨hplaced.1,
        fun _ x params result body hk => (bodies rfl d hi x params result body hk).placed⟩

/-- A block whose members are placed is placed itself. -/
theorem placed_block {id : ExprId} {body : List Code.Stmt} {typed : DeclId → Prop} {c : Context}
    (hk : (arena.expr id).kind = .block body)
    (htypes : TypesKnown arena typed (body.map Item.ofStmt))
    (hitems : ∀ i ∈ body.map Item.ofStmt, ItemPlaced arena typed .inPlace c i) :
    PlacedIn arena typed c id := by
  have hdecl : ∀ d ∈ (arena.expr id).kind.decls, .decl d ∈ body.map Item.ofStmt := by
    intro d hd
    rw [hk] at hd
    obtain ⟨st, hst, hs⟩ := Arena.mem_declsOf.1 hd
    exact List.mem_map.2 ⟨st, hst, by simp [Item.ofStmt, hs]⟩
  have hstmt : ∀ st ∈ body, (∀ d, st.kind ≠ .decl d) → ∀ e ∈ st.kind.subexprs,
      PlacedIn arena typed c e := by
    intro st hst hnot e he
    have hof : Item.ofStmt st = .stmt st := by
      unfold Item.ofStmt
      split
      · rename_i d hs
        exact absurd hs (hnot d)
      · rfl
    exact hitems (.stmt st) (List.mem_map.2 ⟨st, hst, hof⟩) e he
  refine ⟨⟨by simp [hk], by simp [hk], by simp [hk], fun d hd => htypes d (hdecl d hd)⟩, ?_⟩
  intro pos e he
  cases he with
  | part h =>
    -- of the parts of an expression, a block has only its statements
    cases h with
    | operand h => simp [hk] at h
    | condition hk' | arm hk' => simp [hk] at hk'
    | @stmt body' st _ hk' hst hop =>
      rw [hk] at hk'
      cases hk'
      unfold Code.Stmt.operand? at hop
      cases hs : st.kind with
      | expr e' | set _ e' =>
        simp only [hs, Option.some.injEq] at hop
        exact hstmt st hst (by simp [hs]) e (by simp [hs, hop])
      | effect p b => simp [hs] at hop
      | decl d =>
        simp only [hs] at hop
        have hd := hitems (.decl d) (List.mem_map.2 ⟨st, hst, by simp [Item.ofStmt, hs]⟩)
        split at hop
        · rename_i hdk
          cases hop
          exact hd.1 _ _ _ _ hdk
        · cases hop
  | handler h =>
    obtain ⟨body', hk', st, hst, p, hs⟩ := h
    rw [hk] at hk'
    cases hk'
    exact hstmt st hst (by simp [hs]) e (by simp [hs])
  | loop hk' | function hk' => simp [hk] at hk'
  | declared hd hdk => exact (hitems _ (hdecl _ hd)).2 rfl _ _ _ _ hdk

/-- An expression that declares nothing is placed if it stands where it may and the expressions in
it are placed. -/
theorem placed_of_parts {id : ExprId} {typed : DeclId → Prop} {l r : Bool}
    (hblock : ∀ body, (arena.expr id).kind ≠ .block body)
    (hbrk : ∀ value, (arena.expr id).kind = .brk value → l = true)
    (hret : ∀ value, (arena.expr id).kind = .ret value → r = true)
    (hoperands : ∀ e ∈ (arena.expr id).kind.operands, Placed arena typed l r e)
    (harms : ∀ subject arms, (arena.expr id).kind = .branch subject arms → ∀ a ∈ arms,
      (subject = none → ∀ p body, a.kind ≠ .is p body) ∧
        ∀ e ∈ a.kind.subexprs, Placed arena typed l r e)
    (hloop : ∀ e, (arena.expr id).kind = .loop e → Placed arena typed true r e)
    (hfunction : ∀ params result e, (arena.expr id).kind = .function params result e →
      Placed arena typed false true e) : Placed arena typed l r id := by
  have hdecls : (arena.expr id).kind.decls = [] := by
    cases hk : (arena.expr id).kind with
    | block body => exact absurd hk (hblock body)
    | _ => rfl
  refine ⟨⟨hbrk, hret, fun arms hk a ha => (harms none arms hk a ha).1 rfl,
    fun d hd => by rw [hdecls] at hd; cases hd⟩, fun pos e he => ?_⟩
  cases he with
  | part h =>
    cases h with
    | operand h => exact hoperands e h
    | stmt hk _ _ => exact absurd hk (hblock _)
    | condition hk ha hc => exact (harms _ _ hk _ ha).2 e (by simp [hc])
    | @arm _ _ a hk ha =>
      refine (harms _ _ hk a ha).2 _ ?_
      cases a.kind <;> simp [Code.ArmKind.body]
  | handler h =>
    obtain ⟨body, hk, -⟩ := h
    exact absurd hk (hblock body)
  | loop hk => exact hloop e hk
  | function hk => exact hfunction _ _ e hk
  | declared hd _ =>
    rw [hdecls] at hd
    cases hd

/-! ### Expressions -/

theorem AcceptsArm.placed {c : Context} {hasSubject : Bool} {kind : Code.ArmKind}
    (h : AcceptsArm (PlacedIn arena typed) c hasSubject kind) :
    (hasSubject = false → ∀ p body, kind ≠ .is p body) ∧
      ∀ e ∈ kind.subexprs, PlacedIn arena typed c e := by
  cases h with
  | when hc hb => exact ⟨nofun, by simpa using ⟨hc, hb⟩⟩
  | is hs h => exact ⟨fun hno => by simp [hs] at hno, by simpa using h.placed⟩
  | otherwise h => exact ⟨nofun, by simpa using h⟩

/-- If what is accepted of its parts is their place, an accepted expression is placed. -/
theorem AcceptsNode.placed {c : Context} {id : ExprId}
    (h : AcceptsNode k (PlacedIn k.arena k.typed) c (k.arena.expr id).kind) :
    PlacedIn k.arena k.typed c id := by
  generalize hk : (k.arena.expr id).kind = kind at h
  cases h with
  | block h => exact placed_block hk h.placed.1 h.placed.2
  | function h =>
    exact placed_of_parts (by simp [hk]) (by simp [hk]) (by simp [hk]) (by simp [hk])
      (by simp [hk]) (by simp [hk]) (by simpa [hk] using h.placed)
  | branch hs ha =>
    refine placed_of_parts (by simp [hk]) (by simp [hk]) (by simp [hk]) (by rw [hk]; exact hs) ?_
      (by simp [hk]) (by simp [hk])
    rw [hk]
    rintro _ _ ⟨⟩ a hmem
    exact ⟨fun hnone => (ha a hmem).placed.1 (by simp [hnone]), (ha a hmem).placed.2⟩
  | loop h =>
    exact placed_of_parts (by simp [hk]) (by simp [hk]) (by simp [hk]) (by simp [hk])
      (by simp [hk]) (fun e he => by cases hk.symm.trans he; exact h) (by simp [hk])
  | ret hin h | brk hin h =>
    exact placed_of_parts (by simp [hk]) (by simp [hk, hin]) (by simp [hk, hin])
      (by rw [hk]; exact h) (by simp [hk]) (by simp [hk]) (by simp [hk])
  | ident _ =>
    exact placed_of_parts (by simp [hk]) (by simp [hk]) (by simp [hk]) (by simp [hk])
      (by simp [hk]) (by simp [hk]) (by simp [hk])
  | operands honly h =>
    rw [← hk] at h honly
    exact placed_of_parts (fun _ hk => by simp [hk, OnlyOperands] at honly)
      (fun _ hk => by simp [hk, OnlyOperands] at honly)
      (fun _ hk => by simp [hk, OnlyOperands] at honly) h
      (fun _ _ hk => by simp [hk, OnlyOperands] at honly)
      (fun _ hk => by simp [hk, OnlyOperands] at honly)
      (fun _ _ _ hk => by simp [hk, OnlyOperands] at honly)

/-- **An accepted expression is placed as its context says.** -/
theorem AcceptedWithin.placed {depth : Nat} (hord : k.arena.Ordered) {c : Context} {id : ExprId}
    (hid : id.index < depth) (h : AcceptedWithin k depth c id) : PlacedIn k.arena k.typed c id := by
  induction depth generalizing c id with
  | zero => omega
  | succ depth ih =>
    refine AcceptsNode.placed (AcceptsNode.imp h fun c e he h => ?_)
    have := hord.lt_of_mem_inner he
    exact ih (by omega) h

theorem Accepted.placed (hord : k.arena.Ordered) {c : Context} {id : ExprId}
    (h : Accepted k c id) : PlacedIn k.arena k.typed c id :=
  let ⟨_, hid, h⟩ := h
  h.placed hord hid

end Resolve

/-- **If resolution finds no error, all that a module's declarations evaluate is well placed.** -/
theorem Module.placed_of_resolve {m : Module} (hm : m.arena.Numbered) {imports : Imports}
    {interner interner' : Interner} {types : TypeTable}
    (h : m.resolve imports interner = (types, [], interner')) {d : DeclId} (hd : d ∈ m.decls) :
    PlacedDecl m.arena types.Declares false false d := by
  obtain ⟨htypes, hitems⟩ := ((Module.accepted_of_resolve hm h).imp
    fun c i _ e _ (he : Resolve.Accepted _ c e) => he.placed hm.ordered).placed
  have hmem : Resolve.Item.decl d ∈ m.decls.map Resolve.Item.decl := List.mem_map_of_mem hd
  obtain ⟨hvalue, hbody⟩ := hitems _ hmem
  exact ⟨hvalue, hbody rfl, htypes d hmem⟩

end SignalLang
