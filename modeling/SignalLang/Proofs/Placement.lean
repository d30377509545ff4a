import SignalLang.Proofs.Lexical
import SignalLang.Resolve.Hoisting

/-!
# Placement

A `break` has to stand in a loop, a `return` in a function, an `is` arm under a subject, and the
types that a block declares have to be known.

* `Placed arena typed inLoop inFunction id` : the expression `id` and all that is written in it are
  placed so, where `typed` are the declared types that are known.
* `PlacedDecl` : the same of what a declaration evaluates.
* `Arena.Breaks` : a `break` leads out of an expression.
* `Placed.apart` : **an expression out of which no `break` leads can stand anywhere in a function.**
-/

namespace SignalLang

/-- A table has a type for a declaration. -/
def TypeTable.Declares (t : TypeTable) (d : DeclId) : Prop := (t.declType? d).isSome

/-! ### Well placed expressions -/

namespace Arena

/-- Whether an expression at a position has a loop of its function around it. -/
def Position.inLoop (around : Bool) : Position → Bool
  | .here => around
  | .loopBody => true
  | .functionBody => false

/-- Whether an expression at a position has a function around it. -/
def Position.inFunction (around : Bool) : Position → Bool
  | .here => around
  | .loopBody => around
  | .functionBody => true

/-- An expression itself, but not what is written in it, is well placed. -/
structure FitsAt (arena : Arena) (typed : DeclId → Prop) (inLoop inFunction : Bool) (id : ExprId) :
    Prop where
  brk : ∀ value, (arena.expr id).kind = .brk value → inLoop = true
  ret : ∀ value, (arena.expr id).kind = .ret value → inFunction = true
  is : ∀ arms, (arena.expr id).kind = .branch none arms →
    ∀ a ∈ arms, ∀ pattern body, a.kind ≠ .is pattern body
  types : ∀ d ∈ (arena.expr id).kind.decls, (Resolve.typeName? (arena.decl d).kind).isSome → typed d

end Arena

/-- An expression and all that is written in it are well placed. -/
inductive Placed (arena : Arena) (typed : DeclId → Prop) : Bool → Bool → ExprId → Prop
  | intro {inLoop inFunction id} (fits : arena.FitsAt typed inLoop inFunction id)
      (children : ∀ pos e, arena.Child id pos e →
        Placed arena typed (pos.inLoop inLoop) (pos.inFunction inFunction) e) :
      Placed arena typed inLoop inFunction id

variable {arena : Arena} {typed : DeclId → Prop} {l r : Bool} {id e : ExprId}

theorem Placed.fits (h : Placed arena typed l r id) : arena.FitsAt typed l r id := by
  cases h with | intro fits _ => exact fits

theorem Placed.child {pos : Arena.Position} (h : Placed arena typed l r id)
    (he : arena.Child id pos e) : Placed arena typed (pos.inLoop l) (pos.inFunction r) e := by
  cases h with | intro _ children => exact children pos e he

/-- What is placed stays so with more loops and functions around. -/
theorem Placed.mono (h : Placed arena typed l r id) {l' r' : Bool} (hl : l = true → l' = true)
    (hr : r = true → r' = true) : Placed arena typed l' r' id := by
  induction h generalizing l' r' with
  | intro fits children ih =>
    refine ⟨⟨fun v hk => hl (fits.brk v hk), fun v hk => hr (fits.ret v hk), fits.is, fits.types⟩,
      fun pos e he => ih pos e he ?_ ?_⟩
    · cases pos with
      | here => exact hl
      | loopBody | functionBody => exact fun h => h
    · cases pos with
      | here | loopBody => exact hr
      | functionBody => exact fun h => h

/-- All that a declaration evaluates is well placed. -/
structure PlacedDecl (arena : Arena) (typed : DeclId → Prop) (inLoop inFunction : Bool)
    (d : DeclId) : Prop where
  value : ∀ n isVariable type value, (arena.decl d).kind = .binding n isVariable type value →
    Placed arena typed inLoop inFunction value
  body : ∀ n params result body, (arena.decl d).kind = .function n params result body →
    Placed arena typed false true body
  type : (Resolve.typeName? (arena.decl d).kind).isSome → typed d

/-- The declarations of a block are placed if the block is. -/
theorem Placed.decl (h : Placed arena typed l r id) {d : DeclId}
    (hd : d ∈ (arena.expr id).kind.decls) : PlacedDecl arena typed l r d := by
  refine ⟨fun n isVariable type value hk => ?_, fun n params result body hk => ?_,
    h.fits.types d hd⟩
  · cases hkind : (arena.expr id).kind with
    | block body =>
      rw [hkind] at hd
      obtain ⟨st, hst, hs⟩ := Arena.mem_declsOf.1 hd
      exact h.child (.part (.stmt hkind hst (by simp [Code.Stmt.operand?, hs, hk])))
    | _ => simp [hkind] at hd
  · exact h.child (.declared hd hk)

/-! ### Expressions on their own -/

/-- A `break` leads out of an expression. -/
inductive Arena.Breaks (arena : Arena) : ExprId → Prop
  | here {id : ExprId} {value} (hk : (arena.expr id).kind = .brk value) : Breaks arena id
  | child {id e : ExprId} (hc : arena.Child id .here e) (h : Breaks arena e) : Breaks arena id

/-- **An expression out of which no `break` leads can stand anywhere in a function.** -/
theorem Placed.apart (h : Placed arena typed l r id) (hb : ¬ arena.Breaks id) :
    Placed arena typed false true id := by
  induction h with
  | intro fits children ih =>
    refine ⟨⟨fun v hk => absurd (.here hk) hb, fun _ _ => rfl, fits.is, fits.types⟩,
      fun pos e he => ?_⟩
    cases pos with
    | here => exact ih .here e he fun hbe => hb (.child he hbe)
    | loopBody => exact (children .loopBody e he).mono (fun h => h) fun _ => rfl
    | functionBody => exact children .functionBody e he

/-- The expression stands somewhere in a module. -/
inductive Module.Contains (m : Module) : ExprId → Prop
  | value {d n isVariable type e} (hd : d ∈ m.decls)
      (hk : (m.arena.decl d).kind = .binding n isVariable type e) : Contains m e
  | body {d n params result e} (hd : d ∈ m.decls)
      (hk : (m.arena.decl d).kind = .function n params result e) : Contains m e
  | child {id pos e} (h : Contains m id) (hc : m.arena.Child id pos e) : Contains m e

theorem Module.Contains.placed {m : Module}
    (hm : ∀ d ∈ m.decls, PlacedDecl m.arena typed false false d) (h : m.Contains id) :
    ∃ l r, Placed m.arena typed l r id := by
  induction h with
  | value hd hk => exact ⟨_, _, (hm _ hd).value _ _ _ _ hk⟩
  | body hd hk => exact ⟨_, _, (hm _ hd).body _ _ _ _ hk⟩
  | child _ hc ih =>
    obtain ⟨l, r, hplaced⟩ := ih
    exact ⟨_, _, hplaced.child hc⟩

end SignalLang
