import SignalLang.Proofs.Lexical
import SignalLang.Code.Lowering

/-!
# Numbering

Translation numbers a node when all that it refers to has been numbered.  So the numbers decrease
along every path into an expression, through declarations as well, and no expression is written
inside itself.  The same goes for written types.

* `Arena.Numbered` : the invariant of the translation, about all nodes built so far.
* `Lowering.Builds` : a step that keeps the invariant, only adds nodes, and refers to nodes that are
  there.
* `Module.numbered_of_ofTree` : **in the code of every file, nodes are numbered after those to which
  they refer.**
-/

namespace SignalLang

/-- The written types of which a written type consists. -/
@[simp] def Code.TypeRefKind.parts : Code.TypeRefKind → List TypeRefId
  | .named _ => []
  | .function params result => params ++ [result]

namespace Arena

/-- All nodes refer to expressions with lower numbers, and to declarations that are there; written
types consist of written types with lower numbers. -/
structure Numbered (a : Arena) : Prop where
  exprs : ∀ id, ∀ e ∈ (a.expr id).kind.subexprs, e.index < id.index
  decls : ∀ id, ∀ d ∈ (a.expr id).kind.decls, d.index < a.decls.size ∧
    ∀ e ∈ (a.decl d).kind.subexprs, e.index < id.index
  bodies : ∀ d, ∀ e ∈ (a.decl d).kind.subexprs, e.index < a.exprs.size
  types : ∀ r, ∀ q ∈ (a.typeRef r).kind.parts, q.index < r.index

theorem Numbered.ordered {a : Arena} (h : a.Numbered) : a.Ordered :=
  fun id => ⟨h.exprs id, fun d hd => (h.decls id d hd).2⟩

/-- The arena `a'` has at least the nodes of `a`. -/
structure Le (a a' : Arena) : Prop where
  exprs : a.exprs.size ≤ a'.exprs.size
  decls : a.decls.size ≤ a'.decls.size
  typeRefs : a.typeRefs.size ≤ a'.typeRefs.size

theorem Le.refl (a : Arena) : a.Le a := ⟨Nat.le_refl _, Nat.le_refl _, Nat.le_refl _⟩

theorem Le.trans {a b c : Arena} (h : a.Le b) (h' : b.Le c) : a.Le c :=
  ⟨Nat.le_trans h.exprs h'.exprs, Nat.le_trans h.decls h'.decls,
    Nat.le_trans h.typeRefs h'.typeRefs⟩

/-- The expressions are numbered already. -/
def HasExprs (a : Arena) (es : List ExprId) : Prop := ∀ e ∈ es, e.index < a.exprs.size

/-- The declarations are numbered already. -/
def HasDecls (a : Arena) (ds : List DeclId) : Prop := ∀ d ∈ ds, d.index < a.decls.size

/-- The written types are numbered already. -/
def HasTypeRefs (a : Arena) (rs : List TypeRefId) : Prop := ∀ r ∈ rs, r.index < a.typeRefs.size

theorem HasExprs.mono {a a' : Arena} {es : List ExprId} (h : a.HasExprs es) (hle : a.Le a') :
    a'.HasExprs es := fun e he => Nat.lt_of_lt_of_le (h e he) hle.exprs

theorem HasDecls.mono {a a' : Arena} {ds : List DeclId} (h : a.HasDecls ds) (hle : a.Le a') :
    a'.HasDecls ds := fun d hd => Nat.lt_of_lt_of_le (h d hd) hle.decls

theorem hasExprs_nil (a : Arena) : a.HasExprs [] := fun _ h => nomatch h

theorem hasDecls_nil (a : Arena) : a.HasDecls [] := fun _ h => nomatch h

theorem hasExprs_cons {a : Arena} {e : ExprId} {es : List ExprId} :
    a.HasExprs (e :: es) ↔ e.index < a.exprs.size ∧ a.HasExprs es :=
  List.forall_mem_cons

theorem hasExprs_append {a : Arena} {es es' : List ExprId} :
    a.HasExprs (es ++ es') ↔ a.HasExprs es ∧ a.HasExprs es' :=
  List.forall_mem_append

theorem numbered_empty : Arena.empty.Numbered where
  exprs id e he := by simp [Arena.empty, Arena.expr] at he
  decls id d hd := by simp [Arena.empty, Arena.expr, Eval.declsOf] at hd
  bodies d e he := by simp [Arena.empty, Arena.decl] at he
  types r q hq := by simp [Arena.empty, Arena.typeRef] at hq

theorem expr_addExpr (a : Arena) (e : Code.Expr) (id : ExprId) :
    (a.addExpr e).2.expr id = if id.index = a.exprs.size then e else a.expr id := by
  simp only [addExpr, expr, Array.getD_eq_getD_getElem?, Array.getElem?_push]
  split <;> rfl

theorem decl_addDecl (a : Arena) (d : Code.Decl) (id : DeclId) :
    (a.addDecl d).2.decl id = if id.index = a.decls.size then d else a.decl id := by
  simp only [addDecl, decl, Array.getD_eq_getD_getElem?, Array.getElem?_push]
  split <;> rfl

theorem typeRef_addTypeRef (a : Arena) (t : Code.TypeRef) (r : TypeRefId) :
    (a.addTypeRef t).2.typeRef r = if r.index = a.typeRefs.size then t else a.typeRef r := by
  simp only [addTypeRef, typeRef, Array.getD_eq_getD_getElem?, Array.getElem?_push]
  split <;> rfl

theorem le_addExpr (a : Arena) (e : Code.Expr) : a.Le (a.addExpr e).2 :=
  ⟨by simp [addExpr], Nat.le_refl _, Nat.le_refl _⟩

theorem le_addDecl (a : Arena) (d : Code.Decl) : a.Le (a.addDecl d).2 :=
  ⟨Nat.le_refl _, by simp [addDecl], Nat.le_refl _⟩

theorem le_addTypeRef (a : Arena) (t : Code.TypeRef) : a.Le (a.addTypeRef t).2 :=
  ⟨Nat.le_refl _, Nat.le_refl _, by simp [addTypeRef]⟩

/-- One more expression that refers to what is there. -/
theorem Numbered.addExpr {a : Arena} (h : a.Numbered) {e : Code.Expr}
    (hes : a.HasExprs e.kind.subexprs) (hds : a.HasDecls e.kind.decls) :
    (a.addExpr e).2.Numbered where
  exprs id e' he' := by
    rw [expr_addExpr] at he'
    split at he'
    · rename_i hid
      rw [hid]
      exact hes e' he'
    · exact h.exprs id e' he'
  decls id d hd := by
    rw [expr_addExpr] at hd
    split at hd
    · rename_i hid
      rw [hid]
      exact ⟨hds d hd, h.bodies d⟩
    · exact h.decls id d hd
  bodies d e' he' := Nat.lt_of_lt_of_le (h.bodies d e' he') (a.le_addExpr e).exprs
  types := h.types

/-- One more declaration that refers to what is there.  No block refers to it yet. -/
theorem Numbered.addDecl {a : Arena} (h : a.Numbered) {d : Code.Decl}
    (hes : a.HasExprs d.kind.subexprs) : (a.addDecl d).2.Numbered where
  exprs := h.exprs
  decls id d' hd' := by
    obtain ⟨hlt, hsub⟩ := h.decls id d' hd'
    refine ⟨Nat.lt_of_lt_of_le hlt (a.le_addDecl d).decls, ?_⟩
    -- an older block refers to older declarations only
    rw [decl_addDecl, if_neg (by omega)]
    exact hsub
  bodies d' e he := by
    rw [decl_addDecl] at he
    split at he
    · exact hes e he
    · exact h.bodies d' e he
  types := h.types

/-- One more written type that consists of what is there. -/
theorem Numbered.addTypeRef {a : Arena} (h : a.Numbered) {t : Code.TypeRef}
    (hrs : a.HasTypeRefs t.kind.parts) : (a.addTypeRef t).2.Numbered where
  exprs := h.exprs
  decls := h.decls
  bodies := h.bodies
  types r q hq := by
    rw [typeRef_addTypeRef] at hq
    split at hq
    · rename_i hr
      rw [hr]
      exact hrs q hq
    · exact h.types r q hq

end Arena

namespace Lowering

/-! ### Steps -/

/-- From the arena `a`, a step keeps the numbering, only adds nodes, and gives a result for which
`post` holds then. -/
def Builds (a : Arena) (x : Step α) (post : α → Arena → Prop) : Prop :=
  ∀ s : Lowering, s.arena = a → a.Numbered →
    (x s).2.arena.Numbered ∧ a.Le (x s).2.arena ∧ post (x s).1 (x s).2.arena

variable {a : Arena} {α β : Type}

theorem builds_pure {r : α} {post : α → Arena → Prop} (h : post r a) :
    Builds a (pure r) post := by
  rintro s rfl ha
  exact ⟨ha, .refl _, h⟩

theorem Builds.bind {x : Step α} {f : α → Step β} {mid : α → Arena → Prop}
    {post : β → Arena → Prop} (hx : Builds a x mid)
    (hf : ∀ r a', a.Le a' → mid r a' → Builds a' (f r) post) : Builds a (x >>= f) post := by
  intro s hs ha
  obtain ⟨hn, hle, hmid⟩ := hx s hs ha
  obtain ⟨hn', hle', hpost⟩ := hf _ _ hle hmid (x s).2 rfl hn
  exact ⟨hn', hle.trans hle', hpost⟩

theorem builds_name (text : String) : Builds a (name text) fun _ _ => True := by
  rintro s rfl ha
  exact ⟨ha, .refl _, trivial⟩

theorem builds_name? (text : Option String) : Builds a (name? text) fun _ _ => True := by
  cases text with
  | none => exact builds_pure trivial
  | some text => exact (builds_name text).bind fun _ _ _ _ => builds_pure trivial

theorem builds_malformed (e : LiteralError) : Builds a (malformed e) fun _ _ => True := by
  rintro s rfl ha
  exact ⟨ha, .refl _, trivial⟩

theorem builds_addTypeRef {kind : Code.TypeRefKind} (span : Span) (hrs : a.HasTypeRefs kind.parts) :
    Builds a (addTypeRef kind span) fun r a' => r.index < a'.typeRefs.size := by
  rintro s rfl ha
  exact ⟨ha.addTypeRef hrs, Arena.le_addTypeRef _ _, by simp [addTypeRef, Arena.addTypeRef]⟩

theorem builds_addExpr {kind : Code.ExprKind} (span : Span) (hes : a.HasExprs kind.subexprs)
    (hds : a.HasDecls kind.decls) :
    Builds a (addExpr kind span) fun id a' => id.index < a'.exprs.size := by
  rintro s rfl ha
  exact ⟨ha.addExpr hes hds, Arena.le_addExpr _ _, by simp [addExpr, Arena.addExpr]⟩

theorem builds_addDecl {kind : Code.DeclKind} (span : Span) (hes : a.HasExprs kind.subexprs) :
    Builds a (addDecl kind span) fun d a' => d.index < a'.decls.size := by
  rintro s rfl ha
  exact ⟨ha.addDecl hes, Arena.le_addDecl _ _, by simp [addDecl, Arena.addDecl]⟩

/-! ### Types, parameters and patterns -/

mutual

theorem builds_typeExpr (t : Tree.TypeExpr) (a : Arena) :
    Builds a (typeExpr t) fun r a' => r.index < a'.typeRefs.size := by
  cases t with
  | named text span =>
    exact (builds_name text).bind fun n _ _ _ => builds_addTypeRef span
      fun _ h => (List.not_mem_nil h).elim
  | function params result span =>
    refine (builds_typeExprs params a).bind fun _ a₁ _ hparams =>
      (builds_typeExpr result a₁).bind fun _ a₂ hle hresult => builds_addTypeRef span ?_
    exact List.forall_mem_append.2 ⟨fun q hq => Nat.lt_of_lt_of_le (hparams q hq) hle.typeRefs,
      List.forall_mem_singleton.2 hresult⟩

theorem builds_typeExprs (ts : List Tree.TypeExpr) (a : Arena) :
    Builds a (typeExprs ts) fun rs a' => a'.HasTypeRefs rs := by
  cases ts with
  | nil => exact builds_pure fun _ h => (List.not_mem_nil h).elim
  | cons t ts =>
    exact (builds_typeExpr t a).bind fun _ a' _ ht =>
      (builds_typeExprs ts a').bind fun _ _ hle hts => builds_pure
        (List.forall_mem_cons.2 ⟨Nat.lt_of_lt_of_le ht hle.typeRefs, hts⟩)

end

theorem builds_typeExpr? (t : Option Tree.TypeExpr) (a : Arena) :
    Builds a (typeExpr? t) fun _ _ => True := by
  cases t with
  | none => exact builds_pure trivial
  | some t => exact (builds_typeExpr t a).bind fun _ _ _ _ => builds_pure trivial

theorem builds_params (ps : List Tree.Param) (a : Arena) :
    Builds a (params ps) fun _ _ => True := by
  induction ps generalizing a with
  | nil => exact builds_pure trivial
  | cons p ps ih =>
    exact (builds_name p.name).bind fun _ a₁ _ _ => (builds_typeExpr? p.type a₁).bind
      fun _ a₂ _ _ => (ih a₂).bind fun _ _ _ _ => builds_pure trivial

theorem builds_fields (fs : List Tree.Field) (a : Arena) :
    Builds a (fields fs) fun _ _ => True := by
  induction fs generalizing a with
  | nil => exact builds_pure trivial
  | cons f fs ih =>
    exact (builds_name f.name).bind fun _ a₁ _ _ => (builds_typeExpr f.type a₁).bind
      fun _ a₂ _ _ => (ih a₂).bind fun _ _ _ _ => builds_pure trivial

theorem builds_importItems (is : List Tree.ImportItem) (a : Arena) :
    Builds a (importItems is) fun _ _ => True := by
  induction is generalizing a with
  | nil => exact builds_pure trivial
  | cons i is ih =>
    exact (builds_name i.name).bind fun _ _ _ _ => (builds_name? _).bind
      fun _ a₂ _ _ => (ih a₂).bind fun _ _ _ _ => builds_pure trivial

theorem builds_pattern (p : Tree.Pattern) (a : Arena) :
    Builds a (pattern p) fun _ _ => True :=
  (builds_typeExpr p.type a).bind fun _ _ _ _ => (builds_name? p.binding).bind
    fun _ _ _ _ => builds_pure trivial

/-! ### Expressions, statements and declarations -/

/-- The arms refer to what is there. -/
def HasArms (as : List Code.Arm) (a : Arena) : Prop :=
  a.HasExprs (as.flatMap fun arm => arm.kind.subexprs)

/-- The statements refer to what is there. -/
def HasStmts (body : List Code.Stmt) (a : Arena) : Prop :=
  a.HasExprs (body.flatMap fun st => st.kind.subexprs) ∧ a.HasDecls (Eval.declsOf body)

theorem hasStmts_cons {st : Code.Stmt} {body : List Code.Stmt} (h : HasStmts [st] a)
    (hbody : HasStmts body a) : HasStmts (st :: body) a := by
  have hdecls : Eval.declsOf (st :: body) = Eval.declsOf [st] ++ Eval.declsOf body :=
    List.filterMap_append (l := [st]) ..
  refine ⟨Arena.hasExprs_append.2 ⟨by simpa using h.1, hbody.1⟩, ?_⟩
  rw [Arena.HasDecls, hdecls]
  exact List.forall_mem_append.2 ⟨h.2, hbody.2⟩

mutual

theorem builds_expr (e : Tree.Expr) (a : Arena) :
    Builds a (expr e) fun id a' => id.index < a'.exprs.size := by
  cases e with
  | node p suffixes span =>
    exact (builds_primary p _ a).bind fun first a' _ hfirst => builds_chain suffixes span hfirst

theorem builds_chain (suffixes : List Tree.Suffix) (span : Span) {a : Arena} {current : ExprId}
    (h : current.index < a.exprs.size) :
    Builds a (chain span current suffixes) fun id a' => id.index < a'.exprs.size := by
  cases suffixes with
  | nil => exact builds_pure h
  | cons s rest =>
    exact (builds_suffix s h).bind fun kind _ _ hkind =>
      (builds_addExpr _ hkind.1 hkind.2).bind fun next _ _ hnext => builds_chain rest span hnext

theorem builds_suffix (s : Tree.Suffix) {a : Arena} {current : ExprId}
    (h : current.index < a.exprs.size) :
    Builds a (suffix current s) fun kind a' =>
      a'.HasExprs kind.subexprs ∧ a'.HasDecls kind.decls := by
  cases s with
  | call args span =>
    refine (builds_exprs args a).bind fun es a' hle hes => builds_pure ⟨?_, a'.hasDecls_nil⟩
    exact Arena.hasExprs_cons.2 ⟨Nat.lt_of_lt_of_le h hle.exprs, hes⟩
  | member text span =>
    refine (builds_name text).bind fun _ a' hle _ => builds_pure ⟨?_, a'.hasDecls_nil⟩
    exact Arena.hasExprs_cons.2 ⟨Nat.lt_of_lt_of_le h hle.exprs, a'.hasExprs_nil⟩
  | pipe callee args span =>
    refine (builds_expr callee a).bind fun f a₁ hle₁ hf => (builds_exprs args a₁).bind
      fun es a₂ hle₂ hes => builds_pure ⟨?_, a₂.hasDecls_nil⟩
    exact Arena.hasExprs_cons.2 ⟨Nat.lt_of_lt_of_le h (hle₁.trans hle₂).exprs,
      Arena.hasExprs_cons.2 ⟨Nat.lt_of_lt_of_le hf hle₂.exprs, hes⟩⟩

theorem builds_exprs (es : List Tree.Expr) (a : Arena) :
    Builds a (exprs es) fun ids a' => a'.HasExprs ids := by
  cases es with
  | nil => exact builds_pure a.hasExprs_nil
  | cons e es =>
    exact (builds_expr e a).bind fun id a₁ _ hid => (builds_exprs es a₁).bind
      fun ids a₂ hle hids => builds_pure
        (Arena.hasExprs_cons.2 ⟨Nat.lt_of_lt_of_le hid hle.exprs, hids⟩)

theorem builds_expr? (e : Option Tree.Expr) (a : Arena) :
    Builds a (expr? e) fun id a' => a'.HasExprs id.toList := by
  cases e with
  | none => exact builds_pure a.hasExprs_nil
  | some e =>
    exact (builds_expr e a).bind fun id a' _ hid => builds_pure
      (Arena.hasExprs_cons.2 ⟨hid, a'.hasExprs_nil⟩)

theorem builds_primary (p : Tree.Primary) (span : Span) (a : Arena) :
    Builds a (primary p span) fun id a' => id.index < a'.exprs.size := by
  cases p with
  | group inner =>
    exact (builds_expr inner a).bind fun id a' _ hid => builds_addExpr span
      (Arena.hasExprs_cons.2 ⟨hid, a'.hasExprs_nil⟩) a'.hasDecls_nil
  | block body =>
    exact (builds_stmts body a).bind fun sts a' _ h => builds_addExpr span h.1 h.2
  | function ps result body =>
    exact (builds_params ps a).bind fun _ a₁ _ _ => (builds_typeExpr? result a₁).bind
      fun _ a₂ _ _ => (builds_expr body a₂).bind fun id a₃ _ hid => builds_addExpr span
        (Arena.hasExprs_cons.2 ⟨hid, a₃.hasExprs_nil⟩) a₃.hasDecls_nil
  | branch subject options =>
    exact (builds_expr? subject a).bind fun id a₁ _ hid => (builds_arms options a₁).bind
      fun arms a₂ hle harms => builds_addExpr span
        (Arena.hasExprs_append.2 ⟨hid.mono hle, harms⟩) a₂.hasDecls_nil
  | loop body =>
    exact (builds_expr body a).bind fun id a' _ hid => builds_addExpr span
      (Arena.hasExprs_cons.2 ⟨hid, a'.hasExprs_nil⟩) a'.hasDecls_nil
  | cause payload =>
    exact (builds_expr payload a).bind fun id a' _ hid => builds_addExpr span
      (Arena.hasExprs_cons.2 ⟨hid, a'.hasExprs_nil⟩) a'.hasDecls_nil
  | ret value =>
    exact (builds_expr? value a).bind fun id a' _ hid => builds_addExpr span hid a'.hasDecls_nil
  | brk value =>
    exact (builds_expr? value a).bind fun id a' _ hid => builds_addExpr span hid a'.hasDecls_nil
  | string token =>
    simp only [primary]
    split
    · exact (builds_name _).bind fun _ a' _ _ =>
        builds_addExpr span a'.hasExprs_nil a'.hasDecls_nil
    · exact (builds_malformed _).bind fun _ a' _ _ =>
        builds_addExpr span a'.hasExprs_nil a'.hasDecls_nil
  | number token =>
    simp only [primary]
    split
    · exact builds_addExpr span a.hasExprs_nil a.hasDecls_nil
    · exact (builds_malformed _).bind fun _ a' _ _ =>
        builds_addExpr span a'.hasExprs_nil a'.hasDecls_nil
  | ident text =>
    exact (builds_name text).bind fun _ a' _ _ =>
      builds_addExpr span a'.hasExprs_nil a'.hasDecls_nil

theorem builds_arms (as : List Tree.Arm) (a : Arena) :
    Builds a (arms as) fun arms a' => HasArms arms a' := by
  cases as with
  | nil => exact builds_pure a.hasExprs_nil
  | cons arm as =>
    exact (builds_arm arm a).bind fun _ a₁ _ harm => (builds_arms as a₁).bind
      fun _ a₂ hle harms => builds_pure (Arena.hasExprs_append.2 ⟨harm.mono hle, harms⟩)

theorem builds_arm (arm : Tree.Arm) (a : Arena) :
    Builds a (Lowering.arm arm) fun arm a' => a'.HasExprs arm.kind.subexprs := by
  cases arm with
  | when condition body span =>
    exact (builds_expr condition a).bind fun c a₁ _ hc => (builds_expr body a₁).bind
      fun b a₂ hle hb => builds_pure (Arena.hasExprs_cons.2 ⟨Nat.lt_of_lt_of_le hc hle.exprs,
        Arena.hasExprs_cons.2 ⟨hb, a₂.hasExprs_nil⟩⟩)
  | is p body span =>
    exact (builds_pattern p a).bind fun _ a₁ _ _ => (builds_expr body a₁).bind
      fun b a₂ _ hb => builds_pure (Arena.hasExprs_cons.2 ⟨hb, a₂.hasExprs_nil⟩)
  | otherwise body span =>
    exact (builds_expr body a).bind fun b a' _ hb => builds_pure
      (Arena.hasExprs_cons.2 ⟨hb, a'.hasExprs_nil⟩)

theorem builds_stmts (body : List Tree.Stmt) (a : Arena) :
    Builds a (stmts body) fun sts a' => HasStmts sts a' := by
  cases body with
  | nil => exact builds_pure ⟨a.hasExprs_nil, a.hasDecls_nil⟩
  | cons st body =>
    exact (builds_stmt st a).bind fun _ a₁ _ hst => (builds_stmts body a₁).bind
      fun _ a₂ hle hbody => builds_pure
        (hasStmts_cons ⟨hst.1.mono hle, hst.2.mono hle⟩ hbody)

theorem builds_stmt (st : Tree.Stmt) (a : Arena) :
    Builds a (stmt st) fun st a' => HasStmts [st] a' := by
  cases st with
  | expr e span =>
    exact (builds_expr e a).bind fun id a' _ hid => builds_pure
      ⟨Arena.hasExprs_cons.2 ⟨hid, a'.hasExprs_nil⟩, a'.hasDecls_nil⟩
  | decl d span =>
    refine (builds_decl d a).bind fun d a' _ hd => builds_pure ⟨a'.hasExprs_nil, ?_⟩
    exact List.forall_mem_cons.2 ⟨hd, a'.hasDecls_nil⟩
  | effect p body span =>
    exact (builds_pattern p a).bind fun _ a₁ _ _ => (builds_expr body a₁).bind
      fun id a₂ _ hid => builds_pure
        ⟨Arena.hasExprs_cons.2 ⟨hid, a₂.hasExprs_nil⟩, a₂.hasDecls_nil⟩
  | set text value span =>
    exact (builds_name text).bind fun _ a₁ _ _ => (builds_expr value a₁).bind
      fun id a₂ _ hid => builds_pure
        ⟨Arena.hasExprs_cons.2 ⟨hid, a₂.hasExprs_nil⟩, a₂.hasDecls_nil⟩

theorem builds_decl (d : Tree.Decl) (a : Arena) :
    Builds a (decl d) fun d a' => d.index < a'.decls.size := by
  cases d with
  | imports path items span =>
    exact (builds_importItems items a).bind fun _ a' _ _ => builds_addDecl span a'.hasExprs_nil
  | function text ps result body span =>
    exact (builds_name text).bind fun _ a₁ _ _ => (builds_params ps a₁).bind
      fun _ a₂ _ _ => (builds_typeExpr? result a₂).bind fun _ a₃ _ _ =>
        (builds_expr body a₃).bind fun id a₄ _ hid => builds_addDecl span
          (Arena.hasExprs_cons.2 ⟨hid, a₄.hasExprs_nil⟩)
  | binding text isVariable type value span =>
    exact (builds_name text).bind fun _ a₁ _ _ => (builds_typeExpr? type a₁).bind
      fun _ a₂ _ _ => (builds_expr value a₂).bind fun id a₃ _ hid => builds_addDecl span
        (Arena.hasExprs_cons.2 ⟨hid, a₃.hasExprs_nil⟩)
  | object text fs span =>
    exact (builds_name text).bind fun _ a₁ _ _ => (builds_fields fs a₁).bind
      fun _ a₂ _ _ => builds_addDecl span a₂.hasExprs_nil
  | signal text fs result span =>
    exact (builds_name text).bind fun _ a₁ _ _ => (builds_fields fs a₁).bind
      fun _ a₂ _ _ => (builds_typeExpr? result a₂).bind fun _ a₃ _ _ =>
        builds_addDecl span a₃.hasExprs_nil
  | option text members span =>
    exact (builds_name text).bind fun _ a₁ _ _ => (builds_typeExprs members a₁).bind
      fun _ a₂ _ _ => builds_addDecl span a₂.hasExprs_nil

end

theorem builds_decls (ds : List Tree.Decl) (a : Arena) :
    Builds a (decls ds) fun _ _ => True := by
  induction ds generalizing a with
  | nil => exact builds_pure trivial
  | cons d ds ih =>
    exact (builds_decl d a).bind fun _ a' _ _ => (ih a').bind fun _ _ _ _ => builds_pure trivial

end Lowering

/-- The code of a file is what its declarations are translated to, without malformed literals. -/
theorem Module.decls_of_ofTree {file : Tree.File} {interner interner' : Interner} {m : Module}
    (h : Module.ofTree file interner = (.ok m, interner')) :
    m.path = file.path ∧ Lowering.decls file.decls ⟨.empty, interner, #[]⟩ =
      (m.decls, ⟨m.arena, interner', #[]⟩) := by
  simp only [Module.ofTree] at h
  cases hs : Lowering.decls file.decls ⟨.empty, interner, #[]⟩ with
  | mk ds s =>
    rw [hs] at h
    by_cases hempty : s.errors.isEmpty
    · simp only [if_pos hempty] at h
      cases h
      rw [← Array.isEmpty_iff.1 hempty]
      exact ⟨rfl, rfl⟩
    · simp only [if_neg hempty] at h
      cases h

/-- **In the code of every file, nodes are numbered after those to which they refer.** -/
theorem Module.numbered_of_ofTree {file : Tree.File} {interner interner' : Interner} {m : Module}
    (h : Module.ofTree file interner = (.ok m, interner')) : m.arena.Numbered := by
  obtain ⟨-, hs⟩ := Module.decls_of_ofTree h
  obtain ⟨hnumbered, -, -⟩ := Lowering.builds_decls file.decls .empty ⟨.empty, interner, #[]⟩ rfl
    Arena.numbered_empty
  rwa [hs] at hnumbered

end SignalLang
