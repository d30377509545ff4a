import Mathlib.Data.List.Basic
import Mathlib.Data.List.TakeWhile
import SignalLang.Proofs.LiteralTokens
import SignalLang.Proofs.Unfolding

/-!
# Malformed literals

Translation goes on behind a malformed literal, so that it finds them all.  This file says which
tokens are literals of their kind, in which order the tokens of a file stand, and that translation
fails with exactly the malformed ones among them.

* `Tree.Literal.WellFormed` : what makes a token a literal of its kind.
* `Tree.File.literals` : the literal tokens of a file in the order in which they are written.
* `Lowering.Notes x es` : the step `x` notes the malformed literals `es` and no others.
* `Module.ofTree_literals` : **translation succeeds if all literals are well-formed, and else
  reports each malformed one once, in source order.**
-/

namespace SignalLang

/-! ### Tokens -/

/-- Two quotes, with any text between them. -/
def Quoted.IsToken (token : String) : Prop := ∃ cs, token.toList = '"' :: cs ++ ['"']

/-- But for underscores, any minus signs, then a digit, and the whole reads as a finite number. -/
def Number.IsToken (token : String) : Prop :=
  ∃ signs digit rest, token.toList.filter (· ≠ '_') = signs ++ digit :: rest ∧
    (∀ c ∈ signs, c = '-') ∧ digit.isDigit ∧
    ∃ x, Number.parse? (String.ofList (signs ++ digit :: rest)) = some x ∧ x.isFinite

theorem Quoted.isSome_decode_iff (token : String) :
    (decode token).isSome ↔ Quoted.IsToken token := by
  simp only [decode, Option.isSome_map, Option.isSome_iff_exists, inner?_eq_some_iff, IsToken]

/-- What stands behind the minus signs. -/
theorem Number.dropWhile_signs {signs rest : List Char} {digit : Char}
    (hsigns : ∀ c ∈ signs, c = '-') (hdigit : digit.isDigit) :
    (signs ++ digit :: rest).dropWhile (· = '-') = digit :: rest := by
  rw [List.dropWhile_append_of_pos (by simpa using hsigns), List.dropWhile_cons_of_neg]
  rintro h
  obtain rfl : digit = '-' := by simpa using h
  cases hdigit

theorem Number.isSome_ofToken?_iff (token : String) :
    (ofToken? token).isSome ↔ Number.IsToken token := by
  simp only [ofToken?, IsToken]
  generalize token.toList.filter (· ≠ '_') = cs
  constructor
  · intro h
    split at h
    · rename_i digit rest hrest
      split at h
      · rename_i hdigit
        obtain ⟨x, hx⟩ := Option.isSome_iff_exists.1 h
        obtain ⟨hparse, hfinite⟩ := Option.filter_eq_some_iff.1 hx
        have hcs : cs = cs.takeWhile (· = '-') ++ digit :: rest := by
          rw [← hrest, List.takeWhile_append_dropWhile]
        refine ⟨_, digit, rest, hcs, fun c hc => ?_, hdigit, x, hcs ▸ hparse, hfinite⟩
        simpa using List.mem_takeWhile_imp hc
      · cases h
    · cases h
  · rintro ⟨signs, digit, rest, rfl, hsigns, hdigit, x, hparse, hfinite⟩
    rw [dropWhile_signs hsigns hdigit]
    simp only [hdigit, if_true, hparse, Option.filter_some, hfinite, Option.isSome_some]

theorem Number.isToken_iff (token : String) :
    Number.IsToken token ↔ ∃ x, Number.Denotes token x := by
  simp only [← isSome_ofToken?_iff, Option.isSome_iff_exists, ofToken?_eq_some_iff]

instance (token : String) : Decidable (Quoted.IsToken token) :=
  decidable_of_iff _ (Quoted.isSome_decode_iff token)

instance (token : String) : Decidable (Number.IsToken token) :=
  decidable_of_iff _ (Number.isSome_ofToken?_iff token)

/-- A quote on its own does not both open and close a string. -/
example : ¬ Quoted.IsToken "\"" := by decide

/-! ### Literals of a file -/

namespace Tree

/-- A literal token, with the span of the primary expression that it is. -/
structure Literal where
  kind : LiteralKind
  token : String
  span : Span

namespace Literal

/-- A token is a literal of its kind. -/
def WellFormed (l : Literal) : Prop :=
  match l.kind with
  | .string => Quoted.IsToken l.token
  | .number => Number.IsToken l.token

instance : (l : Literal) → Decidable l.WellFormed
  | ⟨.string, token, _⟩ => inferInstanceAs (Decidable (Quoted.IsToken token))
  | ⟨.number, token, _⟩ => inferInstanceAs (Decidable (Number.IsToken token))

/-- The report of a malformed literal. -/
def error (l : Literal) : LiteralError := ⟨l.kind, l.token, l.span⟩

/-- The reports of the malformed ones among some literals. -/
def reports (ls : List Literal) : List LiteralError :=
  (ls.filter fun l => ¬ l.WellFormed).map error

end Literal

mutual

/-- The literals of an expression: those of its primary expression, which ends where the first
suffix starts, and behind them those of the suffixes. -/
def Expr.literals : Expr → List Literal
  | .node p suffixes span =>
    p.literals (primarySpan span suffixes) ++ Suffix.allLiterals suffixes

/-- The literals of the suffixes of a chain. -/
def Suffix.allLiterals : List Suffix → List Literal
  | [] => []
  | s :: rest => s.literals ++ Suffix.allLiterals rest

/-- The literals of a suffix. -/
def Suffix.literals : Suffix → List Literal
  | .call args _ => Expr.allLiterals args
  | .member _ _ => []
  | .pipe callee args _ => callee.literals ++ Expr.allLiterals args

/-- The literals of several expressions. -/
def Expr.allLiterals : List Expr → List Literal
  | [] => []
  | e :: es => e.literals ++ Expr.allLiterals es

/-- The literals of an expression that may be absent. -/
def Expr.optionalLiterals : Option Expr → List Literal
  | none => []
  | some e => e.literals

/-- The literals of a primary expression of a given span. -/
def Primary.literals (span : Span) : Primary → List Literal
  | .group inner => inner.literals
  | .block body => Stmt.allLiterals body
  | .function _ _ body => body.literals
  | .branch subject arms => Expr.optionalLiterals subject ++ Arm.allLiterals arms
  | .loop body => body.literals
  | .cause payload => payload.literals
  | .ret value => Expr.optionalLiterals value
  | .brk value => Expr.optionalLiterals value
  | .string token => [⟨.string, token, span⟩]
  | .number token => [⟨.number, token, span⟩]
  | .ident _ => []

/-- The literals of the arms of a branch. -/
def Arm.allLiterals : List Arm → List Literal
  | [] => []
  | a :: rest => a.literals ++ Arm.allLiterals rest

/-- The literals of an arm. -/
def Arm.literals : Arm → List Literal
  | .when condition body _ => condition.literals ++ body.literals
  | .is _ body _ => body.literals
  | .otherwise body _ => body.literals

/-- The literals of the statements of a block. -/
def Stmt.allLiterals : List Stmt → List Literal
  | [] => []
  | s :: rest => s.literals ++ Stmt.allLiterals rest

/-- The literals of a statement. -/
def Stmt.literals : Stmt → List Literal
  | .expr e _ => e.literals
  | .decl d _ => d.literals
  | .effect _ body _ => body.literals
  | .set _ value _ => value.literals

/-- The literals of a declaration. -/
def Decl.literals : Decl → List Literal
  | .imports _ _ _ => []
  | .function _ _ _ body _ => body.literals
  | .binding _ _ _ value _ => value.literals
  | .object _ _ _ => []
  | .signal _ _ _ _ => []
  | .option _ _ _ => []

end

/-- The literals of a file. -/
def File.literals (file : File) : List Literal := file.decls.flatMap Decl.literals

theorem Literal.reports_append (ls ls' : List Literal) :
    Literal.reports (ls ++ ls') = Literal.reports ls ++ Literal.reports ls' := by
  simp only [Literal.reports, List.filter_append, List.map_append]

theorem Literal.reports_singleton (l : Literal) :
    Literal.reports [l] = if l.WellFormed then [] else [l.error] := by
  by_cases h : l.WellFormed <;> simp [Literal.reports, h]

theorem Literal.reports_eq_nil_iff {ls : List Literal} :
    Literal.reports ls = [] ↔ ∀ l ∈ ls, l.WellFormed := by
  simp [Literal.reports]

end Tree

namespace Lowering

open Tree.Literal (reports reports_append reports_singleton)

/-! ### Steps -/

/-- A step notes some malformed literals, behind those that were noted before. -/
def Notes {α : Type} (x : Step α) (es : List LiteralError) : Prop :=
  ∀ s : Lowering, (x s).2.errors.toList = s.errors.toList ++ es

/-- A step notes no malformed literal. -/
abbrev Silent {α : Type} (x : Step α) : Prop := Notes x []

variable {α β : Type} {x : Step α} {f : α → Step β} {es es' : List LiteralError}

theorem notes_pure {α : Type} (r : α) : Silent (pure r : Step α) := fun _ => (List.append_nil _).symm

theorem Notes.bind (hx : Notes x es) (hf : ∀ r, Notes (f r) es') : Notes (x >>= f) (es ++ es') :=
  fun s => (hf (x s).1 (x s).2).trans (by rw [hx s, List.append_assoc])

theorem Notes.andSilent (hx : Notes x es) (hf : ∀ r, Silent (f r)) : Notes (x >>= f) es := by
  simpa using hx.bind hf

theorem Notes.andPure {g : α → β} (hx : Notes x es) : Notes (x >>= fun r => pure (g r)) es :=
  hx.andSilent fun _ => notes_pure _

theorem silent_bind (hx : Silent x) (hf : ∀ r, Notes (f r) es) : Notes (x >>= f) es := hx.bind hf

theorem silent_name (text : String) : Silent (name text) := fun _ => (List.append_nil _).symm

theorem silent_name? (text : Option String) : Silent (name? text) := by
  cases text with
  | none => exact notes_pure none
  | some text => exact (silent_name text).andPure

theorem silent_addExpr (kind : Code.ExprKind) (span : Span) : Silent (addExpr kind span) :=
  fun _ => (List.append_nil _).symm

theorem silent_addDecl (kind : Code.DeclKind) (span : Span) : Silent (addDecl kind span) :=
  fun _ => (List.append_nil _).symm

theorem silent_addTypeRef (kind : Code.TypeRefKind) (span : Span) :
    Silent (addTypeRef kind span) :=
  fun _ => (List.append_nil _).symm

theorem notes_malformed (e : LiteralError) : Notes (malformed e) [e] :=
  fun _ => Array.toList_push

/-! ### Types, parameters and patterns -/

mutual

theorem silent_typeExpr (t : Tree.TypeExpr) : Silent (typeExpr t) := by
  cases t with
  | named text span => exact (silent_name text).andSilent fun n => silent_addTypeRef _ span
  | function params result span =>
    exact (silent_typeExprs params).andSilent fun _ => (silent_typeExpr result).andSilent
      fun _ => silent_addTypeRef _ span

theorem silent_typeExprs (ts : List Tree.TypeExpr) : Silent (typeExprs ts) := by
  cases ts with
  | nil => exact notes_pure []
  | cons t ts => exact (silent_typeExpr t).andSilent fun _ => (silent_typeExprs ts).andPure

end

theorem silent_typeExpr? (t : Option Tree.TypeExpr) : Silent (typeExpr? t) := by
  cases t with
  | none => exact notes_pure none
  | some t => exact (silent_typeExpr t).andPure

theorem silent_params (ps : List Tree.Param) : Silent (params ps) := by
  induction ps with
  | nil => exact notes_pure []
  | cons p ps ih =>
    exact (silent_name p.name).andSilent fun _ => (silent_typeExpr? p.type).andSilent
      fun _ => ih.andPure

theorem silent_fields (fs : List Tree.Field) : Silent (fields fs) := by
  induction fs with
  | nil => exact notes_pure []
  | cons f fs ih =>
    exact (silent_name f.name).andSilent fun _ => (silent_typeExpr f.type).andSilent
      fun _ => ih.andPure

theorem silent_importItems (is : List Tree.ImportItem) : Silent (importItems is) := by
  induction is with
  | nil => exact notes_pure []
  | cons i is ih =>
    exact (silent_name i.name).andSilent fun _ => (silent_name? _).andSilent fun _ => ih.andPure

theorem silent_pattern (p : Tree.Pattern) : Silent (pattern p) :=
  (silent_typeExpr p.type).andSilent fun _ => (silent_name? p.binding).andPure

/-! ### Expressions, statements and declarations -/

theorem notes_string (token : String) (span : Span) :
    Notes (primary (.string token) span) (reports [⟨.string, token, span⟩]) := by
  have hiff : _ ↔ Tree.Literal.WellFormed ⟨.string, token, span⟩ := Quoted.isSome_decode_iff token
  rw [primary, reports_singleton]
  cases hdecode : Quoted.decode token with
  | some text =>
    rw [if_pos (hiff.1 (by rw [hdecode]; rfl))]
    exact (silent_name text).andSilent fun _ => silent_addExpr _ span
  | none =>
    rw [if_neg fun h => nomatch hdecode ▸ hiff.2 h]
    exact (notes_malformed _).andSilent fun _ => silent_addExpr _ span

theorem notes_number (token : String) (span : Span) :
    Notes (primary (.number token) span) (reports [⟨.number, token, span⟩]) := by
  have hiff : _ ↔ Tree.Literal.WellFormed ⟨.number, token, span⟩ :=
    Number.isSome_ofToken?_iff token
  rw [primary, reports_singleton]
  cases htoken : Number.ofToken? token with
  | some value =>
    rw [if_pos (hiff.1 (by rw [htoken]; rfl))]
    exact silent_addExpr _ span
  | none =>
    rw [if_neg fun h => nomatch htoken ▸ hiff.2 h]
    exact (notes_malformed _).andSilent fun _ => silent_addExpr _ span

mutual

theorem notes_expr (e : Tree.Expr) : Notes (expr e) (reports e.literals) := by
  cases e with
  | node p suffixes span =>
    rw [Tree.Expr.literals, reports_append, ← Tree.primarySpan_eq]
    exact (notes_primary p _).bind fun first => notes_chain span first suffixes

theorem notes_chain (span : Span) (current : ExprId) (suffixes : List Tree.Suffix) :
    Notes (chain span current suffixes) (reports (Tree.Suffix.allLiterals suffixes)) := by
  cases suffixes with
  | nil => exact notes_pure current
  | cons s rest =>
    rw [Tree.Suffix.allLiterals, reports_append]
    exact (notes_suffix current s).bind fun kind => silent_bind (silent_addExpr kind _)
      fun next => notes_chain span next rest

theorem notes_suffix (current : ExprId) (s : Tree.Suffix) :
    Notes (suffix current s) (reports s.literals) := by
  cases s with
  | call args span => exact (notes_exprs args).andPure
  | member text span => exact (silent_name text).andPure
  | pipe callee args span =>
    rw [Tree.Suffix.literals, reports_append]
    exact (notes_expr callee).bind fun _ => (notes_exprs args).andPure

theorem notes_exprs (es : List Tree.Expr) :
    Notes (exprs es) (reports (Tree.Expr.allLiterals es)) := by
  cases es with
  | nil => exact notes_pure []
  | cons e es =>
    rw [Tree.Expr.allLiterals, reports_append]
    exact (notes_expr e).bind fun _ => (notes_exprs es).andPure

theorem notes_expr? (e : Option Tree.Expr) :
    Notes (expr? e) (reports (Tree.Expr.optionalLiterals e)) := by
  cases e with
  | none => exact notes_pure none
  | some e => exact (notes_expr e).andPure

theorem notes_primary (p : Tree.Primary) (span : Span) :
    Notes (primary p span) (reports (p.literals span)) := by
  cases p with
  | group inner => exact (notes_expr inner).andSilent fun _ => silent_addExpr _ span
  | block body => exact (notes_stmts body).andSilent fun _ => silent_addExpr _ span
  | function ps result body =>
    exact silent_bind (silent_params ps) fun _ => silent_bind (silent_typeExpr? result)
      fun _ => (notes_expr body).andSilent fun _ => silent_addExpr _ span
  | branch subject options =>
    rw [Tree.Primary.literals, reports_append]
    exact (notes_expr? subject).bind fun _ => (notes_arms options).andSilent
      fun _ => silent_addExpr _ span
  | loop body => exact (notes_expr body).andSilent fun _ => silent_addExpr _ span
  | cause payload => exact (notes_expr payload).andSilent fun _ => silent_addExpr _ span
  | ret value => exact (notes_expr? value).andSilent fun _ => silent_addExpr _ span
  | brk value => exact (notes_expr? value).andSilent fun _ => silent_addExpr _ span
  | string token => exact notes_string token span
  | number token => exact notes_number token span
  | ident text => exact (silent_name text).andSilent fun _ => silent_addExpr _ span

theorem notes_arms (as : List Tree.Arm) :
    Notes (arms as) (reports (Tree.Arm.allLiterals as)) := by
  cases as with
  | nil => exact notes_pure []
  | cons a as =>
    rw [Tree.Arm.allLiterals, reports_append]
    exact (notes_arm a).bind fun _ => (notes_arms as).andPure

theorem notes_arm (a : Tree.Arm) : Notes (arm a) (reports a.literals) := by
  cases a with
  | when condition body span =>
    rw [Tree.Arm.literals, reports_append]
    exact (notes_expr condition).bind fun _ => (notes_expr body).andPure
  | is p body span => exact silent_bind (silent_pattern p) fun _ => (notes_expr body).andPure
  | otherwise body span => exact (notes_expr body).andPure

theorem notes_stmts (body : List Tree.Stmt) :
    Notes (stmts body) (reports (Tree.Stmt.allLiterals body)) := by
  cases body with
  | nil => exact notes_pure []
  | cons st body =>
    rw [Tree.Stmt.allLiterals, reports_append]
    exact (notes_stmt st).bind fun _ => (notes_stmts body).andPure

theorem notes_stmt (st : Tree.Stmt) : Notes (stmt st) (reports st.literals) := by
  cases st with
  | expr e span => exact (notes_expr e).andPure
  | decl d span => exact (notes_decl d).andPure
  | effect p body span =>
    exact silent_bind (silent_pattern p) fun _ => (notes_expr body).andPure
  | set text value span => exact silent_bind (silent_name text) fun _ => (notes_expr value).andPure

theorem notes_decl (d : Tree.Decl) : Notes (decl d) (reports d.literals) := by
  cases d with
  | imports path items span =>
    exact (silent_importItems items).andSilent fun _ => silent_addDecl _ span
  | function text ps result body span =>
    exact silent_bind (silent_name text) fun _ => silent_bind (silent_params ps)
      fun _ => silent_bind (silent_typeExpr? result) fun _ => (notes_expr body).andSilent
        fun _ => silent_addDecl _ span
  | binding text isVariable type value span =>
    exact silent_bind (silent_name text) fun _ => silent_bind (silent_typeExpr? type)
      fun _ => (notes_expr value).andSilent fun _ => silent_addDecl _ span
  | object text fs span =>
    exact (silent_name text).andSilent fun _ => (silent_fields fs).andSilent
      fun _ => silent_addDecl _ span
  | signal text fs result span =>
    exact (silent_name text).andSilent fun _ => (silent_fields fs).andSilent
      fun _ => (silent_typeExpr? result).andSilent fun _ => silent_addDecl _ span
  | option text members span =>
    exact (silent_name text).andSilent fun _ => (silent_typeExprs members).andSilent
      fun _ => silent_addDecl _ span

end

theorem notes_decls (ds : List Tree.Decl) :
    Notes (decls ds) (reports (ds.flatMap Tree.Decl.literals)) := by
  induction ds with
  | nil => exact notes_pure []
  | cons d ds ih =>
    rw [List.flatMap_cons, reports_append]
    exact (notes_decl d).bind fun _ => ih.andPure

end Lowering

/-- The translation of a file fails with its reports if it has any. -/
theorem Module.ofTree_fst (file : Tree.File) (interner : Interner) :
    ∃ m, (Module.ofTree file interner).1 =
      if Tree.Literal.reports file.literals = [] then .ok m
      else .error (Tree.Literal.reports file.literals) := by
  rcases hrun : Lowering.decls file.decls ⟨.empty, interner, #[]⟩ with ⟨ds, s⟩
  have hnotes : s.errors.toList = Tree.Literal.reports file.literals := by
    have h := Lowering.notes_decls file.decls ⟨.empty, interner, #[]⟩
    rwa [hrun] at h
  refine ⟨⟨file.path, ds, s.arena⟩, ?_⟩
  simp only [Module.ofTree, hrun, Array.isEmpty_iff, ← Array.toList_eq_nil_iff, hnotes]
  split <;> rfl

/-- **All malformed literals are reported, and nothing else.**  A file is translated if and only if
each of its literals is well-formed.  Else the translation fails with one report for each malformed
one, of its kind and with its text and span, in the order in which the tokens stand in the file.
The well-formed number tokens are those that are the decimal writing of a finite number. -/
theorem Module.ofTree_literals (file : Tree.File) (interner : Interner) :
    ((∃ m, (Module.ofTree file interner).1 = .ok m) ↔ ∀ l ∈ file.literals, l.WellFormed) ∧
    (∀ es, (Module.ofTree file interner).1 = .error es ↔
      es ≠ [] ∧ es = (file.literals.filter fun l => ¬ l.WellFormed).map Tree.Literal.error) ∧
    ∀ token, Number.IsToken token ↔ ∃ x, Number.Denotes token x := by
  obtain ⟨m, hm⟩ := Module.ofTree_fst file interner
  rw [← and_assoc]
  refine ⟨?_, Number.isToken_iff⟩
  rw [← Tree.Literal.reports_eq_nil_iff, ← Tree.Literal.reports, hm]
  by_cases hempty : Tree.Literal.reports file.literals = []
  · rw [if_pos hempty, hempty]
    refine ⟨⟨fun _ => rfl, fun _ => ⟨m, rfl⟩⟩, fun es => ⟨(nomatch ·), fun h => ?_⟩⟩
    exact absurd h.2 h.1
  · rw [if_neg hempty]
    refine ⟨⟨(nomatch ·), fun h => absurd h hempty⟩, fun es => ⟨fun h => ?_, fun h => ?_⟩⟩
    · cases h
      exact ⟨hempty, rfl⟩
    · rw [h.2]

end SignalLang
