import SignalLang.Proofs.Numbering
import Mathlib.Data.List.Nodup
import Mathlib.Data.List.Perm.Basic

/-!
# Code is a forest

Translation refers to every node that it numbers exactly once: where the node is written, be it in
another node or at the top level of the file.

* `Code.Node` : the number of a node of any kind, and the nodes to which a node refers.
* `Arena.Owes a live` : all nodes of `a` are referred to once, either by a node or by `live`, the
  references that the translation holds.
* `Lowering.Plants pre x post` : a step that holds the references `pre` before and `post` behind it.
* `Module.owes_of_ofTree` : **in the code of every file, every node is referred to exactly once.**
-/

namespace SignalLang

namespace Code

/-- The number of a node of any kind. -/
inductive Node where
  | expr (id : ExprId)
  | decl (id : DeclId)
  | typeRef (id : TypeRefId)
deriving DecidableEq

/-! ### References of nodes -/

/-- The nodes to which a written type refers. -/
@[simp] def TypeRefKind.children : TypeRefKind → List Node
  | .named _ => []
  | .function params result => params.map .typeRef ++ [.typeRef result]

/-- The nodes to which a parameter refers. -/
@[simp] def Param.children (p : Param) : List Node := p.typeRef.toList.map .typeRef

/-- The nodes to which an arm refers. -/
@[simp] def ArmKind.children : ArmKind → List Node
  | .when condition body => [.expr condition, .expr body]
  | .is p body => [.typeRef p.typeRef, .expr body]
  | .otherwise body => [.expr body]

/-- The nodes to which a statement refers. -/
@[simp] def StmtKind.children : StmtKind → List Node
  | .expr e => [.expr e]
  | .decl d => [.decl d]
  | .effect p body => [.typeRef p.typeRef, .expr body]
  | .set _ value => [.expr value]

/-- The nodes to which an expression refers. -/
@[simp] def ExprKind.children : ExprKind → List Node
  | .group inner => [.expr inner]
  | .block body => body.flatMap fun st => st.kind.children
  | .function params result body =>
    (params.flatMap fun q => q.children) ++ result.toList.map .typeRef ++ [.expr body]
  | .branch subject arms => subject.toList.map .expr ++ arms.flatMap fun a => a.kind.children
  | .loop body => [.expr body]
  | .cause payload => [.expr payload]
  | .ret value => value.toList.map .expr
  | .brk value => value.toList.map .expr
  | .string _ => []
  | .number _ => []
  | .ident _ => []
  | .call callee args => .expr callee :: args.map .expr
  | .member receiver _ => [.expr receiver]
  | .pipe subject callee args => .expr subject :: .expr callee :: args.map .expr

/-- The nodes to which a declaration refers. -/
@[simp] def DeclKind.children : DeclKind → List Node
  | .imports _ _ => []
  | .function _ params result body =>
    (params.flatMap fun q => q.children) ++ result.toList.map .typeRef ++ [.expr body]
  | .binding _ _ type value => type.toList.map .typeRef ++ [.expr value]
  | .object _ fields => fields.map fun f => .typeRef f.typeRef
  | .signal _ fields result =>
    (fields.map fun f => .typeRef f.typeRef) ++ result.toList.map .typeRef
  | .option _ members => members.map .typeRef

/-- The declarations of a block are among the nodes to which it refers, in the same order. -/
theorem decls_sublist_children (body : List Stmt) :
    ((Eval.declsOf body).map Node.decl).Sublist (body.flatMap fun st => st.kind.children) := by
  induction body with
  | nil => exact .slnil
  | cons st body ih =>
    rw [List.flatMap_cons]
    cases hk : st.kind with
    | decl d =>
      simpa only [Eval.declsOf, List.filterMap_cons, hk, List.map_cons, StmtKind.children,
        List.singleton_append] using ih.cons_cons (Node.decl d)
    | _ =>
      simp only [Eval.declsOf, List.filterMap_cons, hk]
      exact ih.trans (List.sublist_append_right _ _)

end Code

open Code (Node)

namespace Arena

variable {a : Arena}

/-- All nodes of an arena. -/
def nodes (a : Arena) : List Node :=
  (List.range a.exprs.size).map (fun i => .expr ⟨i⟩) ++
    (List.range a.decls.size).map (fun i => .decl ⟨i⟩) ++
    (List.range a.typeRefs.size).map fun i => .typeRef ⟨i⟩

/-- All references from nodes to nodes. -/
def refs (a : Arena) : List Node :=
  (a.exprs.toList.flatMap fun e => e.kind.children) ++
    (a.decls.toList.flatMap fun d => d.kind.children) ++
    a.typeRefs.toList.flatMap fun t => t.kind.children

/-- All nodes are referred to once, either by a node or by `live`. -/
def Owes (a : Arena) (live : List Node) : Prop := (a.refs ++ live).Perm a.nodes

theorem owes_empty : Arena.empty.Owes [] := .refl _

theorem Owes.perm {live live' : List Node} (h : a.Owes live) (hperm : live.Perm live') :
    a.Owes live' := (hperm.symm.append_left _).trans h

/-- One more node takes over some references and is referred to once itself. -/
theorem Owes.add {a' : Arena} {live children : List Node} {n : Node}
    (h : a.Owes (children ++ live)) (hrefs : a'.refs.Perm (a.refs ++ children))
    (hnodes : a'.nodes.Perm (n :: a.nodes)) : a'.Owes (n :: live) := by
  refine List.Perm.trans ?_ (.trans (.cons n h) hnodes.symm)
  refine (hrefs.append_right _).trans ?_
  rw [List.append_assoc]
  exact (List.Perm.append_left _ List.perm_middle).trans List.perm_middle

/-! ### New nodes -/

theorem Owes.addExpr {live : List Node} {e : Code.Expr} (h : a.Owes (e.kind.children ++ live)) :
    (a.addExpr e).2.Owes (.expr (a.addExpr e).1 :: live) := by
  refine h.add ?_ ?_
  · simp only [refs, Arena.addExpr, Array.toList_push, List.flatMap_append, List.flatMap_cons,
      List.flatMap_nil, List.append_nil, List.append_assoc]
    refine List.Perm.append_left _ (List.perm_append_comm.trans ?_)
    rw [List.append_assoc]
  · simp only [nodes, Arena.addExpr, Array.size_push, List.range_succ, List.map_append,
      List.append_assoc]
    exact List.perm_middle

theorem Owes.addDecl {live : List Node} {d : Code.Decl} (h : a.Owes (d.kind.children ++ live)) :
    (a.addDecl d).2.Owes (.decl (a.addDecl d).1 :: live) := by
  refine h.add ?_ ?_
  · simp only [refs, Arena.addDecl, Array.toList_push, List.flatMap_append, List.flatMap_cons,
      List.flatMap_nil, List.append_nil, List.append_assoc]
    exact .append_left _ (.append_left _ List.perm_append_comm)
  · simp only [nodes, Arena.addDecl, Array.size_push, List.range_succ, List.map_append,
      List.append_assoc]
    exact (List.Perm.append_left _ List.perm_middle).trans List.perm_middle

theorem Owes.addTypeRef {live : List Node} {t : Code.TypeRef}
    (h : a.Owes (t.kind.children ++ live)) :
    (a.addTypeRef t).2.Owes (.typeRef (a.addTypeRef t).1 :: live) := by
  refine h.add ?_ ?_
  · simp only [refs, Arena.addTypeRef, Array.toList_push, List.flatMap_append, List.flatMap_cons,
      List.flatMap_nil, List.append_nil, List.append_assoc]
    exact .refl _
  · simp only [nodes, Arena.addTypeRef, Array.size_push, List.range_succ, List.map_append]
    rw [← List.append_assoc]
    exact List.perm_append_comm

end Arena

namespace Lowering

/-! ### Steps -/

/-- A step that holds the references `pre` holds the references `post` to its result instead; any
others stay as they are. -/
def Plants (pre : List Node) (x : Step α) (post : α → List Node) : Prop :=
  ∀ s live, s.arena.Owes (pre ++ live) → (x s).2.arena.Owes (post (x s).1 ++ live)

variable {α β : Type} {pre : List Node}

theorem plants_pure {r : α} {post : α → List Node} (h : pre = post r) :
    Plants pre (pure r) post := by
  rintro s live hlive
  exact h ▸ hlive

/-- What the first step has built is held until the end of the second. -/
theorem Plants.bind {x : Step α} {f : α → Step β} {mid : α → List Node} {post : β → List Node}
    (hx : Plants [] x mid) (hf : ∀ r, Plants (pre ++ mid r) (f r) post) :
    Plants pre (x >>= f) post := by
  intro s live hlive
  refine hf _ _ live ((hx s (pre ++ live) hlive).perm ?_)
  rw [List.append_assoc]
  exact List.perm_append_comm_assoc _ _ _

/-- The second step takes over what the first one has built from the references before. -/
theorem Plants.andThen {x : Step α} {f : α → Step β} {mid : α → List Node} {post : β → List Node}
    (hx : Plants pre x mid) (hf : ∀ r, Plants (mid r) (f r) post) :
    Plants pre (x >>= f) post :=
  fun s live hlive => hf _ _ live (hx s live hlive)

theorem plants_name (text : String) : Plants pre (name text) fun _ => pre := fun _ _ h => h

theorem plants_name? (text : Option String) : Plants pre (name? text) fun _ => pre := by
  cases text with
  | none => exact fun _ _ h => h
  | some text => exact fun _ _ h => h

theorem plants_malformed (e : LiteralError) : Plants pre (malformed e) fun _ => pre :=
  fun _ _ h => h

theorem plants_addTypeRef {kind : Code.TypeRefKind} (span : Span) (h : pre = kind.children) :
    Plants pre (addTypeRef kind span) fun id => [.typeRef id] := by
  subst h
  exact fun s live hlive => Arena.Owes.addTypeRef (t := ⟨kind, span⟩) hlive

theorem plants_addExpr {kind : Code.ExprKind} (span : Span) (h : pre = kind.children) :
    Plants pre (addExpr kind span) fun id => [.expr id] := by
  subst h
  exact fun s live hlive => Arena.Owes.addExpr (e := ⟨kind, span⟩) hlive

theorem plants_addDecl {kind : Code.DeclKind} (span : Span) (h : pre = kind.children) :
    Plants pre (addDecl kind span) fun id => [.decl id] := by
  subst h
  exact fun s live hlive => Arena.Owes.addDecl (d := ⟨kind, span⟩) hlive

/-! ### Types, parameters and patterns -/

mutual

theorem plants_typeExpr (t : Tree.TypeExpr) : Plants [] (typeExpr t) fun id => [.typeRef id] := by
  cases t with
  | named text span => exact (plants_name text).andThen fun _ => plants_addTypeRef span rfl
  | function params result span =>
    exact (plants_typeExprs params).bind fun _ => (plants_typeExpr result).bind fun _ =>
      plants_addTypeRef span rfl

theorem plants_typeExprs (ts : List Tree.TypeExpr) :
    Plants [] (typeExprs ts) fun ids => ids.map .typeRef := by
  cases ts with
  | nil => exact plants_pure rfl
  | cons t ts =>
    exact (plants_typeExpr t).bind fun _ => (plants_typeExprs ts).bind fun _ => plants_pure rfl

end

theorem plants_typeExpr? (t : Option Tree.TypeExpr) :
    Plants [] (typeExpr? t) fun id => id.toList.map .typeRef := by
  cases t with
  | none => exact plants_pure rfl
  | some t => exact (plants_typeExpr t).bind fun _ => plants_pure rfl

theorem plants_params (ps : List Tree.Param) :
    Plants [] (params ps) fun qs => qs.flatMap fun q => q.children := by
  induction ps with
  | nil => exact plants_pure rfl
  | cons p ps ih =>
    exact (plants_name p.name).andThen fun _ => (plants_typeExpr? p.type).bind fun _ =>
      ih.bind fun _ => plants_pure rfl

theorem plants_fields (fs : List Tree.Field) :
    Plants [] (fields fs) fun gs => gs.map fun g => .typeRef g.typeRef := by
  induction fs with
  | nil => exact plants_pure rfl
  | cons f fs ih =>
    exact (plants_name f.name).andThen fun _ => (plants_typeExpr f.type).bind fun _ =>
      ih.bind fun _ => plants_pure rfl

theorem plants_importItems (is : List Tree.ImportItem) :
    Plants [] (importItems is) fun _ => [] := by
  induction is with
  | nil => exact plants_pure rfl
  | cons i is ih =>
    exact (plants_name i.name).andThen fun _ => (plants_name? _).andThen fun _ =>
      ih.andThen fun _ => plants_pure rfl

theorem plants_pattern (p : Tree.Pattern) :
    Plants [] (pattern p) fun q => [.typeRef q.typeRef] :=
  (plants_typeExpr p.type).andThen fun _ => (plants_name? p.binding).andThen fun _ =>
    plants_pure rfl

/-! ### Expressions, statements and declarations -/

mutual

theorem plants_expr (e : Tree.Expr) : Plants [] (expr e) fun id => [.expr id] := by
  cases e with
  | node p suffixes span =>
    exact (plants_primary p _).andThen fun first => plants_chain suffixes span first

theorem plants_chain (suffixes : List Tree.Suffix) (span : Span) (current : ExprId) :
    Plants [.expr current] (chain span current suffixes) fun id => [.expr id] := by
  cases suffixes with
  | nil => exact plants_pure rfl
  | cons s rest =>
    exact (plants_suffix s current).andThen fun _ => (plants_addExpr _ rfl).andThen fun next =>
      plants_chain rest span next

theorem plants_suffix (s : Tree.Suffix) (current : ExprId) :
    Plants [.expr current] (suffix current s) fun kind => kind.children := by
  cases s with
  | call args span => exact (plants_exprs args).bind fun _ => plants_pure rfl
  | member text span => exact (plants_name text).andThen fun _ => plants_pure rfl
  | pipe callee args span =>
    exact (plants_expr callee).bind fun _ => (plants_exprs args).bind fun _ => plants_pure rfl

theorem plants_exprs (es : List Tree.Expr) :
    Plants [] (exprs es) fun ids => ids.map .expr := by
  cases es with
  | nil => exact plants_pure rfl
  | cons e es =>
    exact (plants_expr e).bind fun _ => (plants_exprs es).bind fun _ => plants_pure rfl

theorem plants_expr? (e : Option Tree.Expr) :
    Plants [] (expr? e) fun id => id.toList.map .expr := by
  cases e with
  | none => exact plants_pure rfl
  | some e => exact (plants_expr e).bind fun _ => plants_pure rfl

theorem plants_primary (p : Tree.Primary) (span : Span) :
    Plants [] (primary p span) fun id => [.expr id] := by
  cases p with
  | group inner => exact (plants_expr inner).bind fun _ => plants_addExpr span rfl
  | block body => exact (plants_stmts body).bind fun _ => plants_addExpr span rfl
  | function ps result body =>
    exact (plants_params ps).bind fun _ => (plants_typeExpr? result).bind fun _ =>
      (plants_expr body).bind fun _ => plants_addExpr span rfl
  | branch subject options =>
    exact (plants_expr? subject).bind fun _ => (plants_arms options).bind fun _ =>
      plants_addExpr span rfl
  | loop body => exact (plants_expr body).bind fun _ => plants_addExpr span rfl
  | cause payload => exact (plants_expr payload).bind fun _ => plants_addExpr span rfl
  | ret value => exact (plants_expr? value).bind fun _ => plants_addExpr span rfl
  | brk value => exact (plants_expr? value).bind fun _ => plants_addExpr span rfl
  | string token =>
    simp only [primary]
    split
    · exact (plants_name _).andThen fun _ => plants_addExpr span rfl
    · exact (plants_malformed _).andThen fun _ => plants_addExpr span rfl
  | number token =>
    simp only [primary]
    split
    · exact plants_addExpr span rfl
    · exact (plants_malformed _).andThen fun _ => plants_addExpr span rfl
  | ident text => exact (plants_name text).andThen fun _ => plants_addExpr span rfl

theorem plants_arms (as : List Tree.Arm) :
    Plants [] (arms as) fun arms => arms.flatMap fun a => a.kind.children := by
  cases as with
  | nil => exact plants_pure rfl
  | cons a as =>
    exact (plants_arm a).bind fun _ => (plants_arms as).bind fun _ => plants_pure rfl

theorem plants_arm (a : Tree.Arm) : Plants [] (arm a) fun a => a.kind.children := by
  cases a with
  | when condition body span =>
    exact (plants_expr condition).bind fun _ => (plants_expr body).bind fun _ => plants_pure rfl
  | is p body span =>
    exact (plants_pattern p).bind fun _ => (plants_expr body).bind fun _ => plants_pure rfl
  | otherwise body span => exact (plants_expr body).bind fun _ => plants_pure rfl

theorem plants_stmts (body : List Tree.Stmt) :
    Plants [] (stmts body) fun sts => sts.flatMap fun st => st.kind.children := by
  cases body with
  | nil => exact plants_pure rfl
  | cons st body =>
    exact (plants_stmt st).bind fun _ => (plants_stmts body).bind fun _ => plants_pure rfl

theorem plants_stmt (st : Tree.Stmt) : Plants [] (stmt st) fun st => st.kind.children := by
  cases st with
  | expr e span => exact (plants_expr e).bind fun _ => plants_pure rfl
  | decl d span => exact (plants_decl d).bind fun _ => plants_pure rfl
  | effect p body span =>
    exact (plants_pattern p).bind fun _ => (plants_expr body).bind fun _ => plants_pure rfl
  | set text value span =>
    exact (plants_name text).andThen fun _ => (plants_expr value).bind fun _ => plants_pure rfl

theorem plants_decl (d : Tree.Decl) : Plants [] (decl d) fun d => [.decl d] := by
  cases d with
  | imports path items span =>
    exact (plants_importItems items).andThen fun _ => plants_addDecl span rfl
  | function text ps result body span =>
    exact (plants_name text).andThen fun _ => (plants_params ps).bind fun _ =>
      (plants_typeExpr? result).bind fun _ => (plants_expr body).bind fun _ =>
        plants_addDecl span rfl
  | binding text isVariable type value span =>
    exact (plants_name text).andThen fun _ => (plants_typeExpr? type).bind fun _ =>
      (plants_expr value).bind fun _ => plants_addDecl span rfl
  | object text fs span =>
    exact (plants_name text).andThen fun _ => (plants_fields fs).bind fun _ =>
      plants_addDecl span rfl
  | signal text fs result span =>
    exact (plants_name text).andThen fun _ => (plants_fields fs).bind fun _ =>
      (plants_typeExpr? result).bind fun _ => plants_addDecl span rfl
  | option text members span =>
    exact (plants_name text).andThen fun _ => (plants_typeExprs members).bind fun _ =>
      plants_addDecl span rfl

end

theorem plants_decls (ds : List Tree.Decl) :
    Plants [] (decls ds) fun ids => ids.map .decl := by
  induction ds with
  | nil => exact plants_pure rfl
  | cons d ds ih => exact (plants_decl d).bind fun _ => ih.bind fun _ => plants_pure rfl

end Lowering

/-! ### Files -/

/-- **In the code of every file, every node is referred to exactly once**, by another node or at the
top level of the module. -/
theorem Module.owes_of_ofTree {file : Tree.File} {interner interner' : Interner} {m : Module}
    (h : Module.ofTree file interner = (.ok m, interner')) : m.arena.Owes (m.decls.map .decl) := by
  obtain ⟨-, hs⟩ := Module.decls_of_ofTree h
  have howes := Lowering.plants_decls file.decls ⟨.empty, interner, #[]⟩ [] Arena.owes_empty
  rwa [List.append_nil, hs] at howes

/-- The code of a module is numbered from the inside to the outside, and every node is referred to
exactly once. -/
structure Module.IsForest (m : Module) : Prop where
  numbered : m.arena.Numbered
  owes : m.arena.Owes (m.decls.map .decl)

theorem Module.isForest_of_ofTree {file : Tree.File} {interner interner' : Interner} {m : Module}
    (h : Module.ofTree file interner = (.ok m, interner')) : m.IsForest :=
  ⟨Module.numbered_of_ofTree h, Module.owes_of_ofTree h⟩

/-- The module with its declarations in another order. -/
abbrev Module.rearranged (m : Module) (ds : List DeclId) : Module := { m with decls := ds }

/-- The order of the declarations does not matter for that. -/
theorem Module.IsForest.rearranged {m : Module} (h : m.IsForest) {ds : List DeclId}
    (hds : m.decls.Perm ds) : (m.rearranged ds).IsForest :=
  ⟨h.numbered, h.owes.perm (hds.map _)⟩

namespace Arena

variable {a : Arena} {live : List Node}

theorem nodup_nodes (a : Arena) : a.nodes.Nodup := by
  have hrange : ∀ (f : Nat → Node) n, (∀ i j, f i = f j → i = j) →
      ((List.range n).map f).Nodup := fun f n hf =>
    List.Nodup.map (fun i j h => hf i j h) List.nodup_range
  refine List.nodup_append.2 ⟨List.nodup_append.2 ⟨hrange _ _ ?_, hrange _ _ ?_, ?_⟩,
    hrange _ _ ?_, ?_⟩
  all_goals simp +contextual [or_imp, forall_and]

theorem Owes.nodup (h : a.Owes live) : (a.refs ++ live).Nodup :=
  h.nodup_iff.2 a.nodup_nodes

/-- The nodes to which an expression refers are among all that nodes refer to. -/
theorem children_sublist_refs (a : Arena) (id : ExprId) :
    (a.expr id).kind.children.Sublist a.refs := by
  by_cases hid : id.index < a.exprs.size
  · have hmem : a.expr id ∈ a.exprs.toList := by
      simp [expr, Array.getD_eq_getD_getElem?, hid]
    obtain ⟨pre, post, heq⟩ := List.append_of_mem hmem
    rw [refs, heq, List.append_assoc, List.flatMap_append, List.flatMap_cons, List.append_assoc,
      List.append_assoc]
    exact (List.sublist_append_left _ _).trans (List.sublist_append_right _ _)
  · simp [expr, Array.getD_eq_getD_getElem?, hid]

/-- The declarations of a block differ. -/
theorem Owes.nodup_decls (h : a.Owes live) (id : ExprId) : (a.expr id).kind.decls.Nodup := by
  have hchildren := (List.nodup_append.1 h.nodup).1.sublist (a.children_sublist_refs id)
  cases hk : (a.expr id).kind with
  | block body =>
    rw [hk] at hchildren
    exact (hchildren.sublist (Code.decls_sublist_children body)).of_map _
  | _ => exact List.nodup_nil

/-- The declarations at the top level differ. -/
theorem Owes.nodup_top {ds : List DeclId} (h : a.Owes (ds.map .decl)) : ds.Nodup :=
  (List.nodup_append.1 h.nodup).2.1.of_map _

end Arena

end SignalLang
