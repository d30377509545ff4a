import Mathlib.Logic.Relation
import SignalLang.Proofs.Ancestors
import SignalLang.Proofs.Translation

/-!
# Code is numbered from the inside to the outside

Expressions, declarations and written types are numbered apart, but each is numbered when all that
is written in it has been.  So whatever lies between two nodes of one kind, the inner one has the
smaller number: an expression inside a function of a block comes before the block, and a declaration
inside the body of another one before that.

* `Code.Node.Before x y` : the number of `x` is smaller, if the two are of one kind.
* `Arena.InOrder a` : what can be reached from a node comes before it.
* `Arena.InOrder.add` : one more node keeps that up, if it refers to nodes that are there.
* `Lowering.Orders pre x` : so does a step that holds the references `pre`.
* `Module.forest_in_order` : **the code of every file is a forest in the order of allocation.**
-/

namespace SignalLang

open Code (Node)

/-- The number of the first node is smaller.  Nodes of different kinds are numbered apart. -/
def Code.Node.Before : Node → Node → Prop
  | .expr x, .expr y => x.index < y.index
  | .decl x, .decl y => x.index < y.index
  | .typeRef x, .typeRef y => x.index < y.index
  | _, _ => True

theorem Code.Node.not_before_self (x : Node) : ¬ x.Before x := by
  cases x <;> exact Nat.lt_irrefl _

/-! ### Arenas -/

namespace Arena

variable {a a' : Arena} {live : List Node} {x y n : Node}

/-- A node that can be reached from another one, through nodes of any kinds. -/
def Reaches (a : Arena) : Node → Node → Prop := Relation.TransGen fun x y => y ∈ a.children x

/-- What can be reached from a node has been numbered before. -/
def InOrder (a : Arena) : Prop := ∀ x y, a.Reaches x y → y.Before x

theorem inOrder_empty : Arena.empty.InOrder := by
  intro x y h
  obtain ⟨z, hz, -⟩ := Relation.TransGen.head'_iff.1 h
  have hx : x ∈ Arena.empty.nodes := mem_nodes_of_mem_children hz
  simp [nodes, empty] at hx

/-- One more node, which refers to nodes that are there and comes behind all of its kind. -/
theorem InOrder.add (h : a.InOrder) (hclosed : ∀ x, ∀ y ∈ a.children x, y ∈ a.nodes)
    (hkept : ∀ x, x ≠ n → a'.children x = a.children x) (hnew : n ∉ a.nodes)
    (hchildren : ∀ y ∈ a'.children n, y ∈ a.nodes) (hlast : ∀ y ∈ a.nodes, y.Before n) :
    a'.InOrder := by
  -- from an old node, only old ones can be reached, and as before
  have hold : ∀ {x y}, a'.Reaches x y → x ∈ a.nodes → a.Reaches x y ∧ y ∈ a.nodes := by
    intro x y hreach hx
    induction hreach with
    | single hy =>
      rw [hkept x fun heq => hnew (heq ▸ hx)] at hy
      exact ⟨.single hy, hclosed _ _ hy⟩
    | tail _ hz ih =>
      rw [hkept _ fun heq => hnew (heq ▸ ih.2)] at hz
      exact ⟨ih.1.tail hz, hclosed _ _ hz⟩
  intro x y hreach
  by_cases hx : x = n
  · -- the first step leads to an old node, and so do all others
    subst hx
    obtain ⟨z, hz, hrest⟩ := Relation.TransGen.head'_iff.1 hreach
    rcases Relation.reflTransGen_iff_eq_or_transGen.1 hrest with rfl | hrest
    · exact hlast _ (hchildren _ hz)
    · exact hlast _ (hold hrest (hchildren _ hz)).2
  · obtain ⟨z, hz, -⟩ := Relation.TransGen.head'_iff.1 hreach
    rw [hkept x hx] at hz
    exact h x y (hold hreach (mem_nodes_of_mem_children hz)).1

theorem children_addExpr (e : Code.Expr) (x : Node) : (a.addExpr e).2.children x =
    if x = .expr (a.addExpr e).1 then e.kind.children else a.children x := by
  cases x with
  | expr id =>
    obtain ⟨i⟩ := id
    rw [children, expr_addExpr, apply_ite Code.Expr.kind, apply_ite Code.ExprKind.children]
    exact if_congr (by simp [addExpr]) rfl rfl
  | decl d => rfl
  | typeRef r => rfl

theorem children_addDecl (d : Code.Decl) (x : Node) : (a.addDecl d).2.children x =
    if x = .decl (a.addDecl d).1 then d.kind.children else a.children x := by
  cases x with
  | expr id => rfl
  | decl d' =>
    obtain ⟨i⟩ := d'
    rw [children, decl_addDecl, apply_ite Code.Decl.kind, apply_ite Code.DeclKind.children]
    exact if_congr (by simp [addDecl]) rfl rfl
  | typeRef r => rfl

theorem children_addTypeRef (t : Code.TypeRef) (x : Node) : (a.addTypeRef t).2.children x =
    if x = .typeRef (a.addTypeRef t).1 then t.kind.children else a.children x := by
  cases x with
  | expr id => rfl
  | decl d => rfl
  | typeRef r =>
    obtain ⟨i⟩ := r
    rw [children, typeRef_addTypeRef, apply_ite Code.TypeRef.kind,
      apply_ite Code.TypeRefKind.children]
    exact if_congr (by simp [addTypeRef]) rfl rfl

/-- The references that are held belong to nodes. -/
theorem Owes.mem_nodes_of_held {held : List Node} (h : a.Owes (held ++ live)) (hy : y ∈ held) :
    y ∈ a.nodes :=
  h.mem_iff.1 (List.mem_append_right _ (List.mem_append_left _ hy))

theorem InOrder.addExpr {e : Code.Expr} (h : a.InOrder) (howes : a.Owes (e.kind.children ++ live)) :
    (a.addExpr e).2.InOrder := by
  refine h.add (n := .expr (a.addExpr e).1) (fun _ _ => howes.mem_nodes)
    (fun x hx => by rw [children_addExpr, if_neg hx]) (mt mem_nodes_expr.1 (Nat.lt_irrefl _))
    (fun y hy => ?_) fun y hy => ?_
  · rw [children_addExpr, if_pos rfl] at hy
    exact howes.mem_nodes_of_held hy
  · cases y with
    | expr id => exact mem_nodes_expr.1 hy
    | _ => trivial

theorem InOrder.addDecl {d : Code.Decl} (h : a.InOrder) (howes : a.Owes (d.kind.children ++ live)) :
    (a.addDecl d).2.InOrder := by
  refine h.add (n := .decl (a.addDecl d).1) (fun _ _ => howes.mem_nodes)
    (fun x hx => by rw [children_addDecl, if_neg hx]) (mt mem_nodes_decl.1 (Nat.lt_irrefl _))
    (fun y hy => ?_) fun y hy => ?_
  · rw [children_addDecl, if_pos rfl] at hy
    exact howes.mem_nodes_of_held hy
  · cases y with
    | decl d' => exact mem_nodes_decl.1 hy
    | _ => trivial

theorem InOrder.addTypeRef {t : Code.TypeRef} (h : a.InOrder)
    (howes : a.Owes (t.kind.children ++ live)) : (a.addTypeRef t).2.InOrder := by
  refine h.add (n := .typeRef (a.addTypeRef t).1) (fun _ _ => howes.mem_nodes)
    (fun x hx => by rw [children_addTypeRef, if_neg hx])
    (mt mem_nodes_typeRef.1 (Nat.lt_irrefl _)) (fun y hy => ?_) fun y hy => ?_
  · rw [children_addTypeRef, if_pos rfl] at hy
    exact howes.mem_nodes_of_held hy
  · cases y with
    | typeRef r => exact mem_nodes_typeRef.1 hy
    | _ => trivial

end Arena

/-! ### Translation -/

namespace Lowering

variable {α β : Type} {pre : List Node}

/-- A step that holds the references `pre` keeps the arena in order. -/
def Orders (pre : List Node) (x : Step α) : Prop :=
  ∀ s live, s.arena.Owes (pre ++ live) → s.arena.InOrder → (x s).2.arena.InOrder

theorem orders_pure (r : α) : Orders pre (pure r) := fun _ _ _ h => h

/-- What the first step has built is held until the end of the second. -/
theorem Orders.bind {x : Step α} {f : α → Step β} {mid : α → List Node} (hx : Orders [] x)
    (hplants : Plants [] x mid) (hf : ∀ r, Orders (pre ++ mid r) (f r)) : Orders pre (x >>= f) := by
  intro s live howes h
  refine hf _ _ live ((hplants s (pre ++ live) howes).perm ?_) (hx s (pre ++ live) howes h)
  rw [List.append_assoc]
  exact List.perm_append_comm_assoc _ _ _

/-- The second step takes over what the first one has built from the references before. -/
theorem Orders.andThen {x : Step α} {f : α → Step β} {mid : α → List Node} (hx : Orders pre x)
    (hplants : Plants pre x mid) (hf : ∀ r, Orders (mid r) (f r)) : Orders pre (x >>= f) :=
  fun s live howes h => hf _ _ live (hplants s live howes) (hx s live howes h)

/-- A name refers to nothing. -/
theorem orders_name_bind {text : String} {f : Name → Step β} (hf : ∀ n, Orders pre (f n)) :
    Orders pre (name text >>= f) :=
  fun _ live howes h => hf _ _ live howes h

theorem orders_name?_bind {text : Option String} {f : Option Name → Step β}
    (hf : ∀ n, Orders pre (f n)) : Orders pre (name? text >>= f) := by
  cases text with
  | none => exact hf none
  | some text => exact fun _ live howes h => hf _ _ live howes h

theorem orders_malformed_bind {e : LiteralError} {f : Unit → Step β} (hf : Orders pre (f ())) :
    Orders pre (malformed e >>= f) :=
  fun _ live howes h => hf _ live howes h

theorem orders_addTypeRef {kind : Code.TypeRefKind} (span : Span) (h : pre = kind.children) :
    Orders pre (addTypeRef kind span) := by
  subst h
  exact fun s live howes hs => hs.addTypeRef (t := ⟨kind, span⟩) howes

theorem orders_addExpr {kind : Code.ExprKind} (span : Span) (h : pre = kind.children) :
    Orders pre (addExpr kind span) := by
  subst h
  exact fun s live howes hs => hs.addExpr (e := ⟨kind, span⟩) howes

theorem orders_addDecl {kind : Code.DeclKind} (span : Span) (h : pre = kind.children) :
    Orders pre (addDecl kind span) := by
  subst h
  exact fun s live howes hs => hs.addDecl (d := ⟨kind, span⟩) howes

/-! #### Types, parameters and patterns -/

mutual

theorem orders_typeExpr (t : Tree.TypeExpr) : Orders [] (typeExpr t) := by
  cases t with
  | named text span => exact orders_name_bind fun _ => orders_addTypeRef span rfl
  | function params result span =>
    exact (orders_typeExprs params).bind (plants_typeExprs params) fun _ =>
      (orders_typeExpr result).bind (plants_typeExpr result) fun _ => orders_addTypeRef span rfl

theorem orders_typeExprs (ts : List Tree.TypeExpr) : Orders [] (typeExprs ts) := by
  cases ts with
  | nil => exact orders_pure _
  | cons t ts =>
    exact (orders_typeExpr t).bind (plants_typeExpr t) fun _ =>
      (orders_typeExprs ts).bind (plants_typeExprs ts) fun _ => orders_pure _

end

theorem orders_typeExpr? (t : Option Tree.TypeExpr) : Orders [] (typeExpr? t) := by
  cases t with
  | none => exact orders_pure _
  | some t => exact (orders_typeExpr t).bind (plants_typeExpr t) fun _ => orders_pure _

theorem orders_params (ps : List Tree.Param) : Orders [] (params ps) := by
  induction ps with
  | nil => exact orders_pure _
  | cons p ps ih =>
    exact orders_name_bind fun _ => (orders_typeExpr? p.type).bind (plants_typeExpr? p.type)
      fun _ => ih.bind (plants_params ps) fun _ => orders_pure _

theorem orders_fields (fs : List Tree.Field) : Orders [] (fields fs) := by
  induction fs with
  | nil => exact orders_pure _
  | cons f fs ih =>
    exact orders_name_bind fun _ => (orders_typeExpr f.type).bind (plants_typeExpr f.type)
      fun _ => ih.bind (plants_fields fs) fun _ => orders_pure _

theorem orders_importItems (is : List Tree.ImportItem) : Orders [] (importItems is) := by
  induction is with
  | nil => exact orders_pure _
  | cons i is ih =>
    exact orders_name_bind fun _ => orders_name?_bind fun _ =>
      ih.bind (plants_importItems is) fun _ => orders_pure _

theorem orders_pattern (p : Tree.Pattern) : Orders [] (pattern p) :=
  (orders_typeExpr p.type).bind (plants_typeExpr p.type) fun _ =>
    orders_name?_bind fun _ => orders_pure _

/-! #### Expressions, statements and declarations -/

mutual

theorem orders_expr (e : Tree.Expr) : Orders [] (expr e) := by
  cases e with
  | node p suffixes span =>
    exact (orders_primary p _).andThen (plants_primary p _) fun first =>
      orders_chain suffixes span first

theorem orders_chain (suffixes : List Tree.Suffix) (span : Span) (current : ExprId) :
    Orders [.expr current] (chain span current suffixes) := by
  cases suffixes with
  | nil => exact orders_pure _
  | cons s rest =>
    exact (orders_suffix s current).andThen (plants_suffix s current) fun _ =>
      (orders_addExpr _ rfl).andThen (plants_addExpr _ rfl) fun next => orders_chain rest span next

theorem orders_suffix (s : Tree.Suffix) (current : ExprId) :
    Orders [.expr current] (suffix current s) := by
  cases s with
  | call args span => exact (orders_exprs args).bind (plants_exprs args) fun _ => orders_pure _
  | member text span => exact orders_name_bind fun _ => orders_pure _
  | pipe callee args span =>
    exact (orders_expr callee).bind (plants_expr callee) fun _ =>
      (orders_exprs args).bind (plants_exprs args) fun _ => orders_pure _

theorem orders_exprs (es : List Tree.Expr) : Orders [] (exprs es) := by
  cases es with
  | nil => exact orders_pure _
  | cons e es =>
    exact (orders_expr e).bind (plants_expr e) fun _ =>
      (orders_exprs es).bind (plants_exprs es) fun _ => orders_pure _

theorem orders_expr? (e : Option Tree.Expr) : Orders [] (expr? e) := by
  cases e with
  | none => exact orders_pure _
  | some e => exact (orders_expr e).bind (plants_expr e) fun _ => orders_pure _

theorem orders_primary (p : Tree.Primary) (span : Span) : Orders [] (primary p span) := by
  cases p with
  | group inner =>
    exact (orders_expr inner).bind (plants_expr inner) fun _ => orders_addExpr span rfl
  | block body =>
    exact (orders_stmts body).bind (plants_stmts body) fun _ => orders_addExpr span rfl
  | function ps result body =>
    exact (orders_params ps).bind (plants_params ps) fun _ =>
      (orders_typeExpr? result).bind (plants_typeExpr? result) fun _ =>
        (orders_expr body).bind (plants_expr body) fun _ => orders_addExpr span rfl
  | branch subject options =>
    exact (orders_expr? subject).bind (plants_expr? subject) fun _ =>
      (orders_arms options).bind (plants_arms options) fun _ => orders_addExpr span rfl
  | loop body => exact (orders_expr body).bind (plants_expr body) fun _ => orders_addExpr span rfl
  | cause payload =>
    exact (orders_expr payload).bind (plants_expr payload) fun _ => orders_addExpr span rfl
  | ret value =>
    exact (orders_expr? value).bind (plants_expr? value) fun _ => orders_addExpr span rfl
  | brk value =>
    exact (orders_expr? value).bind (plants_expr? value) fun _ => orders_addExpr span rfl
  | string token =>
    simp only [primary]
    split
    · exact orders_name_bind fun _ => orders_addExpr span rfl
    · exact orders_malformed_bind (orders_addExpr span rfl)
  | number token =>
    simp only [primary]
    split
    · exact orders_addExpr span rfl
    · exact orders_malformed_bind (orders_addExpr span rfl)
  | ident text => exact orders_name_bind fun _ => orders_addExpr span rfl

theorem orders_arms (as : List Tree.Arm) : Orders [] (arms as) := by
  cases as with
  | nil => exact orders_pure _
  | cons a as =>
    exact (orders_arm a).bind (plants_arm a) fun _ =>
      (orders_arms as).bind (plants_arms as) fun _ => orders_pure _

theorem orders_arm (a : Tree.Arm) : Orders [] (arm a) := by
  cases a with
  | when condition body span =>
    exact (orders_expr condition).bind (plants_expr condition) fun _ =>
      (orders_expr body).bind (plants_expr body) fun _ => orders_pure _
  | is p body span =>
    exact (orders_pattern p).bind (plants_pattern p) fun _ =>
      (orders_expr body).bind (plants_expr body) fun _ => orders_pure _
  | otherwise body span => exact (orders_expr body).bind (plants_expr body) fun _ => orders_pure _

theorem orders_stmts (body : List Tree.Stmt) : Orders [] (stmts body) := by
  cases body with
  | nil => exact orders_pure _
  | cons st body =>
    exact (orders_stmt st).bind (plants_stmt st) fun _ =>
      (orders_stmts body).bind (plants_stmts body) fun _ => orders_pure _

theorem orders_stmt (st : Tree.Stmt) : Orders [] (stmt st) := by
  cases st with
  | expr e span => exact (orders_expr e).bind (plants_expr e) fun _ => orders_pure _
  | decl d span => exact (orders_decl d).bind (plants_decl d) fun _ => orders_pure _
  | effect p body span =>
    exact (orders_pattern p).bind (plants_pattern p) fun _ =>
      (orders_expr body).bind (plants_expr body) fun _ => orders_pure _
  | set text value span =>
    exact orders_name_bind fun _ => (orders_expr value).bind (plants_expr value) fun _ =>
      orders_pure _

theorem orders_decl (d : Tree.Decl) : Orders [] (decl d) := by
  cases d with
  | imports path items span =>
    exact (orders_importItems items).bind (plants_importItems items) fun _ =>
      orders_addDecl span rfl
  | function text ps result body span =>
    exact orders_name_bind fun _ => (orders_params ps).bind (plants_params ps) fun _ =>
      (orders_typeExpr? result).bind (plants_typeExpr? result) fun _ =>
        (orders_expr body).bind (plants_expr body) fun _ => orders_addDecl span rfl
  | binding text isVariable type value span =>
    exact orders_name_bind fun _ => (orders_typeExpr? type).bind (plants_typeExpr? type) fun _ =>
      (orders_expr value).bind (plants_expr value) fun _ => orders_addDecl span rfl
  | object text fs span =>
    exact orders_name_bind fun _ => (orders_fields fs).bind (plants_fields fs) fun _ =>
      orders_addDecl span rfl
  | signal text fs result span =>
    exact orders_name_bind fun _ => (orders_fields fs).bind (plants_fields fs) fun _ =>
      (orders_typeExpr? result).bind (plants_typeExpr? result) fun _ => orders_addDecl span rfl
  | option text members span =>
    exact orders_name_bind fun _ => (orders_typeExprs members).bind (plants_typeExprs members)
      fun _ => orders_addDecl span rfl

end

theorem orders_decls (ds : List Tree.Decl) : Orders [] (decls ds) := by
  induction ds with
  | nil => exact orders_pure _
  | cons d ds ih =>
    exact (orders_decl d).bind (plants_decl d) fun _ => ih.bind (plants_decls ds) fun _ =>
      orders_pure _

end Lowering

/-! ### Files -/

/-- **The code of a file is a forest in the order of allocation.**  All that a node or the module
refers to is there; each node is referred to once, by another node or by the module; and what can be
reached from a node has been numbered before it, so that there is no cycle. -/
theorem Module.forest_in_order {file : Tree.File} {interner interner' : Interner} {m : Module}
    (h : Module.ofTree file interner = (.ok m, interner')) :
    (∀ x, ∀ y ∈ m.arena.children x, y ∈ m.arena.nodes) ∧
    (∀ d ∈ m.decls, .decl d ∈ m.arena.nodes) ∧
    (∀ x ∈ m.arena.nodes,
      (m.arena.nodes.flatMap m.arena.children ++ m.decls.map Node.decl).count x = 1) ∧
    (∀ x y, m.arena.Reaches x y → y.Before x) ∧ ∀ x, ¬ m.arena.Reaches x x := by
  have howes := Module.owes_of_ofTree h
  obtain ⟨-, hs⟩ := Module.decls_of_ofTree h
  have hordered : m.arena.InOrder := by
    have := Lowering.orders_decls file.decls ⟨.empty, interner, #[]⟩ [] Arena.owes_empty
      Arena.inOrder_empty
    rwa [hs] at this
  refine ⟨fun _ _ => howes.mem_nodes, fun d hd => ?_, fun x hx => ?_, hordered, fun x hx => ?_⟩
  · exact howes.mem_iff.1 (List.mem_append_right _ (List.mem_map_of_mem hd))
  · rw [← Arena.refs_eq, howes.count_eq]
    exact List.count_eq_one_of_mem m.arena.nodup_nodes hx
  · exact x.not_before_self (hordered x x hx)

/-- `function main() { function inner(p: Function(Number): Number) p; inner }` -/
def nestedFunctions : Tree.File :=
  let ident (text : String) : Tree.Expr := .node (.ident text) [] .dummy
  let type : Tree.TypeExpr := .function [.named "Number" .dummy] (.named "Number" .dummy) .dummy
  let inner : Tree.Decl := .function "inner" [⟨"p", .dummy, some type⟩] none (ident "p") .dummy
  ⟨"", [.function "main" [] none
    (.node (.block [.decl inner .dummy, .expr (ident "inner") .dummy]) [] .dummy) .dummy]⟩

/-- Three expressions, two declarations and three written types, each referred to once. -/
theorem nestedFunctions_in_order : ∃ m interner,
    Module.ofTree nestedFunctions .new = (.ok m, interner) ∧ m.arena.nodes.length = 8 ∧
    (∀ x ∈ m.arena.nodes,
      (m.arena.nodes.flatMap m.arena.children ++ m.decls.map Node.decl).count x = 1) ∧
    ∀ x y, m.arena.Reaches x y → y.Before x := by
  obtain ⟨m, interner, hm⟩ := @Module.exists_ofTree nestedFunctions .new (by decide +kernel)
  have hcount : (Module.ofTree nestedFunctions .new).1.toOption.map (·.arena.nodes.length) =
      some 8 := by decide +kernel
  obtain ⟨-, -, honce, hordered, -⟩ := Module.forest_in_order hm
  rw [hm] at hcount
  exact ⟨m, interner, hm, Option.some.inj hcount, honce, hordered⟩

end SignalLang
