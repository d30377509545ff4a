import SignalLang.Proofs.LiteralTokens
import SignalLang.Proofs.Unfolding
import SignalLang.Proofs.Numbering

/-!
# Translation keeps the tree

What the translation of a parse tree puts into the arena unfolds to the tree for which the parse
tree stands.  Each step only adds to what is there, so what has been translated stands for the same
tree from then on.

* `Lowering.Extends s s'` : `s'` has all that `s` has.
* `Lowering.Stands read s r b` : what was built up to `s` reads as `b` at `r`, whatever is added.
* `Lowering.Gives s x read d` : from `s`, the step `x` gives something that reads as `d`, unless
  there are malformed literals.
* `Module.unfold_ofTree` : **the code of a file unfolds to the tree of the file.**
-/

namespace SignalLang

/-! ### Names -/

namespace Interner

/-- The name of a string gives the string back. -/
theorem text?_of_find? {t : Interner} {s : String} {n : Name} (h : t.find? s = some n) :
    t.text? n = some s := by
  obtain ⟨i, hi, rfl⟩ := Option.map_eq_some_iff.1 h
  exact (Shard.agrees _ s i).1 hi

theorem text?_intern_self (t : Interner) (s : String) :
    (t.intern s).2.text? (t.intern s).1 = some s :=
  text?_of_find? (t.find?_intern_self s)

/-- Names keep their strings. -/
theorem text?_intern {t : Interner} {n : Name} {s : String} (h : t.text? n = some s) (s' : String) :
    (t.intern s').2.text? n = some s := by
  simp only [text?, intern, Fin.getElem_fin, Vector.getElem_set] at h ⊢
  split
  · rename_i hk
    have hi : t.shards[(shardOf s').val].index[s]? = some n.index := by
      rw [Shard.agrees]
      simpa only [hk] using h
    exact (Shard.agrees _ _ _).1 (Shard.index_intern hi s')
  · exact h

end Interner

namespace Lowering

/-! ### Growing states -/

/-- The names of all written types so far have been given out. -/
def TypesNamed (s : Lowering) : Prop :=
  ∀ {i : Nat} {ref n}, s.arena.typeRefs[i]? = some ref → ref.kind = .named n →
    (s.interner.text? n).isSome

/-- A state has all nodes and names of another one, and malformed literals if that has any. -/
structure Extends (s s' : Lowering) : Prop where
  exprs : ∀ {i : Nat} {e}, s.arena.exprs[i]? = some e → s'.arena.exprs[i]? = some e
  decls : ∀ {i : Nat} {d}, s.arena.decls[i]? = some d → s'.arena.decls[i]? = some d
  typeRefs : ∀ {i : Nat} {r}, s.arena.typeRefs[i]? = some r → s'.arena.typeRefs[i]? = some r
  texts : ∀ {n text}, s.interner.text? n = some text → s'.interner.text? n = some text
  clean : s'.errors = #[] → s.errors = #[]
  named : s'.errors = #[] → s.TypesNamed → s'.TypesNamed

namespace Extends

variable {s s' s'' : Lowering}

theorem refl (s : Lowering) : s.Extends s := ⟨id, id, id, id, id, fun _ h => h⟩

theorem trans (h : s.Extends s') (h' : s'.Extends s'') : s.Extends s'' :=
  ⟨fun he => h'.exprs (h.exprs he), fun hd => h'.decls (h.decls hd),
    fun hr => h'.typeRefs (h.typeRefs hr), fun ht => h'.texts (h.texts ht),
    fun hc => h.clean (h'.clean hc), fun hc hs => h'.named hc (h.named (h'.clean hc) hs)⟩

/-- An array that keeps its elements does not get shorter. -/
theorem size_le_of_keeps {xs ys : Array α}
    (h : ∀ {i : Nat} {x}, xs[i]? = some x → ys[i]? = some x) : xs.size ≤ ys.size := by
  refine Nat.le_of_not_lt fun hlt => ?_
  have hlast := h (Array.getElem?_eq_getElem hlt)
  rw [Array.getElem?_eq_none (Nat.le_refl _)] at hlast
  cases hlast

theorem size_le (h : s.Extends s') : s.arena.maxDepth ≤ s'.arena.maxDepth :=
  Nat.add_le_add (size_le_of_keeps h.exprs) (size_le_of_keeps h.typeRefs)

end Extends

/-! ### What is read -/

/-- How something is read off an arena and an interner, to some depth. -/
abbrev Reader (α β : Type) := Arena → Interner → Nat → α → Option β

/-- How several things are read. -/
abbrev listOf {α β : Type} (read : Reader α β) : Reader (List α) (List β) :=
  fun a t depth xs => xs.mapM (read a t depth)

/-- How something is read that may be absent. -/
abbrev optionOf {α β : Type} (read : Reader α β) : Reader (Option α) (Option β) :=
  fun a t depth x => x.mapM (read a t depth)

/-- What was built so far reads as `b` at `r`, whatever is added, and however deep it is read beyond
what is there. -/
def Stands {α β : Type} (read : Reader α β) (s : Lowering) (r : α) (b : β) : Prop :=
  ∀ f depth, s.Extends f → s.arena.maxDepth ≤ depth → read f.arena f.interner depth r = some b

/-- Without malformed literals, there is a tree, and it can be read at `r`. -/
def Told {α β : Type} (read : Reader α β) (s : Lowering) (r : α) (d : Option β) : Prop :=
  s.errors = #[] → ∃ b, d = some b ∧ Stands read s r b

/-- From a state, a step only adds to what is there, and gives what reads as a tree. -/
def Gives {α β : Type} (s : Lowering) (x : Step α) (read : Reader α β) (d : Option β) : Prop :=
  s.Extends (x s).2 ∧ Told read (x s).2 (x s).1 d

variable {α α' β β' : Type} {s s' : Lowering} {read : Reader α β} {read' : Reader α' β'}
  {d : Option β} {d' : Option β'}

theorem Stands.mono {r : α} {b : β} (h : Stands read s r b) (hs : s.Extends s') :
    Stands read s' r b :=
  fun f depth hf hdepth => h f depth (hs.trans hf) (Nat.le_trans hs.size_le hdepth)

theorem Told.mono {r : α} (h : Told read s r d) (hs : s.Extends s') : Told read s' r d := by
  intro hclean
  obtain ⟨b, hb, hr⟩ := h (hs.clean hclean)
  exact ⟨b, hb, hr.mono hs⟩

theorem Told.of_some {r : α} {b : β} (h : Stands read s r b) : Told read s r (some b) :=
  fun _ => ⟨b, rfl, h⟩

/-- To the depth to which an arena can be read. -/
abbrev whole {α β : Type} (read : Reader α β) : Reader α β := fun a t _ r => read a t a.maxDepth r

theorem Told.whole {r : α} (h : Told read s r d) : Told (whole read) s r d := by
  intro hclean
  obtain ⟨b, hb, hr⟩ := h hclean
  exact ⟨b, hb, fun f _ hf _ => hr f _ hf hf.size_le⟩

section

variable {α₁ α₂ α₃ α₄ β₁ β₂ β₃ β₄ : Type} {read₁ : Reader α₁ β₁} {read₂ : Reader α₂ β₂}
  {read₃ : Reader α₃ β₃} {read₄ : Reader α₄ β₄} {r₁ : α₁} {r₂ : α₂} {r₃ : α₃} {r₄ : α₄}
  {d₁ : Option β₁} {d₂ : Option β₂} {d₃ : Option β₃} {d₄ : Option β₄}

/-- Something with one part. -/
theorem Told.of_part (h₁ : Told read₁ s r₁ d₁) {g : β₁ → β} {r : α}
    (h : ∀ a t depth b₁, read₁ a t depth r₁ = some b₁ → read a t depth r = some (g b₁)) :
    Told read s r (do return g (← d₁)) := by
  intro hclean
  obtain ⟨b₁, rfl, hb₁⟩ := h₁ hclean
  exact ⟨g b₁, rfl, fun f depth hf hdepth => h _ _ _ _ (hb₁ f depth hf hdepth)⟩

/-- Something with two parts. -/
theorem Told.of_parts (h₁ : Told read₁ s r₁ d₁) (h₂ : Told read₂ s r₂ d₂) {g : β₁ → β₂ → β} {r : α}
    (h : ∀ a t depth b₁ b₂, read₁ a t depth r₁ = some b₁ → read₂ a t depth r₂ = some b₂ →
      read a t depth r = some (g b₁ b₂)) :
    Told read s r (do return g (← d₁) (← d₂)) := by
  intro hclean
  obtain ⟨b₁, rfl, hb₁⟩ := h₁ hclean
  obtain ⟨b₂, rfl, hb₂⟩ := h₂ hclean
  exact ⟨g b₁ b₂, rfl, fun f depth hf hdepth =>
    h _ _ _ _ _ (hb₁ f depth hf hdepth) (hb₂ f depth hf hdepth)⟩

/-- Something with three parts. -/
theorem Told.of_three_parts (h₁ : Told read₁ s r₁ d₁) (h₂ : Told read₂ s r₂ d₂)
    (h₃ : Told read₃ s r₃ d₃) {g : β₁ → β₂ → β₃ → β} {r : α}
    (h : ∀ a t depth b₁ b₂ b₃, read₁ a t depth r₁ = some b₁ → read₂ a t depth r₂ = some b₂ →
      read₃ a t depth r₃ = some b₃ → read a t depth r = some (g b₁ b₂ b₃)) :
    Told read s r (do return g (← d₁) (← d₂) (← d₃)) := by
  intro hclean
  obtain ⟨b₁, rfl, hb₁⟩ := h₁ hclean
  obtain ⟨b₂, rfl, hb₂⟩ := h₂ hclean
  obtain ⟨b₃, rfl, hb₃⟩ := h₃ hclean
  exact ⟨g b₁ b₂ b₃, rfl, fun f depth hf hdepth => h _ _ _ _ _ _ (hb₁ f depth hf hdepth)
    (hb₂ f depth hf hdepth) (hb₃ f depth hf hdepth)⟩

end

theorem gives_pure {r : α} (h : Told read s r d) : Gives s (pure r) read d := ⟨.refl s, h⟩

theorem Gives.bind {x : Step α} {f : α → Step α'} (hx : Gives s x read d)
    (hf : ∀ r s', s.Extends s' → Told read s' r d → Gives s' (f r) read' d') :
    Gives s (x >>= f) read' d' := by
  obtain ⟨hle, htold⟩ := hx
  obtain ⟨hle', htold'⟩ := hf _ _ hle htold
  exact ⟨hle.trans hle', htold'⟩

/-- A step in front of several others of its kind. -/
theorem gives_cons {x : Step α} {xs : Step (List α)} {ds : Option (List β)} (hx : Gives s x read d)
    (hxs : ∀ s', s.Extends s' → Gives s' xs (listOf read) ds) :
    Gives s (do return (← x) :: (← xs)) (listOf read) (do return (← d) :: (← ds)) := by
  refine hx.bind fun r s₁ hs₁ hr => (hxs s₁ hs₁).bind fun rs s₂ hs₂ hrs => gives_pure ?_
  exact (hr.mono hs₂).of_parts hrs fun _ _ _ _ _ h hs => by simp [h, hs]

/-- A step whose result is there. -/
theorem gives_some {x : Step α} (hx : Gives s x read d) :
    Gives s (do return some (← x)) (optionOf read) (do return some (← d)) := by
  refine hx.bind fun r s₁ _ hr => gives_pure ?_
  exact hr.of_part fun _ _ _ _ h => by simp [h]

/-- Nothing at all. -/
theorem gives_nil : Gives s (pure []) (listOf read) (some []) :=
  gives_pure (.of_some fun _ _ _ _ => by simp)

/-- Nothing where something may be absent. -/
theorem gives_none : Gives s (pure none) (optionOf read) (some none) :=
  gives_pure (.of_some fun _ _ _ _ => by simp)

/-! ### Names, nodes and malformed literals -/

/-- How a name is read. -/
abbrev nameText : Reader Name String := fun _ t _ n => t.text? n

theorem gives_name (text : String) (s : Lowering) : Gives s (name text) nameText (some text) := by
  refine ⟨⟨id, id, id, fun h => Interner.text?_intern h text, id, fun _ hs _ _ _ hi hk => ?_⟩,
    .of_some fun f _ hf _ => hf.texts (s.interner.text?_intern_self text)⟩
  obtain ⟨known, hknown⟩ := Option.isSome_iff_exists.1 (hs hi hk)
  exact Option.isSome_iff_exists.2 ⟨known, Interner.text?_intern hknown text⟩

theorem gives_name? (text : Option String) (s : Lowering) :
    Gives s (name? text) (optionOf nameText) (some text) := by
  cases text with
  | none => exact gives_none
  | some text => exact gives_some (gives_name text s)

/-- An array keeps its elements when one is added. -/
theorem getElem?_push_of_some {xs : Array α} {i : Nat} {x : α} (h : xs[i]? = some x) (y : α) :
    (xs.push y)[i]? = some x := by
  obtain ⟨hi, -⟩ := Array.getElem?_eq_some_iff.1 h
  rw [Array.getElem?_push, if_neg (Nat.ne_of_lt hi), h]

theorem extends_addExpr (kind : Code.ExprKind) (span : Span) (s : Lowering) :
    s.Extends (addExpr kind span s).2 :=
  ⟨fun he => getElem?_push_of_some he _, id, id, id, id, fun _ h => h⟩

theorem extends_addDecl (kind : Code.DeclKind) (span : Span) (s : Lowering) :
    s.Extends (addDecl kind span s).2 :=
  ⟨id, fun hd => getElem?_push_of_some hd _, id, id, id, fun _ h => h⟩

theorem extends_malformed (e : LiteralError) (s : Lowering) : s.Extends (malformed e s).2 :=
  ⟨id, id, id, id, fun h => by simp [malformed] at h, fun _ h => h⟩

/-- How what a written type consists of is read. -/
abbrev typeKindTree : Reader Code.TypeRefKind Ast.TypeRefKind :=
  fun a t depth kind => Arena.typeKindTree? t (a.typeTreeWithin? t depth) kind

/-- How what an expression does is read. -/
abbrev kindTree : Reader Code.ExprKind Ast.ExprKind :=
  fun a t depth kind => a.kindTree? t (a.exprTreeWithin? t depth) kind

/-- How what a declaration declares is read. -/
abbrev declKindTree : Reader Code.DeclKind Ast.DeclKind :=
  fun a t depth kind => a.declKindTree? t (a.exprTreeWithin? t depth) kind

/-- How a declaration is read. -/
abbrev declTree : Reader DeclId Ast.Decl :=
  fun a t depth d => a.declTree? t (a.exprTreeWithin? t depth) d

/-- A written type that can be read has a name that was given out. -/
theorem extends_addTypeRef {kind : Code.TypeRefKind} (span : Span) {d : Option Ast.TypeRefKind}
    (h : Told typeKindTree s kind d) : s.Extends (addTypeRef kind span s).2 := by
  refine ⟨id, id, fun hr => getElem?_push_of_some hr _, id, id, fun hclean hs i ref n hi hk => ?_⟩
  simp only [addTypeRef, Arena.addTypeRef, Array.getElem?_push] at hi
  split at hi
  · obtain rfl := Option.some.inj hi
    obtain rfl : kind = .named n := hk
    obtain ⟨k, -, hstands⟩ := h hclean
    have hread := hstands s s.arena.maxDepth (.refl s) (Nat.le_refl _)
    obtain ⟨text, htext, -⟩ := Option.bind_eq_some_iff.1 hread
    exact Option.isSome_iff_exists.2 ⟨text, htext⟩
  · exact hs hi hk

/-- A written type that reads as a tree. -/
theorem gives_addTypeRef {kind : Code.TypeRefKind} (span : Span) {d : Option Ast.TypeRefKind}
    (h : Told typeKindTree s kind d) :
    Gives s (addTypeRef kind span) Arena.typeTreeWithin? (do return .node (← d) span) := by
  have hextends := extends_addTypeRef span h
  refine ⟨hextends, fun hclean => ?_⟩
  obtain ⟨k, rfl, hk⟩ := h (hextends.clean hclean)
  refine ⟨.node k span, rfl, fun f depth hf hdepth => ?_⟩
  have hnode : f.arena.typeRefs[s.arena.typeRefs.size]? = some ⟨kind, span⟩ :=
    hf.typeRefs (by simp [addTypeRef, Arena.addTypeRef])
  -- one more node is one more level, and its parts were there before
  have hsize : s.arena.maxDepth + 1 ≤ depth := by
    simp only [addTypeRef, Arena.addTypeRef, Arena.maxDepth, Array.size_push] at hdepth ⊢
    omega
  obtain ⟨depth, rfl⟩ := Nat.exists_eq_add_of_le' hsize
  have hparts := hk f (depth + s.arena.maxDepth) (hextends.trans hf)
    (Nat.le_add_left _ _)
  rw [← Nat.add_assoc]
  simp only [addTypeRef, Arena.addTypeRef, Arena.typeTreeWithin?, Arena.typeTreeNode?, hnode,
    Option.bind_eq_bind, Option.bind_some, hparts]
  rfl

/-- An expression that reads as a tree. -/
theorem gives_addExpr {kind : Code.ExprKind} (span : Span) {d : Option Ast.ExprKind}
    (h : Told kindTree s kind d) :
    Gives s (addExpr kind span) Arena.exprTreeWithin? (do return .node (← d) span) := by
  refine ⟨extends_addExpr kind span s, fun hclean => ?_⟩
  obtain ⟨k, rfl, hk⟩ := h ((extends_addExpr kind span s).clean hclean)
  refine ⟨.node k span, rfl, fun f depth hf hdepth => ?_⟩
  have hnode : f.arena.exprs[s.arena.exprs.size]? = some ⟨kind, span⟩ :=
    hf.exprs (by simp [addExpr, Arena.addExpr])
  have hsize : s.arena.maxDepth + 1 ≤ depth := by
    simp only [addExpr, Arena.addExpr, Arena.maxDepth, Array.size_push] at hdepth ⊢
    omega
  obtain ⟨depth, rfl⟩ := Nat.exists_eq_add_of_le' hsize
  have hparts := hk f (depth + s.arena.maxDepth) ((extends_addExpr kind span s).trans hf)
    (Nat.le_add_left _ _)
  rw [← Nat.add_assoc]
  simp only [addExpr, Arena.addExpr, Arena.exprTreeWithin?, Arena.exprTreeNode?, hnode,
    Option.bind_eq_bind, Option.bind_some, hparts]
  rfl

/-- A declaration that reads as a tree.  It adds no level. -/
theorem gives_addDecl {kind : Code.DeclKind} (span : Span) {d : Option Ast.DeclKind}
    (h : Told declKindTree s kind d) :
    Gives s (addDecl kind span) declTree (do return .node (← d) span) := by
  refine ⟨extends_addDecl kind span s, fun hclean => ?_⟩
  obtain ⟨k, rfl, hk⟩ := h ((extends_addDecl kind span s).clean hclean)
  refine ⟨.node k span, rfl, fun f depth hf hdepth => ?_⟩
  have hnode : f.arena.decls[s.arena.decls.size]? = some ⟨kind, span⟩ :=
    hf.decls (by simp [addDecl, Arena.addDecl])
  have hparts := hk f depth ((extends_addDecl kind span s).trans hf) hdepth
  simp only [addDecl, Arena.addDecl, Arena.declTree?, hnode, Option.bind_eq_bind, Option.bind_some,
    hparts]
  rfl

/-- Once there is a malformed literal, nothing more is told. -/
theorem gives_malformed (e : LiteralError) {x : Step α}
    (hx : ∀ s : Lowering, s.Extends (x s).2) : Gives s (do malformed e; x) read d := by
  have hclean : ((x (malformed e s).2).2.errors = #[]) → False := fun h => by
    have herrors := (hx (malformed e s).2).clean h
    simp [malformed] at herrors
  exact ⟨(extends_malformed e s).trans (hx _), fun h => (hclean h).elim⟩

/-! ### Types, parameters and patterns -/

/-- How a written type is read. -/
abbrev typeTree : Reader TypeRefId Ast.TypeRef := fun a t _ r => a.typeTree? t r

/-- How a parameter is read. -/
abbrev paramTree : Reader Code.Param Ast.Param := fun a t _ q => a.paramTree? t q

/-- How a field is read. -/
abbrev fieldTree : Reader Code.Field Ast.Field := fun a t _ f => a.fieldTree? t f

/-- How a pattern is read. -/
abbrev patternTree : Reader Code.Pattern Ast.Pattern := fun a t _ q => a.patternTree? t q

/-- How an import item is read. -/
abbrev importTree : Reader Code.ImportItem Ast.ImportItem :=
  fun _ t _ item => Arena.importTree? t item

mutual

theorem gives_typeExpr (t : Tree.TypeExpr) (s : Lowering) :
    Gives s (typeExpr t) Arena.typeTreeWithin? (some t.ast) := by
  cases t with
  | named text span =>
    exact (gives_name text s).bind fun n s₁ _ hn => gives_addTypeRef span
      (hn.of_part fun _ _ _ _ h => by simp [Arena.typeKindTree?, h])
  | function params result span =>
    exact (gives_typeExprs params s).bind fun ps s₁ _ hps => (gives_typeExpr result s₁).bind
      fun r s₂ h₂ hr => gives_addTypeRef span
        ((hps.mono h₂).of_parts hr fun _ _ _ _ _ h h' => by simp [Arena.typeKindTree?, h, h'])

theorem gives_typeExprs (ts : List Tree.TypeExpr) (s : Lowering) :
    Gives s (typeExprs ts) (listOf Arena.typeTreeWithin?) (some (Tree.TypeExpr.asts ts)) := by
  cases ts with
  | nil => exact gives_nil
  | cons t ts => exact gives_cons (gives_typeExpr t s) fun s' _ => gives_typeExprs ts s'

end

theorem gives_typeExpr? (t : Option Tree.TypeExpr) (s : Lowering) :
    Gives s (typeExpr? t) (optionOf typeTree) (some (t.map Tree.TypeExpr.ast)) := by
  cases t with
  | none => exact gives_none
  | some t => exact gives_some ⟨(gives_typeExpr t s).1, (gives_typeExpr t s).2.whole⟩

theorem gives_params (ps : List Tree.Param) (s : Lowering) :
    Gives s (params ps) (listOf paramTree) (some (ps.map Tree.Param.ast)) := by
  induction ps generalizing s with
  | nil => exact gives_nil
  | cons p ps ih =>
    have hparam : Gives s (do
        let n ← name p.name
        let r ← typeExpr? p.type
        return (⟨n, r, p.nameSpan⟩ : Code.Param)) paramTree (some p.ast) :=
      (gives_name p.name s).bind fun n s₁ _ hn => (gives_typeExpr? p.type s₁).bind
        fun r s₂ h₂ hr => gives_pure
          ((hn.mono h₂).of_parts (g := fun n ty => Ast.Param.mk n ty p.nameSpan) hr
            fun _ _ _ _ _ h h' => by simp [Arena.paramTree?, h, h'])
    exact gives_cons hparam fun s' _ => ih s'

theorem gives_fields (fs : List Tree.Field) (s : Lowering) :
    Gives s (fields fs) (listOf fieldTree) (some (fs.map Tree.Field.ast)) := by
  induction fs generalizing s with
  | nil => exact gives_nil
  | cons f fs ih =>
    have hfield : Gives s (do
        let n ← name f.name
        let r ← typeExpr f.type
        return (⟨n, r, f.nameSpan.merge f.type.span⟩ : Code.Field)) fieldTree (some f.ast) :=
      (gives_name f.name s).bind fun n s₁ _ hn => (gives_typeExpr f.type s₁).bind
        fun r s₂ h₂ hr => gives_pure
          ((hn.mono h₂).of_parts (g := fun n ty =>
            Ast.Field.mk n ty (f.nameSpan.merge f.type.span)) hr.whole
              fun _ _ _ _ _ h h' => by simp [Arena.fieldTree?, Arena.typeTree?, h, h'])
    exact gives_cons hfield fun s' _ => ih s'

theorem gives_importItems (is : List Tree.ImportItem) (s : Lowering) :
    Gives s (importItems is) (listOf importTree) (some (is.map Tree.ImportItem.ast)) := by
  induction is generalizing s with
  | nil => exact gives_nil
  | cons i is ih =>
    have hitem : Gives s (do
        let n ← name i.name
        let renamed ← name? (i.renamed.map (·.name))
        return (⟨n, renamed, (i.renamed.map fun a => i.nameSpan.merge a.span).getD i.nameSpan⟩ :
          Code.ImportItem)) importTree (some i.ast) := by
      rw [i.ast_eq]
      exact (gives_name i.name s).bind fun n s₁ _ hn => (gives_name? _ s₁).bind
        fun r s₂ h₂ hr => gives_pure
          ((hn.mono h₂).of_parts (g := fun n r => Ast.ImportItem.mk n r
            ((i.renamed.map fun a => i.nameSpan.merge a.span).getD i.nameSpan)) hr
            fun _ _ _ _ _ h h' => by simp [Arena.importTree?, h, h'])
    exact gives_cons hitem fun s' _ => ih s'

theorem gives_pattern (p : Tree.Pattern) (s : Lowering) :
    Gives s (pattern p) patternTree (some p.ast) :=
  (gives_typeExpr p.type s).bind fun r s₁ _ hr => (gives_name? p.binding s₁).bind
    fun n s₂ h₂ hn => gives_pure
      (((hr.mono h₂).whole).of_parts (g := fun ty n => Ast.Pattern.mk ty n p.span) hn
        fun _ _ _ _ _ h h' => by simp [Arena.patternTree?, Arena.typeTree?, h, h'])

/-! ### Expressions, statements and declarations -/

/-- How a statement is read. -/
abbrev stmtTree : Reader Code.Stmt Ast.Stmt :=
  fun a t depth st => a.stmtTree? t (a.exprTreeWithin? t depth) st

/-- How an arm is read. -/
abbrev armTree : Reader Code.Arm Ast.Arm :=
  fun a t depth arm => a.armTree? t (a.exprTreeWithin? t depth) arm

mutual

theorem gives_expr (e : Tree.Expr) (s : Lowering) :
    Gives s (expr e) Arena.exprTreeWithin? e.ast? := by
  cases e with
  | node p suffixes span =>
    refine (gives_primary p (primarySpan span suffixes) s).bind fun first s₁ _ hfirst => ?_
    have hchain := gives_chain suffixes span hfirst
    simpa only [Tree.Expr.ast?, bind_assoc, pure_bind, Tree.primarySpan_eq] using hchain

/-- A chain goes on from an expression that is there. -/
theorem gives_chain (suffixes : List Tree.Suffix) (span : Span) {s : Lowering} {current : ExprId}
    {d : Option Ast.Expr} (h : Told Arena.exprTreeWithin? s current d) :
    Gives s (chain span current suffixes) Arena.exprTreeWithin?
      (do Tree.chainAst? span (← d) suffixes) := by
  cases suffixes with
  | nil =>
    have hd : (do Tree.chainAst? span (← d) []) = d := bind_pure d
    rw [hd]
    exact gives_pure h
  | cons x rest =>
    refine (gives_suffix x h).bind fun kind s₁ _ hkind => ?_
    refine (gives_addExpr (suffixSpan span x rest) hkind).bind fun next s₂ _ hnext => ?_
    have hchain := gives_chain rest span hnext
    simpa only [Tree.chainAst?, bind_assoc, pure_bind, Tree.suffixSpan_eq] using hchain

theorem gives_suffix (x : Tree.Suffix) {s : Lowering} {current : ExprId} {d : Option Ast.Expr}
    (h : Told Arena.exprTreeWithin? s current d) :
    Gives s (suffix current x) kindTree (do x.ast? (← d)) := by
  cases x with
  | call args span =>
    exact (gives_exprs args s).bind fun es s₁ h₁ hes => gives_pure
      ((h.mono h₁).of_parts hes fun _ _ _ _ _ h h' => by simp [Arena.kindTree?, h, h'])
  | member text span =>
    exact (gives_name text s).bind fun n s₁ h₁ hn => gives_pure
      ((h.mono h₁).of_parts (g := Ast.ExprKind.member) hn fun _ _ _ _ _ h h' => by
        simp [Arena.kindTree?, h, h'])
  | pipe callee args span =>
    exact (gives_expr callee s).bind fun f s₁ h₁ hf => (gives_exprs args s₁).bind
      fun es s₂ h₂ hes => gives_pure
        ((h.mono (h₁.trans h₂)).of_three_parts (hf.mono h₂) hes fun _ _ _ _ _ _ h h' h'' => by
          simp [Arena.kindTree?, h, h', h''])

theorem gives_exprs (es : List Tree.Expr) (s : Lowering) :
    Gives s (exprs es) (listOf Arena.exprTreeWithin?) (Tree.Expr.asts? es) := by
  cases es with
  | nil => exact gives_nil
  | cons e es => exact gives_cons (gives_expr e s) fun s' _ => gives_exprs es s'

theorem gives_expr? (e : Option Tree.Expr) (s : Lowering) :
    Gives s (expr? e) (optionOf Arena.exprTreeWithin?) (Tree.Expr.optionalAst? e) := by
  cases e with
  | none => exact gives_none
  | some e => exact gives_some (gives_expr e s)

theorem gives_primary (p : Tree.Primary) (span : Span) (s : Lowering) :
    Gives s (primary p span) Arena.exprTreeWithin? (do return .node (← p.ast?) span) := by
  cases p with
  | group inner =>
    exact (gives_expr inner s).bind fun id s₁ _ hid => gives_addExpr span
      (hid.of_part fun _ _ _ _ h => by simp [Arena.kindTree?, h])
  | block body =>
    exact (gives_stmts body s).bind fun sts s₁ _ hsts => gives_addExpr span
      (hsts.of_part fun _ _ _ _ h => by simp [Arena.kindTree?, h])
  | function ps result body =>
    exact (gives_params ps s).bind fun qs s₁ _ hqs => (gives_typeExpr? result s₁).bind
      fun r s₂ h₂ hr => (gives_expr body s₂).bind fun id s₃ h₃ hid => gives_addExpr span
        ((hqs.mono (h₂.trans h₃)).of_three_parts (hr.mono h₃) hid fun _ _ _ _ _ _ h h' h'' => by
          simp [Arena.kindTree?, h, h', h''])
  | branch subject options =>
    exact (gives_expr? subject s).bind fun id s₁ _ hid => (gives_arms options s₁).bind
      fun arms s₂ h₂ harms => gives_addExpr span
        ((hid.mono h₂).of_parts harms fun _ _ _ _ _ h h' => by simp [Arena.kindTree?, h, h'])
  | loop body =>
    exact (gives_expr body s).bind fun id s₁ _ hid => gives_addExpr span
      (hid.of_part fun _ _ _ _ h => by simp [Arena.kindTree?, h])
  | cause payload =>
    exact (gives_expr payload s).bind fun id s₁ _ hid => gives_addExpr span
      (hid.of_part fun _ _ _ _ h => by simp [Arena.kindTree?, h])
  | ret value =>
    exact (gives_expr? value s).bind fun id s₁ _ hid => gives_addExpr span
      (hid.of_part fun _ _ _ _ h => by simp [Arena.kindTree?, h])
  | brk value =>
    exact (gives_expr? value s).bind fun id s₁ _ hid => gives_addExpr span
      (hid.of_part fun _ _ _ _ h => by simp [Arena.kindTree?, h])
  | string token =>
    simp only [primary, Tree.Primary.ast?]
    cases Quoted.decode token with
    | some text =>
      exact (gives_name text s).bind fun n s₁ _ hn => gives_addExpr span
        (hn.of_part fun _ _ _ _ h => by simp [Arena.kindTree?, h])
    | none => exact gives_malformed _ (extends_addExpr _ span)
  | number token =>
    simp only [primary, Tree.Primary.ast?]
    cases Number.ofToken? token with
    | some value =>
      exact gives_addExpr span (d := some (.number value)) (.of_some fun _ _ _ _ => rfl)
    | none => exact gives_malformed _ (extends_addExpr _ span)
  | ident text =>
    exact (gives_name text s).bind fun n s₁ _ hn => gives_addExpr span
      (hn.of_part fun _ _ _ _ h => by simp [Arena.kindTree?, h])

theorem gives_arms (as : List Tree.Arm) (s : Lowering) :
    Gives s (arms as) (listOf armTree) (Tree.Arm.asts? as) := by
  cases as with
  | nil => exact gives_nil
  | cons a as => exact gives_cons (gives_arm a s) fun s' _ => gives_arms as s'

theorem gives_arm (a : Tree.Arm) (s : Lowering) : Gives s (arm a) armTree a.ast? := by
  cases a with
  | when condition body span =>
    exact (gives_expr condition s).bind fun c s₁ _ hc => (gives_expr body s₁).bind
      fun id s₂ h₂ hid => gives_pure
        ((hc.mono h₂).of_parts hid fun _ _ _ _ _ h h' => by simp [Arena.armTree?, h, h'])
  | is p body span =>
    exact (gives_pattern p s).bind fun q s₁ _ hq => (gives_expr body s₁).bind
      fun id s₂ h₂ hid => gives_pure
        ((hq.mono h₂).of_parts (g := fun q body => Ast.Arm.is q body span) hid
          fun _ _ _ _ _ h h' => by simp [Arena.armTree?, h, h'])
  | otherwise body span =>
    exact (gives_expr body s).bind fun id s₁ _ hid => gives_pure
      (hid.of_part fun _ _ _ _ h => by simp [Arena.armTree?, h])

theorem gives_stmts (body : List Tree.Stmt) (s : Lowering) :
    Gives s (stmts body) (listOf stmtTree) (Tree.Stmt.asts? body) := by
  cases body with
  | nil => exact gives_nil
  | cons st body => exact gives_cons (gives_stmt st s) fun s' _ => gives_stmts body s'

theorem gives_stmt (st : Tree.Stmt) (s : Lowering) : Gives s (stmt st) stmtTree st.ast? := by
  cases st with
  | expr e span =>
    exact (gives_expr e s).bind fun id s₁ _ hid => gives_pure
      (hid.of_part fun _ _ _ _ h => by simp [Arena.stmtTree?, h])
  | decl d span =>
    exact (gives_decl d s).bind fun id s₁ _ hid => gives_pure
      (hid.of_part fun _ _ _ _ h => by simp [Arena.stmtTree?, h])
  | effect p body span =>
    exact (gives_pattern p s).bind fun q s₁ _ hq => (gives_expr body s₁).bind
      fun id s₂ h₂ hid => gives_pure
        ((hq.mono h₂).of_parts (g := fun q body => Ast.Stmt.effect q body span) hid
          fun _ _ _ _ _ h h' => by simp [Arena.stmtTree?, h, h'])
  | set text value span =>
    exact (gives_name text s).bind fun n s₁ _ hn => (gives_expr value s₁).bind
      fun id s₂ h₂ hid => gives_pure
        ((hn.mono h₂).of_parts (g := fun n value => Ast.Stmt.set n value span) hid
          fun _ _ _ _ _ h h' => by simp [Arena.stmtTree?, h, h'])

theorem gives_decl (d : Tree.Decl) (s : Lowering) : Gives s (decl d) declTree d.ast? := by
  cases d with
  | imports path items span =>
    exact (gives_importItems items s).bind fun is s₁ _ his => gives_addDecl span
      (his.of_part fun _ _ _ _ h => by simp [Arena.declKindTree?, h])
  | function text ps result body span =>
    refine (gives_name text s).bind fun n s₁ _ hn => (gives_params ps s₁).bind
      fun qs s₂ h₂ hqs => (gives_typeExpr? result s₂).bind fun r s₃ h₃ hr =>
        (gives_expr body s₃).bind fun id s₄ h₄ hid => ?_
    have hkind : Told declKindTree s₄ (.function n qs r id)
        (do
          let body ← body.ast?
          return .function text (ps.map Tree.Param.ast) (result.map Tree.TypeExpr.ast) body) := by
      intro hclean
      obtain ⟨_, ⟨⟩, hn⟩ := (hn.mono (h₂.trans (h₃.trans h₄))) hclean
      obtain ⟨_, ⟨⟩, hqs⟩ := (hqs.mono (h₃.trans h₄)) hclean
      obtain ⟨_, ⟨⟩, hr⟩ := (hr.mono h₄) hclean
      obtain ⟨b, hb, hid⟩ := hid hclean
      refine ⟨.function text (ps.map Tree.Param.ast) (result.map Tree.TypeExpr.ast) b, by simp [hb],
        fun f depth hf hdepth => ?_⟩
      simp [Arena.declKindTree?, hn f depth hf hdepth, hqs f depth hf hdepth, hr f depth hf hdepth,
        hid f depth hf hdepth]
    have hdecl := gives_addDecl span hkind
    simpa only [Tree.Decl.ast?, bind_assoc, pure_bind] using hdecl
  | binding text isVariable type value span =>
    refine (gives_name text s).bind fun n s₁ _ hn => (gives_typeExpr? type s₁).bind
      fun r s₂ h₂ hr => (gives_expr value s₂).bind fun id s₃ h₃ hid => ?_
    have hkind : Told declKindTree s₃ (.binding n isVariable r id)
        (do return .binding text isVariable (type.map Tree.TypeExpr.ast) (← value.ast?)) :=
      (hn.mono (h₂.trans h₃)).of_three_parts
        (g := fun n type value => Ast.DeclKind.binding n isVariable type value) (hr.mono h₃) hid
        fun _ _ _ _ _ _ h h' h'' => by simp [Arena.declKindTree?, h, h', h'']
    have hdecl := gives_addDecl span hkind
    simpa only [Tree.Decl.ast?, bind_assoc, pure_bind] using hdecl
  | object text fs span =>
    exact (gives_name text s).bind fun n s₁ _ hn => (gives_fields fs s₁).bind
      fun gs s₂ h₂ hgs => gives_addDecl span
        ((hn.mono h₂).of_parts hgs fun _ _ _ _ _ h h' => by simp [Arena.declKindTree?, h, h'])
  | signal text fs result span =>
    exact (gives_name text s).bind fun n s₁ _ hn => (gives_fields fs s₁).bind
      fun gs s₂ h₂ hgs => (gives_typeExpr? result s₂).bind fun r s₃ h₃ hr => gives_addDecl span
        ((hn.mono (h₂.trans h₃)).of_three_parts (hgs.mono h₃) hr fun _ _ _ _ _ _ h h' h'' => by
          simp [Arena.declKindTree?, h, h', h''])
  | option text members span =>
    refine (gives_name text s).bind fun n s₁ _ hn => (gives_typeExprs members s₁).bind
      fun rs s₂ h₂ hrs => ?_
    have hmembers : Told (listOf typeTree) s₂ rs (some (Tree.TypeExpr.asts members)) := hrs.whole
    exact gives_addDecl span
      ((hn.mono h₂).of_parts hmembers fun _ _ _ _ _ h h' => by simp [Arena.declKindTree?, h, h'])

end

theorem gives_decls (ds : List Tree.Decl) (s : Lowering) :
    Gives s (decls ds) (listOf declTree) (ds.mapM Tree.Decl.ast?) := by
  induction ds generalizing s with
  | nil => exact gives_nil
  | cons d ds ih =>
    rw [List.mapM_cons]
    exact gives_cons (gives_decl d s) fun s' _ => ih s'

end Lowering

/-- **The code of a file unfolds to the tree of the file**, whatever names were known before.  In
that tree literal tokens are decoded, each to that for which it stands. -/
theorem Module.unfold_ofTree {file : Tree.File} {interner₀ interner : Interner} {m : Module}
    (hm : Module.ofTree file interner₀ = (.ok m, interner)) :
    (∃ t, file.ast? = some t ∧ m.tree? interner = some t) ∧
    (∀ token text, Quoted.decode token = some text ↔ Quoted.Denotes token text) ∧
    ∀ token x, Number.ofToken? token = some x ↔ Number.Denotes token x := by
  refine ⟨?_, fun _ _ => Quoted.decode_eq_some_iff, fun _ _ => Number.ofToken?_eq_some_iff⟩
  obtain ⟨hpath, hs⟩ := Module.decls_of_ofTree hm
  obtain ⟨-, htold⟩ := Lowering.gives_decls file.decls ⟨.empty, interner₀, #[]⟩
  rw [hs] at htold
  obtain ⟨trees, htrees, hstands⟩ := htold rfl
  have hread : m.decls.mapM (m.arena.declTree? interner (m.arena.exprTree? interner)) =
      some trees := hstands ⟨m.arena, interner, #[]⟩ m.arena.maxDepth (.refl _) (Nat.le_refl _)
  exact ⟨⟨file.path, trees⟩, by simp [Tree.File.ast?, htrees],
    by simp [Module.tree?, hread, hpath]⟩

/-- Every name of a written type can be read back. -/
theorem Module.text?_of_ofTree {file : Tree.File} {interner₀ interner : Interner} {m : Module}
    (hm : Module.ofTree file interner₀ = (.ok m, interner)) {r : TypeRefId} {n : Name}
    (hr : r.index < m.arena.typeRefs.size) (hn : (m.arena.typeRef r).kind = .named n) :
    interner.text? n = some (interner.text n) := by
  obtain ⟨-, hs⟩ := Module.decls_of_ofTree hm
  obtain ⟨hextends, -⟩ := Lowering.gives_decls file.decls ⟨.empty, interner₀, #[]⟩
  rw [hs] at hextends
  have hget : m.arena.typeRefs[r.index]? = some (m.arena.typeRef r) := by
    simp [Arena.typeRef, Array.getD_eq_getD_getElem?, hr]
  have hsome := hextends.named rfl (fun hi => by simp [Arena.empty] at hi) hget hn
  obtain ⟨text, htext⟩ := Option.isSome_iff_exists.1 hsome
  rw [Interner.text, htext, Option.getD_some]

/-- `function f() a.b("c\n") >> d(1_0)` -/
def chained : Tree.File :=
  let literal (p : Tree.Primary) : Tree.Expr := .node p [] .dummy
  ⟨"", [.function "f" [] none (.node (.ident "a") [.member "b" .dummy,
    .call [literal (.string "\"c\\n\"")] .dummy,
    .pipe (literal (.ident "d")) [literal (.number "1_0")] .dummy] .dummy) .dummy]⟩

/-- The tree of the chain: its first suffix is the innermost node. -/
def chainedTree : Ast.File :=
  let literal (kind : Ast.ExprKind) : Ast.Expr := .node kind .dummy
  ⟨"", [.node (.function "f" [] none
    (.node (.pipe
      (.node (.call (.node (.member (literal (.ident "a")) "b") .dummy) [literal (.string "c\n")])
        .dummy)
      (literal (.ident "d")) [literal (.number 10)]) .dummy)) .dummy]⟩

theorem chained_ast? : chained.ast? = some chainedTree := rfl

/-- What translates has code. -/
theorem Module.exists_ofTree {file : Tree.File} {interner₀ : Interner}
    (h : (Module.ofTree file interner₀).1.toOption.isSome) :
    ∃ m interner, Module.ofTree file interner₀ = (.ok m, interner) := by
  cases hm : Module.ofTree file interner₀ with
  | mk result interner =>
    cases result with
    | ok m => exact ⟨m, interner, rfl⟩
    | error errors => simp [hm, Except.toOption] at h

/-- A chain of three suffixes, after translation. -/
theorem chained_unfolds : ∃ m interner, Module.ofTree chained .new = (.ok m, interner) ∧
    m.tree? interner = some chainedTree := by
  obtain ⟨m, interner, hm⟩ := @Module.exists_ofTree chained .new (by decide +kernel)
  obtain ⟨⟨t, ht, hunfold⟩, -⟩ := Module.unfold_ofTree hm
  rw [chained_ast?] at ht
  obtain rfl := Option.some.inj ht
  exact ⟨m, interner, hm, hunfold⟩

end SignalLang
