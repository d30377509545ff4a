import SignalLang.Proofs.Placement
import Mathlib.Data.List.Perm.Basic

/-!
# Steps of resolution

Resolution collects its findings in a state and hands the context down.  A step of it loses no
finding, so that a module without errors has passed every single check.

* `Resolve.Checks x post` : `x` loses no error and no type, and `post` holds behind it if there are
  no errors.
* `Context.Adds c entries names c'` : the context `c'` has more names in its current scope than `c`.
* `Resolve.checks_hoist` : **behind the hoisted declarations of a scope, all their types are known,
  and their names are in scope, each declared once.**
-/

namespace SignalLang

namespace Resolve

/-! ### Steps of resolution -/

/-- The findings `s'` have all the errors and types of `s`, and the types have the same names. -/
structure Findings.Le (s s' : Findings) : Prop where
  errors : s.errors.size ≤ s'.errors.size
  types : ∀ d, (s.table.declType? d).isSome → (s'.table.declType? d).isSome
  size : s.table.size ≤ s'.table.size
  names : ∀ id : TypeId, id.index < s.table.size → (s'.table.get id).name = (s.table.get id).name

theorem Findings.Le.refl (s : Findings) : s.Le s :=
  ⟨Nat.le_refl _, fun _ h => h, Nat.le_refl _, fun _ _ => rfl⟩

theorem Findings.Le.trans {s₁ s₂ s₃ : Findings} (h : s₁.Le s₂) (h' : s₂.Le s₃) : s₁.Le s₃ :=
  ⟨Nat.le_trans h.errors h'.errors, fun d hd => h'.types d (h.types d hd),
    Nat.le_trans h.size h'.size, fun id hid =>
      (h'.names id (Nat.lt_of_lt_of_le hid h.size)).trans (h.names id hid)⟩

/-- A step loses no error and no type.  If there are no errors behind it, `post` holds of its
result, whatever types become known later. -/
def Checks (x : Check α) (post : (DeclId → Prop) → α → Prop) : Prop :=
  ∀ s, s.Le (x s).2 ∧ ((x s).2.errors.size = 0 →
    ∀ typed, (∀ d, ((x s).2.table.declType? d).isSome → typed d) → post typed (x s).1)

variable {α β : Type} {post : (DeclId → Prop) → β → Prop}

theorem checks_pure {a : α} {post : (DeclId → Prop) → α → Prop} (h : ∀ typed, post typed a) :
    Checks (pure a) post :=
  fun s => ⟨.refl s, fun _ typed _ => h typed⟩

theorem Checks.bind {x : Check α} {f : α → Check β} {mid : (DeclId → Prop) → α → Prop}
    (hx : Checks x mid) (hf : ∀ a, Checks (f a) fun typed b => mid typed a → post typed b) :
    Checks (x >>= f) post := by
  intro s
  obtain ⟨hle, hmid⟩ := hx s
  obtain ⟨hle', hpost⟩ := hf (x s).1 (x s).2
  refine ⟨hle.trans hle', fun hno typed htyped => hpost hno typed htyped ?_⟩
  -- no errors behind both steps means none behind the first
  have h₀ : (x s).2.errors.size = 0 := Nat.le_zero.1 (hno ▸ hle'.errors)
  exact hmid h₀ typed fun d hd => htyped d (hle'.types d hd)

theorem Checks.weaken {x : Check α} {post post' : (DeclId → Prop) → α → Prop} (hx : Checks x post)
    (h : ∀ typed a, post typed a → post' typed a) : Checks x post' := by
  intro s
  obtain ⟨hle, hpost⟩ := hx s
  exact ⟨hle, fun hno typed htyped => h _ _ (hpost hno typed htyped)⟩

/-- What holds behind the second step, where the first one need not be known. -/
theorem Checks.andThen {x : Check α} {f : α → Check β} {mid : (DeclId → Prop) → α → Prop}
    (hx : Checks x mid) (hf : ∀ a, Checks (f a) post) : Checks (x >>= f) post :=
  hx.bind fun a => (hf a).weaken fun _ _ h _ => h

/-- As `Checks`, for the findings `s` before the step. -/
def ChecksAt (s : Findings) (x : Check α) (post : (DeclId → Prop) → α → Prop) : Prop :=
  s.Le (x s).2 ∧ ((x s).2.errors.size = 0 →
    ∀ typed, (∀ d, ((x s).2.table.declType? d).isSome → typed d) → post typed (x s).1)

theorem Checks.at {x : Check α} {post : (DeclId → Prop) → α → Prop} (hx : Checks x post)
    (s : Findings) : ChecksAt s x post := hx s

theorem checks_of_at {x : Check α} {post : (DeclId → Prop) → α → Prop}
    (h : ∀ s, ChecksAt s x post) : Checks x post := h

theorem ChecksAt.weaken {s : Findings} {x : Check α} {post post' : (DeclId → Prop) → α → Prop}
    (hx : ChecksAt s x post) (h : ∀ typed a, post typed a → post' typed a) :
    ChecksAt s x post' :=
  ⟨hx.1, fun hno typed htyped => h _ _ (hx.2 hno typed htyped)⟩

/-- The second step can rely on the types that are known behind the first. -/
theorem ChecksAt.bind {s : Findings} {x : Check α} {f : α → Check β}
    {mid : (DeclId → Prop) → α → Prop} (hx : ChecksAt s x mid)
    (hf : ∀ a s', s.Le s' →
      (s'.errors.size = 0 → mid (fun d => (s'.table.declType? d).isSome) a) →
      ChecksAt s' (f a) fun typed b => mid typed a → post typed b) : ChecksAt s (x >>= f) post := by
  obtain ⟨hle, hmid⟩ := hx
  obtain ⟨hle', hpost⟩ := hf (x s).1 (x s).2 hle fun hno => hmid hno _ fun _ h => h
  refine ⟨hle.trans hle', fun hno typed htyped => hpost hno typed htyped ?_⟩
  have h₀ : (x s).2.errors.size = 0 := Nat.le_zero.1 (hno ▸ hle'.errors)
  exact hmid h₀ typed fun d hd => htyped d (hle'.types d hd)

theorem checksAt_table_bind {s : Findings} {f : TypeTable → Check β}
    (hf : ChecksAt s (f s.table) post) : ChecksAt s (table >>= f) post := hf

/-- Behind a report there are errors. -/
theorem checks_report (problem : ResolveProblem) (span : Span) :
    Checks (report problem span) fun _ _ => False := by
  intro s
  have hsize : (report problem span s).2.errors.size = s.errors.size + 1 := Array.size_push ..
  exact ⟨⟨by omega, fun _ h => h, Nat.le_refl _, fun _ _ => rfl⟩, fun hno => by omega⟩

theorem checks_report_bind (problem : ResolveProblem) (span : Span) {f : Unit → Check β}
    (hf : Checks (f ()) fun _ _ => True) : Checks (report problem span >>= f) post :=
  (checks_report problem span).bind fun _ => hf.weaken fun _ _ _ h => h.elim

theorem checks_record {f : TypeTable → TypeTable} (hf : ∀ t, (f t).declTypes = t.declTypes)
    (hsize : ∀ t, (f t).size = t.size) (hnames : ∀ t id, ((f t).get id).name = (t.get id).name) :
    Checks (record f) fun _ _ => True := by
  intro s
  refine ⟨⟨Nat.le_refl _, fun d hd => ?_, Nat.le_of_eq (hsize _).symm, fun id _ => hnames _ id⟩,
    fun _ _ _ => trivial⟩
  have : (record f s).2.table.declTypes = s.table.declTypes := hf s.table
  rw [TypeTable.declType?, this]
  exact hd

theorem size_setKind (t : TypeTable) (id : TypeId) (kind : TypeKind) :
    (t.setKind id kind).size = t.size := by
  simp [TypeTable.setKind, TypeTable.size]

theorem name_get_setKind (t : TypeTable) (id id' : TypeId) (kind : TypeKind) :
    ((t.setKind id kind).get id').name = (t.get id').name := by
  simp only [TypeTable.setKind, TypeTable.get, Array.getD_eq_getD_getElem?, Array.getElem?_modify]
  split
  · cases t.types[id'.index]? <;> rfl
  · rfl

theorem checks_table : Checks table fun _ _ => True :=
  fun s => ⟨.refl s, fun _ _ _ => trivial⟩

theorem checks_forM {f : α → Check Unit} {Q : (DeclId → Prop) → α → Prop} (as : List α)
    (hf : ∀ a ∈ as, Checks (f a) fun typed _ => Q typed a) :
    Checks (as.forM f) fun typed _ => ∀ a ∈ as, Q typed a := by
  induction as with
  | nil => exact checks_pure fun _ => by simp
  | cons a as ih =>
    obtain ⟨ha, has⟩ := List.forall_mem_cons.1 hf
    have hrest : ∀ u : Unit, Checks (as.forM f) fun typed _ =>
        Q typed a → ∀ b ∈ a :: as, Q typed b :=
      fun _ => (ih has).weaken fun typed _ hrest hhead => List.forall_mem_cons.2 ⟨hhead, hrest⟩
    exact ha.bind hrest

theorem checks_mapM {f : α → Check β} (hf : ∀ a, Checks (f a) fun _ _ => True) (as : List α) :
    Checks (as.mapM f) fun _ _ => True := by
  induction as with
  | nil => exact checks_pure fun _ => trivial
  | cons a as ih =>
    rw [List.mapM_cons]
    exact (hf a).andThen fun _ => ih.andThen fun _ => checks_pure fun _ => trivial

/-! ### Contexts that grow -/

/-- The names of values in a scope, and which of them are variables. -/
def Scope.entries (s : Scope) : List (Name × Bool) :=
  s.values.map fun x => (x.1, decide (x.2.kind = .variable))

/-- The names that are declared side by side in a scope. -/
def Scope.names (s : Scope) : List Name := s.declared.map fun x => x.1

/-- In its current scope the context `c'` knows some values and has declared some names more than
`c`, and no name twice.  All around is the same. -/
structure Context.Adds (c : Context) (entries : List (Name × Bool)) (names : List Name)
    (c' : Context) : Prop where
  inLoop : c'.inLoop = c.inLoop
  inFunction : c'.inFunction = c.inFunction
  outer : c'.outer = c.outer
  entries : c'.current.entries.Perm (entries ++ c.current.entries)
  names : c'.current.names.Perm (names ++ c.current.names)
  nodup : c.current.names.Nodup → c'.current.names.Nodup

namespace Context.Adds

variable {c c' c'' : Context} {es es' : List (Name × Bool)} {ns ns' : List Name}

theorem refl (c : Context) : c.Adds [] [] c := ⟨rfl, rfl, rfl, .refl _, .refl _, fun h => h⟩

theorem trans (h : c.Adds es ns c') (h' : c'.Adds es' ns' c'') :
    c.Adds (es ++ es') (ns ++ ns') c'' where
  inLoop := h'.inLoop.trans h.inLoop
  inFunction := h'.inFunction.trans h.inFunction
  outer := h'.outer.trans h.outer
  entries := by
    refine h'.entries.trans ((h.entries.append_left es').trans ?_)
    rw [← List.append_assoc]
    exact List.perm_append_comm.append_right _
  names := by
    refine h'.names.trans ((h.names.append_left ns').trans ?_)
    rw [← List.append_assoc]
    exact List.perm_append_comm.append_right _
  nodup hc := h'.nodup (h.nodup hc)

theorem perm (h : c.Adds es ns c') (hes : es.Perm es') (hns : ns.Perm ns') : c.Adds es' ns' c' :=
  ⟨h.inLoop, h.inFunction, h.outer, h.entries.trans (hes.append_right _),
    h.names.trans (hns.append_right _), h.nodup⟩

/-- The names declared in a new scope differ. -/
theorem nodup_of_empty (h : c.Adds es ns c') (hc : c.current.names = []) : ns.Nodup := by
  have hperm : c'.current.names.Perm ns := by simpa [hc] using h.names
  exact hperm.nodup_iff.1 (h.nodup (hc ▸ List.nodup_nil))

end Context.Adds

theorem Context.adds_addValue (c : Context) (n : Name) {info : ValueInfo} {isVariable : Bool}
    (h : decide (info.kind = .variable) = isVariable) :
    c.Adds [(n, isVariable)] [] (c.addValue n info) := by
  subst h
  exact ⟨rfl, rfl, rfl, .refl _, .refl _, fun h => h⟩

theorem Context.adds_addType (c : Context) (n : Name) (id : TypeId) :
    c.Adds [] [] (c.addType n id) :=
  ⟨rfl, rfl, rfl, .refl _, .refl _, fun h => h⟩

/-! ### Declaring names and resolving types -/

variable {arena : Arena}

/-- A name that is declared was not declared before. -/
theorem checks_declare (c : Context) (n : Name) (span : Span) :
    Checks (declare c n span) fun _ c' => c.Adds [] [n] c' := by
  unfold declare
  split
  · exact checks_report_bind _ _ (checks_pure fun _ => trivial)
  · rename_i hnone
    refine checks_pure fun _ => ⟨rfl, rfl, rfl, .refl _, .refl _, fun h => ?_⟩
    refine List.nodup_cons.2 ⟨fun hmem => ?_, h⟩
    obtain ⟨x, hx, hn⟩ := List.mem_map.1 hmem
    have hne := List.lookup_eq_none_iff.1 hnone x hx
    simp [hn] at hne

/-- A name is declared, and then it stands for a value. -/
theorem checks_declareValue (c : Context) (n : Name) (span : Span) {info : ValueInfo}
    {isVariable : Bool} (h : decide (info.kind = .variable) = isVariable) :
    Checks (do
      let c ← declare c n span
      return c.addValue n info) fun _ c' => c.Adds [(n, isVariable)] [n] c' :=
  (checks_declare c n span).bind fun c' => checks_pure fun _ hc => hc.trans (c'.adds_addValue n h)

theorem checks_typeWithin (c : Context) (depth : Nat) (id : TypeRefId) :
    Checks (typeWithin arena c depth id) fun _ _ => True := by
  induction depth generalizing id with
  | zero => exact checks_pure fun _ => trivial
  | succ depth ih =>
    have hrecord : ∀ ty, Checks (do record (fun t => t.recordRef id ty); return ty)
        fun _ _ => True := fun ty =>
      (checks_record (f := fun t => t.recordRef id ty) (fun _ => rfl) (fun _ => rfl)
        fun _ _ => rfl).andThen fun _ => checks_pure fun _ => trivial
    simp only [typeWithin, typeNode]
    split
    · split
      · exact hrecord _
      · exact checks_report_bind _ _ (hrecord _)
    · exact (checks_mapM ih _).andThen fun _ => (ih _).andThen fun _ => hrecord _

theorem checks_typeRef (c : Context) (id : TypeRefId) :
    Checks (typeRef arena c id) fun _ _ => True :=
  checks_typeWithin c _ id

theorem checks_typeRef? (c : Context) (id : Option TypeRefId) :
    Checks (typeRef? arena c id) fun _ _ => True := by
  cases id with
  | none => exact checks_pure fun _ => trivial
  | some id => exact checks_typeRef c id

/-- What a pattern binds is in scope, and is no variable. -/
theorem checks_pattern (c : Context) (p : Code.Pattern) :
    Checks (pattern arena c p) fun _ c' =>
      c.Adds (p.binding.toList.map fun n => (n, false)) [] c' := by
  refine (checks_typeRef c p.typeRef).andThen fun ty => ?_
  cases p.binding with
  | some n => exact checks_pure fun _ => c.adds_addValue n rfl
  | none => exact checks_pure fun _ => .refl c

/-! ### Hoisted declarations -/

end Resolve

namespace Code.DeclKind

/-- The names that a declaration binds to values. -/
def bound : DeclKind → List Name
  | .imports _ items => items.map fun item => item.localName
  | .option _ _ => []
  | kind => kind.name?.toList

/-- The names that a declaration declares, for values or types. -/
def declared : DeclKind → List Name
  | .imports _ items => items.map fun item => item.localName
  | kind => kind.name?.toList

end Code.DeclKind

namespace Resolve

variable {arena : Arena}

/-- The names of an import declaration. -/
def importedNames (kind : Code.DeclKind) : List Name :=
  match kind with
  | .imports _ items => items.map fun item => item.localName
  | _ => []

/-- The name of a type that also stands for a value. -/
def instanceName? : Code.DeclKind → Option Name
  | .object n _ => some n
  | .signal n _ _ => some n
  | _ => none

theorem instanceName?_of_typeName? {kind : Code.DeclKind} (h : typeName? kind = none) :
    instanceName? kind = none := by
  cases kind <;> first | rfl | cases h

/-- The name of a declared function. -/
def functionName? : Code.DeclKind → Option Name
  | .function n _ _ _ => some n
  | _ => none

/-- Every round of hoisting looks for declarations of its own. -/
theorem bound_of_hoisted {kind : Code.DeclKind} (h : kind.hoisted) :
    importedNames kind ++ (instanceName? kind).toList ++ (functionName? kind).toList =
      kind.bound := by
  cases kind <;> simp_all [importedNames, instanceName?, functionName?, Code.DeclKind.bound,
    Code.DeclKind.name?, Code.DeclKind.hoisted]

theorem declared_of_hoisted {kind : Code.DeclKind} (h : kind.hoisted) :
    importedNames kind ++ (typeName? kind).toList ++ (functionName? kind).toList =
      kind.declared := by
  cases kind <;> simp_all [importedNames, typeName?, functionName?, Code.DeclKind.declared,
    Code.DeclKind.name?, Code.DeclKind.hoisted]

section Fold

variable {f : Context → α → Check Context} {es : α → List (Name × Bool)} {ns : α → List Name}

/-- Enters many things one after the other, and finds out something about each. -/
theorem checks_foldlM_adds_and {Q : (DeclId → Prop) → α → Prop}
    (hf : ∀ c a, Checks (f c a) fun typed c' => c.Adds (es a) (ns a) c' ∧ Q typed a)
    (as : List α) (c : Context) :
    Checks (as.foldlM f c) fun typed c' =>
      c.Adds (as.flatMap es) (as.flatMap ns) c' ∧ ∀ a ∈ as, Q typed a := by
  induction as generalizing c with
  | nil => exact checks_pure fun _ => ⟨.refl c, by simp⟩
  | cons a as ih =>
    rw [List.foldlM_cons]
    refine (hf c a).bind fun c' => (ih c').weaken fun typed _ hrest hhead => ?_
    exact ⟨hhead.1.trans hrest.1, List.forall_mem_cons.2 ⟨hhead.2, hrest.2⟩⟩

theorem checks_foldlM_adds (hf : ∀ c a, Checks (f c a) fun _ c' => c.Adds (es a) (ns a) c')
    (as : List α) (c : Context) :
    Checks (as.foldlM f c) fun _ c' => c.Adds (as.flatMap es) (as.flatMap ns) c' :=
  (checks_foldlM_adds_and (Q := fun _ _ => True)
    (fun c a => (hf c a).weaken fun _ _ h => ⟨h, trivial⟩) as c).weaken fun _ _ h => h.1

end Fold

theorem checks_importItem (imports : Imports) (interner : Interner) (path : String) (c : Context)
    (item : Code.ImportItem) :
    Checks (importItem imports interner path c item) fun _ c' =>
      c.Adds [(item.localName, false)] [item.localName] c' ∧
        (imports.find? path (interner.text item.name)).isSome := by
  unfold importItem
  refine (checks_declare c _ _).bind fun c' => ?_
  split
  · rename_i hfound
    exact checks_pure fun _ h => ⟨h.trans (c'.adds_addValue _ rfl), by rw [hfound]; rfl⟩
  · exact checks_report_bind _ _ (checks_pure fun _ => trivial)

/-- All items of an import declaration are exported. -/
def ImportsFrom (exported : String → Name → Prop) (kind : Code.DeclKind) : Prop :=
  ∀ path items, kind = .imports path items → ∀ item ∈ items, exported path item.name

theorem checks_importDecl (imports : Imports) (interner : Interner) (c : Context) (d : DeclId) :
    Checks (importDecl arena imports interner c d) fun _ c' =>
      c.Adds ((importedNames (arena.decl d).kind).map fun n => (n, false))
          (importedNames (arena.decl d).kind) c' ∧
        ImportsFrom (fun path n => (imports.find? path (interner.text n)).isSome)
          (arena.decl d).kind := by
  cases hk : (arena.decl d).kind with
  | imports path items =>
    simp only [importDecl, importedNames, hk]
    refine (checks_foldlM_adds_and (checks_importItem imports interner path) items c).weaken
      fun _ _ ⟨hadds, h⟩ => ⟨?_, ?_⟩
    · rw [← List.map_eq_flatMap, ← List.map_eq_flatMap] at hadds
      rwa [List.map_map]
    · rintro _ _ ⟨⟩
      exact h
  | _ =>
    simp only [importDecl, importedNames, hk]
    exact checks_pure fun _ => ⟨.refl c, nofun⟩

theorem isSome_declType?_push {t : TypeTable} {type : TypeDef} {d : DeclId}
    (h : type.decl = some d ∨ (t.declType? d).isSome) :
    ((t.push type).2.declType? d).isSome := by
  simp only [TypeTable.push, TypeTable.declType?] at h ⊢
  cases hd : type.decl with
  | none => simpa [hd] using h
  | some d' =>
    simp only [hd, Option.some.injEq] at h
    rw [Std.TreeMap.getElem?_insert]
    split
    · rfl
    · rename_i hne
      rcases h with rfl | h
      · simp at hne
      · exact h

/-- The first round gives every declared type its place. -/
theorem size_le_push (t : TypeTable) (d : TypeDef) : t.size ≤ (t.push d).2.size := by
  simp [TypeTable.push, TypeTable.size]

theorem get_push {t : TypeTable} {d : TypeDef} {id : TypeId} (h : id.index < t.size) :
    (t.push d).2.get id = t.get id := by
  simp only [TypeTable.push, TypeTable.get, Array.getD_eq_getD_getElem?]
  rw [Array.getElem?_push_lt h, Array.getElem?_eq_getElem h]

theorem checks_placeType (c : Context) (d : DeclId) :
    Checks (placeType arena c d) fun typed c' =>
      c.Adds [] (typeName? (arena.decl d).kind).toList c' ∧
        ((typeName? (arena.decl d).kind).isSome → typed d) := by
  simp only [placeType]
  split
  · rename_i n hn
    refine (checks_declare c _ _).bind fun c' s => ?_
    refine ⟨⟨Nat.le_refl _, fun d' hd' => isSome_declType?_push (.inr hd'), size_le_push _ _,
      fun id hid => congrArg TypeDef.name (get_push hid)⟩, ?_⟩
    intro _ typed htyped hc
    refine ⟨?_, fun _ => htyped d (isSome_declType?_push (.inl rfl))⟩
    rw [hn]
    exact hc.trans (c'.adds_addType n _)
  · rename_i hnone
    rw [hnone]
    exact checks_pure fun _ => ⟨.refl c, fun h => by simp at h⟩

theorem checks_fieldTypes (c : Context) (seen fs : List Code.Field) :
    Checks (fieldTypes arena c seen fs) fun _ _ => True := by
  induction fs generalizing seen with
  | nil => exact checks_pure fun _ => trivial
  | cons f fs ih =>
    have hrest : Checks (do
        let ty ← typeRef arena c f.typeRef
        return (⟨f.name, ty⟩ : FieldType) :: (← fieldTypes arena c (seen ++ [f]) fs))
        fun _ _ => True :=
      (checks_typeRef c f.typeRef).andThen fun _ => (ih _).andThen fun _ =>
        checks_pure fun _ => trivial
    simp only [fieldTypes]
    split
    · exact checks_report_bind _ _ hrest
    · exact hrest

/-- The name of an object or signal stands for a value that is no variable. -/
theorem instanceInfo_kind (id : TypeId) (fields : List FieldType) :
    (instanceInfo id fields).kind ≠ .variable := by
  unfold instanceInfo
  split <;> simp

/-- The second round, where the types have their places. -/
theorem checksAt_defineType (c : Context) (d : DeclId) {s : Findings}
    (hs : s.errors.size = 0 → (typeName? (arena.decl d).kind).isSome →
      (s.table.declType? d).isSome) :
    ChecksAt s (defineType arena c d) fun _ c' =>
      c.Adds ((instanceName? (arena.decl d).kind).toList.map fun n => (n, false)) [] c' := by
  have hset : ∀ id kind (c' : Context) es, c.Adds es [] c' →
      Checks (do record (fun t => t.setKind id kind); return c') fun _ c' => c.Adds es [] c' :=
    fun id kind c' es hc =>
      (checks_record (f := fun t => t.setKind id kind) (fun _ => rfl)
        (fun t => size_setKind t id kind) fun t id' => name_get_setKind t id id' kind).andThen
          fun _ => checks_pure fun _ => hc
  have hinstance : ∀ n id fields, c.Adds [(n, false)] [] (c.addValue n (instanceInfo id fields)) :=
    fun n id fields => c.adds_addValue n (decide_eq_false (instanceInfo_kind id fields))
  unfold defineType
  refine checksAt_table_bind ?_
  cases htype : s.table.declType? d with
  | none =>
    refine ⟨.refl s, fun hno _ _ => ?_⟩
    -- a declaration without a place is none of a type
    have hname : typeName? (arena.decl d).kind = none := by
      cases hn : typeName? (arena.decl d).kind with
      | none => rfl
      | some n =>
        have := hs hno (by rw [hn]; rfl)
        simp [htype] at this
    rw [instanceName?_of_typeName? hname]
    exact .refl c
  | some id =>
    dsimp only
    split <;> rename_i hk <;> simp only [instanceName?, hk]
    · exact (checks_fieldTypes c _ _).andThen (fun fields => hset _ _ _ _ (hinstance _ _ _)) s
    · refine (checks_fieldTypes c _ _).andThen (fun fields => ?_) s
      split
      · exact (checks_typeRef c _).andThen fun result => hset _ _ _ _ (hinstance _ _ _)
      · exact hset _ _ _ _ (hinstance _ _ _)
    · exact (checks_mapM (checks_typeRef c) _).andThen (fun members => hset _ _ _ _ (.refl c)) s
    · exact checks_pure (fun _ => .refl c) s

theorem checksAt_defineTypes (ds : List DeclId) (c : Context) {s : Findings}
    (hs : s.errors.size = 0 → ∀ d ∈ ds, (typeName? (arena.decl d).kind).isSome →
      (s.table.declType? d).isSome) :
    ChecksAt s (ds.foldlM (defineType arena) c) fun _ c' =>
      c.Adds (ds.flatMap fun d => (instanceName? (arena.decl d).kind).toList.map
        fun n => (n, false)) [] c' := by
  induction ds generalizing c s with
  | nil => exact checks_pure (fun _ => .refl c) s
  | cons d ds ih =>
    rw [List.foldlM_cons]
    refine (checksAt_defineType c d fun hno => hs hno d List.mem_cons_self).bind
      fun c' s' hle _ => ?_
    refine (ih c' fun hno d' hd' ht => ?_).weaken fun _ _ hrest hhead => hhead.trans hrest
    have h₀ : s.errors.size = 0 := Nat.le_zero.1 (hno ▸ hle.errors)
    exact hle.types d' (hs h₀ d' (List.mem_cons_of_mem _ hd') ht)

theorem checks_functionDecl (c : Context) (d : DeclId) :
    Checks (functionDecl arena c d) fun _ c' =>
      c.Adds ((functionName? (arena.decl d).kind).toList.map fun n => (n, false))
        (functionName? (arena.decl d).kind).toList c' := by
  cases hk : (arena.decl d).kind with
  | function n params result body =>
    simp only [functionDecl, functionName?, hk]
    refine (checks_declare c _ _).bind fun c' => ?_
    refine (checks_mapM (fun p => checks_typeRef? c' _) _).andThen fun params => ?_
    refine (checks_typeRef? c' _).andThen fun result => ?_
    have hrecord := checks_record (f := fun t => t.recordFunction d ⟨params, result⟩)
      (fun _ => rfl) (fun _ => rfl) fun _ _ => rfl
    exact hrecord.andThen fun _ => checks_pure fun _ hc => hc.trans (c'.adds_addValue _ rfl)
  | _ =>
    simp only [functionDecl, functionName?, hk]
    exact checks_pure fun _ => .refl c

/-- What is known of a module behind its resolution. -/
structure Known where
  arena : Arena
  /-- The declarations of types that have a type. -/
  typed : DeclId → Prop
  /-- What the modules at the paths export. -/
  exported : String → Name → Prop

/-- The context `c'` is `c` with the hoisted declarations `ds` entered into its current scope. -/
structure Hoists (k : Known) (c : Context) (ds : List DeclId) (c' : Context) : Prop where
  adds : c.Adds (ds.flatMap fun d => (k.arena.decl d).kind.bound.map fun n => (n, false))
    (ds.flatMap fun d => (k.arena.decl d).kind.declared) c'
  types : ∀ d ∈ ds, (typeName? (k.arena.decl d).kind).isSome → k.typed d
  imports : ∀ d ∈ ds, ImportsFrom k.exported (k.arena.decl d).kind

/-- **Behind the hoisted declarations of a scope, all their types are known, and their names are in
scope.** -/
theorem checks_hoist (imports : Imports) (interner : Interner) (c : Context) {ds : List DeclId}
    (hds : ∀ d ∈ ds, (arena.decl d).kind.hoisted) :
    Checks (hoist arena imports interner c ds) fun typed c' =>
      Hoists ⟨arena, typed, fun path n => (imports.find? path (interner.text n)).isSome⟩ c ds
        c' := by
  refine (checks_foldlM_adds_and (checks_importDecl imports interner) ds c).bind fun c₁ => ?_
  refine checks_of_at fun s => ?_
  refine ((checks_foldlM_adds_and checks_placeType ds c₁).at s).bind fun c₂ s' _ hknown => ?_
  refine ChecksAt.bind (checksAt_defineTypes ds c₂ fun hno => (hknown hno).2) fun c₃ s'' _ _ => ?_
  refine ((checks_foldlM_adds checks_functionDecl ds c₃).at s'').weaken
    fun typed c₄ h₄ h₃ h₂ h₁ => ?_
  have hnil : (ds.flatMap fun _ => ([] : List (Name × Bool))) = [] := by simp
  refine ⟨(((h₁.1.trans h₂.1).trans h₃).trans h₄).perm ?_ ?_, h₂.2, h₁.2⟩
  · rw [hnil, List.append_nil]
    refine ((List.flatMap_append_perm ds _ _).append_right _).trans
      ((List.flatMap_append_perm ds _ _).trans ?_)
    refine List.Perm.of_eq (List.flatMap_congr fun d hd => ?_)
    rw [← bound_of_hoisted (hds d hd)]
    simp only [List.map_append]
  · rw [List.append_nil]
    refine ((List.flatMap_append_perm ds _ _).append_right _).trans
      ((List.flatMap_append_perm ds _ _).trans ?_)
    refine List.Perm.of_eq (List.flatMap_congr fun d hd => ?_)
    rw [← declared_of_hoisted (hds d hd)]

end Resolve

end SignalLang
