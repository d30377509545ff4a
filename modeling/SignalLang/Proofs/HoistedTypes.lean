import SignalLang.Proofs.NamedTypes

/-!
# Hoisted types

The types that a scope declares are entered before any written type of the scope is resolved.  So it
does not matter where in the scope a type is declared, and of two types with one name the last one
counts.

* `Resolve.visits_placeType` : behind the first round for a declaration, its name denotes it.
* `Resolve.visits_hoist` : hoisting visits the declared types of a scope with all that is written in
  them, and the signatures of its functions.
-/

namespace SignalLang

open Code (Node Scopes Occurrence)

namespace Resolve

variable {a : Arena} {outer : Name → Option TypeId}

/-! ### Hoisted declarations -/

section

variable (a : Arena) (scopes : Scopes) (d : DeclId)

/-- What the first round visits: a declared type. -/
def placing : Multiset Occurrence :=
  if (typeName? (a.decl d).kind).isSome then {(scopes, .decl d)} else 0

/-- What the second round visits: the written types in a declared type. -/
def defining : Multiset Occurrence :=
  if (typeName? (a.decl d).kind).isSome then a.written scopes (a.children (.decl d)) else 0

/-- What is visited last: a declared function and its signature. -/
def signing : Multiset Occurrence :=
  match (a.decl d).kind with
  | .function _ params result _ =>
    (scopes, .decl d) ::ₘ
      a.written scopes ((params.flatMap fun q => q.children) ++ result.toList.map .typeRef)
  | _ => 0

end

section

variable {t : TypeTable} {c : Context} {scopes : Scopes}

theorem visits_importDecl (imports : Imports) (interner : Interner) (hc : c.Sees t a outer scopes)
    (d : DeclId) :
    Visits a outer t (importDecl a imports interner c d) 0
      fun t' c' => c'.Sees t' a outer scopes := by
  unfold importDecl
  split
  · rename_i path items _
    refine visits_foldlM_quiet items (fun item _ c t' _ hc => ?_) hc
    refine (visits_declare _ _ hc).quietThen fun c₁ t₁ _ hc₁ => ?_
    split
    · exact visits_pure fun _ hle₂ => hc₁.mono hle₂
    · exact (visits_report _ rfl).quietThen fun _ t₂ hle₂ _ => visits_pure fun _ hle₃ =>
        hc₁.mono (hle₂.trans hle₃)
  · exact visits_pure fun _ hle => hc.mono hle

/-- What was on record stays when one more declaration gets a place. -/
theorem le_push {x : Name} {d : DeclId} (hd : t.declType? d = none) :
    t.Le (t.push ⟨x, .unknown, some d⟩).2 := by
  refine ⟨fun {d' id} hd' => ?_, id, id⟩
  rw [TypeTable.declType?_push, if_neg, hd']
  rintro rfl
  rw [hd] at hd'
  cases hd'

theorem eq_or_isSome_declType? {x : Name} {d d' : DeclId}
    (h : ((t.push ⟨x, .unknown, some d⟩).2.declType? d').isSome) :
    d = d' ∨ (t.declType? d').isSome := by
  rw [TypeTable.declType?_push] at h
  split at h
  · rename_i heq
    exact .inl heq.symm
  · exact .inr h

/-- Behind a declared type that is entered at its place, its name denotes it. -/
theorem Context.Sees.addType {pre : List DeclId} {gs : Scopes} (hc : c.Sees t a outer (pre :: gs))
    {x : Name} {d : DeclId} (hx : typeName? (a.decl d).kind = some x) {id : TypeId}
    (hid : t.declType? d = some id) : (c.addType x id).Sees t a outer ((pre ++ [d]) :: gs) := by
  intro n
  rw [Context.type?_addType]
  split
  · rename_i heq
    exact TypeTable.denotes_concat_self (heq ▸ hx) hid
  · rename_i hne
    exact (hc n).concat fun h => hne (Option.some.inj (h.symm.trans hx))

/-- Behind the first round for a declaration, its name denotes it. -/
theorem visits_placeType {pre : List DeclId} {gs : Scopes} (hc : c.Sees t a outer (pre :: gs))
    (d : DeclId) :
    Visits a outer t (placeType a c d) (placing a scopes d) fun t' c' =>
      c'.Sees t' a outer ((pre ++ [d]) :: gs) ∧
        ((typeName? (a.decl d).kind).isSome → (t'.declType? d).isSome) := by
  cases hn : typeName? (a.decl d).kind with
  | none =>
    simp only [placeType, placing, hn, Option.isSome_none, Bool.false_eq_true, if_false]
    exact visits_pure fun t' hle =>
      ⟨fun n => ((hc.mono hle) n).concat (by simp [hn]), fun h => h.elim⟩
  | some x =>
    simp only [placeType, placing, hn, Option.isSome_some, if_true, forall_true_left]
    refine (visits_declare x _ hc).quietThen fun c₁ t₁ _ hc₁ => ?_
    intro s done ht hs hnodes
    rw [Multiset.singleton_add] at hnodes ⊢
    -- the declaration was not visited before, so that it has no place yet
    obtain ⟨-, hnew⟩ := mem_and_notMem_of_le hnodes
    have hfree : s.table.declType? d = none :=
      Option.not_isSome_iff_eq_none.1 fun hd => hnew (hs.placed d hd)
    have hle := le_push (x := x) hfree
    have hself : (s.table.push ⟨x, .unknown, some d⟩).2.declType? d = some ⟨s.table.size⟩ := by
      rw [TypeTable.declType?_push, if_pos rfl]
    have hplaced := Option.isSome_of_eq_some hself
    have hsettled : (s.table.push ⟨x, .unknown, some d⟩).2.Settled a outer (scopes, .decl d) := by
      simp only [TypeTable.Settled]
      cases hk : (a.decl d).kind <;> first | exact hplaced | simp [hk, typeName?] at hn
    exact ⟨hs.cons hle rfl hsettled
      (fun d' hd' => (eq_or_isSome_declType? hd').imp_left (congrArg Node.decl))
      (fun _ h => .inr h) (hs.entries.push hn hfree) (zero_add _).symm,
      hle, (hc₁.mono (ht.trans hle)).addType hn hself, hplaced⟩

/-- Behind the first round, all names are known. -/
theorem visits_placeTypes {gs : Scopes} (ds : List DeclId) {pre : List DeclId}
    (hc : c.Sees t a outer (pre :: gs)) :
    Visits a outer t (ds.foldlM (placeType a) c) (ds.map (placing a scopes)).sum fun t' c' =>
      c'.Sees t' a outer ((pre ++ ds) :: gs) ∧
        ∀ d ∈ ds, (typeName? (a.decl d).kind).isSome → (t'.declType? d).isSome := by
  induction ds generalizing t c pre with
  | nil =>
    rw [List.append_nil]
    exact visits_pure fun _ hle => ⟨hc.mono hle, by simp⟩
  | cons d ds ih =>
    rw [List.foldlM_cons, List.map_cons, List.sum_cons]
    refine (visits_placeType hc d).bind fun c₁ t₁ hle₁ ⟨hc₁, hd⟩ => ?_
    refine (ih hc₁).le.weaken fun t' c' ⟨hle, hc', hds⟩ => ⟨?_, List.forall_mem_cons.2 ⟨?_, hds⟩⟩
    · rwa [List.append_assoc] at hc'
    · exact fun h => hle.isSome_declType? (hd h)

variable (ha : a.Ranked)

include ha

theorem visits_fieldTypes (hc : c.Sees t a outer scopes) (seen fs : List Code.Field) :
    Visits a outer t (fieldTypes a c seen fs)
      (a.written scopes (fs.map fun f => .typeRef f.typeRef))
      fun t' types => t'.FieldsAre fs types := by
  induction fs generalizing t seen with
  | nil => exact visits_pure fun _ _ => .nil
  | cons f fs ih =>
    have hrest : ∀ t', t.Le t' → Visits a outer t' (do
        let ty ← typeRef a c f.typeRef
        return (⟨f.name, ty⟩ : FieldType) :: (← fieldTypes a c (seen ++ [f]) fs))
        (a.written scopes ((f :: fs).map fun f => .typeRef f.typeRef))
        fun t' types => t'.FieldsAre (f :: fs) types := by
      intro t' hle
      rw [List.map_cons, Arena.written_cons]
      refine (visits_typeRef ha (hc.mono hle)).bind fun ty t₁ hle₁ hty => ?_
      refine (ih (hc.mono (hle.trans hle₁)) _).andQuiet fun types t₂ hle₂ htypes => ?_
      exact visits_pure fun t₃ hle₃ => .cons ⟨rfl, hle₃.refs (hle₂.refs hty)⟩ (htypes.mono hle₃)
    simp only [fieldTypes]
    split
    · exact (visits_report _ rfl).quietThen fun _ t' hle _ => hrest t' hle
    · exact hrest t (.refl _)

/-- The second round for a declaration that has its place. -/
theorem visits_defineType (hc : c.Sees t a outer scopes) (d : DeclId)
    (hd : (typeName? (a.decl d).kind).isSome → (t.declType? d).isSome) :
    Visits a outer t (defineType a c d) (defining a scopes d)
      fun t' c' => c'.Sees t' a outer scopes := by
  unfold defineType
  refine visits_table_bind fun t₁ hle₁ => ?_
  replace hc := hc.mono hle₁
  cases hplace : t₁.declType? d with
  | none =>
    have hn : ¬(typeName? (a.decl d).kind).isSome := fun hn => by
      have hsome := hle₁.isSome_declType? (hd hn)
      rw [hplace] at hsome
      cases hsome
    rw [defining, if_neg hn]
    exact visits_pure fun _ hle => hc.mono hle
  | some id =>
    have hdone : ∀ {kind} (c' : Context) t', (∀ n, c'.type? n = c.type? n) → t₁.Le t' →
        t'.KindIs a d kind → Visits a outer t' (do record fun t => t.setKind id kind; return c') 0
          fun t' c' => c'.Sees t' a outer scopes := by
      intro kind c' t' hc' hle hkind
      exact (visits_setKind (hle.declTypes hplace) hkind).quietThen fun _ _ hle' _ =>
        visits_pure fun _ hle'' => (hc.mono (hle.trans (hle'.trans hle''))).of_types hc'
    simp only [TypeTable.KindIs] at hdone
    dsimp only
    simp only [defining, Arena.children]
    cases hk : (a.decl d).kind with
    | object n fields =>
      rw [hk] at hdone
      simp only [typeName?, Option.isSome_some, if_true, Code.DeclKind.children]
      exact (visits_fieldTypes ha hc [] fields).andQuiet fun types t₂ hle₂ htypes =>
        hdone (c.addValue n (instanceInfo id types)) t₂ (fun _ => rfl) hle₂ htypes
    | signal n fields result =>
      rw [hk] at hdone
      simp only [typeName?, Option.isSome_some, if_true, Code.DeclKind.children,
        Arena.written_append]
      refine (visits_fieldTypes ha hc [] fields).bind fun types t₂ hle₂ htypes => ?_
      cases result with
      | some r =>
        simp only [Option.toList_some, List.map_cons, List.map_nil, Arena.written_cons,
          Arena.written_nil, add_zero]
        exact (visits_typeRef ha (hc.mono hle₂)).andQuiet fun ty t₃ hle₃ hty =>
          hdone (c.addValue n (instanceInfo id types)) t₃ (fun _ => rfl) (hle₂.trans hle₃)
            ⟨htypes.mono hle₃, hty⟩
      | none =>
        have haction : Visits a outer t₂ (pure Ty.action) 0 fun _ ty => ty = .action :=
          visits_pure fun _ _ => rfl
        exact haction.andQuiet fun ty t₃ hle₃ hty =>
          hdone (c.addValue n (instanceInfo id types)) t₃ (fun _ => rfl) (hle₂.trans hle₃)
            ⟨htypes.mono hle₃, hty⟩
    | option n members =>
      rw [hk] at hdone
      simp only [typeName?, Option.isSome_some, if_true, Code.DeclKind.children]
      rw [Arena.written_map]
      refine (visits_mapM (Q := fun t' r ty => t'.resolved? r = some ty) members
        (fun _ _ _ _ hle => hle.refs) fun r _ t' hle =>
          visits_typeRef ha (hc.mono hle)).andQuiet fun types t₂ hle₂ htypes => ?_
      exact hdone c t₂ (fun _ => rfl) hle₂ htypes
    | _ => exact visits_pure fun _ hle => hc.mono hle

theorem visits_params (hc : c.Sees t a outer scopes) (params : List Code.Param) :
    Visits a outer t (params.mapM fun p => typeRef? a c p.typeRef)
      (a.written scopes (params.flatMap fun p => p.children)) fun _ _ => True := by
  rw [Arena.written_flatMap]
  exact (visits_mapM (Q := fun _ _ _ => True) params (fun _ _ _ _ _ h => h)
    fun p _ t' hle => visits_typeRef? ha (hc.mono hle)).weaken fun _ _ _ => trivial

omit ha in
theorem visits_recordFunction (hc : c.Sees t a outer scopes) {d : DeclId} {n : Name}
    {params : List Code.Param} {result : Option TypeRefId} {body : ExprId}
    (hk : (a.decl d).kind = .function n params result body) (signature : Signature)
    (info : ValueInfo) :
    Visits a outer t (do
      record fun t => t.recordFunction d signature
      return c.addValue n info) {(scopes, .decl d)} fun t' c' => c'.Sees t' a outer scopes := by
  intro s done ht hs _
  have hle : s.table.Le (s.table.recordFunction d signature) := by
    refine ⟨id, id, fun {d'} hd' => ?_⟩
    simp only [TypeTable.recordFunction, TypeTable.function?, Std.TreeMap.getElem?_insert] at hd' ⊢
    split
    · rfl
    · exact hd'
  have hsettled : (s.table.recordFunction d signature).Settled a outer (scopes, .decl d) := by
    simp [TypeTable.Settled, hk, TypeTable.recordFunction, TypeTable.function?]
  rw [Multiset.singleton_add]
  exact ⟨hs.cons hle rfl hsettled (fun _ h => .inr h) (fun _ h => .inr h)
    (hs.entries.of_types hle rfl rfl) (zero_add _).symm, hle, hc.mono (ht.trans hle)⟩

theorem visits_functionDecl (hc : c.Sees t a outer scopes) (d : DeclId) :
    Visits a outer t (functionDecl a c d) (signing a scopes d)
      fun t' c' => c'.Sees t' a outer scopes := by
  unfold functionDecl
  simp only [signing]
  cases hk : (a.decl d).kind with
  | function n params result body =>
    have hnew : (scopes, Node.decl d) ::ₘ
        a.written scopes ((params.flatMap fun q => q.children) ++ result.toList.map .typeRef) =
          a.written scopes (params.flatMap fun q => q.children) +
            (a.written scopes (result.toList.map .typeRef) + {(scopes, .decl d)}) := by
      rw [Arena.written_append, ← Multiset.singleton_add]
      abel
    dsimp only
    rw [hnew]
    refine (visits_declare n _ hc).quietThen fun c₁ t₁ _ hc₁ => ?_
    refine (visits_params ha hc₁ params).andThen fun types t₂ hle₂ => ?_
    refine (visits_typeRef? ha (hc₁.mono hle₂)).andThen fun ty t₃ hle₃ => ?_
    exact visits_recordFunction (hc₁.mono (hle₂.trans hle₃)) hk ⟨types, ty⟩ _
  | _ => exact visits_pure fun _ hle => hc.mono hle

/-- Hoisting visits the types and the signatures that a scope declares.  Behind it, all names of the
scope denote what they denote in the whole scope. -/
theorem visits_hoist (imports : Imports) (interner : Interner) {gs : Scopes}
    {ds hoisted : List DeclId} (hc : c.Sees t a outer ([] :: gs))
    (hds : hoisted = ds.filter fun d => (a.decl d).kind.hoisted) :
    Visits a outer t (hoist a imports interner c hoisted)
      ((hoisted.map (placing a (ds :: gs))).sum + ((hoisted.map (defining a (ds :: gs))).sum +
        (hoisted.map (signing a (ds :: gs))).sum))
      fun t' c' => c'.Sees t' a outer (ds :: gs) := by
  have himports : Visits a outer t (hoisted.foldlM (importDecl a imports interner) c) 0
      fun t' c' => c'.Sees t' a outer ([] :: gs) :=
    visits_foldlM_quiet hoisted (fun d _ c t' _ hc => visits_importDecl imports interner hc d) hc
  -- only hoisted declarations declare types
  have hsees : ∀ (c' : Context) t', c'.Sees t' a outer (([] ++ hoisted) :: gs) →
      c'.Sees t' a outer (ds :: gs) := by
    intro c' t' h n
    have hn := h n
    rw [List.nil_append] at hn
    rwa [TypeTable.Denotes, Arena.declaredIn?_cons, hds, Arena.declared?_hoisted,
      ← Arena.declaredIn?_cons] at hn
  unfold hoist
  refine himports.quietThen fun c₁ t₁ _ hc₁ => ?_
  refine (visits_placeTypes hoisted hc₁).bind fun c₂ t₂ _ h₂ => ?_
  obtain ⟨hc₂, hplaced⟩ := h₂
  refine (visits_foldlM hoisted (fun d hd c t' hle hc => visits_defineType ha hc d
    fun hn => hle.isSome_declType? (hplaced d hd hn)) (hsees c₂ t₂ hc₂)).bind fun c₃ t₃ _ hc₃ => ?_
  exact visits_foldlM hoisted (fun d _ c t' _ hc => visits_functionDecl ha hc d) hc₃

end

end Resolve

end SignalLang
