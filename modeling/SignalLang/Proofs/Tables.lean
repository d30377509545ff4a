import SignalLang.Proofs.Forest
import SignalLang.Proofs.Scoping

/-!
# The table of types

Resolution fills the table of types.  Every declared type first gets a place and then what it
admits; when resolution is done, with errors or without, the table says of every declared type what
its declaration says, and it refers to types of the table only.

* `Ty.Below n` : a type that refers to places below `n` only.
* `Code.DeclKind.Shapes` : an entry has the kind of a declaration, and its fields.
* `TypeTable.Faithful t arena base todo` : the table `t`, which started out as `base`, reflects the
  declarations of `arena`; those of `todo` may still have a place only.
* `Module.faithful_of_resolve` : **resolution leaves a faithful table**, with nothing to do.
-/

namespace SignalLang

/-! ### Types and entries -/

/-- A type that refers to places below a bound only. -/
inductive Ty.Below (n : Nat) : Ty → Prop
  | named {id} (h : id.index < n) : Below n (.named id)
  | function {params result} (hparams : ∀ ty ∈ params, Below n ty) (hresult : Below n result) :
    Below n (.function params result)

theorem Ty.Below.mono {n n' : Nat} {ty : Ty} (h : ty.Below n) (hle : n ≤ n') : ty.Below n' := by
  induction h with
  | named h => exact .named (Nat.lt_of_lt_of_le h hle)
  | function _ _ ihparams ihresult => exact .function ihparams ihresult

/-- The types to which an entry refers. -/
@[simp] def TypeKind.parts : TypeKind → List Ty
  | .object fields => fields.map fun f => f.type
  | .signal fields result => (fields.map fun f => f.type) ++ [result]
  | .option members => members
  | .primitive | .anything | .anySignal | .unknown => []

/-- An entry has the kind of a declaration, and fields of the same names in the same order. -/
def Code.DeclKind.Shapes (kind : Code.DeclKind) (entry : TypeKind) : Prop :=
  match kind, entry with
  | .object _ fields, .object types => types.map (fun f => f.name) = fields.map fun f => f.name
  | .signal _ fields _, .signal types _ => types.map (fun f => f.name) = fields.map fun f => f.name
  | .option _ _, .option _ => True
  | _, _ => False

namespace TypeTable

variable {t : TypeTable}

/-! ### Reading what was written -/

theorem get_push_self (t : TypeTable) (d : TypeDef) : (t.push d).2.get ⟨t.size⟩ = d := by
  simp [push, get, size, Array.getD_eq_getD_getElem?]

theorem declType?_push (t : TypeTable) (n : Name) (kind : TypeKind) (d d' : DeclId) :
    (t.push ⟨n, kind, some d⟩).2.declType? d' = if d' = d then some ⟨t.size⟩
      else t.declType? d' := by
  simp only [push, declType?, Std.TreeMap.getElem?_insert, Nat.compare_eq_eq]
  by_cases h : d' = d
  · subst h
    simp [size]
  · have hne : d.index ≠ d'.index := fun heq => h (by cases d; cases d'; cases heq; rfl)
    rw [if_neg h, if_neg hne]

theorem get_setKind {id : TypeId} (kind : TypeKind) (hid : id.index < t.size) (id' : TypeId) :
    (t.setKind id kind).get id' = if id' = id then { t.get id with kind } else t.get id' := by
  simp only [setKind, get, Array.getD_eq_getD_getElem?, Array.getElem?_modify]
  by_cases h : id' = id
  · subst h
    rw [if_pos rfl, if_pos rfl, Array.getElem?_eq_getElem hid]
    rfl
  · have hne : id.index ≠ id'.index := fun heq => h (by cases id; cases id'; cases heq; rfl)
    rw [if_neg hne, if_neg h]

theorem resolved?_recordRef (r r' : TypeRefId) (ty ty' : Ty)
    (h : (t.recordRef r ty).resolved? r' = some ty') : ty' = ty ∨ t.resolved? r' = some ty' := by
  simp only [recordRef, resolved?, Array.getD_eq_getD_getElem?, Array.getElem?_setIfInBounds] at h ⊢
  split at h
  · split at h
    · exact .inl (Option.some.inj h).symm
    · cases h
  · exact .inr h

theorem function?_recordFunction (d d' : DeclId) (s s' : Signature)
    (h : (t.recordFunction d s).function? d' = some s') : s' = s ∨ t.function? d' = some s' := by
  simp only [recordFunction, function?, Std.TreeMap.getElem?_insert] at h ⊢
  split at h
  · exact .inl (Option.some.inj h).symm
  · exact .inr h

/-! ### Faithful tables -/

/-- The table `t`, which started out as `base`, reflects the declarations of `arena`.  The types
that `todo` declares may have a place only. -/
structure Faithful (t : TypeTable) (arena : Arena) (base : TypeTable) (todo : List DeclId) :
    Prop where
  le_size : base.size ≤ t.size
  /-- What the table started out with is there. -/
  kept : ∀ id : TypeId, id.index < base.size → t.get id = base.get id
  /-- All other entries stem from declarations. -/
  declared : ∀ id : TypeId, base.size ≤ id.index → id.index < t.size →
    ∃ d, (t.get id).decl = some d ∧ ((arena.decl d).kind.Shapes (t.get id).kind ∨
      d ∈ todo ∧ t.declType? d = some id ∧ (t.get id).kind = .unknown)
  /-- The place of a declaration is the place of an entry that stems from it. -/
  placed : ∀ d id, t.declType? d = some id → base.size ≤ id.index ∧ id.index < t.size ∧
    (t.get id).decl = some d ∧ (Resolve.typeName? (arena.decl d).kind).isSome
  entries : ∀ id, ∀ ty ∈ (t.get id).kind.parts, ty.Below t.size
  refs : ∀ r ty, t.resolved? r = some ty → ty.Below t.size
  functions : ∀ d s, t.function? d = some s → s.type.Below t.size

namespace Faithful

variable {arena : Arena} {base : TypeTable} {todo todo' : List DeclId}

theorem mono (h : t.Faithful arena base todo) (hsub : ∀ d ∈ todo, d ∈ todo') :
    t.Faithful arena base todo' where
  __ := h
  declared id hbase hid := by
    obtain ⟨d, hd, hkind⟩ := h.declared id hbase hid
    exact ⟨d, hd, hkind.imp_right fun ⟨hmem, hplace⟩ => ⟨hsub d hmem, hplace⟩⟩

/-- Out of range there is nothing. -/
theorem get_of_size_le {id : TypeId} (hid : t.size ≤ id.index) :
    t.get id = ⟨.empty, .unknown, none⟩ := by
  simp only [get, Array.getD_eq_getD_getElem?]
  rw [Array.getElem?_eq_none hid]
  rfl

/-- A declared type gets its place. -/
theorem push (h : t.Faithful arena base todo) {n : Name} {d : DeclId}
    (hn : (Resolve.typeName? (arena.decl d).kind).isSome) (hd : d ∉ todo) :
    (t.push ⟨n, .unknown, some d⟩).2.Faithful arena base (d :: todo) := by
  have hle := Resolve.size_le_push t ⟨n, .unknown, some d⟩
  have hself := t.get_push_self ⟨n, .unknown, some d⟩
  have hsize : (t.push ⟨n, .unknown, some d⟩).2.size = t.size + 1 := by
    simp [TypeTable.push, size]
  have hcases : ∀ id : TypeId, id.index < t.size + 1 → id.index < t.size ∨ id = ⟨t.size⟩ := by
    rintro ⟨i⟩ hi
    rcases Nat.lt_succ_iff_lt_or_eq.1 hi with hi | rfl
    · exact .inl hi
    · exact .inr rfl
  constructor
  case le_size => exact Nat.le_trans h.le_size hle
  case kept =>
    intro id hid
    rw [Resolve.get_push (Nat.lt_of_lt_of_le hid h.le_size), h.kept id hid]
  case declared =>
    intro id hbase hid
    rcases hcases id (hsize ▸ hid) with hid | rfl
    · rw [Resolve.get_push hid]
      obtain ⟨d', hd', hkind⟩ := h.declared id hbase hid
      refine ⟨d', hd', hkind.imp_right fun hleft => ?_⟩
      obtain ⟨hmem, hplace, hunknown⟩ := hleft
      have hne : d' ≠ d := fun heq => hd (heq ▸ hmem)
      exact ⟨List.mem_cons_of_mem _ hmem, by rw [declType?_push, if_neg hne, hplace], hunknown⟩
    · rw [hself]
      exact ⟨d, rfl, .inr ⟨List.mem_cons_self .., by rw [declType?_push, if_pos rfl], rfl⟩⟩
  case placed =>
    intro d' id hid
    rw [declType?_push] at hid
    split at hid
    · rename_i heq
      cases hid
      cases heq
      exact ⟨h.le_size, by rw [hsize]; exact Nat.lt_succ_self _, by rw [hself], hn⟩
    · obtain ⟨hbase, hlt, hdecl, hname⟩ := h.placed d' id hid
      exact ⟨hbase, Nat.lt_of_lt_of_le hlt hle, by rw [Resolve.get_push hlt, hdecl], hname⟩
  case entries =>
    intro id ty hty
    by_cases hid : id.index < t.size + 1
    · rcases hcases id hid with hid | rfl
      · rw [Resolve.get_push hid] at hty
        exact (h.entries id ty hty).mono hle
      · rw [hself] at hty
        cases hty
    · rw [get_of_size_le (by omega)] at hty
      cases hty
  case refs => exact fun r ty hr => (h.refs r ty hr).mono hle
  case functions => exact fun d' s hs => (h.functions d' s hs).mono hle

/-- A declared type gets what it admits. -/
theorem setKind {d : DeclId} (h : t.Faithful arena base (d :: todo)) {id : TypeId}
    (hid : t.declType? d = some id) {kind : TypeKind} (hkind : (arena.decl d).kind.Shapes kind)
    (hparts : ∀ ty ∈ kind.parts, ty.Below t.size) :
    (t.setKind id kind).Faithful arena base todo := by
  obtain ⟨hbase, hlt, hdecl, hname⟩ := h.placed d id hid
  have hget := get_setKind (t := t) kind hlt
  have hsize := Resolve.size_setKind t id kind
  have hdecls : ∀ id', ((t.setKind id kind).get id').decl = (t.get id').decl := by
    intro id'
    rw [hget]
    split
    · rename_i heq
      rw [heq]
    · rfl
  constructor
  case le_size =>
    rw [hsize]
    exact h.le_size
  case kept =>
    intro id' hid'
    have hne : id' ≠ id := by
      rintro rfl
      omega
    rw [hget, if_neg hne, h.kept id' hid']
  case declared =>
    intro id' hbase' hid'
    rw [hsize] at hid'
    obtain ⟨d', hd', hkind'⟩ := h.declared id' hbase' hid'
    refine ⟨d', (hdecls id').trans hd', ?_⟩
    rw [hget]
    split
    · rename_i heq
      subst heq
      cases hdecl.symm.trans hd'
      exact .inl hkind
    · rename_i hne
      refine hkind'.imp_right fun ⟨hmem, hplace, hunknown⟩ => ⟨?_, hplace, hunknown⟩
      -- the only entry that `d` has left to do is the one that is done now
      rcases List.mem_cons.1 hmem with rfl | hmem
      · exact absurd (Option.some.inj (hplace.symm.trans hid)) hne
      · exact hmem
  case placed =>
    intro d' id' hid'
    obtain ⟨hbase', hlt', hdecl', hname'⟩ := h.placed d' id' hid'
    exact ⟨hbase', hsize ▸ hlt', (hdecls id').trans hdecl', hname'⟩
  case entries =>
    intro id' ty hty
    rw [hget] at hty
    rw [hsize]
    split at hty
    · exact hparts ty hty
    · exact h.entries id' ty hty
  case refs => exact fun r ty hr => hsize ▸ h.refs r ty hr
  case functions => exact fun d' s hs => hsize ▸ h.functions d' s hs

/-- A declaration that has no place has nothing to do. -/
theorem of_declType?_eq_none {d : DeclId} (h : t.Faithful arena base (d :: todo))
    (hd : t.declType? d = none) : t.Faithful arena base todo where
  __ := h
  declared id hbase hid := by
    obtain ⟨d', hd', hkind⟩ := h.declared id hbase hid
    refine ⟨d', hd', hkind.imp_right fun ⟨hmem, hplace, hunknown⟩ => ⟨?_, hplace, hunknown⟩⟩
    rcases List.mem_cons.1 hmem with rfl | hmem
    · rw [hd] at hplace
      cases hplace
    · exact hmem

theorem recordRef (h : t.Faithful arena base todo) (r : TypeRefId) {ty : Ty}
    (hty : ty.Below t.size) : (t.recordRef r ty).Faithful arena base todo where
  __ := h
  refs r' ty' hr' := by
    rcases resolved?_recordRef r r' ty ty' hr' with rfl | hr'
    · exact hty
    · exact h.refs r' ty' hr'

theorem recordFunction (h : t.Faithful arena base todo) (d : DeclId) {s : Signature}
    (hs : s.type.Below t.size) : (t.recordFunction d s).Faithful arena base todo where
  __ := h
  functions d' s' hs' := by
    rcases function?_recordFunction d d' s s' hs' with rfl | hs'
    · exact hs
    · exact h.functions d' s' hs'

/-- The entry of a declared type has the shape of its declaration. -/
theorem shapes (h : t.Faithful arena base []) {d : DeclId} {id : TypeId}
    (hd : t.declType? d = some id) : (arena.decl d).kind.Shapes (t.get id).kind := by
  obtain ⟨hbase, hlt, hdecl, -⟩ := h.placed d id hd
  obtain ⟨d', hd', hkind⟩ := h.declared id hbase hlt
  cases hdecl.symm.trans hd'
  exact hkind.resolve_right fun ⟨hmem, _⟩ => nomatch hmem

end Faithful

end TypeTable

namespace Resolve

/-! ### Steps -/

/-- The types in scope have places below `n`. -/
def Context.Known (n : Nat) (c : Context) : Prop :=
  ∀ types ∈ c.scopes.map (fun s => s.types), ∀ x ∈ types, x.2.index < n

/-- From a table with at least `n` types for which `I` holds, a step leads to one for which `I'`
holds, and `post` holds of its result and of the number of types then. -/
def Fills (I : TypeTable → Prop) (n : Nat) (x : Check α) (I' : TypeTable → Prop)
    (post : Nat → α → Prop) : Prop :=
  ∀ s, n ≤ s.table.size → I s.table →
    I' (x s).2.table ∧ s.table.size ≤ (x s).2.table.size ∧ post (x s).2.table.size (x s).1

/-- What written types stand for can be recorded under the invariant `I`. -/
structure Recording (I : TypeTable → Prop) : Prop where
  unknown : ∀ t, I t → TypeId.unknown.index < t.size
  recordRef : ∀ t r ty, I t → ty.Below t.size → I (t.recordRef r ty)

section

variable {I I' I'' : TypeTable → Prop} {arena : Arena} {n : Nat} {α β : Type}
  {post : Nat → β → Prop}

theorem Context.Known.mono {c : Context} {n n' : Nat} (h : c.Known n) (hle : n ≤ n') :
    c.Known n' := fun s hs x hx => Nat.lt_of_lt_of_le (h s hs x hx) hle

theorem Context.Known.nested {c : Context} (h : c.Known n) : c.nested.Known n :=
  List.forall_mem_cons.2 ⟨fun _ hx => (List.not_mem_nil hx).elim, h⟩

theorem Context.Known.calling {c : Context} (h : c.Known n) : c.calling.Known n := h

theorem Context.Known.looping {c : Context} (h : c.Known n) : c.looping.Known n := h

theorem Context.Known.type? {c : Context} (h : c.Known n) {x : Name} {id : TypeId}
    (hx : c.type? x = some id) : id.index < n := by
  obtain ⟨s, hs, hid⟩ := List.exists_of_findSome?_eq_some hx
  obtain ⟨pre, post, heq, -⟩ := List.lookup_eq_some_iff.1 hid
  exact h _ (List.mem_map_of_mem hs) (x, id) (by simp [heq])

theorem fills_pure {a : α} {post : Nat → α → Prop} (h : ∀ n', n ≤ n' → post n' a) :
    Fills I n (pure a) I post :=
  fun _ hn hs => ⟨hs, Nat.le_refl _, h _ hn⟩

theorem Fills.bind {x : Check α} {f : α → Check β} {mid : Nat → α → Prop}
    (hx : Fills I n x I' mid)
    (hf : ∀ a n', n ≤ n' → mid n' a → Fills I' n' (f a) I'' post) :
    Fills I n (x >>= f) I'' post := by
  intro s hn hs
  obtain ⟨hs', hle, hmid⟩ := hx s hn hs
  obtain ⟨hs'', hle', hpost⟩ := hf _ _ (Nat.le_trans hn hle) hmid _ (Nat.le_refl _) hs'
  exact ⟨hs'', Nat.le_trans hle hle', hpost⟩

theorem Fills.andThen {x : Check α} {f : α → Check β} {mid : Nat → α → Prop}
    (hx : Fills I n x I' mid) (hf : ∀ a n', n ≤ n' → Fills I' n' (f a) I'' post) :
    Fills I n (x >>= f) I'' post :=
  hx.bind fun a n' hle _ => hf a n' hle

/-- Nothing is left to do. -/
theorem fills_skip {a : α} : Fills I n (pure a) I fun _ _ => True :=
  fills_pure fun _ _ => trivial

/-- Nothing is left to do but to give a result. -/
theorem Fills.andPure {x : Check α} {f : α → β} {mid : Nat → α → Prop} (hx : Fills I n x I' mid) :
    Fills I n (x >>= fun a => pure (f a)) I' fun _ _ => True :=
  hx.andThen fun _ _ _ => fills_skip

/-- A step that leaves the table alone. -/
theorem fills_of_table_eq {x : Check α} (h : ∀ s, (x s).2.table = s.table) :
    Fills I n x I fun _ _ => True := by
  intro s hn hs
  rw [h s]
  exact ⟨hs, Nat.le_refl _, trivial⟩

theorem fills_report (problem : ResolveProblem) (span : Span) :
    Fills I n (report problem span) I fun _ _ => True :=
  fills_of_table_eq fun _ => rfl

/-- A step that goes on from the table as it is. -/
theorem fills_table_bind {f : TypeTable → Check β}
    (hf : ∀ t, Fills (fun t' => I t' ∧ t' = t) n (f t) I' post) :
    Fills I n (table >>= f) I' post :=
  fun s hn hs => hf s.table s hn ⟨hs, rfl⟩

theorem Fills.of_imp {J : TypeTable → Prop} {x : Check β} (h : ∀ t, I t → J t)
    (hx : Fills J n x I' post) : Fills I n x I' post :=
  fun s hn hs => hx s hn (h _ hs)

theorem fills_mapM {f : α → Check β} {Q : Nat → β → Prop} (as : List α)
    (hQ : ∀ n n' b, n ≤ n' → Q n b → Q n' b)
    (hf : ∀ a n', n ≤ n' → Fills I n' (f a) I Q) :
    Fills I n (as.mapM f) I fun n' bs => ∀ b ∈ bs, Q n' b := by
  induction as generalizing n with
  | nil => exact fills_pure fun _ _ => by simp
  | cons a as ih =>
    rw [List.mapM_cons]
    refine (hf a n (Nat.le_refl _)).bind fun b n₁ hn₁ hb => ?_
    refine (ih fun a n' hle => hf a n' (Nat.le_trans hn₁ hle)).bind fun bs n₂ hn₂ hbs => ?_
    refine fills_pure fun n₃ hn₃ => List.forall_mem_cons.2 ⟨?_, fun b hb => ?_⟩
    · exact hQ n₁ n₃ b (Nat.le_trans hn₂ hn₃) hb
    · exact hQ n₂ n₃ b hn₃ (hbs b hb)

theorem fills_forM {f : α → Check Unit} (as : List α)
    (hf : ∀ a ∈ as, ∀ n', n ≤ n' → Fills I n' (f a) I fun _ _ => True) :
    Fills I n (as.forM f) I fun _ _ => True := by
  induction as generalizing n with
  | nil => exact fills_skip
  | cons a as ih =>
    obtain ⟨ha, has⟩ := List.forall_mem_cons.1 hf
    have hrest : ∀ (u : Unit) n', n ≤ n' → Fills I n' (as.forM f) I fun _ _ => True :=
      fun _ n' hle => ih fun b hb n'' hle' => has b hb n'' (Nat.le_trans hle hle')
    exact (ha n (Nat.le_refl _)).andThen hrest

/-- Entering things one after the other into a context of known types. -/
theorem fills_foldlM {f : Context → α → Check Context} (as : List α)
    (hf : ∀ c a n', c.Known n' → Fills I n' (f c a) I fun n'' c' => c'.Known n'')
    {c : Context} (hc : c.Known n) : Fills I n (as.foldlM f c) I fun n' c' => c'.Known n' := by
  induction as generalizing c n with
  | nil => exact fills_pure fun n' hle => hc.mono hle
  | cons a as ih =>
    rw [List.foldlM_cons]
    exact (hf c a n hc).bind fun c' n' _ hc' => ih hc'

theorem fills_declare {c : Context} (x : Name) (span : Span) (hc : c.Known n) :
    Fills I n (declare c x span) I fun n' c' => c'.Known n' := by
  unfold declare
  split
  · exact (fills_report _ _).andThen fun _ n' hle => fills_pure fun n'' hle' =>
      hc.mono (Nat.le_trans hle hle')
  · exact fills_pure fun n' hle => hc.mono hle

theorem fills_importDecl (imports : Imports) (interner : Interner) {c : Context} (hc : c.Known n)
    (d : DeclId) :
    Fills I n (importDecl arena imports interner c d) I fun n' c' => c'.Known n' := by
  unfold importDecl
  split
  · refine fills_foldlM _ (fun c item n' hc => ?_) hc
    refine (fills_declare _ _ hc).bind fun c₁ n₁ _ hc₁ => ?_
    split
    · exact fills_pure fun n₂ hn₂ => hc₁.mono hn₂
    · exact (fills_report _ _).andThen fun _ n₂ hn₂ => fills_pure fun n₃ hn₃ =>
        hc₁.mono (Nat.le_trans hn₂ hn₃)
  · exact fills_pure fun n' hle => hc.mono hle

/-! ### Written types -/

section

variable (hI : Recording I)

include hI

theorem fills_recordRef (r : TypeRefId) {ty : Ty}
    (hty : ∀ n', n ≤ n' → TypeId.unknown.index < n' → ty.Below n') :
    Fills I n (do record (fun t => t.recordRef r ty); return ty) I fun n' ty => ty.Below n' := by
  intro s hn hs
  have hbelow := hty s.table.size hn (hI.unknown _ hs)
  exact ⟨hI.recordRef _ _ _ hs hbelow, Nat.le_refl _, hbelow⟩

theorem fills_unknown : Fills I n (pure .unknown) I fun n' ty => Ty.Below n' ty :=
  fun _ _ hs => ⟨hs, Nat.le_refl _, .named (hI.unknown _ hs)⟩

theorem fills_typeWithin {c : Context} (hc : c.Known n) (depth : Nat) (r : TypeRefId) :
    Fills I n (typeWithin arena c depth r) I fun n' ty => ty.Below n' := by
  induction depth generalizing r n with
  | zero => exact fills_unknown hI
  | succ depth ih =>
    simp only [typeWithin, typeNode]
    split
    · split
      · rename_i place hplace
        exact fills_recordRef hI r fun n' hle _ =>
          .named (Nat.lt_of_lt_of_le (hc.type? hplace) hle)
      · exact (fills_report _ _).andThen fun _ _ _ =>
          fills_recordRef hI r fun n' _ hle => .named hle
    · refine (fills_mapM _ (fun _ _ _ hle h => h.mono hle) fun r n' hle =>
        ih (hc.mono hle) r).bind fun params n₁ hn₁ hparams => ?_
      refine (ih (hc.mono hn₁) _).bind fun result n₂ hn₂ hresult => ?_
      exact fills_recordRef hI r fun n₃ hn₃ _ => .function
        (fun ty hty => (hparams ty hty).mono (Nat.le_trans hn₂ hn₃)) (hresult.mono hn₃)

theorem fills_typeRef {c : Context} (hc : c.Known n) (r : TypeRefId) :
    Fills I n (typeRef arena c r) I fun n' ty => ty.Below n' :=
  fills_typeWithin hI hc _ r

theorem fills_typeRef? {c : Context} (hc : c.Known n) (r : Option TypeRefId) :
    Fills I n (typeRef? arena c r) I fun n' ty => ty.Below n' := by
  cases r with
  | none => exact fills_unknown hI
  | some r => exact fills_typeRef hI hc r

theorem fills_pattern {c : Context} (hc : c.Known n) (p : Code.Pattern) :
    Fills I n (pattern arena c p) I fun n' c' => c'.Known n' := by
  refine (fills_typeRef hI hc p.typeRef).andThen fun ty n₁ hn₁ => ?_
  cases p.binding with
  | some x => exact fills_pure fun n₂ hn₂ => hc.mono (Nat.le_trans hn₁ hn₂)
  | none => exact fills_pure fun n₂ hn₂ => hc.mono (Nat.le_trans hn₁ hn₂)

theorem fills_fieldTypes {c : Context} (hc : c.Known n) (seen fs : List Code.Field) :
    Fills I n (fieldTypes arena c seen fs) I fun n' types =>
      types.map (fun f => f.name) = fs.map (fun f => f.name) ∧
        ∀ f ∈ types, f.type.Below n' := by
  induction fs generalizing n seen with
  | nil => exact fills_pure fun _ _ => ⟨rfl, by simp⟩
  | cons f fs ih =>
    have hrest : ∀ n', n ≤ n' → Fills I n' (do
        let ty ← typeRef arena c f.typeRef
        return (⟨f.name, ty⟩ : FieldType) :: (← fieldTypes arena c (seen ++ [f]) fs)) I
        fun n' types => types.map (fun f => f.name) = (f :: fs).map (fun f => f.name) ∧
          ∀ f ∈ types, f.type.Below n' := by
      intro n' hn'
      refine (fills_typeRef hI (hc.mono hn') _).bind fun ty n₁ hn₁ hty => ?_
      refine (ih (hc.mono (Nat.le_trans hn' hn₁)) _).bind fun types n₂ hn₂ ⟨hnames, htypes⟩ => ?_
      refine fills_pure fun n₃ hn₃ => ⟨congrArg (f.name :: ·) hnames, ?_⟩
      exact List.forall_mem_cons.2 ⟨hty.mono (Nat.le_trans hn₂ hn₃),
        fun f hf => (htypes f hf).mono hn₃⟩
    simp only [fieldTypes]
    split
    · exact (fills_report _ _).andThen fun _ => hrest
    · exact hrest n (Nat.le_refl _)

end

end

/-! ### Hoisted declarations -/

section

variable {arena : Arena} {base : TypeTable} {n : Nat} {todo : List DeclId}

/-- The first round leaves the declared types with something to do. -/
theorem fills_placeType {c : Context} (hc : c.Known n) {d : DeclId} (hd : d ∉ todo) :
    Fills (·.Faithful arena base todo) n (placeType arena c d) (·.Faithful arena base (d :: todo))
      fun n' c' => c'.Known n' := by
  simp only [placeType]
  split
  · rename_i x hx
    refine (fills_declare x _ hc).bind fun c₁ n₁ _ hc₁ => ?_
    intro s hn hs
    have hle := size_le_push s.table ⟨x, .unknown, some d⟩
    refine ⟨hs.push (by rw [hx]; rfl) hd, hle, List.forall_mem_cons.2 ⟨?_, ?_⟩⟩
    · refine List.forall_mem_cons.2 ⟨?_, ?_⟩
      · exact Nat.lt_of_lt_of_eq (Nat.lt_succ_self _) (Array.size_push ..).symm
      · exact fun y hy => Nat.lt_of_lt_of_le
          (hc₁ _ (List.mem_cons_self ..) y hy) (Nat.le_trans hn hle)
    · exact fun types htypes y hy => Nat.lt_of_lt_of_le
        (hc₁ _ (List.mem_cons_of_mem _ htypes) y hy) (Nat.le_trans hn hle)
  · intro s hn hs
    exact ⟨hs.mono fun _ h => List.mem_cons_of_mem _ h, Nat.le_refl _, hc.mono hn⟩

theorem fills_placeTypes (ds : List DeclId) (hnodup : ds.Nodup) (htodo : ∀ d ∈ ds, d ∉ todo)
    {c : Context} (hc : c.Known n) :
    Fills (·.Faithful arena base todo) n (ds.foldlM (placeType arena) c)
      (·.Faithful arena base (ds ++ todo)) fun n' c' => c'.Known n' := by
  induction ds generalizing c n todo with
  | nil => exact fills_pure fun n' hle => hc.mono hle
  | cons d ds ih =>
    rw [List.foldlM_cons]
    obtain ⟨hd, hds⟩ := List.nodup_cons.1 hnodup
    refine (fills_placeType hc (htodo d (List.mem_cons_self ..))).bind fun c₁ n₁ _ hc₁ => ?_
    have hrest : ∀ d' ∈ ds, d' ∉ d :: todo := by
      intro d' hd' hmem
      rcases List.mem_cons.1 hmem with rfl | hmem
      · exact hd hd'
      · exact htodo d' (List.mem_cons_of_mem _ hd') hmem
    intro s hn hs
    obtain ⟨hs', hle, hpost⟩ := ih hds hrest hc₁ s hn hs
    exact ⟨hs'.mono fun _ h => List.perm_middle.mem_iff.1 h, hle, hpost⟩

variable (hbase : TypeId.unknown.index < base.size)

include hbase

theorem recording_faithful : Recording (·.Faithful arena base todo) :=
  ⟨fun _ ht => Nat.lt_of_lt_of_le hbase ht.le_size, fun _ r _ ht hty => ht.recordRef r hty⟩

omit hbase in
theorem fills_setKind {c : Context} (hc : c.Known n) {d : DeclId} {id : TypeId} {kind : TypeKind}
    (hkind : (arena.decl d).kind.Shapes kind) (hparts : ∀ ty ∈ kind.parts, ty.Below n) :
    Fills (fun t => t.Faithful arena base (d :: todo) ∧ t.declType? d = some id) n
      (do record (fun t => t.setKind id kind); return c) (·.Faithful arena base todo)
      fun n' c' => c'.Known n' := by
  intro s hn hs
  have hle : s.table.size ≤ (s.table.setKind id kind).size :=
    Nat.le_of_eq (size_setKind _ _ _).symm
  exact ⟨hs.1.setKind hs.2 hkind fun ty hty => (hparts ty hty).mono hn, hle,
    hc.mono (Nat.le_trans hn hle)⟩

/-- The second round finishes the declared types. -/
theorem fills_defineType {c : Context} (hc : c.Known n) (d : DeclId) :
    Fills (·.Faithful arena base (d :: todo)) n (defineType arena c d)
      (·.Faithful arena base todo) fun n' c' => c'.Known n' := by
  unfold defineType
  refine fills_table_bind fun t => ?_
  cases hd : t.declType? d with
  | none =>
    refine Fills.of_imp (fun t' (ht' : _ ∧ t' = t) => ?_) (fills_pure fun n' hle => hc.mono hle)
    exact ht'.1.of_declType?_eq_none (by rw [ht'.2, hd])
  | some id =>
    have hrecording : Recording fun t =>
        t.Faithful arena base (d :: todo) ∧ t.declType? d = some id :=
      ⟨fun t ht => (recording_faithful hbase).unknown t ht.1,
        fun t r ty ht hty => ⟨ht.1.recordRef r hty, ht.2⟩⟩
    refine Fills.of_imp (J := fun t' => t'.Faithful arena base (d :: todo) ∧
      t'.declType? d = some id) (fun t' ht' => ⟨ht'.1, by rw [ht'.2, hd]⟩) ?_
    dsimp only
    cases hk : (arena.decl d).kind with
    | object x fields =>
      refine (fills_fieldTypes hrecording hc [] fields).bind fun types n₁ hn₁ htypes => ?_
      refine fills_setKind (c := c.addValue x (instanceInfo id types)) (hc.mono hn₁) ?_ ?_
      · simpa only [hk, Code.DeclKind.Shapes] using htypes.1
      · exact List.forall_mem_map.2 htypes.2
    | signal x fields result =>
      refine (fills_fieldTypes hrecording hc [] fields).bind fun types n₁ hn₁ htypes => ?_
      have hdone : ∀ ty n₂, n₁ ≤ n₂ → ty.Below n₂ → Fills
          (fun t => t.Faithful arena base (d :: todo) ∧ t.declType? d = some id) n₂ (do
            record fun t => t.setKind id (.signal types ty)
            return c.addValue x (instanceInfo id types))
          (·.Faithful arena base todo) fun n' c' => c'.Known n' := by
        intro ty n₂ hn₂ hbelow
        refine fills_setKind (c := c.addValue x (instanceInfo id types))
          (hc.mono (Nat.le_trans hn₁ hn₂)) ?_ ?_
        · simpa only [hk, Code.DeclKind.Shapes] using htypes.1
        · exact List.forall_mem_append.2 ⟨List.forall_mem_map.2 fun f hf =>
            (htypes.2 f hf).mono hn₂, List.forall_mem_singleton.2 hbelow⟩
      cases result with
      | some r => exact (fills_typeRef hrecording (hc.mono hn₁) r).bind hdone
      | none =>
        intro s hn hs
        refine hdone .action s.table.size hn (.named ?_) s (Nat.le_refl _) hs
        exact Nat.lt_trans (by decide) (hrecording.unknown _ hs)
    | option x members =>
      refine (fills_mapM members (fun _ _ _ hle h => h.mono hle) fun r n' hle =>
        fills_typeRef hrecording (hc.mono hle) r).bind fun types n₁ hn₁ htypes => ?_
      exact fills_setKind (hc.mono hn₁) (by rw [hk]; trivial) htypes
    | _ =>
      -- only types have a place
      intro s hn hs
      obtain ⟨-, -, -, hname⟩ := hs.1.placed d id hs.2
      rw [hk] at hname
      cases hname

theorem fills_defineTypes (ds : List DeclId) {c : Context} (hc : c.Known n) :
    Fills (·.Faithful arena base ds) n (ds.foldlM (defineType arena) c)
      (·.Faithful arena base []) fun n' c' => c'.Known n' := by
  induction ds generalizing c n with
  | nil => exact fills_pure fun n' hle => hc.mono hle
  | cons d ds ih =>
    rw [List.foldlM_cons]
    exact (fills_defineType hbase hc d).bind fun c₁ n₁ _ hc₁ => ih hc₁

theorem fills_functionDecl {c : Context} (hc : c.Known n) (d : DeclId) :
    Fills (·.Faithful arena base todo) n (functionDecl arena c d) (·.Faithful arena base todo)
      fun n' c' => c'.Known n' := by
  have hrecording : Recording (·.Faithful arena base todo) := recording_faithful hbase
  unfold functionDecl
  dsimp only
  cases (arena.decl d).kind with
  | function x params result body =>
    refine (fills_declare x _ hc).bind fun c₁ n₁ _ hc₁ => ?_
    refine (fills_mapM params (fun _ _ _ hle h => h.mono hle) fun p n' hle =>
      fills_typeRef? hrecording (hc₁.mono hle) p.typeRef).bind fun types n₂ hn₂ htypes => ?_
    refine (fills_typeRef? hrecording (hc₁.mono hn₂) result).bind fun ty n₃ hn₃ hty s hn hs => ?_
    refine ⟨hs.recordFunction d (.function (fun ty hty => (htypes ty hty).mono
      (Nat.le_trans hn₃ hn)) (hty.mono hn)), Nat.le_refl _, ?_⟩
    exact hc₁.mono (Nat.le_trans hn₂ (Nat.le_trans hn₃ hn))
  | _ => exact fills_pure fun n' hle => hc.mono hle

/-- Hoisting enters the types of a scope, and leaves nothing to do. -/
theorem fills_hoist (imports : Imports) (interner : Interner) {c : Context} (hc : c.Known n)
    {ds : List DeclId} (hnodup : ds.Nodup) :
    Fills (·.Faithful arena base []) n (hoist arena imports interner c ds)
      (·.Faithful arena base []) fun n' c' => c'.Known n' := by
  unfold hoist
  refine (fills_foldlM ds (fun c d n' hc => fills_importDecl imports interner hc d) hc).bind
    fun c₁ n₁ _ hc₁ => ?_
  refine (fills_placeTypes ds hnodup (fun _ _ => List.not_mem_nil) hc₁).bind fun c₂ n₂ _ hc₂ => ?_
  rw [List.append_nil]
  refine (fills_defineTypes hbase ds hc₂).bind fun c₃ n₃ _ hc₃ => ?_
  exact fills_foldlM ds (fun c d n' hc => fills_functionDecl hbase hc d) hc₃

end

/-! ### Expressions -/

section

variable {g : Setting} {check : Checker} {base : TypeTable} {n : Nat}

/-- Checking an expression keeps the table faithful. -/
def FillsAll (g : Setting) (base : TypeTable) (check : Checker) : Prop :=
  ∀ c id n, c.Known n → Fills (·.Faithful g.arena base []) n (check c id)
    (·.Faithful g.arena base []) fun _ _ => True

theorem fills_assignable {I : TypeTable → Prop} (expected found : Ty) (span : Span) :
    Fills I n (assignable expected found span) I fun _ _ => True := by
  refine fills_table_bind fun t => Fills.of_imp (fun _ h => h.1) ?_
  split
  · exact fills_skip
  · split <;> exact fills_report _ _

theorem fills_functionArguments {I : TypeTable → Prop} (arena : Arena)
    (args : List (Ty × Option Ty × ExprId)) :
    Fills I n (functionArguments arena args) I fun _ _ => True := by
  induction args generalizing n with
  | nil => exact fills_skip
  | cons a args ih =>
    unfold functionArguments
    split
    · exact fills_skip
    · rename_i heq
      cases heq
      exact (fills_assignable _ _ _).andThen fun _ _ _ => ih
    · rename_i heq
      cases heq
      exact ih

theorem fills_setTarget {I : TypeTable → Prop} (c : Context) (target : Name) (span : Span) :
    Fills I n (setTarget c target span) I fun _ _ => True := by
  unfold setTarget
  split
  · exact fills_report _ _
  · split
    · exact fills_skip
    · exact fills_report _ _

variable (hbase : TypeId.unknown.index < base.size) (hcheck : FillsAll g base check)

include hcheck

theorem FillsAll.optional {c : Context} (hc : c.Known n) (e : Option ExprId) :
    Fills (·.Faithful g.arena base []) n (Resolve.optional check c e)
      (·.Faithful g.arena base []) fun _ _ => True := by
  cases e with
  | none => exact fills_skip
  | some e =>
    exact (hcheck c e n hc).andPure

/-- A statement that leaves a loop or a function checks its value, also where it is misplaced. -/
theorem FillsAll.leaving {c : Context} (hc : c.Known n) (value : Option ExprId) (placed : Bool)
    (problem : ResolveProblem) (span : Span) :
    Fills (·.Faithful g.arena base []) n (do
      if !placed then report problem span
      Resolve.optional check c value
      return (none : Option Ty)) (·.Faithful g.arena base []) fun _ _ => True := by
  cases placed with
  | true => exact (hcheck.optional hc value).andPure
  | false =>
    exact (fills_report problem span).andThen fun _ n₁ hle =>
      (hcheck.optional (hc.mono hle) value).andPure

theorem FillsAll.checkAll {c : Context} (hc : c.Known n) (es : List ExprId) :
    Fills (·.Faithful g.arena base []) n (Resolve.checkAll check c es)
      (·.Faithful g.arena base []) fun _ _ => True := by
  induction es generalizing n with
  | nil => exact fills_skip
  | cons e es ih =>
    exact (hcheck c e n hc).andThen fun _ n₁ hn₁ => (ih (hc.mono hn₁)).andPure

theorem FillsAll.functionBody {c : Context} (hc : c.Known n) (params : List Code.Param)
    (body : ExprId) :
    Fills (·.Faithful g.arena base []) n (Resolve.functionBody check c params body)
      (·.Faithful g.arena base []) fun _ _ => True := by
  refine (fills_foldlM params (fun c p n' hc => ?_) (hc.nested.calling)).bind fun c₁ n₁ _ hc₁ => ?_
  · refine (fills_declare p.name p.span hc).bind fun c₁ n₁ _ hc₁ => ?_
    exact fills_table_bind fun t => Fills.of_imp (fun _ h => h.1)
      (fills_pure fun n₂ hn₂ => hc₁.mono hn₂)
  · exact (hcheck c₁ body n₁ hc₁).andPure

theorem FillsAll.call {c : Context} (hc : c.Known n) (callee : ExprId) (args : List ExprId)
    (span : Span) :
    Fills (·.Faithful g.arena base []) n (Resolve.call g check c callee args span)
      (·.Faithful g.arena base []) fun _ _ => True := by
  refine (hcheck.checkAll hc args).andThen fun types n₁ hn₁ => ?_
  refine (hcheck c callee n₁ (hc.mono hn₁)).andThen fun ty n₂ _ => ?_
  dsimp only
  split
  · exact fills_skip
  · split
    · split
      · exact (fills_report _ _).andThen fun _ _ _ => (fills_functionArguments _ _).andPure
      · exact (fills_functionArguments _ _).andPure
    · exact fills_skip

include hbase

theorem FillsAll.binding {c : Context} (hc : c.Known n) (d : DeclId) (x : Name) (isVariable : Bool)
    (type : Option TypeRefId) (value : ExprId) :
    Fills (·.Faithful g.arena base []) n (Resolve.binding g check c d x isVariable type value)
      (·.Faithful g.arena base []) fun n' c' => c'.Known n' := by
  have hdone : ∀ (info : ValueInfo) n', n ≤ n' → Fills (·.Faithful g.arena base []) n' (do
      let c ← declare c x (g.arena.decl d).span
      return c.addValue x info) (·.Faithful g.arena base []) fun n' c' => c'.Known n' :=
    fun info n' hn' => (fills_declare x _ (hc.mono hn')).bind fun c₁ n₁ _ hc₁ =>
      fills_pure fun n₂ hn₂ => hc₁.mono hn₂
  refine (hcheck c value n hc).andThen fun found n₁ hn₁ => ?_
  cases type with
  | none => exact hdone _ n₁ hn₁
  | some r =>
    refine (fills_typeRef (recording_faithful hbase) (hc.mono hn₁) r).andThen
      fun expected n₂ hn₂ => ?_
    have hle := Nat.le_trans hn₁ hn₂
    cases found with
    | none => exact hdone _ n₂ hle
    | some found =>
      exact (fills_assignable _ _ _).andThen fun _ n₃ hn₃ => hdone _ n₃ (Nat.le_trans hle hn₃)

theorem FillsAll.stmt {c : Context} (hc : c.Known n) (st : Code.Stmt) :
    Fills (·.Faithful g.arena base []) n (Resolve.stmt g check c st)
      (·.Faithful g.arena base []) fun _ _ => True := by
  unfold Resolve.stmt
  split
  · exact hcheck c _ n hc
  · exact fills_skip
  · refine (fills_pattern (recording_faithful hbase) hc.nested _).bind fun c₁ n₁ _ hc₁ => ?_
    exact (hcheck c₁ _ n₁ hc₁).andPure
  · exact (hcheck c _ n hc).andThen fun _ _ _ => (fills_setTarget _ _ _).andPure

theorem FillsAll.item (order : BodyOrder) {c : Context} (hc : c.Known n) (i : Item) :
    Fills (·.Faithful g.arena base []) n (Resolve.item g check order c i)
      (·.Faithful g.arena base []) fun n' r => r.1.Known n' := by
  cases i with
  | stmt st =>
    exact (hcheck.stmt hbase hc st).andThen fun _ _ hn₁ => fills_pure fun n₂ hn₂ =>
      hc.mono (Nat.le_trans hn₁ hn₂)
  | decl d =>
    simp only [Resolve.item]
    cases (g.arena.decl d).kind with
    | binding x isVariable type value =>
      exact (hcheck.binding hbase hc d x isVariable type value).bind fun c₁ n₁ _ hc₁ =>
        fills_pure fun n₂ hn₂ => hc₁.mono hn₂
    | function x params result body =>
      dsimp only
      split
      · exact (hcheck.functionBody hc params body).andThen fun _ _ hn₁ => fills_pure
          fun n₂ hn₂ => hc.mono (Nat.le_trans hn₁ hn₂)
      · exact fills_pure fun n' hle => hc.mono hle
    | _ => exact fills_pure fun n' hle => hc.mono hle

theorem FillsAll.items (order : BodyOrder) {c : Context} (hc : c.Known n) (last : Option Ty)
    (is : List Item) :
    Fills (·.Faithful g.arena base []) n (Resolve.items g check order c last is)
      (·.Faithful g.arena base []) fun n' r => r.1.Known n' := by
  induction is generalizing c n last with
  | nil => exact fills_pure fun n' hle => hc.mono hle
  | cons i is ih => exact (hcheck.item hbase order hc i).bind fun r n₁ _ hr => ih hr r.2

omit hbase in
theorem FillsAll.declaredBody {c : Context} (hc : c.Known n) (i : Item) :
    Fills (·.Faithful g.arena base []) n (Resolve.declaredBody g check c i)
      (·.Faithful g.arena base []) fun _ _ => True := by
  unfold Resolve.declaredBody
  split
  · exact fills_skip
  · split
    · exact hcheck.functionBody hc _ _
    · exact fills_skip

theorem FillsAll.scope (order : BodyOrder) {c : Context} (hc : c.Known n) {is : List Item}
    (hnodup : (hoistedDecls g.arena is).Nodup) :
    Fills (·.Faithful g.arena base []) n (Resolve.scope g check order c is)
      (·.Faithful g.arena base []) fun _ _ => True := by
  refine (fills_hoist hbase g.imports g.interner hc hnodup).bind fun c₁ n₁ _ hc₁ => ?_
  refine (hcheck.items hbase order hc₁ _ is).bind fun r n₂ _ hr => ?_
  dsimp only
  split
  · exact (fills_forM is fun i _ n' hle => hcheck.declaredBody (hr.mono hle) i).andPure
  · exact fills_skip

theorem FillsAll.arm {c : Context} (hc : c.Known n) (hasSubject : Bool) (a : Code.Arm) :
    Fills (·.Faithful g.arena base []) n (Resolve.arm g check c hasSubject a)
      (·.Faithful g.arena base []) fun _ _ => True := by
  unfold Resolve.arm
  split
  · exact (hcheck c _ n hc).andThen fun _ n₁ hn₁ => (hcheck c _ n₁ (hc.mono hn₁)).andPure
  · rename_i p body _
    have hbody : ∀ n', n ≤ n' → Fills (·.Faithful g.arena base []) n' (do
        let inner ← pattern g.arena c.nested p
        let _ ← check inner body) (·.Faithful g.arena base []) fun _ _ => True := by
      intro n' hn'
      refine (fills_pattern (recording_faithful hbase) (hc.nested.mono hn') _).bind
        fun c₁ n₁ _ hc₁ => ?_
      exact (hcheck c₁ _ n₁ hc₁).andPure
    split
    · exact (fills_report _ _).andThen fun _ => hbody
    · exact hbody n (Nat.le_refl _)
  · exact (hcheck c _ n hc).andPure

/-- Checking an expression keeps the table faithful if checking its parts does. -/
theorem FillsAll.node (hnodup : ∀ id, (g.arena.expr id).kind.decls.Nodup) :
    FillsAll g base (Resolve.node g check) := by
  intro c id n hc
  have hdecls := hnodup id
  unfold Resolve.node
  dsimp only
  cases hk : (g.arena.expr id).kind with
  | group inner => exact hcheck c inner n hc
  | block body =>
    rw [hk] at hdecls
    refine hcheck.scope hbase .inPlace hc.nested ?_
    rw [hoistedDecls_ofStmt]
    exact hdecls.filter _
  | function params result body =>
    have hrecording : Recording (·.Faithful g.arena base []) := recording_faithful hbase
    refine (fills_mapM (Q := fun n' ty => ty.Below n') params (fun _ _ _ hle h => h.mono hle)
      fun p n' hle => fills_typeRef? hrecording (hc.mono hle) p.typeRef).andThen fun types n₁ hn₁ => ?_
    refine (fills_typeRef? hrecording (hc.mono hn₁) result).andThen fun ty n₂ hn₂ => ?_
    exact (hcheck.functionBody (hc.mono (Nat.le_trans hn₁ hn₂)) params body).andPure
  | branch subject arms =>
    refine (hcheck.optional hc subject).andThen fun _ n₁ hn₁ => ?_
    refine (fills_forM arms fun a _ n' hle => ?_).andPure
    exact hcheck.arm hbase (hc.mono (Nat.le_trans hn₁ hle)) _ a
  | loop body =>
    exact (hcheck _ body n hc.looping).andPure
  | cause payload =>
    exact (hcheck c payload n hc).andThen fun _ _ _ => fills_table_bind fun t =>
      Fills.of_imp (fun _ h => h.1) fills_skip
  | ret value => exact hcheck.leaving hc value _ _ _
  | brk value => exact hcheck.leaving hc value _ _ _
  | string text => exact fills_skip
  | number x => exact fills_skip
  | ident x =>
    dsimp only
    split
    · exact fills_skip
    · exact (fills_report _ _).andPure
  | call callee args => exact hcheck.call hc callee args _
  | member receiver field =>
    exact (hcheck c receiver n hc).andThen fun _ _ _ => fills_table_bind fun t =>
      Fills.of_imp (fun _ h => h.1) fills_skip
  | pipe subject callee args => exact hcheck.call hc callee (subject :: args) _

end

/-- Checking an expression keeps the table faithful, where no block lists a declaration twice. -/
theorem fillsAll_expr {g : Setting} {base : TypeTable} (hbase : TypeId.unknown.index < base.size)
    (hnodup : ∀ id, (g.arena.expr id).kind.decls.Nodup) (depth : Nat) :
    FillsAll g base (expr g depth) := by
  induction depth with
  | zero => exact fun _ _ _ _ => fills_skip
  | succ depth ih => exact ih.node hbase hnodup

end Resolve

/-! ### Modules -/

namespace TypeTable

variable (interner : Interner) (refCount : Nat)

/-- There are as many builtin types as there are names of types, and the unknown one. -/
theorem size_builtin : (builtin interner refCount).size = 11 := rfl

/-- No builtin type stems from a declaration, and all refer to builtin types. -/
theorem builtin_entries (id : TypeId) : ((builtin interner refCount).get id).decl = none ∧
    ∀ ty ∈ ((builtin interner refCount).get id).kind.parts, ty.Below 11 := by
  obtain ⟨i⟩ := id
  match i with
  | 0 | 1 | 2 | 3 | 4 | 5 | 6 | 10 => exact ⟨rfl, nofun⟩
  | 7 =>
    refine ⟨rfl, List.forall_mem_cons.2 ⟨.named (by decide), List.forall_mem_singleton.2 ?_⟩⟩
    exact .named (by decide)
  | 8 | 9 =>
    refine ⟨rfl, List.forall_mem_cons.2 ⟨.named (by decide), List.forall_mem_singleton.2 ?_⟩⟩
    exact .named (by decide)
  | i + 11 => exact ⟨rfl, nofun⟩

/-- The builtin types alone are a faithful table. -/
theorem faithful_builtin (arena : Arena) :
    (builtin interner refCount).Faithful arena (builtin interner refCount) [] where
  le_size := Nat.le_refl _
  kept _ _ := rfl
  declared id hle hlt := absurd hlt (Nat.not_lt.2 hle)
  placed d id hid := by simp [builtin, declType?] at hid
  entries id := (builtin_entries interner refCount id).2
  refs r ty hr := by
    simp only [builtin, resolved?, Array.getD_eq_getD_getElem?, Array.getElem?_replicate] at hr
    split at hr <;> cases hr
  functions d s hs := by simp [builtin, function?] at hs

end TypeTable

/-- Around a module, the builtin types are in scope. -/
theorem Module.known_context (m : Module) (imports : Imports) (interner : Interner) :
    (m.context imports interner).Known
      (TypeTable.builtin interner m.arena.typeRefs.size).size := by
  refine Resolve.Context.Known.nested (c := m.outerContext imports interner) ?_
  refine List.forall_mem_singleton.2 fun x hx => ?_
  obtain ⟨i, hi, rfl⟩ := List.mem_map.1 hx
  rw [TypeTable.size_builtin]
  exact Nat.lt_trans (List.mem_range.1 (List.mem_reverse.1 hi)) (by decide)

theorem Module.IsForest.faithful {interner interner' : Interner} {m : Module} (hm : m.IsForest)
    {imports : Imports} {types : TypeTable} {errors : List ResolveError}
    (hres : m.resolve imports interner = (types, errors, interner')) :
    types.Faithful m.arena (.builtin interner m.arena.typeRefs.size) [] := by
  have howes := hm.owes
  obtain rfl : (m.resolve imports interner).1 = types := by rw [hres]
  let base := TypeTable.builtin interner m.arena.typeRefs.size
  let g : Resolve.Setting := ⟨m.arena, (Resolve.internNames interner imports.prelude).2, imports⟩
  have hbase : TypeId.unknown.index < base.size := by rw [TypeTable.size_builtin]; decide
  have hcheck := Resolve.fillsAll_expr (g := g) hbase howes.nodup_decls m.arena.exprs.size
  refine (hcheck.scope hbase .afterScope (m.known_context imports interner) ?_ ⟨base, #[]⟩
    (Nat.le_refl _)
    (TypeTable.faithful_builtin ..)).1
  rw [Resolve.hoistedDecls_map_decl]
  exact howes.nodup_top.filter _

/-- **Resolution leaves a faithful table**, whatever errors it finds. -/
theorem Module.faithful_of_resolve {file : Tree.File}
    {interner₀ interner₁ interner interner' : Interner} {m : Module} {imports : Imports}
    {types : TypeTable} {errors : List ResolveError}
    (hm : Module.ofTree file interner₀ = (.ok m, interner₁))
    (hres : m.resolve imports interner = (types, errors, interner')) :
    types.Faithful m.arena (.builtin interner m.arena.typeRefs.size) [] :=
  (Module.isForest_of_ofTree hm).faithful hres

end SignalLang
