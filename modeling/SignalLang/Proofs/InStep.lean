import SignalLang.Proofs.Alike
import SignalLang.Proofs.HoistedTypes

/-!
# Resolutions in step

Two resolutions that start from different findings can still take the same steps: they report
equally many errors, and what the one finds out is like what the other finds out.  What is known to
correspond grows as they go on.

* `Resolve.Pairing` : what is known to correspond in the findings of two resolutions.
* `Pairing.Holds π a t t'` : the pairing `π` is true of the tables `t` and `t'`.
* `Resolve.InStep a π x x' post` : from findings paired by `π`, the steps `x` and `x'` lead to
  findings that are paired, too, and `post` holds of their results.
-/

namespace SignalLang

namespace Resolve

/-! ### Pairings -/

/-- What is known to correspond in the findings of two resolutions. -/
structure Pairing where
  /-- The places of the same type. -/
  places : TypeId → TypeId → Prop
  /-- The places whose entries are alike. -/
  kinds : TypeId → Prop
  /-- The written types that stand for the same. -/
  refs : TypeRefId → Prop
  /-- The declarations of the same type. -/
  decls : DeclId → Prop

namespace Pairing

/-- The pairing `π'` knows all that `π` knows, and its new entries are alike. -/
structure Le (π π' : Pairing) : Prop where
  places : ∀ b b', π.places b b' → π'.places b b'
  kinds : ∀ b, π.kinds b → π'.kinds b
  refs : ∀ r, π.refs r → π'.refs r
  decls : ∀ d, π.decls d → π'.decls d
  new : ∀ b b', π'.places b b' → π.places b b' ∨ π'.kinds b

/-- All entries are alike. -/
def Whole (π : Pairing) : Prop := ∀ b b', π.places b b' → π.kinds b

variable {π π₁ π₂ : Pairing}

theorem Le.refl (π : Pairing) : π.Le π :=
  ⟨fun _ _ h => h, fun _ h => h, fun _ h => h, fun _ h => h, fun _ _ h => .inl h⟩

theorem Le.trans (h : π.Le π₁) (h' : π₁.Le π₂) : π.Le π₂ where
  places b b' hb := h'.places b b' (h.places b b' hb)
  kinds b hb := h'.kinds b (h.kinds b hb)
  refs r hr := h'.refs r (h.refs r hr)
  decls d hd := h'.decls d (h.decls d hd)
  new b b' hb := by
    rcases h'.new b b' hb with hb | hb
    · exact (h.new b b' hb).imp_right (h'.kinds b)
    · exact .inr hb

theorem Whole.mono (hw : π.Whole) (h : π.Le π₁) : π₁.Whole := by
  intro b b' hb
  rcases h.new b b' hb with hb | hb
  · exact h.kinds b (hw b b' hb)
  · exact hb

/-- The pairing is true of two tables. -/
structure Holds (π : Pairing) (a : Arena) (t t' : TypeTable) : Prop where
  unique : Relator.BiUnique π.places
  builtin : ∀ id : TypeId, id.index ≤ TypeId.unknown.index → π.places id id
  below : ∀ {b b'}, π.places b b' → b.index < t.size ∧ b'.index < t'.size
  stems : ∀ {b b'}, π.places b b' → (t.get b).decl = (t'.get b').decl
  kinds : ∀ {b b'}, π.places b b' → π.kinds b → (t.get b).kind.Alike π.places (t'.get b').kind
  refs : ∀ r, π.refs r → Option.Rel (Ty.Alike π.places) (t.resolved? r) (t'.resolved? r)
  decls : ∀ d, π.decls d → Option.Rel π.places (t.declType? d) (t'.declType? d)
  refs_size : t.refs.size = a.typeRefs.size
  refs_size' : t'.refs.size = a.typeRefs.size

theorem Holds.paired {a : Arena} {t t' : TypeTable} (h : π.Holds a t t') (hw : π.Whole) :
    TypeTable.Paired π.places t t' :=
  ⟨h.unique, h.builtin, fun hb => h.kinds hb (hw _ _ hb)⟩

end Pairing

/-! ### Steps -/

/-- From findings paired by `π`, two steps lead to findings that are paired by more.  They report
equally many errors, and `post` holds of their results. -/
def InStep (a : Arena) (π : Pairing) (x x' : Check α) (post : Pairing → α → α → Prop) : Prop :=
  ∀ s s', π.Holds a s.table s'.table →
    ∃ π₁, π.Le π₁ ∧ π₁.Holds a (x s).2.table (x' s').2.table ∧
      (x s).2.errors.size + s'.errors.size = (x' s').2.errors.size + s.errors.size ∧
      post π₁ (x s).1 (x' s').1

section

variable {a : Arena} {π : Pairing} {α β σ : Type} {post : Pairing → β → β → Prop}

theorem inStep_pure {r r' : β} (h : post π r r') : InStep a π (pure r) (pure r') post :=
  fun _ _ hs => ⟨π, .refl π, hs, Nat.add_comm .., h⟩

theorem InStep.bind {x x' : Check α} {f f' : α → Check β} {mid : Pairing → α → α → Prop}
    (hx : InStep a π x x' mid)
    (hf : ∀ r r' π₁, π.Le π₁ → mid π₁ r r' → InStep a π₁ (f r) (f' r') post) :
    InStep a π (x >>= f) (x' >>= f') post := by
  intro s s' hs
  obtain ⟨π₁, hle₁, hs₁, herrors₁, hmid⟩ := hx s s' hs
  obtain ⟨π₂, hle₂, hs₂, herrors₂, hpost⟩ := hf _ _ π₁ hle₁ hmid _ _ hs₁
  refine ⟨π₂, hle₁.trans hle₂, hs₂, ?_, hpost⟩
  change (f (x s).1 (x s).2).2.errors.size + _ = (f' (x' s').1 (x' s').2).2.errors.size + _
  omega

/-- The second step does not depend on what the first one gives. -/
theorem InStep.andThen {x x' : Check α} {f f' : α → Check β} {mid : Pairing → α → α → Prop}
    (hx : InStep a π x x' mid)
    (hf : ∀ r r' π₁, π.Le π₁ → InStep a π₁ (f r) (f' r') post) :
    InStep a π (x >>= f) (x' >>= f') post :=
  hx.bind fun r r' π₁ hle _ => hf r r' π₁ hle

/-- Nothing is left to do but to give a result. -/
theorem InStep.andPure {x x' : Check α} {f f' : α → β} {mid : Pairing → α → α → Prop}
    (hx : InStep a π x x' mid) :
    InStep a π (x >>= fun r => pure (f r)) (x' >>= fun r => pure (f' r)) fun _ _ _ => True :=
  hx.andThen fun _ _ _ _ => inStep_pure trivial

theorem InStep.weaken {x x' : Check β} {post' : Pairing → β → β → Prop}
    (hx : InStep a π x x' post) (h : ∀ π₁ r r', π.Le π₁ → post π₁ r r' → post' π₁ r r') :
    InStep a π x x' post' := by
  intro s s' hs
  obtain ⟨π₁, hle, hs₁, herrors, hpost⟩ := hx s s' hs
  exact ⟨π₁, hle, hs₁, herrors, h _ _ _ hle hpost⟩

/-- Both steps go on from the tables as they are. -/
theorem inStep_table_bind {f f' : TypeTable → Check β}
    (hf : ∀ t t', π.Holds a t t' → InStep a π (f t) (f' t') post) :
    InStep a π (table >>= f) (table >>= f') post :=
  fun s s' hs => hf s.table s'.table hs s s' hs

theorem inStep_report (problem problem' : ResolveProblem) (span span' : Span) :
    InStep a π (report problem span) (report problem' span') fun _ _ _ => True := by
  intro s s' hs
  have hsize : (report problem span s).2.errors.size = s.errors.size + 1 := Array.size_push ..
  have hsize' : (report problem' span' s').2.errors.size = s'.errors.size + 1 := Array.size_push ..
  exact ⟨π, .refl π, hs, by omega, trivial⟩

theorem inStep_mapM {f f' : α → Check β} {Q : Pairing → β → β → Prop} {P : Pairing → α → Prop}
    (as : List α) (hQ : ∀ {π π₁ b b'}, π.Le π₁ → Q π b b' → Q π₁ b b')
    (hP : ∀ {π π₁ x}, π.Le π₁ → P π x → P π₁ x)
    (hf : ∀ x ∈ as, ∀ π₁, π.Le π₁ →
      InStep a π₁ (f x) (f' x) fun π₂ b b' => Q π₂ b b' ∧ P π₂ x) :
    InStep a π (as.mapM f) (as.mapM f') fun π₁ bs bs' =>
      List.Forall₂ (Q π₁) bs bs' ∧ ∀ x ∈ as, P π₁ x := by
  induction as generalizing π with
  | nil => exact inStep_pure ⟨.nil, by simp⟩
  | cons x as ih =>
    obtain ⟨hx, has⟩ := List.forall_mem_cons.1 hf
    rw [List.mapM_cons, List.mapM_cons]
    refine (hx π (.refl π)).bind fun b b' π₁ hle₁ ⟨hb, hbx⟩ => ?_
    refine (ih fun y hy π₂ hle₂ => has y hy π₂ (hle₁.trans hle₂)).bind
      fun bs bs' π₂ hle₂ ⟨hbs, hbas⟩ => ?_
    exact inStep_pure ⟨.cons (hQ hle₂ hb) hbs, List.forall_mem_cons.2 ⟨hP hle₂ hbx, hbas⟩⟩

theorem inStep_foldlM {f f' : σ → α → Check σ} {C : Pairing → σ → σ → Prop}
    {P : Pairing → α → Prop} (as : List α) (hP : ∀ {π π₁ x}, π.Le π₁ → P π x → P π₁ x)
    (hf : ∀ x ∈ as, ∀ c c' π₁, π.Le π₁ → C π₁ c c' →
      InStep a π₁ (f c x) (f' c' x) fun π₂ d d' => C π₂ d d' ∧ P π₂ x) {c c' : σ}
    (hc : C π c c') :
    InStep a π (as.foldlM f c) (as.foldlM f' c') fun π₁ d d' =>
      C π₁ d d' ∧ ∀ x ∈ as, P π₁ x := by
  induction as generalizing π c c' with
  | nil => exact inStep_pure ⟨hc, by simp⟩
  | cons x as ih =>
    obtain ⟨hx, has⟩ := List.forall_mem_cons.1 hf
    rw [List.foldlM_cons, List.foldlM_cons]
    refine (hx c c' π (.refl π) hc).bind fun d d' π₁ hle₁ ⟨hd, hdx⟩ => ?_
    refine (ih (fun y hy c c' π₂ hle₂ => has y hy c c' π₂ (hle₁.trans hle₂)) hd).weaken
      fun π₂ e e' hle₂ ⟨he, heas⟩ => ⟨he, List.forall_mem_cons.2 ⟨hP hle₂ hdx, heas⟩⟩

theorem inStep_forM {f f' : α → Check Unit} (as : List α)
    (hf : ∀ x ∈ as, ∀ π₁, π.Le π₁ → InStep a π₁ (f x) (f' x) fun _ _ _ => True) :
    InStep a π (as.forM f) (as.forM f') fun _ _ _ => True := by
  induction as generalizing π with
  | nil => exact inStep_pure trivial
  | cons x as ih =>
    obtain ⟨hx, has⟩ := List.forall_mem_cons.1 hf
    have hrest : ∀ (u u' : Unit) π₁, π.Le π₁ →
        InStep a π₁ (as.forM f) (as.forM f') fun _ _ _ => True :=
      fun _ _ π₁ hle => ih fun y hy π₂ hle' => has y hy π₂ (hle.trans hle')
    exact (hx π (.refl π)).andThen hrest

end

/-! ### Contexts -/

/-- What is known of two values is the same, up to the places that `R` relates. -/
def ValueInfo.Alike (R : TypeId → TypeId → Prop) (i i' : ValueInfo) : Prop :=
  i.kind = i'.kind ∧ Option.Rel (Ty.Alike R) i.type i'.type

/-- In two contexts, the names stand for the same, up to the places that `R` relates. -/
structure Context.Alike (R : TypeId → TypeId → Prop) (c c' : Context) : Prop where
  types : ∀ n, Option.Rel R (c.type? n) (c'.type? n)
  values : ∀ n, Option.Rel (ValueInfo.Alike R) (c.value? n) (c'.value? n)
  declared : ∀ n, c.current.declared.lookup n = c'.current.declared.lookup n
  inLoop : c.inLoop = c'.inLoop
  inFunction : c.inFunction = c'.inFunction

/-- The same names stand for the same in two scopes, up to the places that `R` relates. -/
structure Scope.Alike (R : TypeId → TypeId → Prop) (u u' : Scope) : Prop where
  types : List.Forall₂ (fun x x' => x.1 = x'.1 ∧ R x.2 x'.2) u.types u'.types
  values : List.Forall₂ (fun x x' => x.1 = x'.1 ∧ x.2.Alike R x'.2) u.values u'.values
  declared : u.declared = u'.declared

/-- The same place with the names of a scope in front of those of the current one. -/
def Context.enter (c : Context) (u : Scope) : Context :=
  { c with current := ⟨u.types ++ c.current.types, u.values ++ c.current.values,
      u.declared ++ c.current.declared⟩ }

/-- Names have been entered into `c` and `c'`, where they stand for the same. -/
def Entered (c c' : Context) (π : Pairing) (d d' : Context) : Prop :=
  ∃ u u', d = c.enter u ∧ d' = c'.enter u' ∧ u.Alike π.places u'

section

variable {R R' : TypeId → TypeId → Prop} {c c' d d' e e' : Context} {π π₁ : Pairing}
  {n : Name}

/-- Entries with the same names in the same order are found by the same names. -/
theorem rel_lookup {α β : Type} {r : α → β → Prop} {xs : List (Name × α)} {ys : List (Name × β)}
    (h : List.Forall₂ (fun x y => x.1 = y.1 ∧ r x.2 y.2) xs ys) (n : Name) :
    Option.Rel r (xs.lookup n) (ys.lookup n) := by
  induction h with
  | nil => exact .none
  | @cons x y _ _ hxy _ ih =>
    obtain ⟨k, v⟩ := x
    obtain ⟨k', w⟩ := y
    obtain ⟨rfl, hvw⟩ := hxy
    rw [List.lookup_cons, List.lookup_cons]
    cases n == k with
    | true => exact .some hvw
    | false => exact ih

theorem ValueInfo.Alike.mono {i i' : ValueInfo} (h : i.Alike R i') (hR : ∀ a b, R a b → R' a b) :
    i.Alike R' i' :=
  ⟨h.1, h.2.mono fun _ _ ht => ht.mono hR⟩

theorem Context.Alike.mono (h : c.Alike R c') (hR : ∀ a b, R a b → R' a b) : c.Alike R' c' where
  __ := h
  types n := (h.types n).mono hR
  values n := (h.values n).mono fun _ _ hi => hi.mono hR

theorem Context.value?_nested (c : Context) (n : Name) : c.nested.value? n = c.value? n := by
  simp [Context.value?, Context.nested, Context.scopes, Scope.empty, List.findSome?_cons]

theorem Context.Alike.nested (h : c.Alike R c') : c.nested.Alike R c'.nested where
  types n := by rw [c.type?_nested, c'.type?_nested]; exact h.types n
  values n := by rw [c.value?_nested, c'.value?_nested]; exact h.values n
  declared _ := rfl
  inLoop := h.inLoop
  inFunction := h.inFunction

theorem Context.Alike.calling (h : c.Alike R c') : c.calling.Alike R c'.calling :=
  ⟨h.types, h.values, h.declared, rfl, rfl⟩

theorem Context.Alike.looping (h : c.Alike R c') : c.looping.Alike R c'.looping :=
  ⟨h.types, h.values, h.declared, rfl, h.inFunction⟩

theorem Context.type?_enter (c : Context) (u : Scope) (n : Name) :
    (c.enter u).type? n = (u.types.lookup n).or (c.type? n) := by
  simp only [Context.type?, Context.scopes, Context.enter, List.findSome?_cons,
    List.lookup_append]
  cases u.types.lookup n <;> rfl

theorem Context.value?_enter (c : Context) (u : Scope) (n : Name) :
    (c.enter u).value? n = (u.values.lookup n).or (c.value? n) := by
  simp only [Context.value?, Context.scopes, Context.enter, List.findSome?_cons,
    List.lookup_append]
  cases u.values.lookup n <;> rfl

theorem Context.declared_enter (c : Context) (u : Scope) (n : Name) :
    (c.enter u).current.declared.lookup n =
      (u.declared.lookup n).or (c.current.declared.lookup n) :=
  List.lookup_append ..

/-- What has been entered is alike, and so is what was there. -/
theorem Context.Alike.enter (h : c.Alike R c') {u u' : Scope} (hu : u.Alike R u') :
    (c.enter u).Alike R (c'.enter u') where
  types n := by
    rw [type?_enter, type?_enter]
    exact (rel_lookup hu.types n).or (h.types n)
  values n := by
    rw [value?_enter, value?_enter]
    exact (rel_lookup hu.values n).or (h.values n)
  declared n := by rw [declared_enter, declared_enter, hu.declared, h.declared]
  inLoop := h.inLoop
  inFunction := h.inFunction

theorem Context.enter_enter (c : Context) (u v : Scope) : (c.enter u).enter v =
    c.enter ⟨v.types ++ u.types, v.values ++ u.values, v.declared ++ u.declared⟩ := by
  simp [Context.enter]

theorem Entered.alike (h : Entered c c' π d d') (hc : c.Alike π.places c') :
    d.Alike π.places d' := by
  obtain ⟨u, u', rfl, rfl, hu⟩ := h
  exact hc.enter hu

theorem Entered.refl (c c' : Context) : Entered c c' π c c' :=
  ⟨.empty, .empty, rfl, rfl, ⟨.nil, .nil, rfl⟩⟩

theorem Scope.Alike.mono {u u' : Scope} (h : u.Alike R u') (hR : ∀ a b, R a b → R' a b) :
    u.Alike R' u' :=
  ⟨h.types.imp fun _ _ hx => ⟨hx.1, hR _ _ hx.2⟩, h.values.imp fun _ _ hx => ⟨hx.1, hx.2.mono hR⟩,
    h.declared⟩

theorem Entered.trans (h : Entered c c' π d d') (hle : π.Le π₁) (h' : Entered d d' π₁ e e') :
    Entered c c' π₁ e e' := by
  obtain ⟨u, u', rfl, rfl, hu⟩ := h
  obtain ⟨v, v', rfl, rfl, hv⟩ := h'
  have hu₁ := hu.mono hle.places
  exact ⟨_, _, c.enter_enter u v, c'.enter_enter u' v', List.rel_append hv.types hu₁.types,
    List.rel_append hv.values hu₁.values, congrArg₂ (· ++ ·) hv.declared hu₁.declared⟩

theorem Entered.mono (h : Entered c c' π d d') (hle : π.Le π₁) : Entered c c' π₁ d d' := by
  obtain ⟨u, u', hd, hd', hu⟩ := h
  exact ⟨u, u', hd, hd', hu.mono hle.places⟩

theorem entered_addValue (c c' : Context) (n : Name) {info info' : ValueInfo}
    (hinfo : info.Alike π.places info') :
    Entered c c' π (c.addValue n info) (c'.addValue n info') :=
  ⟨⟨[], [(n, info)], []⟩, ⟨[], [(n, info')], []⟩, rfl, rfl, .nil, .cons ⟨rfl, hinfo⟩ .nil, rfl⟩

theorem entered_addType (c c' : Context) (n : Name) {id id' : TypeId} (hid : π.places id id') :
    Entered c c' π (c.addType n id) (c'.addType n id') :=
  ⟨⟨[(n, id)], [], []⟩, ⟨[(n, id')], [], []⟩, rfl, rfl, .cons ⟨rfl, hid⟩ .nil, .nil, rfl⟩

/-- Behind names that stand for the same, declared names are still the same. -/
theorem Entered.declared (h : Entered c c' π d d')
    (hc : c.current.declared.lookup n = c'.current.declared.lookup n) :
    d.current.declared.lookup n = d'.current.declared.lookup n := by
  obtain ⟨u, u', rfl, rfl, hu⟩ := h
  rw [Context.declared_enter, Context.declared_enter, hu.declared, hc]

end

/-! ### Declaring names and resolving types -/

section

variable {a : Arena} {π : Pairing} {c c' : Context}

theorem inStep_declare {n : Name} (span : Span)
    (hn : c.current.declared.lookup n = c'.current.declared.lookup n) :
    InStep a π (declare c n span) (declare c' n span) (Entered c c') := by
  unfold declare
  rw [← hn]
  cases c.current.declared.lookup n with
  | some previous =>
    exact (inStep_report _ _ _ _).andThen fun _ _ _ _ => inStep_pure (.refl c c')
  | none =>
    exact inStep_pure
      ⟨⟨[], [], [(n, span)]⟩, ⟨[], [], [(n, span)]⟩, rfl, rfl, .nil, .nil, rfl⟩

theorem resolved?_recordRef_self_or {t : TypeTable} (r : TypeRefId) (ty : Ty) :
    (t.recordRef r ty).resolved? r = if r.index < t.refs.size then some ty else none := by
  simp only [TypeTable.recordRef, TypeTable.resolved?, Array.getD_eq_getD_getElem?,
    Array.getElem?_setIfInBounds]
  by_cases h : r.index < t.refs.size <;> simp [h]

theorem resolved?_recordRef_of_ne {t : TypeTable} {r r' : TypeRefId} (h : r' ≠ r) (ty : Ty) :
    (t.recordRef r ty).resolved? r' = t.resolved? r' := by
  have hindex : r.index ≠ r'.index := fun heq => h (by cases r; cases r'; cases heq; rfl)
  simp only [TypeTable.recordRef, TypeTable.resolved?, Array.getD_eq_getD_getElem?,
    Array.getElem?_setIfInBounds_ne hindex]

/-- The pairing that also knows what a written type stands for. -/
def Pairing.withRef (π : Pairing) (r : TypeRefId) : Pairing :=
  { π with refs := fun q => q = r ∨ π.refs q }

theorem Pairing.le_withRef (π : Pairing) (r : TypeRefId) : π.Le (π.withRef r) :=
  { Pairing.Le.refl π with refs := fun _ => .inr }

/-- Two tables that are paired stay so when both record what a written type stands for. -/
theorem Pairing.Holds.recordRef {t t' : TypeTable} (h : π.Holds a t t') (r : TypeRefId)
    {ty ty' : Ty} (hty : ty.Alike π.places ty') :
    (π.withRef r).Holds a (t.recordRef r ty) (t'.recordRef r ty') := by
  refine { h with kinds := h.kinds, refs := fun q hq => ?_, decls := h.decls
                  refs_size := Array.size_setIfInBounds.trans h.refs_size
                  refs_size' := Array.size_setIfInBounds.trans h.refs_size' }
  by_cases heq : q = r
  · subst heq
    rw [resolved?_recordRef_self_or, resolved?_recordRef_self_or, h.refs_size, h.refs_size']
    split
    · exact .some hty
    · exact .none
  · rw [resolved?_recordRef_of_ne heq, resolved?_recordRef_of_ne heq]
    exact h.refs q (hq.resolve_left heq)

/-- What a written type stands for is recorded in both tables. -/
theorem inStep_recordRef (r : TypeRefId) {ty ty' : Ty} (hty : ty.Alike π.places ty') :
    InStep a π (do record (fun t => t.recordRef r ty); return ty)
      (do record (fun t => t.recordRef r ty'); return ty')
      fun π₁ u u' => u.Alike π₁.places u' ∧ π₁.refs r :=
  fun _ _ hs => ⟨π.withRef r, π.le_withRef r, hs.recordRef r hty, Nat.add_comm .., hty, .inl rfl⟩

variable (htypes : ∀ n, Option.Rel π.places (c.type? n) (c'.type? n))

theorem inStep_unknown : InStep a π (pure .unknown) (pure .unknown) fun π₁ u u' =>
    Ty.Alike π₁.places u u' :=
  fun _ _ hs => ⟨π, .refl π, hs, Nat.add_comm .., .named (hs.builtin _ (Nat.le_refl _))⟩

include htypes

theorem inStep_typeWithin (depth : Nat) (r : TypeRefId) :
    InStep a π (typeWithin a c depth r) (typeWithin a c' depth r)
      fun π₁ u u' => u.Alike π₁.places u' ∧ (0 < depth → π₁.refs r) := by
  induction depth generalizing π r with
  | zero =>
    exact inStep_unknown.weaken fun _ _ _ _ h => ⟨h, fun hlt => absurd hlt (Nat.lt_irrefl 0)⟩
  | succ depth ih =>
    have hrecord : ∀ {π₁ : Pairing} {ty ty' : Ty}, ty.Alike π₁.places ty' → InStep a π₁
        (do record (fun t => t.recordRef r ty); return ty)
        (do record (fun t => t.recordRef r ty'); return ty')
        fun π₁ u u' => u.Alike π₁.places u' ∧ (0 < depth + 1 → π₁.refs r) :=
      fun hty => (inStep_recordRef r hty).weaken fun _ _ _ _ h => ⟨h.1, fun _ => h.2⟩
    simp only [typeWithin, typeNode]
    cases (a.typeRef r).kind with
    | named n =>
      have hn := htypes n
      dsimp only
      generalize c.type? n = place, c'.type? n = place' at hn
      cases hn with
      | some h => exact hrecord (.named h)
      | none =>
        refine (inStep_report _ _ _ _).andThen fun _ _ π₁ _ s s' hs => ?_
        exact hrecord (.named (hs.builtin _ (Nat.le_refl _))) s s' hs
    | function params result =>
      have hparts : ∀ q π₁, π.Le π₁ → InStep a π₁ (typeWithin a c depth q)
          (typeWithin a c' depth q) fun π₂ u u' => u.Alike π₂.places u' ∧ True :=
        fun q π₁ hle => (ih (fun n => (htypes n).mono hle.places) q).weaken
          fun _ _ _ _ h => ⟨h.1, trivial⟩
      refine (inStep_mapM (P := fun _ _ => True) params (fun hle h => h.mono hle.places)
        (fun _ h => h) fun q _ π₁ hle => hparts q π₁ hle).bind fun tys tys' π₁ hle₁ htys => ?_
      refine (hparts result π₁ hle₁).bind fun ty ty' π₂ hle₂ hty => ?_
      exact hrecord (Ty.alike_function.2 ⟨htys.1.imp fun _ _ h => h.mono hle₂.places, hty.1⟩)

theorem inStep_typeRef (r : TypeRefId) :
    InStep a π (typeRef a c r) (typeRef a c' r)
      fun π₁ u u' => u.Alike π₁.places u' ∧ π₁.refs r := by
  rcases Nat.eq_zero_or_pos a.typeRefs.size with hsize | hpos
  · -- where there are no written types, none is on record
    have hunknown : ∀ c, typeRef a c r = pure .unknown := fun c => by
      rw [typeRef, hsize, typeWithin]
    have hnone : ∀ {t : TypeTable}, t.refs.size = a.typeRefs.size → t.resolved? r = none := by
      intro t ht
      rw [TypeTable.resolved?, Array.getD_eq_getD_getElem?, Array.getElem?_eq_none (by omega)]
      rfl
    rw [hunknown, hunknown]
    intro s s' hs
    refine ⟨π.withRef r, π.le_withRef r,
      { hs with kinds := hs.kinds, refs := fun q hq => ?_, decls := hs.decls }, Nat.add_comm ..,
      .named (hs.builtin _ (Nat.le_refl _)), .inl rfl⟩
    change Option.Rel _ (s.table.resolved? q) (s'.table.resolved? q)
    rcases hq with heq | hq
    · rw [heq, hnone hs.refs_size, hnone hs.refs_size']
      exact .none
    · exact hs.refs q hq
  · exact (inStep_typeWithin htypes _ r).weaken fun _ _ _ _ h => ⟨h.1, h.2 hpos⟩

theorem inStep_typeRef? (r : Option TypeRefId) :
    InStep a π (typeRef? a c r) (typeRef? a c' r)
      fun π₁ u u' => u.Alike π₁.places u' ∧ ∀ q, r = some q → π₁.refs q := by
  cases r with
  | none => exact inStep_unknown.weaken fun _ _ _ _ h => ⟨h, nofun⟩
  | some r =>
    refine (inStep_typeRef htypes r).weaken fun _ _ _ _ h => ⟨h.1, ?_⟩
    rintro q ⟨⟩
    exact h.2

/-- The types of parameters, which are on record then. -/
theorem inStep_params (params : List Code.Param) :
    InStep a π (params.mapM fun q => typeRef? a c q.typeRef)
      (params.mapM fun q => typeRef? a c' q.typeRef) fun π₁ us us' =>
        List.Forall₂ (Ty.Alike π₁.places) us us' ∧
          ∀ q ∈ params, ∀ r, q.typeRef = some r → π₁.refs r :=
  inStep_mapM params (fun hle h => h.mono hle.places) (fun hle h r hr => hle.refs r (h r hr))
    fun q _ _ hle => inStep_typeRef? (fun n => (htypes n).mono hle.places) q.typeRef

theorem inStep_fieldTypes (seen fs : List Code.Field) :
    InStep a π (fieldTypes a c seen fs) (fieldTypes a c' seen fs)
      fun π₁ types types' => List.Forall₂ (FieldType.Alike π₁.places) types types' := by
  induction fs generalizing π seen with
  | nil => exact inStep_pure .nil
  | cons f fs ih =>
    have hrest : ∀ π₁, π.Le π₁ → InStep a π₁ (do
          let ty ← typeRef a c f.typeRef
          return (⟨f.name, ty⟩ : FieldType) :: (← fieldTypes a c (seen ++ [f]) fs))
        (do
          let ty ← typeRef a c' f.typeRef
          return (⟨f.name, ty⟩ : FieldType) :: (← fieldTypes a c' (seen ++ [f]) fs))
        fun π₁ types types' => List.Forall₂ (FieldType.Alike π₁.places) types types' := by
      intro π₁ hle₁
      have htypes₁ : ∀ n, Option.Rel π₁.places (c.type? n) (c'.type? n) :=
        fun n => (htypes n).mono hle₁.places
      refine (inStep_typeRef htypes₁ _).bind fun ty ty' π₂ hle₂ hty => ?_
      refine (ih (fun n => (htypes₁ n).mono hle₂.places) _).bind fun tys tys' π₃ hle₃ htys => ?_
      exact inStep_pure (.cons ⟨rfl, hty.1.mono hle₃.places⟩ htys)
    simp only [fieldTypes]
    cases seen.find? fun g => g.name == f.name with
    | some first => exact (inStep_report _ _ _ _).andThen fun _ _ π₁ hle₁ => hrest π₁ hle₁
    | none => exact hrest π (.refl π)

end

/-! ### Hoisted declarations -/

end Resolve

/-- All that can be imported or is in scope without an import is a native function. -/
structure Imports.FromLibrary (imports : Imports) : Prop where
  find? : ∀ {path name s}, imports.find? path name = some s →
    ∃ n, Native.find? path name = some n ∧ s = n.signature
  prelude : ∀ x ∈ imports.prelude, ∃ n : Native, x.2 = n.signature

/-- The core library consists of native functions. -/
theorem Imports.fromLibrary_core : Imports.core.FromLibrary where
  find? {path name s} h := by
    simp only [Imports.core] at h
    split at h
    · cases h
    · obtain ⟨n, hn, rfl⟩ := Option.map_eq_some_iff.1 h
      exact ⟨n, hn, rfl⟩
  prelude x hx := by
    obtain ⟨n, -, rfl⟩ := List.mem_map.1 hx
    exact ⟨n, rfl⟩

/-- Native functions have builtin types. -/
theorem Native.alike_signature {R : TypeId → TypeId → Prop}
    (hR : ∀ id : TypeId, id.index ≤ TypeId.unknown.index → R id id) (n : Native) :
    n.signature.type.Alike R n.signature.type := by
  have hnamed : ∀ id : TypeId, id.index ≤ TypeId.unknown.index →
      (Ty.named id).Alike R (.named id) := fun id hid => .named (hR id hid)
  refine Ty.alike_function.2 ⟨List.forall₂_same.2 fun ty hty => ?_, ?_⟩
  · cases n <;> simp only [signature, List.mem_cons, List.not_mem_nil, or_false, or_self] at hty <;>
      subst hty <;> exact hnamed _ (by decide)
  · cases n <;> exact hnamed _ (by decide)

namespace Resolve

/-- The written types of the parameters of a declared function are known. -/
def Pairing.Signed (π : Pairing) (a : Arena) (d : DeclId) : Prop :=
  ∀ x params result body, (a.decl d).kind = .function x params result body →
    ∀ q ∈ params, ∀ r, q.typeRef = some r → π.refs r

theorem Pairing.Signed.mono {π π₁ : Pairing} {a : Arena} {d : DeclId} (h : π.Signed a d)
    (hle : π.Le π₁) : π₁.Signed a d :=
  fun x params result body hk q hq r hr => hle.refs r (h x params result body hk q hq r hr)

section

variable {a : Arena} {π : Pairing} {c c' : Context}

theorem inStep_importItem {imports : Imports} (himports : imports.FromLibrary)
    (interner : Interner) (path : String) (item : Code.ImportItem)
    (hn : c.current.declared.lookup item.localName = c'.current.declared.lookup item.localName) :
    InStep a π (importItem imports interner path c item)
      (importItem imports interner path c' item) (Entered c c') := by
  refine (inStep_declare _ hn).bind fun d d' π₁ hle₁ hd => ?_
  have hvalue : ∀ {ty : Ty} {π₂ : Pairing}, π₁.Le π₂ → ty.Alike π₂.places ty →
      Entered c c' π₂ (d.addValue item.localName ⟨.native, some ty⟩)
        (d'.addValue item.localName ⟨.native, some ty⟩) := fun hle hty =>
    hd.trans hle (entered_addValue d d' _ ⟨rfl, .some hty⟩)
  cases hfound : imports.find? path (interner.text item.name) with
  | some signature =>
    obtain ⟨n, -, rfl⟩ := himports.find? hfound
    intro s s' hs
    exact ⟨π₁, .refl π₁, hs, Nat.add_comm .., hvalue (.refl π₁) (n.alike_signature hs.builtin)⟩
  | none =>
    refine (inStep_report _ _ _ _).andThen fun _ _ π₂ hle₂ s s' hs => ?_
    exact ⟨π₂, .refl π₂, hs, Nat.add_comm ..,
      hvalue hle₂ (.named (hs.builtin _ (Nat.le_refl _)))⟩

theorem inStep_importDecl {imports : Imports} (himports : imports.FromLibrary)
    (interner : Interner) (d : DeclId)
    (hn : ∀ n ∈ (a.decl d).kind.declared,
      c.current.declared.lookup n = c'.current.declared.lookup n) :
    InStep a π (importDecl a imports interner c d) (importDecl a imports interner c' d)
      (Entered c c') := by
  unfold importDecl
  cases hk : (a.decl d).kind with
  | imports path items =>
    rw [hk] at hn
    simp only [Code.DeclKind.declared] at hn ⊢
    clear hk
    induction items generalizing c c' π with
    | nil => exact inStep_pure (.refl c c')
    | cons item items ih =>
      obtain ⟨hitem, hitems⟩ := List.forall_mem_cons.1 hn
      rw [List.foldlM_cons, List.foldlM_cons]
      refine (inStep_importItem himports interner path item hitem).bind fun e e' π₁ hle₁ he => ?_
      refine (ih fun n hn' => he.declared (hitems n hn')).weaken fun π₂ f f' hle₂ hf => ?_
      exact he.trans hle₂ hf
  | _ => exact inStep_pure (.refl c c')

/-- The pairing that also knows a declared type, by a place of its own in each table. -/
def Pairing.withDecl (π : Pairing) (d : DeclId) (new new' : TypeId) : Pairing :=
  { π with
    places := fun b b' => π.places b b' ∨ b = new ∧ b' = new'
    kinds := fun b => π.kinds b ∨ b = new
    decls := fun x => x = d ∨ π.decls x }

theorem Pairing.le_withDecl (π : Pairing) (d : DeclId) (new new' : TypeId) :
    π.Le (π.withDecl d new new') where
  places _ _ := .inl
  kinds _ := .inl
  refs _ h := h
  decls _ := .inr
  new _ _ hb := hb.imp_right fun hb => .inr hb.1

/-- Two places that were unknown on their side are paired with each other only. -/
theorem Pairing.unique_withDecl {d : DeclId} {new new' : TypeId}
    (h : Relator.BiUnique π.places) (hnew : ∀ b', ¬π.places new b')
    (hnew' : ∀ b, ¬π.places b new') : Relator.BiUnique (π.withDecl d new new').places := by
  constructor
  · rintro b b₁ b' (hb | ⟨rfl, rfl⟩) (hb₁ | ⟨rfl, hb'⟩)
    · exact h.1 hb hb₁
    · exact absurd (hb' ▸ hb) (hnew' b)
    · exact absurd hb₁ (hnew' b₁)
    · rfl
  · rintro b b' b₁ (hb | ⟨rfl, rfl⟩) (hb₁ | ⟨hb', rfl⟩)
    · exact h.2 hb hb₁
    · exact absurd (hb' ▸ hb) (hnew b')
    · exact absurd hb₁ (hnew b₁)
    · rfl

/-- Two tables that are paired stay so when both give a declared type the next place. -/
theorem Pairing.Holds.push {t t' : TypeTable} (h : π.Holds a t t') (n : Name) (d : DeclId) :
    (π.withDecl d ⟨t.size⟩ ⟨t'.size⟩).Holds a (t.push ⟨n, .unknown, some d⟩).2
      (t'.push ⟨n, .unknown, some d⟩).2 := by
  have hle := π.le_withDecl d ⟨t.size⟩ ⟨t'.size⟩
  have hsize : ∀ t : TypeTable, (t.push ⟨n, .unknown, some d⟩).2.size = t.size + 1 :=
    fun t => Array.size_push ..
  -- the next places lie behind all that is paired
  have hnew : ∀ b', ¬π.places ⟨t.size⟩ b' := fun b' hb => Nat.lt_irrefl _ (h.below hb).1
  have hnew' : ∀ b, ¬π.places b ⟨t'.size⟩ := fun b hb => Nat.lt_irrefl _ (h.below hb).2
  constructor
  case unique => exact π.unique_withDecl h.unique hnew hnew'
  case builtin => exact fun id hid => .inl (h.builtin id hid)
  case below =>
    rintro b b' (hb | ⟨rfl, rfl⟩)
    · obtain ⟨hlt, hlt'⟩ := h.below hb
      rw [hsize, hsize]
      omega
    · rw [hsize, hsize]
      exact ⟨Nat.lt_succ_self _, Nat.lt_succ_self _⟩
  case stems =>
    rintro b b' (hb | ⟨rfl, rfl⟩)
    · obtain ⟨hlt, hlt'⟩ := h.below hb
      rw [get_push hlt, get_push hlt', h.stems hb]
    · rw [TypeTable.get_push_self, TypeTable.get_push_self]
  case kinds =>
    rintro b b' (hb | ⟨rfl, rfl⟩) hkind
    · obtain ⟨hlt, hlt'⟩ := h.below hb
      rw [get_push hlt, get_push hlt']
      have hne : b ≠ ⟨t.size⟩ := by
        rintro rfl
        exact hnew b' hb
      exact (h.kinds hb (hkind.resolve_right hne)).mono hle.places
    · rw [TypeTable.get_push_self, TypeTable.get_push_self]
      exact .unknown
  case refs => exact fun r hr => (h.refs r hr).mono fun _ _ h => h.mono hle.places
  case decls =>
    intro x hx
    rw [TypeTable.declType?_push, TypeTable.declType?_push]
    split
    · exact .some (.inr ⟨rfl, rfl⟩)
    · rename_i hne
      exact (h.decls x (hx.resolve_left hne)).mono hle.places
  case refs_size => exact h.refs_size
  case refs_size' => exact h.refs_size'

/-- Both tables give a declared type the next place. -/
theorem inStep_push (c c' : Context) (n : Name) (d : DeclId) :
    InStep a π
      (do
        let s ← get
        let (id, table) := s.table.push ⟨n, .unknown, some d⟩
        set { s with table }
        return c.addType n id)
      (do
        let s ← get
        let (id, table) := s.table.push ⟨n, .unknown, some d⟩
        set { s with table }
        return c'.addType n id)
      fun π₁ e e' => Entered c c' π₁ e e' ∧ π₁.decls d :=
  fun _ _ hs => ⟨_, π.le_withDecl .., hs.push n d, Nat.add_comm ..,
    entered_addType c c' n (.inr ⟨rfl, rfl⟩), .inl rfl⟩

theorem inStep_placeType (d : DeclId)
    (hn : ∀ n ∈ (a.decl d).kind.declared,
      c.current.declared.lookup n = c'.current.declared.lookup n) :
    InStep a π (placeType a c d) (placeType a c' d) fun π₁ e e' =>
      Entered c c' π₁ e e' ∧
        ((typeName? (a.decl d).kind).isSome → π₁.decls d) := by
  cases hk : typeName? (a.decl d).kind with
  | none =>
    simp only [placeType, hk]
    exact inStep_pure ⟨.refl c c', fun h => absurd h Bool.false_ne_true⟩
  | some n =>
    have hmem : n ∈ (a.decl d).kind.declared := by
      cases hkind : (a.decl d).kind <;>
        simp_all [typeName?, Code.DeclKind.declared, Code.DeclKind.name?]
    simp only [placeType, hk]
    refine (inStep_declare _ (hn n hmem)).bind fun e e' π₁ hle₁ he => ?_
    exact (inStep_push e e' n d).weaken fun π₂ f f' hle₂ h => ⟨he.trans hle₂ h.1, fun _ => h.2⟩

/-- The pairing that also knows that the entries at a place are alike. -/
def Pairing.withKind (π : Pairing) (b : TypeId) : Pairing :=
  { π with kinds := fun x => x = b ∨ π.kinds x }

theorem Pairing.le_withKind (π : Pairing) (b : TypeId) : π.Le (π.withKind b) :=
  { Pairing.Le.refl π with kinds := fun _ => .inr, new := fun _ _ => .inl }

/-- Two tables that are paired stay so when both say what a type admits. -/
theorem Pairing.Holds.setKind {t t' : TypeTable} (h : π.Holds a t t') {b b' : TypeId}
    (hb : π.places b b') {kind kind' : TypeKind} (hkind : kind.Alike π.places kind') :
    (π.withKind b).Holds a (t.setKind b kind) (t'.setKind b' kind') := by
  obtain ⟨hlt, hlt'⟩ := h.below hb
  refine { h with below := fun {x x'} hx => ?_, stems := fun {x x'} hx => ?_,
                  kinds := fun {x x'} hx hxk => ?_, decls := h.decls }
  · rw [size_setKind, size_setKind]
    exact h.below hx
  · rw [TypeTable.decl_get_setKind, TypeTable.decl_get_setKind]
    exact h.stems hx
  · rw [TypeTable.get_setKind kind hlt, TypeTable.get_setKind kind' hlt']
    by_cases heq : x = b
    · subst heq
      rw [if_pos rfl, if_pos (h.unique.2 hx hb)]
      exact hkind
    · have hne : x' ≠ b' := by
        rintro rfl
        exact heq (h.unique.1 hx hb)
      rw [if_neg heq, if_neg hne]
      exact h.kinds hx (hxk.resolve_left heq)

/-- Both tables say what a type admits. -/
theorem inStep_setKind {b b' : TypeId} (hb : π.places b b') {kind kind' : TypeKind}
    (hkind : kind.Alike π.places kind') {post : Pairing → Context → Context → Prop}
    (hpost : ∀ π₁, π.Le π₁ → post π₁ c c') :
    InStep a π (do record fun t => t.setKind b kind; return c)
      (do record fun t => t.setKind b' kind'; return c') post :=
  fun _ _ hs => ⟨π.withKind b, π.le_withKind b, hs.setKind hb hkind, Nat.add_comm ..,
    hpost _ (π.le_withKind b)⟩

theorem instanceInfo_alike {R : TypeId → TypeId → Prop} {id id' : TypeId} (hid : R id id')
    {types types' : List FieldType} (h : List.Forall₂ (FieldType.Alike R) types types') :
    (instanceInfo id types).Alike R (instanceInfo id' types') := by
  cases h with
  | nil => exact ⟨rfl, .some (.named hid)⟩
  | cons hf hfs =>
    refine ⟨rfl, .some (Ty.alike_function.2 ⟨?_, .named hid⟩)⟩
    exact List.forall₂_map_left_iff.2 (List.forall₂_map_right_iff.2
      ((List.Forall₂.cons hf hfs).imp fun _ _ h => h.2))

theorem defineType_of_declType? {d : DeclId} {s : Findings} (hd : s.table.declType? d = none)
    (c : Context) : defineType a c d s = (c, s) := by
  have htable : (table : Check TypeTable) s = (s.table, s) := rfl
  simp only [defineType, bind, StateT.bind, htable, hd]
  rfl

/-- There is nothing to define but types. -/
theorem defineType_of_typeName? {d : DeclId} (hd : typeName? (a.decl d).kind = none)
    (c : Context) : defineType a c d = pure c := by
  funext s
  cases hs : s.table.declType? d with
  | none => exact defineType_of_declType? hs c
  | some id =>
    have htable : (table : Check TypeTable) s = (s.table, s) := rfl
    simp only [defineType, bind, StateT.bind, htable, hs]
    cases hk : (a.decl d).kind <;> simp_all [typeName?]

theorem inStep_defineType (d : DeclId)
    (htypes : ∀ n, Option.Rel π.places (c.type? n) (c'.type? n)) (hd : π.decls d) :
    InStep a π (defineType a c d) (defineType a c' d)
      (Entered c c') := by
  unfold defineType
  refine inStep_table_bind fun t t' ht => ?_
  have hplace := ht.decls d hd
  generalize t.declType? d = place, t'.declType? d = place' at hplace
  cases hplace with
  | none => exact inStep_pure (.refl c c')
  | @some b b' hb =>
    dsimp only
    have hvalue : ∀ {n : Name} {types types' : List FieldType} {π₁ : Pairing},
        π₁.places b b' →
        List.Forall₂ (FieldType.Alike π₁.places) types types' →
        ∀ π₂, π₁.Le π₂ → Entered c c' π₂
          (c.addValue n (instanceInfo b types)) (c'.addValue n (instanceInfo b' types')) :=
      fun hb hfields π₂ hle =>
        (entered_addValue c c' _ (instanceInfo_alike hb hfields)).mono hle
    cases hk : (a.decl d).kind with
    | object n fields =>
      refine (inStep_fieldTypes htypes [] fields).bind fun types types' π₁ hle₁ hfields => ?_
      have hb₁ := hle₁.places _ _ hb
      exact inStep_setKind hb₁ (.object hfields) (hvalue hb₁ hfields)
    | signal n fields result =>
      refine (inStep_fieldTypes htypes [] fields).bind fun types types' π₁ hle₁ hfields => ?_
      have hresult : ∀ ty ty' π₂, π₁.Le π₂ → ty.Alike π₂.places ty' → InStep a π₂
          (do record fun t => t.setKind b (.signal types ty)
              return c.addValue n (instanceInfo b types))
          (do record fun t => t.setKind b' (.signal types' ty')
              return c'.addValue n (instanceInfo b' types'))
          (Entered c c') := by
        intro ty ty' π₂ hle₂ hty
        have hb₂ := hle₂.places _ _ (hle₁.places _ _ hb)
        have hfields₂ := hfields.imp fun _ _ h => And.imp_right (·.mono hle₂.places) h
        exact inStep_setKind hb₂ (.signal hfields₂ hty) (hvalue hb₂ hfields₂)
      cases result with
      | some r =>
        exact (inStep_typeRef (fun n => (htypes n).mono hle₁.places) r).bind
          fun ty ty' π₂ hle₂ hty => hresult ty ty' π₂ hle₂ hty.1
      | none =>
        intro s s' hs
        exact hresult .action .action π₁ (.refl π₁) (.named (hs.builtin _ (by decide))) s s' hs
    | option n members =>
      refine (inStep_mapM (Q := fun π₁ => Ty.Alike π₁.places) (P := fun _ _ => True) members
        (fun hle h => h.mono hle.places) (fun _ h => h) fun r _ π₁ hle =>
          (inStep_typeRef (fun n => (htypes n).mono hle.places) r).weaken
            fun _ _ _ _ h => ⟨h.1, trivial⟩).bind fun types types' π₁ hle₁ ⟨hmembers, _⟩ => ?_
      exact inStep_setKind (hle₁.places _ _ hb) (.option hmembers) fun π₂ hle₂ => .refl c c'
    | _ => exact inStep_pure (.refl c c')

theorem inStep_functionDecl (d : DeclId)
    (hn : ∀ n ∈ (a.decl d).kind.declared,
      c.current.declared.lookup n = c'.current.declared.lookup n)
    (htypes : ∀ n, Option.Rel π.places (c.type? n) (c'.type? n)) :
    InStep a π (functionDecl a c d) (functionDecl a c' d) fun π₁ e e' =>
      Entered c c' π₁ e e' ∧ π₁.Signed a d := by
  unfold functionDecl
  dsimp only
  cases hk : (a.decl d).kind with
  | function n params result body =>
    rw [hk] at hn
    refine (inStep_declare _ (hn n (List.mem_singleton_self n))).bind fun e e' π₁ hle₁ he => ?_
    have htypes₁ : ∀ n, Option.Rel π₁.places (e.type? n) (e'.type? n) := by
      intro n
      obtain ⟨u, u', rfl, rfl, hu⟩ := he
      rw [Context.type?_enter, Context.type?_enter]
      exact (rel_lookup hu.types n).or ((htypes n).mono hle₁.places)
    refine (inStep_params htypes₁ params).bind fun us us' π₂ hle₂ ⟨hus, hrefs⟩ => ?_
    refine (inStep_typeRef? (fun n => (htypes₁ n).mono hle₂.places) result).bind
      fun ty ty' π₃ hle₃ hty => ?_
    intro s s' hs
    have htype : (Ty.function us ty).Alike π₃.places (.function us' ty') :=
      Ty.alike_function.2 ⟨hus.imp fun _ _ h => h.mono hle₃.places, hty.1⟩
    refine ⟨π₃, .refl π₃, { hs with kinds := hs.kinds }, Nat.add_comm .., ?_, ?_⟩
    · have hinfo : ValueInfo.Alike π₃.places ⟨.function, some (.function us ty)⟩
          ⟨.function, some (.function us' ty')⟩ := ⟨rfl, .some htype⟩
      exact he.trans (hle₂.trans hle₃) (entered_addValue e e' _ hinfo)
    · intro x params' result' body' hk' q hq r hr
      rw [hk] at hk'
      cases hk'
      exact hle₃.refs r (hrefs q hq r hr)
  | _ =>
    refine inStep_pure ⟨.refl c c', fun x params result body hk' => ?_⟩
    rw [hk] at hk'
    cases hk'

/-- Two resolutions hoist the same declarations in step.  Behind that, the types of all parameters
are known. -/
theorem inStep_hoist {imports : Imports} (himports : imports.FromLibrary) (interner : Interner)
    (ds : List DeclId) (hc : c.Alike π.places c') :
    InStep a π (hoist a imports interner c ds) (hoist a imports interner c' ds) fun π₁ e e' =>
      e.Alike π₁.places e' ∧ ∀ d ∈ ds, π₁.Signed a d := by
  have hstep : ∀ {π₁ π₂ : Pairing} {c c' e e' : Context}, π₁.Le π₂ →
      c.Alike π₁.places c' → Entered c c' π₂ e e' → e.Alike π₂.places e' :=
    fun hle hc he => he.alike (hc.mono hle.places)
  unfold hoist
  refine (inStep_foldlM (C := fun π₁ c c' => c.Alike π₁.places c') (P := fun _ _ => True) ds
    (fun _ h => h) (fun d _ c c' π₁ _ hc =>
      (inStep_importDecl himports interner d fun n _ => hc.declared n).weaken
        fun _ _ _ hle he => ⟨hstep hle hc he, trivial⟩) hc).bind fun c₁ c₁' π₁ hle₁ ⟨hc₁, _⟩ => ?_
  refine (inStep_foldlM (C := fun π₁ c c' => c.Alike π₁.places c')
    (P := fun π₁ d => (typeName? (a.decl d).kind).isSome → π₁.decls d) ds
    (fun hle h hd => hle.decls _ (h hd)) (fun d _ c c' π₁ _ hc =>
      (inStep_placeType d fun n _ => hc.declared n).weaken
        fun _ _ _ hle he => ⟨hstep hle hc he.1, he.2⟩) hc₁).bind
          fun c₂ c₂' π₂ hle₂ ⟨hc₂, hplaced⟩ => ?_
  refine (inStep_foldlM (C := fun π₁ c c' => c.Alike π₁.places c') (P := fun _ _ => True) ds
    (fun _ h => h) (fun d hd c c' π₁ hle hc => ?_) hc₂).bind fun c₃ c₃' π₃ hle₃ ⟨hc₃, _⟩ => ?_
  · cases hn : typeName? (a.decl d).kind with
    | none =>
      rw [defineType_of_typeName? hn, defineType_of_typeName? hn]
      exact inStep_pure ⟨hc, trivial⟩
    | some n =>
      have hdecl := hle.decls d (hplaced d hd (hn ▸ rfl))
      exact (inStep_defineType d hc.types hdecl).weaken
        fun _ _ _ hle he => ⟨hstep hle hc he, trivial⟩
  · exact inStep_foldlM (C := fun π₁ c c' => c.Alike π₁.places c')
      (P := fun π₁ d => π₁.Signed a d) ds (fun hle h => h.mono hle) (fun d _ c c' π₁ _ hc =>
        (inStep_functionDecl d (fun n _ => hc.declared n) hc.types).weaken
          fun _ _ _ hle he => ⟨hstep hle hc he.1, he.2⟩) hc₃

end

end Resolve

end SignalLang
