import SignalLang.Proofs.ScopedSteps

/-!
# Evaluation in scopes that show their contexts

The evaluation of an accepted expression arrives: in a scope that shows the context in which the
expression was accepted, it ends with the store grown and every problem with a name explained.  The
constructs are taken one by one, given that their parts arrive.

* `Eval.arrives_bindAllHoisted` : hoisted declarations are bound in a new scope.
* `Eval.arrives_stmts` : the statements of a block bind their names one after the other.
* `Eval.arrives_expr` : **the evaluation of every accepted expression arrives.**
-/

namespace SignalLang

variable {p : Program} {g : Scoping p}

/-- The names that the members of a scope bind can still be bound in the current scope. -/
structure Machine.Open (arena : Arena) (is : List Resolve.Item) (s : Machine) : Prop where
  free : s.Free (Resolve.letNames arena is)
  nodup : (Resolve.letNames arena is).Nodup

namespace Machine.Open

variable {arena : Arena} {s t : Machine} {i : Resolve.Item} {is : List Resolve.Item}

theorem head (h : s.Open arena (i :: is)) : s.Free (Resolve.letNames arena [i]) := by
  have hfree := h.free
  rw [Resolve.letNames_cons] at hfree
  exact hfree.left

/-- Behind the first member. -/
theorem tail (h : s.Open arena (i :: is)) (henv : t.env = s.env)
    (hb : s.store.Binds s.env.current (Resolve.letNames arena [i]) t.store) : t.Open arena is := by
  obtain ⟨hfree, hnodup⟩ := h
  rw [Resolve.letNames_cons] at hfree hnodup
  exact ⟨hfree.right hnodup henv hb, (List.nodup_append.1 hnodup).2.1⟩

end Machine.Open

namespace Eval

open Machine

variable {ev : Evaluator} {s t : Machine} {c c' : Resolve.Context} {good : Store → α → Prop}

/-! ### Hoisted declarations -/

/-- A closure over the current scope. -/
theorem arrives_closure (hs : s.Scoped g) {name : Option Name} {params : List Code.Param}
    {result : Option TypeRefId} {body : ExprId}
    (hfits : ∀ identity, g.Fits s.store ⟨identity, name, params, result, body, s.env.current⟩) :
    s.Arrives g g.Holds (closure name params result body s) := by
  have hb : s.Behind g
      { s with store := (s.store.addClosure name params result body s.env.current).2 } :=
    behind_of_cells hs rfl
  exact ⟨hb, Value.only_closure.2 ((hfits _).grows hb.grows)⟩

theorem arrives_typeValue (hs : s.Scoped g) (d : DeclId) (fieldless isSignal : Bool) :
    s.Arrives g g.Holds (typeValue p d fieldless isSignal s) := by
  unfold typeValue
  cases p.types.declType? d with
  | none => exact arrives_faultAt hs (e := .other _) trivial _
  | some type =>
    dsimp only
    split
    · exact arrives_pure hs (Value.only_constructor type)
    · split
      · exact arrives_pure hs (Value.only_signal (by simp))
      · exact arrives_pure hs (Value.only_object (by simp))

/-- What is accepted as a function can be captured where the scope shows the context. -/
theorem fits_of_accepts {scope : ScopeId} {params : List Code.Param} {body : ExprId}
    (h : Resolve.AcceptsFunction g.Accepts c params body) (hc : g.Shows s.store scope [] c)
    (hparams : ∀ q ∈ params, g.constant q.name) (identity : Identity) (name : Option Name)
    (result : Option TypeRefId) :
    g.Fits s.store ⟨identity, name, params, result, body, scope⟩ := by
  obtain ⟨ctx, hctx, hbody⟩ := h
  refine ⟨hctx.nodup_of_empty rfl, hparams, ctx, hbody, fun n v hn => ?_⟩
  rcases hctx.mentions.1 hn with hn | hn
  · obtain ⟨q, hq, hqn⟩ := List.mem_map.1 hn
    cases hqn
    exact ⟨.inl (List.mem_map_of_mem hq), nofun⟩
  · have h := hc n v (Resolve.Context.mentions_nested.1 (Resolve.Context.mentions_calling.1 hn))
    exact ⟨h.1.imp_left (by simp), h.2⟩

/-- All that the functions among some declarations need is shown by the current scope. -/
def ShowsFunctions (g : Scoping p) (s : Machine) (ds : List DeclId) : Prop :=
  ∀ d ∈ ds, ∀ n params result body, (p.arena.decl d).kind = .function n params result body →
    ∃ c, Resolve.AcceptsFunction g.Accepts c params body ∧ g.Shows s.store s.env.current [] c

/-- An imported function is there, or anything may be missing. -/
theorem arrives_imported (hs : s.Scoped g) {path : String} {item : Code.ImportItem}
    (h : g.exported path item.name) : s.Arrives g g.Holds (imported p path item s) := by
  unfold imported
  cases hf : Native.find? path (p.interner.text item.name) with
  | some f => exact arrives_pure hs (Value.only_native f)
  | none =>
    have hany : g.anyMissing := by simpa [hf] using g.find?_of_exported path item.name h
    exact arrives_faultAt hs (e := .unboundName _) (.inl (.inr hany)) _

/-- The steps of hoisted declarations give values, where the scope shows what functions need. -/
theorem gives_hoistSteps {ds : List DeclId}
    (himports : ∀ d ∈ ds, (p.arena.decl d).kind.hoisted →
      Resolve.ImportsFrom g.exported (p.arena.decl d).kind)
    (hfunctions : ShowsFunctions g s ds) {x : Name × Eval Value} (hx : x ∈ allHoistSteps p ds) :
    Gives g s x := by
  obtain ⟨d, hd, hx⟩ := List.mem_flatMap.1 hx
  obtain ⟨hd, hhoisted⟩ := List.mem_filter.1 hd
  have hconst : g.constant x.1 := by
    refine g.constant_of_binds _ (.hoisted hhoisted ?_)
    rw [← map_fst_hoistSteps hhoisted]
    exact List.mem_map_of_mem hx
  unfold hoistSteps at hx
  cases hk : (p.arena.decl d).kind with
  | option n members => simp [hk] at hx
  | binding n isVariable type value => simp [hk] at hx
  | imports path items =>
    rw [hk] at hx
    obtain ⟨item, hitem, rfl⟩ := List.mem_map.1 hx
    have hexported := himports d hd hhoisted path items hk item hitem
    exact ⟨hconst, (quiet_imported _ _).spares, fun t ht => arrives_imported ht.fits hexported⟩
  | function n params result body =>
    rw [hk] at hx
    obtain rfl := List.mem_singleton.1 hx
    obtain ⟨c, hc, hshows⟩ := hfunctions d hd n params result body hk
    refine ⟨hconst, (quiet_closure _ _ _ _).spares, fun t ht => ?_⟩
    refine arrives_closure ht.fits fun identity => fits_of_accepts hc ?_
      (fun q hq => g.constant_of_binds _ (.declParam hk hq)) identity _ _
    rw [ht.env]
    exact hshows.grows ht.grows
  | object n fields =>
    rw [hk] at hx
    obtain rfl := List.mem_singleton.1 hx
    exact ⟨hconst, (quiet_typeValue _ _ _).spares, fun t ht => arrives_typeValue ht.fits d _ _⟩
  | signal n fields result =>
    rw [hk] at hx
    obtain rfl := List.mem_singleton.1 hx
    exact ⟨hconst, (quiet_typeValue _ _ _).spares, fun t ht => arrives_typeValue ht.fits d _ _⟩

/-- The same where other names are going to be bound. -/
theorem scoped_promising {q q' : ScopeId → Name → Prop} (h : s.Scoped (g.promising q))
    (hq : ∀ c n, q c n → q' c n ∨ (s.store.binding? c n).isSome ∨ g.missing n) :
    s.Scoped (g.promising q') :=
  ⟨h.current, h.store.promising hq, fun x hx => (h.questions x hx).promising hq,
    fun f hf => (h.handlers f hf).promising hq⟩

/-- Hoisting succeeds where all imported functions exist and all declared types are known. -/
theorem exists_bindAllHoisted {ds : List DeclId}
    (himports : ∀ d ∈ ds, (p.arena.decl d).kind.hoisted → Resolve.ImportsFrom
      (fun path n => (Native.find? path (p.interner.text n)).isSome) (p.arena.decl d).kind)
    (htypes : ∀ d ∈ ds, (p.arena.decl d).kind.hoisted →
      (Resolve.typeName? (p.arena.decl d).kind).isSome → p.types.Declares d) (s : Machine) :
    ∃ t, bindAllHoisted p ds s = (.value (), t) := by
  rw [bindAllHoisted_eq]
  refine exists_defineEach (fun x hx s => ?_) s
  obtain ⟨d, hd, hx⟩ := List.mem_flatMap.1 hx
  obtain ⟨hd, hhoisted⟩ := List.mem_filter.1 hd
  have htype : ∀ fieldless isSignal, (Resolve.typeName? (p.arena.decl d).kind).isSome →
      ∃ v t, typeValue p d fieldless isSignal s = (.value v, t) := by
    intro fieldless isSignal h
    obtain ⟨type, htype⟩ := Option.isSome_iff_exists.1 (htypes d hd hhoisted h)
    simp only [typeValue, htype]
    split
    · exact ⟨_, _, rfl⟩
    · split <;> exact ⟨_, _, rfl⟩
  unfold hoistSteps at hx
  cases hk : (p.arena.decl d).kind with
  | option n members => simp [hk] at hx
  | binding n isVariable type value => simp [hk] at hx
  | imports path items =>
    rw [hk] at hx
    obtain ⟨item, hitem, rfl⟩ := List.mem_map.1 hx
    obtain ⟨f, hf⟩ := Option.isSome_iff_exists.1 (himports d hd hhoisted path items hk item hitem)
    exact ⟨_, _, by simp only [imported, hf]; rfl⟩
  | function n params result body =>
    rw [hk] at hx
    obtain rfl := List.mem_singleton.1 hx
    exact ⟨_, _, rfl⟩
  | object n fields =>
    rw [hk] at hx
    obtain rfl := List.mem_singleton.1 hx
    exact htype _ _ (by rw [hk]; rfl)
  | signal n fields result =>
    rw [hk] at hx
    obtain rfl := List.mem_singleton.1 hx
    exact htype _ _ (by rw [hk]; rfl)

/-- Where anything may be missing, there is nothing to explain in other names that are promised. -/
theorem suits_promising {q q' : ScopeId → Name → Prop} (hany : g.anyMissing) {st : Store}
    {r : Outcome α} (h : r.Suits (g.promising q) st good) : r.Suits (g.promising q') st good := by
  have hq : ∀ c n, q c n → q' c n ∨ (st.binding? c n).isSome ∨ g.missing n :=
    fun _ n _ => .inr (.inr (g.missing_of_anyMissing hany n))
  cases r with
  | value a => exact h
  | outOfFuel => trivial
  | interrupt i =>
    cases i with
    | breakTo target v => exact Scoping.Holds.promising hq h
    | returnTo target v => exact Scoping.Holds.promising hq h
    | fault e =>
      simp only [Outcome.Suits] at h ⊢
      cases hp : e.problem with
      | unboundName text => exact .inl (.inr hany)
      | immutableBinding text =>
        rw [hp] at h
        exact h
      | _ => trivial

/-- Hoisted declarations can be bound in a new scope, with functions that see all of them. -/
theorem prepared_hoistSteps {ds : List DeclId} (hs : s.Scoped g)
    (himports : ∀ d ∈ ds, (p.arena.decl d).kind.hoisted →
      Resolve.ImportsFrom g.exported (p.arena.decl d).kind)
    (hfunctions : ShowsFunctions (g.awaiting s.env.current (Resolve.hoistedNames p.arena ds)) s ds)
    (hfree : s.Free (Resolve.hoistedNames p.arena ds))
    (hnodup : (Resolve.hoistedNames p.arena ds).Nodup) :
    Prepared (g.awaiting s.env.current (Resolve.hoistedNames p.arena ds)) s
      (allHoistSteps p ds) := by
  rw [← map_fst_allHoistSteps] at hfree hnodup
  exact ⟨scoped_promising (q := g.promised) hs fun _ _ h => .inl (.inl h), hfree, hnodup,
    fun x hx => gives_hoistSteps (g := g.awaiting _ _) himports hfunctions hx⟩

/-- Hoisted declarations are bound. -/
theorem arrives_bindAllHoisted {ds : List DeclId}
    (himports : ∀ d ∈ ds, (p.arena.decl d).kind.hoisted →
      Resolve.ImportsFrom g.exported (p.arena.decl d).kind)
    (htypes : ∀ d ∈ ds, (p.arena.decl d).kind.hoisted →
      (Resolve.typeName? (p.arena.decl d).kind).isSome → p.types.Declares d)
    (hprepared : Prepared (g.awaiting s.env.current (Resolve.hoistedNames p.arena ds)) s
      (allHoistSteps p ds)) :
    s.Arrives g (fun st _ => s.store.Binds s.env.current (Resolve.hoistedNames p.arena ds) st)
      (bindAllHoisted p ds s) := by
  have harrives := hprepared.arrives
  rw [← bindAllHoisted_eq, map_fst_allHoistSteps] at harrives
  obtain ⟨⟨henv, hgrows, hfits⟩, ho⟩ := harrives
  by_cases hany : g.anyMissing
  · have hkept := fun n => g.missing_of_anyMissing hany n
    exact ⟨⟨henv, hgrows, scoped_promising hfits fun _ n _ => .inr (.inr (hkept n))⟩,
      suits_promising (g := g) hany ho⟩
  · have hfound : ∀ path n, g.exported path n → (Native.find? path (p.interner.text n)).isSome :=
      fun path n h => (g.find?_of_exported path n h).resolve_right hany
    obtain ⟨t, ht⟩ := exists_bindAllHoisted (fun d hd hh path items hk item hitem =>
      hfound path _ (himports d hd hh path items hk item hitem)) htypes s
    rw [ht] at henv hgrows hfits ho ⊢
    refine ⟨⟨henv, hgrows, scoped_promising hfits fun c n hn => ?_⟩, ho⟩
    rcases hn with hn | ⟨rfl, hn⟩
    · exact .inl hn
    · exact .inr (.inl (ho.bound n hn))

/-! ### Statements -/

theorem arrives_checkDeclared (hs : s.Scoped g) (typeRef : Option TypeRefId) (v : Value)
    (span : Span) : s.Arrives g (fun _ _ => True) (checkDeclared p typeRef v span s) := by
  unfold checkDeclared
  cases typeRef.bind p.types.resolved? with
  | none => exact arrives_pure hs trivial
  | some expected =>
    dsimp only
    split
    · exact arrives_pure hs trivial
    · exact arrives_faultAt hs (e := .typeMismatch _ _) trivial _

/-- Behind a member of a scope, the context has the name that it binds. -/
theorem shows_item {order : Resolve.BodyOrder} {i : Resolve.Item} (hs : s.Ready g c)
    (h : Resolve.AcceptsItem p.arena g.Accepts order c i c') {st : Store}
    (hgrows : s.store.Grows st)
    (hbinds : s.store.Binds s.env.current (Resolve.letNames p.arena [i]) st) :
    g.Shows st s.env.current [] c' := by
  refine (hs.shows.grows hgrows).adds h.adds fun n v hn => ?_
  have hbound := hbinds.bound n (List.mem_map_of_mem (f := Prod.fst) hn)
  have hlt : s.env.current.index < st.cells.size := Nat.lt_of_lt_of_le hs.fits.current hgrows.size
  refine ⟨.inr (.inr ⟨_, .here hlt, .inl hbound⟩), ?_⟩
  rintro rfl
  obtain ⟨i', hi', hn⟩ := List.mem_filterMap.1 hn
  obtain ⟨d, type, value, -, hk⟩ := Resolve.letBinding?_eq_some hn
  exact g.changeable_of_binds n ⟨d, type, value, hk⟩

theorem acceptsStmt_of_ofStmt {order : Resolve.BodyOrder} {st : Code.Stmt}
    (h : Resolve.AcceptsItem p.arena g.Accepts order c (.ofStmt st) c') :
    Resolve.AcceptsStmt g.Accepts c st.kind := by
  unfold Resolve.Item.ofStmt at h
  split at h
  · rename_i hk
    exact hk ▸ .decl
  · cases h with
    | stmt h => exact h

/-- The expression that a statement evaluates is accepted in the context in front of it. -/
theorem accepts_operand {order : Resolve.BodyOrder} {st : Code.Stmt}
    (h : Resolve.AcceptsItem p.arena g.Accepts order c (.ofStmt st) c') {e : ExprId}
    (he : st.operand? p.arena = some e) : g.Accepts c e := by
  have haccepts := acceptsStmt_of_ofStmt h
  simp only [Code.Stmt.operand?] at he
  cases hk : st.kind with
  | effect pattern body => simp [hk] at he
  | expr e' =>
    simp only [hk, Option.some.injEq] at he haccepts
    cases haccepts with
    | expr h => exact he ▸ h
  | set target value =>
    simp only [hk, Option.some.injEq] at he haccepts
    cases haccepts with
    | set h _ => exact he ▸ h
  | decl d =>
    simp only [hk] at he
    split at he
    · rename_i hd
      cases he
      rw [Resolve.Item.ofStmt, hk] at h
      exact h.value hd
    · cases he

/-- Behind a member of a scope, the machine is ready for the next one. -/
theorem ready_item {order : Resolve.BodyOrder} {i : Resolve.Item} (hs : s.Ready g c)
    (h : Resolve.AcceptsItem p.arena g.Accepts order c i c') (ht : s.Behind g t)
    (hbinds : s.store.Binds s.env.current (Resolve.letNames p.arena [i]) t.store) :
    t.Ready g c' :=
  ⟨ht.fits, ht.env ▸ shows_item hs h ht.grows hbinds⟩

theorem letNames_ofStmt {st : Code.Stmt} (h : ∀ d, st.kind ≠ .decl d) :
    Resolve.letNames p.arena [.ofStmt st] = [] := by
  have hitem : Resolve.Item.ofStmt st = .stmt st := by
    unfold Resolve.Item.ofStmt
    split
    · rename_i d hk
      exact absurd hk (h d)
    · rfl
  rw [hitem]
  rfl

/-- The scopes know the name that is set, unless it may be missing, and bind it as a variable unless
it is also the name of a constant. -/
theorem arrives_set (hs : s.Ready g c) {target : Name} (ht : c.IsVariable target) {v : Value}
    (hv : g.Holds s.store v) (span : Span) :
    s.Arrives g (fun _ _ => True) (set p target v span s) := by
  obtain ⟨hsees, hchangeable⟩ := hs.shows target true ht.mentions
  simp only [set]
  cases howner : s.store.owner s.env.current target with
  | ok found =>
    have hgrows := (Store.keeps_assign howner v (k := s.store.cells.size)).grows
    exact ⟨hs.fits.withStore hgrows (hs.fits.store.define hgrows hv (by simp)), trivial⟩
  | error e =>
    refine ⟨hs.fits.behind, ?_⟩
    unfold Store.owner at howner
    cases hnearest : s.store.nearest? s.env.current target with
    | none =>
      rw [hnearest] at howner
      cases howner
      exact .inl (.inl ⟨target, rfl,
        (hsees.resolve_left (by simp)).missing_or_promised hnearest⟩)
    | some found =>
      simp only [hnearest] at howner
      obtain ⟨b, hb⟩ := Option.isSome_iff_exists.1 (Store.isSome_of_nearest? hnearest)
      simp only [hb] at howner
      split at howner
      · cases howner
      · rename_i hconst
        cases howner
        exact .inl ⟨target, rfl, (hs.fits.store found target b hb).2 (by simpa using hconst),
          hchangeable rfl⟩

/-- The handler of an `effect for` statement. -/
theorem fitsHandler_of_accepts {pattern : Code.Pattern} {body : ExprId} (hs : s.Ready g c)
    (h : Resolve.AcceptsUnder g.Accepts c pattern body)
    (hcapture : ∀ n ∈ pattern.binding.toList, g.constant n) :
    g.FitsHandler s.store (s.handlerFrame pattern body) := by
  obtain ⟨ctx, hctx, hbody⟩ := h
  refine ⟨hcapture, ctx, hbody, fun n v hn => ?_⟩
  rcases hctx.mentions.1 hn with hn | hn
  · obtain ⟨m, hm, hmn⟩ := List.mem_map.1 hn
    cases hmn
    exact ⟨.inl hm, nofun⟩
  · have h := hs.shows n v (Resolve.Context.mentions_nested.1 hn)
    exact ⟨h.1.imp_left (by simp), h.2⟩

theorem ready_install {f : HandlerFrame} (hs : s.Ready g c) (hf : g.FitsHandler s.store f) :
    (s.install f).Ready g c :=
  ⟨⟨hs.fits.current, hs.fits.store, hs.fits.questions,
    List.forall_mem_cons.2 ⟨hf, hs.fits.handlers⟩⟩, hs.shows⟩

/-- The handler of an `effect for` statement is installed around the statements behind it. -/
theorem ready_effect {order : Resolve.BodyOrder} {st : Code.Stmt} {rest : List Resolve.Item}
    (hs : s.Ready g c) (h : Resolve.AcceptsItem p.arena g.Accepts order c (.ofStmt st) c')
    {pattern : Code.Pattern} {body : ExprId} (hk : st.kind = .effect pattern body)
    (hcapture : ∀ n ∈ pattern.binding.toList, g.constant n)
    (hopen : s.Open p.arena (.ofStmt st :: rest)) :
    (s.install (s.handlerFrame pattern body)).Ready g c' ∧
      (s.install (s.handlerFrame pattern body)).Open p.arena rest := by
  have hnone : Resolve.letNames p.arena [.ofStmt st] = [] := letNames_ofStmt (by simp [hk])
  have hbinds : s.store.Binds s.env.current (Resolve.letNames p.arena [.ofStmt st]) s.store :=
    hnone ▸ .refl _ _
  have haccepts := acceptsStmt_of_ofStmt h
  rw [hk] at haccepts
  cases haccepts with
  | effect hunder =>
    have hf := fitsHandler_of_accepts hs hunder hcapture
    exact ⟨ready_install (ready_item hs h hs.behind hbinds) hf, hopen.tail rfl hbinds⟩

section

variable (hev : Arriving g ev) (hspares : ∀ id, Spares (ev id))

include hev hspares

/-- A `let` binds its name behind the evaluation of its value. -/
theorem arrives_bindLet {order : Resolve.BodyOrder} {d : DeclId} (hs : s.Ready g c)
    (h : Resolve.AcceptsItem p.arena g.Accepts order c (.decl d) c')
    (hfree : s.Free (Resolve.letNames p.arena [.decl d])) :
    s.Arrives g (fun st _ => s.store.Binds s.env.current (Resolve.letNames p.arena [.decl d]) st)
      (bindLet p ev d s) := by
  have hother : (∀ n v type value, (p.arena.decl d).kind ≠ .binding n v type value) →
      s.Arrives g (fun st _ => s.store.Binds s.env.current (Resolve.letNames p.arena [.decl d]) st)
        (bindLet p ev d s) := by
    intro hne
    have hnone := Resolve.letBinding?_eq_none hne
    rw [bindLet_of_ne hne, show Resolve.letNames p.arena [.decl d] = [] by
      simp [Resolve.letNames, Resolve.letEntries, hnone]]
    exact arrives_pure hs.fits (.refl _ _)
  cases h with
  | function hd _ => exact hother (by simp [hd])
  | other hd => exact hother fun _ _ _ _ hk => by simp [hk] at hd
  | @binding _ n isVariable type value _ hd hv _ =>
    have hnames : Resolve.letNames p.arena [.decl d] = [n] := by
      simp [Resolve.letNames, Resolve.letEntries, Resolve.Item.letBinding?, hd]
    rw [hnames] at hfree ⊢
    have hkeeps := hspares value s
    simp only [bindLet, hd]
    refine (hev c value s hv hs).bind fun v t hvt ht hv => ?_
    rw [hvt] at hkeeps
    -- the evaluation of the value has bound nothing in this scope
    have hnone : t.store.binding? s.env.current n = none :=
      (hkeeps.binds hs.fits.current).other n (by simp) (hfree n (by simp))
    refine (arrives_checkDeclared ht.fits _ _ _).bind fun _ u hu _ _ => ?_
    obtain rfl : t = u := by
      have h := checkDeclared_snd (p := p) type v (p.arena.decl d).span t
      rw [hu] at h
      exact h.symm
    have hconst : isVariable = false → g.constant n :=
      fun h => g.constant_of_binds n (.value (h ▸ hd))
    have hdefine := arrives_define ht.fits (by rw [ht.env]; exact hnone) hv hconst
    refine hdefine.weaken fun st _ hgrows hbinds => ?_
    rw [ht.env] at hbinds
    exact ⟨hbinds.bound, fun m hm hnone => hbinds.other m hm
      ((hkeeps.binds hs.fits.current).other m (by simp) hnone)⟩

/-- A statement leaves a value, and binds a name if it is a `let`. -/
theorem arrives_stmt {order : Resolve.BodyOrder} {st : Code.Stmt} (hs : s.Ready g c)
    (h : Resolve.AcceptsItem p.arena g.Accepts order c (.ofStmt st) c')
    (hst : ∀ pattern body, st.kind ≠ .effect pattern body)
    (hfree : s.Free (Resolve.letNames p.arena [.ofStmt st])) (last : Value) :
    s.Arrives g (fun store v => g.Holds store v ∧
        s.store.Binds s.env.current (Resolve.letNames p.arena [.ofStmt st]) store)
      (stmts p ev last [st] s) := by
  have haccepts := acceptsStmt_of_ofStmt h
  have hbinds : ∀ id, s.store.Binds s.env.current [] (ev id s).2.store :=
    fun id => (hspares id s).binds hs.fits.current
  cases hk : st.kind with
  | expr e =>
    rw [letNames_ofStmt (by simp [hk])]
    rw [hk] at haccepts
    cases haccepts with
    | expr he =>
      simp only [stmts, hk]
      refine (hev c e s he hs).bind fun v t hvt ht hv => arrives_pure ht.fits ⟨hv, ?_⟩
      have h := hbinds e
      rwa [hvt] at h
  | decl d =>
    have hitem : Resolve.Item.ofStmt st = .decl d := by simp [Resolve.Item.ofStmt, hk]
    rw [hitem] at h hfree ⊢
    simp only [stmts, hk]
    exact (arrives_bindLet hev hspares hs h hfree).bind fun _ t _ ht hb =>
      arrives_pure ht.fits ⟨Value.only_action, hb⟩
  | effect pattern body => exact absurd hk (hst _ _)
  | set target value =>
    rw [letNames_ofStmt (by simp [hk])]
    rw [hk] at haccepts
    cases haccepts with
    | set hvalue htarget =>
      simp only [stmts, hk]
      refine (hev c value s hvalue hs).bind fun v t hvt ht hv => ?_
      have h := hbinds value
      rw [hvt] at h
      refine (arrives_set (ht.ready hs) htarget hv st.span).bind fun _ u hu hbu _ => ?_
      have hset := (spares_set (p := p) target v st.span t).binds ht.fits.current
      rw [hu, ht.env] at hset
      exact arrives_pure hbu.fits ⟨Value.only_action, h.trans hset hbu.grows⟩

/-- The statements of a block bind their names one after the other. -/
theorem arrives_stmts {rest : List Code.Stmt} {last : Value} (hs : s.Ready g c)
    (h : Resolve.AcceptsItems p.arena g.Accepts .inPlace c (rest.map .ofStmt) c')
    (hcapture : ∀ st ∈ rest, ∀ pattern body, st.kind = .effect pattern body →
      ∀ n ∈ pattern.binding.toList, g.constant n)
    (hopen : s.Open p.arena (rest.map .ofStmt)) (hlast : g.Holds s.store last) :
    s.Arrives g g.Holds (stmts p ev last rest s) := by
  induction rest generalizing s c last with
  | nil => exact arrives_pure hs.fits hlast
  | cons st rest ih =>
    obtain ⟨hcap, hcapture⟩ := List.forall_mem_cons.1 hcapture
    cases h with
    | cons hi his =>
      by_cases hst : ∃ pattern body, st.kind = .effect pattern body
      · obtain ⟨pattern, body, hk⟩ := hst
        obtain ⟨hready, hopen⟩ := ready_effect hs hi hk (hcap pattern body hk) hopen
        simp only [stmts, hk]
        exact arrives_withHandler (ih hready his hcapture hopen Value.only_action)
      · have hst : ∀ pattern body, st.kind ≠ .effect pattern body := fun _ _ h => hst ⟨_, _, h⟩
        rw [stmts_cons hst]
        refine (arrives_stmt hev hspares hs hi hst hopen.head last).bind fun v t _ ht hv => ?_
        exact ih (ready_item hs hi ht hv.2) his hcapture (hopen.tail ht.env hv.2) hv.1

/-- The `let`s of a module bind their names one after the other. -/
theorem arrives_bindAllLets {order : Resolve.BodyOrder} {ds : List DeclId} (hs : s.Ready g c)
    (h : Resolve.AcceptsItems p.arena g.Accepts order c (ds.map .decl) c')
    (hopen : s.Open p.arena (ds.map .decl)) :
    s.Arrives g (fun st _ => s.store.Binds s.env.current
      (Resolve.letNames p.arena (ds.map .decl)) st) (bindAllLets p ev ds s) := by
  induction ds generalizing s c with
  | nil =>
    cases h
    exact arrives_pure hs.fits (.refl _ _)
  | cons d ds ih =>
    cases h with
    | cons hi his =>
      refine (arrives_bindLet hev hspares hs hi hopen.head).bind fun _ t _ ht hb => ?_
      refine (ih (ready_item hs hi ht hb) his (hopen.tail ht.env hb)).weaken fun _ _ hgrows h => ?_
      rw [List.map_cons, Resolve.letNames_cons]
      exact hb.trans (ht.env ▸ h) hgrows

end

/-! ### Blocks -/

/-- What is accepted behind some members of a scope is shown when all hoisted declarations are
bound, if the `let`s among the members are going to be bound or may be missing. -/
theorem shows_awaiting {order : Resolve.BodyOrder} {ds : List DeclId} {is : List Resolve.Item}
    {c₀ c₁ : Resolve.Context} (hs : s.Ready g c)
    (hoists : Resolve.Hoists g.known c (ds.filter fun d => (p.arena.decl d).kind.hoisted) c₀)
    (items : Resolve.AcceptsItems p.arena g.Accepts order c₀ is c₁)
    (hlets : ∀ n ∈ Resolve.letNames p.arena is, g.missing n ∨ g.promised s.env.current n) :
    (g.awaiting s.env.current (Resolve.hoistedNames p.arena ds)).Shows s.store s.env.current []
      c₁ := by
  intro n v hn
  rcases items.adds.mentions.1 hn with hn | hn
  · refine ⟨.inr ?_, fun hv => ?_⟩
    · exact (hlets n (List.mem_map_of_mem (f := Prod.fst) hn)).imp_right fun h =>
        ⟨_, .here hs.fits.current, .inr (.inl h)⟩
    · obtain ⟨i, -, hlet⟩ := List.mem_filterMap.1 hn
      obtain ⟨d, type, value, -, hkd⟩ := Resolve.letBinding?_eq_some hlet
      exact g.changeable_of_binds n ⟨d, type, value, hv ▸ hkd⟩
  · rcases hoists.adds.mentions.1 hn with hn | hn
    · obtain ⟨d, hd, hn⟩ := List.mem_flatMap.1 hn
      obtain ⟨m, hm, hmn⟩ := List.mem_map.1 hn
      cases hmn
      exact ⟨.inr (.inr ⟨_, .here hs.fits.current,
        .inr (.inr ⟨rfl, List.mem_flatMap.2 ⟨d, hd, hm⟩⟩)⟩), nofun⟩
    · have h := hs.shows n v hn
      exact ⟨h.1.imp_right fun h => h.promising (q := g.promised) fun _ _ h => .inl (.inl h), h.2⟩

/-- Behind the hoisted declarations of a scope, its other members can begin. -/
theorem ready_hoist {ds : List DeclId} {c₀ : Resolve.Context} (hs : s.Ready g c)
    (hoists : Resolve.Hoists g.known c (ds.filter fun d => (p.arena.decl d).kind.hoisted) c₀)
    (ht : s.Behind g t) (hbinds : s.store.Binds s.env.current
      (Resolve.hoistedNames p.arena ds) t.store) : t.Ready g c₀ := by
  refine ⟨ht.fits, ht.env ▸ (hs.shows.grows ht.grows).adds hoists.adds fun n v hn => ?_⟩
  obtain ⟨d, hd, hn⟩ := List.mem_flatMap.1 hn
  obtain ⟨m, hm, hmn⟩ := List.mem_map.1 hn
  cases hmn
  have hbound := hbinds.bound n (List.mem_flatMap.2 ⟨d, hd, hm⟩)
  have hlt : s.env.current.index < t.store.cells.size :=
    Nat.lt_of_lt_of_le hs.fits.current ht.grows.size
  exact ⟨.inr (.inr ⟨_, .here hlt, .inl hbound⟩), nofun⟩

/-- The names of hoisted declarations can be bound; then the other members of the scope begin. -/
structure Begins (g : Scoping p) (s : Machine) (ds : List DeclId) (is : List Resolve.Item)
    (c : Resolve.Context) : Prop where
  prepared : Prepared (g.awaiting s.env.current (Resolve.hoistedNames p.arena ds)) s
    (allHoistSteps p ds)
  arrives : s.Arrives g (fun st _ => s.store.Binds s.env.current
    (Resolve.hoistedNames p.arena ds) st) (bindAllHoisted p ds s)
  next : ∀ t, bindAllHoisted p ds s = (.value (), t) → t.Ready g c ∧ t.Open p.arena is

theorem begins_scope {ds : List DeclId} {is : List Resolve.Item} {c₀ : Resolve.Context}
    (hs : s.Ready g c)
    (hoists : Resolve.Hoists g.known c (ds.filter fun d => (p.arena.decl d).kind.hoisted) c₀)
    (hfunctions : ShowsFunctions (g.awaiting s.env.current (Resolve.hoistedNames p.arena ds)) s ds)
    (hfree : s.Free (Resolve.hoistedNames p.arena ds ++ Resolve.letNames p.arena is))
    (hnodup : (Resolve.hoistedNames p.arena ds ++ Resolve.letNames p.arena is).Nodup) :
    Begins g s ds is c₀ := by
  have himports : ∀ d ∈ ds, (p.arena.decl d).kind.hoisted →
      Resolve.ImportsFrom g.exported (p.arena.decl d).kind :=
    fun d hd hh => hoists.imports d (List.mem_filter.2 ⟨hd, hh⟩)
  have hprepared := prepared_hoistSteps hs.fits himports hfunctions hfree.left
    (List.nodup_append.1 hnodup).1
  have harrives := arrives_bindAllHoisted himports
    (fun d hd hh => hoists.types d (List.mem_filter.2 ⟨hd, hh⟩)) hprepared
  refine ⟨hprepared, harrives, fun t ht => ?_⟩
  rw [ht] at harrives
  obtain ⟨hb, hbinds⟩ := harrives
  exact ⟨ready_hoist hs hoists hb hbinds, hfree.right hnodup hb.env hbinds,
    (List.nodup_append.1 hnodup).2.1⟩

/-- The statements of a block begin where its hoisted declarations are bound. -/
theorem begins_block {id : ExprId} {body : List Code.Stmt}
    (hk : (p.arena.expr id).kind = .block body) (hs : s.Ready g c)
    (h : Resolve.AcceptsScope g.known g.Accepts .inPlace c.nested (body.map .ofStmt)) :
    ∃ c₀ c₁, Resolve.AcceptsItems p.arena g.Accepts .inPlace c₀ (body.map .ofStmt) c₁ ∧
      Begins g s.inScope (declsOf body) (body.map .ofStmt) c₀ := by
  have hnodup := h.nodup
  obtain ⟨hoists, items, -⟩ := h
  simp only [show g.known.arena = p.arena from rfl, Resolve.hoistedDecls_ofStmt] at hnodup hoists
  have hnew := new_inScope s
  have hready := hnew.ready hs.shows.nested (hnew.fits hs.fits).behind (by simp)
  refine ⟨_, _, items, begins_scope hready hoists ?_ (hnew.free _) hnodup⟩
  intro f hf name params result fbody hkf
  obtain ⟨st, hst, hstf⟩ := Arena.mem_declsOf.1 hf
  have hitem : .decl f ∈ body.map Resolve.Item.ofStmt :=
    List.mem_map.2 ⟨st, hst, by simp [Resolve.Item.ofStmt, hstf]⟩
  obtain ⟨pre, post, cf, hbody, hpre, haccepts⟩ := items.function hitem hkf
  refine ⟨cf, haccepts, shows_awaiting hready hoists hpre fun n hn => .inl ?_⟩
  -- the function could be called before the `let` in front of it has run
  obtain ⟨⟨m, v⟩, hm, rfl⟩ := List.mem_map.1 hn
  obtain ⟨i, hi, hlet⟩ := List.mem_filterMap.1 hm
  obtain ⟨d, type, value, rfl, hkd⟩ := Resolve.letBinding?_eq_some hlet
  exact g.missing_of_let m ⟨id, body, d, f, hk, Resolve.sublist_declsOf hbody hi,
    ⟨v, type, value, hkd⟩, name, params, result, fbody, hkf⟩

/-- The `let`s of a module begin where its hoisted declarations are bound. -/
theorem begins_module {ds : List DeclId} (hs : s.Ready g c.nested)
    (h : Resolve.AcceptsScope g.known g.Accepts .afterScope c.nested (ds.map .decl))
    (hfree : ∀ ns, s.Free ns) (hlets : ∀ n ∈ Resolve.letNames p.arena (ds.map .decl),
      g.missing n ∨ g.promised s.env.current n) :
    ∃ c₀ c₁, Resolve.AcceptsItems p.arena g.Accepts .afterScope c₀ (ds.map .decl) c₁ ∧
      Begins g s ds (ds.map .decl) c₀ := by
  have hnodup := h.nodup
  obtain ⟨hoists, items, bodies⟩ := h
  simp only [show g.known.arena = p.arena from rfl, Resolve.hoistedDecls_map_decl]
    at hnodup hoists
  refine ⟨_, _, items, begins_scope hs hoists ?_ (hfree _) hnodup⟩
  intro f hf name params result fbody hkf
  exact ⟨_, bodies rfl f (List.mem_map_of_mem hf) name params result fbody hkf,
    shows_awaiting hs hoists items hlets⟩

section

variable (hev : Arriving g ev) (hspares : ∀ id, Spares (ev id))

include hev hspares

/-- A block binds its hoisted declarations first and its `let`s one after the other. -/
theorem arrives_block {id : ExprId} {body : List Code.Stmt}
    (hk : (p.arena.expr id).kind = .block body) (hs : s.Ready g c)
    (h : Resolve.AcceptsScope g.known g.Accepts .inPlace c.nested (body.map .ofStmt)) :
    s.Arrives g g.Holds (block p ev body s) := by
  obtain ⟨c₀, c₁, items, hbegins⟩ := begins_block hk hs h
  refine arrives_inScope hs.fits (hbegins.arrives.bind fun _ u hu _ _ => ?_)
  obtain ⟨hready, hopen⟩ := hbegins.next u hu
  refine arrives_stmts hev hspares hready items ?_ hopen Value.only_action
  exact fun st hst pattern body hkst n hn => g.constant_of_binds n (.handler hk hst hkst hn)

end

/-! ### Branches and loops -/

theorem arrives_condition (hs : s.Scoped g) (v : Value) :
    s.Arrives g (fun _ _ => True) (condition p v s) := by
  unfold condition
  cases v.bool? with
  | some b => exact arrives_pure hs trivial
  | none => exact arrives_fault hs trivial

/-- The body of an `is` arm gets a scope with what the pattern binds. -/
theorem opens_isArm {pattern : Code.Pattern} {body : ExprId} (hs : s.Ready g c)
    (h : Resolve.AcceptsUnder g.Accepts c pattern body)
    (hcapture : ∀ n ∈ pattern.binding.toList, g.constant n) {v : Value} (hv : g.Holds s.store v)
    {bs : Bindings} (hm : v.matchPattern? pattern p.types = some bs) :
    Opens g s.inScope bs body := by
  obtain ⟨ctx, hbody, hshows⟩ := (fitsHandler_of_accepts hs h hcapture).body
  obtain ⟨hnames, -⟩ := map_fst_of_matchPattern? hm
  replace hshows : g.Shows s.store s.env.current pattern.binding.toList ctx := hshows
  rw [← hnames] at hshows
  exact .intro (new_inScope s) hs.fits hbody hshows (by rw [hnames]; exact nodup_toList _)
    (holds_of_matchPattern? hv hcapture hm)

theorem ready_inLoop (hs : s.Ready g c) : s.inLoop.Ready g c.looping :=
  ⟨⟨hs.fits.current, hs.fits.store, hs.fits.questions, hs.fits.handlers⟩, hs.shows⟩

section

variable (hev : Arriving g ev)

include hev

theorem arrives_arms {subject : Option Value} {options : List Code.Arm} (hs : s.Ready g c)
    {hasSubject : Bool} (h : ∀ a ∈ options, Resolve.AcceptsArm g.Accepts c hasSubject a.kind)
    (hcapture : ∀ a ∈ options, ∀ pattern body, a.kind = .is pattern body →
      ∀ n ∈ pattern.binding.toList, g.constant n)
    (hsubject : ∀ v ∈ subject, g.Holds s.store v) :
    s.Arrives g g.Holds (arms p ev subject options s) := by
  induction options generalizing s with
  | nil => exact arrives_pure hs.fits Value.only_action
  | cons a rest ih =>
    obtain ⟨ha, h⟩ := List.forall_mem_cons.1 h
    obtain ⟨hcap, hcapture⟩ := List.forall_mem_cons.1 hcapture
    simp only [arms]
    cases hk : a.kind with
    | when condition body =>
      rw [hk] at ha
      cases ha with
      | when hcondition hbody =>
        refine (hev c condition s hcondition hs).bind fun v t _ ht _ => ?_
        refine (arrives_condition ht.fits v).bind fun answer u _ hu _ => ?_
        have hready := (ht.trans hu).ready hs
        split
        · exact hev c body u hbody hready
        · exact ih hready h hcapture fun v hv => (hsubject v hv).grows (ht.trans hu).grows
    | is pattern body =>
      rw [hk] at ha
      cases subject with
      | none => exact arrives_faultAt hs.fits (e := .other _) trivial _
      | some v =>
        dsimp only
        cases hm : v.matchPattern? pattern p.types with
        | none => exact ih hs h hcapture hsubject
        | some bs =>
          cases ha with
          | is _ hunder =>
            have hopens := opens_isArm hs hunder (hcap pattern body hk) (hsubject v rfl) hm
            exact arrives_inScope hs.fits (hopens.arrives hev)
    | otherwise body =>
      rw [hk] at ha
      cases ha with
      | otherwise hbody => exact hev c body s hbody hs

theorem arrives_branch {subject : Option ExprId} {options : List Code.Arm} (hs : s.Ready g c)
    (hsubject : ∀ e ∈ subject.toList, g.Accepts c e)
    (h : ∀ a ∈ options, Resolve.AcceptsArm g.Accepts c subject.isSome a.kind)
    (hcapture : ∀ a ∈ options, ∀ pattern body, a.kind = .is pattern body →
      ∀ n ∈ pattern.binding.toList, g.constant n) :
    s.Arrives g g.Holds (branch p ev subject options s) := by
  cases subject with
  | none => exact arrives_arms hev hs h hcapture (by simp)
  | some e =>
    refine (hev c e s (hsubject e (by simp)) hs).bind fun v t _ ht hv => ?_
    exact arrives_arms hev (ht.ready hs) h hcapture (by simpa using hv)

theorem arrives_rounds (frame : FrameId) {body : ExprId} (hbody : g.Accepts c body)
    (fuel done ticks : Nat) (hs : s.Ready g c) :
    s.Arrives g g.Holds (rounds p ev frame body fuel done ticks s) := by
  induction fuel generalizing done ticks s with
  | zero => exact arrives_outOfFuel hs.fits
  | succ fuel ih =>
    obtain ⟨hb, ho⟩ := hev c body s hbody hs
    simp only [rounds]
    generalize (if s.hostTicks = ticks then done else 0) = n
    split
    · exact ⟨hs.behind, trivial⟩
    · cases hr : ev body s with
      | mk r t =>
        rw [hr] at hb ho
        cases r with
        | value v =>
          have h := ih (n + 1) s.hostTicks (hb.ready hs)
          exact ⟨hb.trans h.toBehind, h.outcome⟩
        | outOfFuel => exact ⟨hb, trivial⟩
        | interrupt i =>
          cases i with
          | breakTo target v =>
            dsimp only
            split <;> exact ⟨hb, ho⟩
          | _ => exact ⟨hb, ho⟩

theorem arrives_loop (fuel : Nat) {body : ExprId} (hbody : g.Accepts c.looping body)
    (hs : s.Ready g c) : s.Arrives g g.Holds (loop p ev fuel body s) := by
  obtain ⟨⟨henv, hgrows, hfits⟩, ho⟩ :=
    arrives_rounds hev (.ofSerial s.activations) hbody fuel 0 s.hostTicks (ready_inLoop hs)
  exact ⟨⟨henv, hgrows, hfits.current, hfits.store, hfits.questions, hfits.handlers⟩, ho⟩

end

/-! ### Expressions -/

section

variable (hev : Arriving g ev)

include hev

theorem arrives_arguments {es : List ExprId} (h : ∀ e ∈ es, g.Accepts c e) (hs : s.Ready g c) :
    s.Arrives g (fun st vs => ∀ v ∈ vs, g.Holds st v) (arguments ev es s) := by
  induction es generalizing s with
  | nil => exact arrives_pure hs.fits (by simp)
  | cons e es ih =>
    obtain ⟨he, h⟩ := List.forall_mem_cons.1 h
    refine (hev c e s he hs).bind fun v t _ ht hv => ?_
    refine (ih h (ht.ready hs)).bind fun vs u _ hu hvs => ?_
    exact arrives_pure hu.fits (List.forall_mem_cons.2 ⟨hv.grows hu.grows, hvs⟩)

theorem arrives_optional {e : Option ExprId} (h : ∀ x ∈ e.toList, g.Accepts c x)
    (hs : s.Ready g c) : s.Arrives g g.Holds (optional ev e s) := by
  cases e with
  | none => exact arrives_pure hs.fits Value.only_action
  | some e => exact hev c e s (h e (by simp)) hs

end

/-- The scopes know a name that is used, unless it may be missing. -/
theorem arrives_ident (hs : s.Ready g c) {n : Name} (h : (c.value? n).isSome) :
    s.Arrives g g.Holds (ident p n s) := by
  obtain ⟨info, hinfo⟩ := Option.isSome_iff_exists.1 h
  obtain ⟨hsees, -⟩ := hs.shows n _ (Resolve.Context.mentions_of_value? hinfo)
  simp only [ident, Environment.lookup?, Store.lookup?]
  cases hnearest : s.store.nearest? s.env.current n with
  | none =>
    have hunseen := (hsees.resolve_left (by simp)).missing_or_promised hnearest
    exact ⟨hs.behind, .inl (.inl ⟨n, rfl, hunseen⟩)⟩
  | some found =>
    obtain ⟨b, hb⟩ := Option.isSome_iff_exists.1 (Store.isSome_of_nearest? hnearest)
    simp only [Option.bind_some, hb, Option.map_some]
    exact ⟨hs.behind, (hs.fits.store found n b hb).1⟩

theorem arrives_member (hs : s.Scoped g) {v : Value} (hv : g.Holds s.store v) (field : Name) :
    s.Arrives g g.Holds (member p v field s) := by
  unfold member
  cases hw : v.field? field with
  | some w => exact arrives_pure hs (hv.field? hw)
  | none => exact arrives_fault hs trivial

theorem arrives_leaveFunction (hs : s.Scoped g) {v : Value} (hv : g.Holds s.store v) :
    s.Arrives g g.Holds (leaveFunction v s) := by
  simp only [leaveFunction, Bind.bind, Eval.bind, read]
  cases s.returnTarget with
  | none => exact arrives_fault hs trivial
  | some target => exact ⟨hs.behind, hv⟩

theorem arrives_leaveLoop (hs : s.Scoped g) {v : Value} (hv : g.Holds s.store v) :
    s.Arrives g g.Holds (leaveLoop v s) := by
  simp only [leaveLoop, Bind.bind, Eval.bind, read]
  cases s.loopTarget with
  | none => exact arrives_fault hs trivial
  | some target => exact ⟨hs.behind, hv⟩

section

variable (hord : p.arena.Ordered) (hhost : g.TrustsHost)

include hord hhost

/-- What is accepted arrives if its parts do. -/
theorem arrives_node (hev : Arriving g ev) (hspares : ∀ id, Spares (ev id)) (fuel : Nat)
    {id : ExprId} (h : g.Accepts c id) (hs : s.Ready g c) :
    s.Arrives g g.Holds (node p ev fuel id s) := by
  have hnode : Resolve.AcceptsNode g.known g.Accepts c (p.arena.expr id).kind :=
    Resolve.Accepted.node (k := g.known) hord h
  have hops := hnode.operands_accepted
  simp only [node]
  cases hk : (p.arena.expr id).kind with
  | block body => exact (arrives_block hev hspares hk hs (hk ▸ hnode).of_block).located _
  | function params result body =>
    exact arrives_closure hs.fits fun identity => fits_of_accepts (hk ▸ hnode).of_function hs.shows
      (fun q hq => g.constant_of_binds _ (.param hk hq)) identity _ _
  | branch subject options =>
    rw [hk] at hops
    refine (arrives_branch hev hs hops (hk ▸ hnode).of_branch ?_).located _
    exact fun a ha pattern body hka n hn => g.constant_of_binds n (.arm hk ha hka hn)
  | loop body => exact (arrives_loop hev fuel (hk ▸ hnode).of_loop hs).located _
  | ret value =>
    rw [hk] at hops
    exact (arrives_optional hev hops hs).bind fun v t _ ht hv => arrives_leaveFunction ht.fits hv
  | brk value =>
    rw [hk] at hops
    exact (arrives_optional hev hops hs).bind fun v t _ ht hv => arrives_leaveLoop ht.fits hv
  | ident n => exact (arrives_ident hs (hk ▸ hnode).of_ident).located _
  | string text => exact arrives_pure hs.fits (Value.only_string _)
  | number n => exact arrives_pure hs.fits (Value.only_number _)
  | group inner => exact (hev c inner s (hops inner (by simp [hk])) hs).located _
  | cause payload =>
    refine (hev c payload s (hops payload (by simp [hk])) hs).bind fun v t _ ht hv => ?_
    exact (arrives_cause hev hhost ht.fits hv).located _
  | member receiver field =>
    refine (hev c receiver s (hops receiver (by simp [hk])) hs).bind fun v t _ ht hv => ?_
    exact (arrives_member ht.fits hv field).located _
  | call callee args =>
    refine (hev c callee s (hops callee (by simp [hk])) hs).bind fun f t _ ht hf => ?_
    refine (arrives_arguments hev (fun e he => hops e (by simp [hk, he])) (ht.ready hs)).bind
      fun vs u _ hu hvs => ?_
    exact (arrives_callValue hev hhost hu.fits (hf.grows hu.grows) hvs _).located _
  | pipe subject callee args =>
    refine (hev c subject s (hops subject (by simp [hk])) hs).bind fun v t _ ht hv => ?_
    refine (hev c callee t (hops callee (by simp [hk])) (ht.ready hs)).bind fun f u _ hu hf => ?_
    refine (arrives_arguments hev (fun e he => hops e (by simp [hk, he]))
      ((ht.trans hu).ready hs)).bind fun vs w _ hw hvs => ?_
    have hvs : ∀ x ∈ v :: vs, g.Holds w.store x :=
      List.forall_mem_cons.2 ⟨hv.grows (hu.trans hw).grows, hvs⟩
    exact (arrives_callValue hev hhost hw.fits (hf.grows hw.grows) hvs _).located _

/-- **The evaluation of every accepted expression arrives**, where the current scope shows the
context in which the expression was accepted. -/
theorem arrives_expr (fuel : Nat) : Arriving g (expr p fuel) := by
  induction fuel with
  | zero => exact fun _ _ _ _ hs => arrives_outOfFuel hs.fits
  | succ fuel ih =>
    exact fun _ _ _ h hs => arrives_node hord hhost ih (spares_expr fuel) fuel h hs

end

end Eval

end SignalLang
