import SignalLang.Proofs.MirroredRuns
import SignalLang.Proofs.ScopedRuns
import SignalLang.Proofs.WellFormedRuns

/-!
# What hoisting binds

Hoisting binds the names of declarations one after the other, all in one scope.  If no name is
declared twice, the order is lost: it can be told from the identities of the closures only, which
are numbered in the order of the functions.

* `Program.hoistedValues p c i d` : what the declaration `d` binds its names to.
* `Eval.bindAllHoisted_apply` : that is what hoisting does, where nothing is missing.
* `reindexed fs fs'` : identities that follow the order of one list, in the order of another.
* `Eval.mirrors_hoisted` : **hoisting in another order leads to a machine that mirrors the first
  one.**
-/

namespace SignalLang

/-! ### Identities in order -/

/-- Identities that count the members of one list, where those of another list are counted. -/
def reindexed (fs fs' : List DeclId) (i : Identity) : Identity :=
  if h : i.index < fs.length then ⟨fs'.idxOf fs[i.index]⟩ else i

section

variable {fs fs' : List DeclId}

theorem reindexed_idxOf {d : DeclId} (hd : d ∈ fs) :
    reindexed fs fs' ⟨fs.idxOf d⟩ = ⟨fs'.idxOf d⟩ := by
  rw [reindexed, dif_pos (List.idxOf_lt_length_iff.2 hd), List.getElem_idxOf]

theorem reindexed_of_length_le {i : Identity} (hi : fs.length ≤ i.index) :
    reindexed fs fs' i = i := dif_neg (Nat.not_lt.2 hi)

theorem reindexed_injective (hnodup : fs.Nodup) (hperm : fs.Perm fs') :
    Function.Injective (reindexed fs fs') := by
  have hlt : ∀ {i : Identity}, i.index < fs.length →
      (reindexed fs fs' i).index < fs.length := fun {i} hi => by
    rw [reindexed, dif_pos hi, hperm.length_eq]
    exact List.idxOf_lt_length_iff.2 (hperm.mem_iff.1 (List.getElem_mem hi))
  intro i j heq
  rcases Nat.lt_or_ge i.index fs.length with hi | hi <;>
    rcases Nat.lt_or_ge j.index fs.length with hj | hj
  · rw [reindexed, reindexed, dif_pos hi, dif_pos hj, Identity.mk.injEq,
      List.idxOf_inj (hperm.mem_iff.1 (List.getElem_mem hi))] at heq
    cases i
    cases j
    exact congrArg Identity.mk ((List.Nodup.getElem_inj_iff hnodup).1 heq)
  · have hindex := hlt hi
    rw [heq, reindexed_of_length_le hj] at hindex
    exact absurd hindex (Nat.not_lt.2 hj)
  · have hindex := hlt hj
    rw [← heq, reindexed_of_length_le hi] at hindex
    exact absurd hindex (Nat.not_lt.2 hi)
  · rwa [reindexed_of_length_le hi, reindexed_of_length_le hj] at heq

end

/-! ### Values -/

/-- Whether a declaration is that of a function. -/
def Code.DeclKind.isFunction : Code.DeclKind → Bool
  | .function _ _ _ _ => true
  | _ => false

/-- What the name of an object or signal stands for. -/
def Value.ofType (type : TypeId) (fieldless isSignal : Bool) : Value :=
  if !fieldless then .constructor type
  else if isSignal then .signal none type []
  else .object none type []

theorem Value.rename_ofType (r : Renaming) (type : TypeId) (fieldless isSignal : Bool) :
    (ofType type fieldless isSignal).rename r = ofType (r.type type) fieldless isSignal := by
  cases fieldless <;> cases isSignal <;> rfl

namespace Program

variable (p : Program)

/-- The functions that a hoisted declaration imports and the type that it declares are there. -/
structure Provides (d : DeclId) : Prop where
  imports : Resolve.ImportsFrom (fun path n => (Native.find? path (p.interner.text n)).isSome)
    (p.arena.decl d).kind
  type : (Resolve.typeName? (p.arena.decl d).kind).isSome → p.types.Declares d

/-- What a hoisted declaration binds its names to.  The closure of a function captures the scope `c`
and gets the identity `i`. -/
def hoistedValues (c : ScopeId) (i : Identity) (d : DeclId) : Bindings :=
  match (p.arena.decl d).kind with
  | .imports path items => items.filterMap fun item =>
    (Native.find? path (p.interner.text item.name)).map fun f : Native =>
      (item.localName, .native f)
  | .function n params result body => [(n, .closure ⟨i, some n, params, result, body, c⟩)]
  | .object n fields => (p.types.declType? d).toList.map fun type =>
    (n, .ofType type fields.isEmpty false)
  | .signal n fields _ => (p.types.declType? d).toList.map fun type =>
    (n, .ofType type fields.isEmpty true)
  | .option _ _ | .binding _ _ _ _ => []

variable {p} {d : DeclId}

theorem map_fst_hoistedValues (hd : (p.arena.decl d).kind.hoisted) (h : p.Provides d)
    (c : ScopeId) (i : Identity) :
    (p.hoistedValues c i d).map Prod.fst = (p.arena.decl d).kind.bound := by
  have htype := h.type
  have himports := h.imports
  unfold hoistedValues
  cases hk : (p.arena.decl d).kind with
  | imports path items =>
    have hitems := himports path items hk
    clear himports htype hk
    induction items with
    | nil => rfl
    | cons item items ih =>
      obtain ⟨hitem, hitems⟩ := List.forall_mem_cons.1 hitems
      obtain ⟨f, hf⟩ := Option.isSome_iff_exists.1 hitem
      simp only [List.filterMap_cons, hf, Option.map_some, List.map_cons, Code.DeclKind.bound]
      exact congrArg _ (ih hitems)
  | object | signal =>
    obtain ⟨type, htype⟩ := Option.isSome_iff_exists.1 (htype (by rw [hk]; rfl))
    simp only [htype]
    rfl
  | binding => simp [hk, Code.DeclKind.hoisted] at hd
  | _ => rfl

/-- Only closures have an identity. -/
theorem hoistedValues_of_not_isFunction (hd : (p.arena.decl d).kind.isFunction = false)
    (c : ScopeId) (i j : Identity) : p.hoistedValues c i d = p.hoistedValues c j d := by
  unfold hoistedValues
  cases hk : (p.arena.decl d).kind with
  | function => simp [hk, Code.DeclKind.isFunction] at hd
  | _ => rfl

/-- Programs that mirror each other provide the same. -/
theorem Mirrors.provides {r : Renaming} {p' : Program} (hp : p.Mirrors r p') (h : p.Provides d) :
    p'.Provides d where
  imports := by
    rw [hp.arena, hp.interner]
    exact h.imports
  type hn := by
    rw [hp.arena] at hn
    rw [TypeTable.Declares, hp.types.declTypes, Option.isSome_map]
    exact h.type hn

/-- Programs that mirror each other bind renamed values. -/
theorem Mirrors.hoistedValues {r : Renaming} {p' : Program} (hp : p.Mirrors r p') (c : ScopeId)
    (i : Identity) (d : DeclId) : p'.hoistedValues c (r.identity i) d =
      Value.renameFields r (p.hoistedValues c i d) := by
  simp only [Program.hoistedValues, hp.arena, hp.interner, hp.types.declTypes]
  cases (p.arena.decl d).kind with
  | imports path items =>
    rw [Value.renameFields_eq_map]
    simp only [List.map_filterMap]
    refine List.filterMap_congr fun item _ => ?_
    cases Native.find? path (p.interner.text item.name) <;> rfl
  | object n fields | signal n fields =>
    cases p.types.declType? d with
    | none => rfl
    | some type =>
      simp only [Option.map_some, Option.toList_some, List.map_cons, List.map_nil,
        Value.renameFields, Value.rename_ofType]
  | _ => rfl

end Program

/-! ### Hoisting -/

/-- The machine with some names bound in the current scope and some identities given out. -/
def Machine.hoist (s : Machine) (bs : Bindings) (identities : Nat) : Machine :=
  { s with store := { s.store.defineAll s.env.current bs with
      nextIdentity := s.store.nextIdentity + identities } }

namespace Store

variable {s : Store} {id : ScopeId}

theorem nextIdentity_defineAll (bs : Bindings) :
    (s.defineAll id bs).nextIdentity = s.nextIdentity := by
  induction bs generalizing s with
  | nil => rfl
  | cons b bs ih => exact ih

theorem defineAll_withNext (bs : Bindings) (k : Nat) :
    ({ s with nextIdentity := k } : Store).defineAll id bs =
      { s.defineAll id bs with nextIdentity := k } := by
  induction bs generalizing s with
  | nil => rfl
  | cons b bs ih => exact ih (s := s.define id b.1 b.2 false)

theorem defineAll_append (bs bs' : Bindings) :
    s.defineAll id (bs ++ bs') = (s.defineAll id bs).defineAll id bs' := List.foldl_append ..

theorem parent_defineAll (bs : Bindings) (c : ScopeId) :
    ((s.defineAll id bs).cell c).parent = (s.cell c).parent := by
  induction bs generalizing s with
  | nil => rfl
  | cons b bs ih => exact ih.trans (parent_define ..)

theorem binding?_defineAll_of_ne (bs : Bindings) {c : ScopeId} (hc : c ≠ id) (n : Name) :
    (s.defineAll id bs).binding? c n = s.binding? c n := by
  induction bs generalizing s with
  | nil => rfl
  | cons b bs ih => exact ih.trans ((binding?_define ..).trans (if_neg fun h => hc h.1))

end Store

theorem Machine.hoist_hoist (s : Machine) (bs bs' : Bindings) (k k' : Nat) :
    (s.hoist bs k).hoist bs' k' = s.hoist (bs ++ bs') (k + k') := by
  simp only [hoist, Store.defineAll_withNext, Store.defineAll_append, Nat.add_assoc]

namespace Eval

variable {p : Program}

theorem defineAll_apply (bs : Bindings) (s : Machine) :
    defineAll bs s = (.value (), s.hoist bs 0) := by
  induction bs generalizing s with
  | nil => rfl
  | cons b bs ih =>
    simp only [defineAll, Bind.bind, Eval.bind, define, update, ih]
    rfl

theorem bindImport_apply {path : String} {items : List Code.ImportItem}
    (h : ∀ item ∈ items, (Native.find? path (p.interner.text item.name)).isSome) :
    bindImport p path items = defineAll (items.filterMap fun item =>
      (Native.find? path (p.interner.text item.name)).map fun f : Native =>
        (item.localName, .native f)) := by
  induction items with
  | nil => rfl
  | cons item items ih =>
    obtain ⟨hitem, hitems⟩ := List.forall_mem_cons.1 h
    obtain ⟨f, hf⟩ := Option.isSome_iff_exists.1 hitem
    simp only [bindImport, hf, ih hitems, List.filterMap_cons, Option.map_some, defineAll]

/-- A hoisted declaration binds its names, and takes an identity if it is a function. -/
theorem bindHoisted_apply {d : DeclId} (hd : (p.arena.decl d).kind.hoisted) (h : p.Provides d)
    (s : Machine) : bindHoisted p d s = (.value (),
      s.hoist (p.hoistedValues s.env.current ⟨s.store.nextIdentity⟩ d)
        (if (p.arena.decl d).kind.isFunction then 1 else 0)) := by
  have htype := h.type
  have himports := h.imports
  unfold bindHoisted Program.hoistedValues
  cases hk : (p.arena.decl d).kind with
  | imports path items =>
    dsimp only
    rw [bindImport_apply (himports path items hk), defineAll_apply]
    rfl
  | function n params result body => rfl
  | object n fields | signal n fields =>
    obtain ⟨type, htype⟩ := Option.isSome_iff_exists.1 (htype (by rw [hk]; rfl))
    simp only [typeValue, htype]
    cases fields.isEmpty <;> rfl
  | option => rfl
  | binding => simp [hk, Code.DeclKind.hoisted] at hd

theorem bindAllHoisted_filter (ds : List DeclId) :
    bindAllHoisted p (ds.filter fun d => (p.arena.decl d).kind.hoisted) = bindAllHoisted p ds := by
  simp only [bindAllHoisted_eq, allHoistSteps, List.filter_filter, Bool.and_self]

/-- **What hoisting does.**  The functions get identities in their order. -/
theorem bindAllHoisted_apply {ds : List DeclId} (hds : ∀ d ∈ ds, (p.arena.decl d).kind.hoisted)
    (h : ∀ d ∈ ds, p.Provides d) (identity : DeclId → Identity) {s : Machine}
    (hidentity : ∀ pre d post,
      (ds.filter fun d => (p.arena.decl d).kind.isFunction) = pre ++ d :: post →
        identity d = ⟨s.store.nextIdentity + pre.length⟩) :
    bindAllHoisted p ds s = (.value (),
      s.hoist (ds.flatMap fun d => p.hoistedValues s.env.current (identity d) d)
        (ds.filter fun d => (p.arena.decl d).kind.isFunction).length) := by
  induction ds generalizing s with
  | nil => rfl
  | cons d ds ih =>
    obtain ⟨hd, hds⟩ := List.forall_mem_cons.1 hds
    obtain ⟨hprovides, h⟩ := List.forall_mem_cons.1 h
    rw [List.filter_cons] at hidentity ⊢
    simp only [bindAllHoisted, hd, if_true, Bind.bind, Eval.bind, bindHoisted_apply hd hprovides]
    cases hfunction : (p.arena.decl d).kind.isFunction with
    | true =>
      simp only [hfunction, if_true] at hidentity ⊢
      have hself : identity d = ⟨s.store.nextIdentity⟩ := hidentity [] d _ rfl
      rw [ih hds h (fun pre e post heq => ?_), Machine.hoist_hoist, List.flatMap_cons, hself,
        List.length_cons, Nat.add_comm 1]
      · rfl
      · rw [hidentity (d :: pre) e post (by rw [heq]; rfl), List.length_cons, Nat.add_comm _ 1,
          ← Nat.add_assoc]
        rfl
    | false =>
      simp only [hfunction, Bool.false_eq_true, if_false] at hidentity ⊢
      have hrest := ih hds h (s := s.hoist (p.hoistedValues s.env.current
        ⟨s.store.nextIdentity⟩ d) 0) hidentity
      rw [hrest, Machine.hoist_hoist, List.flatMap_cons, Nat.zero_add,
        Program.hoistedValues_of_not_isFunction hfunction _ _ (identity d)]
      rfl

end Eval

/-! ### Machines -/

/-- A machine on which nothing is bound yet but what has neither a type nor an identity of its own
to rename. -/
structure Machine.Blank (r : Renaming) (s : Machine) : Prop where
  current : s.env.current.index < s.store.cells.size
  free : ∀ n, s.store.binding? s.env.current n = none
  kept : ∀ c n b, s.store.binding? c n = some b → b.value.rename r = b.value
  first : s.store.nextIdentity = 0
  log : s.log = .empty

/-- Names that are not among those bound are not bound. -/
theorem Machine.Blank.binding?_of_notMem {r : Renaming} {s : Machine} (h : s.Blank r)
    {bs : Bindings} {n : Name} (hn : n ∉ bs.map Prod.fst) :
    (s.store.defineAll s.env.current bs).binding? s.env.current n = none := by
  refine Option.eq_none_iff_forall_ne_some.2 fun b hb => ?_
  rcases Interpreter.binding?_defineAll hb with hold | ⟨hmem, -⟩
  · rw [h.free] at hold
    cases hold
  · exact hn (List.mem_map_of_mem hmem)

/-- What is bound to a name is a constant among those bound. -/
theorem Machine.Blank.exists_binding {r : Renaming} {s : Machine} (h : s.Blank r) {bs : Bindings}
    {n : Name} (hn : n ∈ bs.map Prod.fst) :
    ∃ v, (n, v) ∈ bs ∧
      (s.store.defineAll s.env.current bs).binding? s.env.current n = some ⟨v, false⟩ := by
  obtain ⟨⟨v, isVariable⟩, hb⟩ := Option.isSome_iff_exists.1
    (Interpreter.isSome_defineAll h.current (.inl hn))
  obtain ⟨hmem, rfl⟩ := (Interpreter.binding?_defineAll hb).resolve_left (by rw [h.free]; exact nofun)
  exact ⟨v, hmem, hb⟩

/-- The same names are bound to renamed values, in whatever order. -/
theorem Machine.Blank.binding?_defineAll {r : Renaming} {s : Machine} (h : s.Blank r)
    {bs bs' : Bindings} (hperm : bs'.Perm (Value.renameFields r bs))
    (hnodup : (bs.map Prod.fst).Nodup) (c : ScopeId) (n : Name) :
    (s.store.defineAll s.env.current bs').binding? c n =
      ((s.store.defineAll s.env.current bs).binding? c n).map (Binding.rename r) := by
  have hnames : n ∈ bs'.map Prod.fst ↔ n ∈ bs.map Prod.fst := by
    rw [(hperm.map Prod.fst).mem_iff, Value.renameFields_eq_map, List.map_map]
    rfl
  by_cases hc : c = s.env.current
  case neg =>
    rw [Store.binding?_defineAll_of_ne _ hc, Store.binding?_defineAll_of_ne _ hc]
    cases hb : s.store.binding? c n with
    | none => rfl
    | some b => rw [Option.map_some, Binding.rename, h.kept c n b hb]
  subst hc
  by_cases hn : n ∈ bs.map Prod.fst
  case neg =>
    rw [h.binding?_of_notMem hn, h.binding?_of_notMem (mt hnames.1 hn)]
    rfl
  obtain ⟨v, hmem, hb⟩ := h.exists_binding hn
  obtain ⟨v', hmem', hb'⟩ := h.exists_binding (hnames.2 hn)
  rw [hperm.mem_iff, Value.renameFields_eq_map] at hmem'
  obtain ⟨⟨n', w⟩, hw, heq⟩ := List.mem_map.1 hmem'
  obtain ⟨rfl, rfl⟩ := Prod.mk.inj heq
  -- no name is bound twice
  obtain rfl : w = v := (Prod.mk.inj (List.inj_on_of_nodup_map hnodup hw hmem rfl)).2
  rw [hb, hb']
  rfl

/-- Machines on which the same names are bound to renamed values mirror each other. -/
theorem Machine.Blank.mirrors_hoist {r : Renaming} {s : Machine} (h : s.Blank r)
    {bs bs' : Bindings} (hperm : bs'.Perm (Value.renameFields r bs))
    (hnodup : (bs.map Prod.fst).Nodup) {k : Nat}
    (hfixed : ∀ i : Identity, k ≤ i.index → r.identity i = i) :
    (s.hoist bs k).Mirrors r (s.hoist bs' k) where
  env := rfl
  handlers := rfl
  calls := rfl
  loopTarget := rfl
  returnTarget := rfl
  activations := rfl
  hostTicks := rfl
  log := by
    simp only [hoist, h.log]
    rfl
  store := by
    constructor
    case size =>
      exact (Interpreter.size_defineAll bs').trans (Interpreter.size_defineAll bs).symm
    case parent =>
      exact fun c => (Store.parent_defineAll bs' c).trans (Store.parent_defineAll bs c).symm
    case binding? => exact fun c n => h.binding?_defineAll hperm hnodup c n
    case nextIdentity => rfl
    case fixed =>
      intro i hi
      refine hfixed i ?_
      simpa only [hoist, h.first, Nat.zero_add] using hi

namespace Eval

/-- The members of a list without repetitions are counted by their positions. -/
theorem idxOf_of_eq_append {fs pre post : List DeclId} {d : DeclId} (hnodup : fs.Nodup)
    (h : fs = pre ++ d :: post) : fs.idxOf d = pre.length := by
  subst h
  have hd : d ∉ pre := fun hd => (List.nodup_append.1 hnodup).2.2 d hd d List.mem_cons_self rfl
  rw [List.idxOf_append_of_notMem hd, List.idxOf_cons_self, Nat.add_zero]

variable {p p' : Program} {r : Renaming} {ds ds' : List DeclId}

/-- From a blank machine, the functions get the identities that count them. -/
theorem bindAllHoisted_of_blank {s : Machine} (hs : s.Blank r)
    (hds : ∀ d ∈ ds, (p.arena.decl d).kind.hoisted) (h : ∀ d ∈ ds, p.Provides d)
    (hnodup : ds.Nodup) :
    bindAllHoisted p ds s = (.value (), s.hoist
      (ds.flatMap fun d => p.hoistedValues s.env.current
        ⟨(ds.filter fun d => (p.arena.decl d).kind.isFunction).idxOf d⟩ d)
      (ds.filter fun d => (p.arena.decl d).kind.isFunction).length) :=
  bindAllHoisted_apply hds h _ fun pre d post heq => by
    rw [hs.first, Nat.zero_add, idxOf_of_eq_append (hnodup.filter _) heq]

/-- **Hoisting in another order leads to a machine that mirrors the first one**, if identities are
renamed in the way that the order of the functions changes. -/
theorem mirrors_hoisted (hp : p.Mirrors r p') (hperm : ds.Perm ds')
    (hds : ∀ d ∈ ds, (p.arena.decl d).kind.hoisted) (h : ∀ d ∈ ds, p.Provides d)
    (hnodup : ds.Nodup) (hnames : (ds.flatMap fun d => (p.arena.decl d).kind.bound).Nodup)
    (hr : r.identity = reindexed (ds.filter fun d => (p.arena.decl d).kind.isFunction)
      (ds'.filter fun d => (p.arena.decl d).kind.isFunction)) {s : Machine} (hs : s.Blank r) :
    ∃ t t', bindAllHoisted p ds s = (.value (), t) ∧ bindAllHoisted p' ds' s = (.value (), t') ∧
      t.Mirrors r t' := by
  have hds' : ∀ d ∈ ds', (p'.arena.decl d).kind.hoisted := fun d hd => by
    rw [hp.arena]
    exact hds d (hperm.mem_iff.2 hd)
  have h' : ∀ d ∈ ds', p'.Provides d := fun d hd => hp.provides (h d (hperm.mem_iff.2 hd))
  have happly := bindAllHoisted_of_blank hs hds h hnodup
  have happly' := bindAllHoisted_of_blank hs hds' h' (hperm.nodup_iff.1 hnodup)
  rw [hp.arena, ← (hperm.filter _).length_eq] at happly'
  refine ⟨_, _, happly, happly', hs.mirrors_hoist ?_ ?_ fun i hi => ?_⟩
  · -- a declaration binds the same names, to values with their identities renamed
    rw [Value.renameFields_eq_map, List.map_flatMap]
    refine (hperm.symm.flatMap_right _).trans (.of_eq (List.flatMap_congr fun d hd => ?_))
    rw [← Value.renameFields_eq_map, ← hp.hoistedValues]
    cases hfunction : (p.arena.decl d).kind.isFunction with
    | true =>
      rw [hr, reindexed_idxOf (List.mem_filter.2 ⟨hd, hfunction⟩)]
    | false => exact Program.hoistedValues_of_not_isFunction (by rwa [hp.arena]) _ _ _
  · rw [List.map_flatMap]
    rwa [List.flatMap_congr fun d hd => Program.map_fst_hoistedValues (hds d hd) (h d hd) _ _]
  · rw [hr]
    exact reindexed_of_length_le hi

end Eval

end SignalLang
