import SignalLang.Proofs.Closures
import SignalLang.Proofs.Moments
import SignalLang.Proofs.ScopeChains

/-!
# Anchored scopes

A scope gets the scope around it when it is created, and never another one.  That scope is there
already: it is the current one, or one that a closure or a handler captured.  So chains lead back in
time, and end at the scope of the builtins, unless the host brought a closure along that captured a
scope of the host's own.

* `Anchor` : the scope of the builtins, what it binds, and the scopes that the host brought along.
* `Anchor.Has a s c` : a scope that a run may come to refer to; `Anchor.Holds a s v` : all closures
  in a value captured such scopes.
* `Store.Anchored a s` : the scopes of a store have such scopes around them, created earlier, and
  bind such values.
* `Store.Anchored.exists_chain` : **every such scope has a chain, which ends at the scope of the
  builtins or passes a scope that the host brought along.**
* `Machine.Anchored a s` : the same of a machine; `Machine.Upholds a s t` : what a step from `s` to
  `t` leaves as it was.
-/

namespace SignalLang

/-! ### Scopes and values -/

/-- Where the chains of a run end.  The scopes from outside are those that the host brought along;
they are older than the scope of the builtins. -/
structure Anchor where
  /-- The scope of the builtins. -/
  root : ScopeId
  /-- What is bound there. -/
  bound : Name → Option Binding
  /-- The scopes of the host's own. -/
  foreign : ScopeId → Prop
  constant : ∀ n b, bound n = some b → b.isVariable = false
  foreign_lt : ∀ c, foreign c → c.index < root.index

namespace Anchor

variable {a : Anchor} {s t : Store} {c : ScopeId} {v : Value}

/-- A scope that the host brought along, that of the builtins, or one that was created later. -/
def Has (a : Anchor) (s : Store) (c : ScopeId) : Prop :=
  a.foreign c ∨ a.root.index ≤ c.index ∧ c.index < s.cells.size

/-- All closures in a value captured scopes that are there. -/
def Holds (a : Anchor) (s : Store) (v : Value) : Prop := v.Only fun k => a.Has s k.captured

theorem Has.mono (h : a.Has s c) (hsize : s.cells.size ≤ t.cells.size) : a.Has t c :=
  h.imp_right fun hc => ⟨hc.1, Nat.lt_of_lt_of_le hc.2 hsize⟩

theorem Holds.mono (h : a.Holds s v) (hsize : s.cells.size ≤ t.cells.size) : a.Holds t v :=
  Value.Only.mono h fun _ hc => hc.mono hsize

end Anchor

/-! ### Stores -/

namespace Store

/-- The scopes of a store are anchored.  Around a scope of the run, other than that of the builtins,
is one that was created earlier.  The chains of the scopes from outside have an end, too. -/
structure Anchored (a : Anchor) (s : Store) : Prop where
  root_lt : a.root.index < s.cells.size
  root_parent : (s.cell a.root).parent = none
  root_bound : ∀ n, s.binding? a.root n = a.bound n
  foreign_chain : ∀ c, a.foreign c → ∃ cs, s.ChainFrom c cs ∧ ∀ d ∈ cs, a.foreign d
  outer : ∀ c : ScopeId, a.root.index < c.index → c.index < s.cells.size →
    ∃ d, s.Outer c d ∧ a.Has s d ∧ d.index < c.index
  values : ∀ c n b, a.Has s c → s.binding? c n = some b → a.Holds s b.value

namespace Anchored

variable {a : Anchor} {s s' : Store} {c d id found parent : ScopeId} {n : Name} {v : Value}

theorem lt_size (h : s.Anchored a) (hc : a.Has s c) : c.index < s.cells.size := by
  rcases hc with hc | hc
  · exact Nat.lt_trans (a.foreign_lt c hc) h.root_lt
  · exact hc.2

theorem has_root (h : s.Anchored a) : a.Has s a.root := .inr ⟨Nat.le_refl _, h.root_lt⟩

/-- The scope around a scope that is there is there as well. -/
theorem has_outer (h : s.Anchored a) (hc : a.Has s c) (hp : s.Outer c d) : a.Has s d := by
  rcases hc with hc | ⟨hle, hlt⟩
  · obtain ⟨cs, hcs, hall⟩ := h.foreign_chain c hc
    cases hcs with
    | last _ hp' => cases hp'.symm.trans hp
    | outer hp' hcs =>
      cases hp.symm.trans hp'
      exact .inl (hall d (List.mem_cons_of_mem _ hcs.head_mem))
  · rcases Nat.eq_or_lt_of_le hle with heq | hroot
    · obtain rfl : a.root = c := congrArg ScopeId.mk heq
      cases h.root_parent.symm.trans hp
    · obtain ⟨d', hp', hd, -⟩ := h.outer c hroot hlt
      cases hp.symm.trans hp'
      exact hd

/-- **Every chain has an end.**  It ends at the scope of the builtins, unless it passes a scope from
outside. -/
theorem exists_chain (h : s.Anchored a) (hc : a.Has s c) :
    ∃ cs, s.ChainFrom c cs ∧ (∀ d ∈ cs, a.Has s d) ∧
      (cs.getLast? = some a.root ∨ ∃ d ∈ cs, a.foreign d) := by
  -- around a scope of the run is an older one, so the induction is on its position
  generalize hi : c.index = i
  induction i using Nat.strongRecOn generalizing c with
  | ind i ih =>
    rcases hc with hc | ⟨hle, hlt⟩
    · obtain ⟨cs, hcs, hall⟩ := h.foreign_chain c hc
      exact ⟨cs, hcs, fun d hd => .inl (hall d hd), .inr ⟨c, hcs.head_mem, hc⟩⟩
    rcases Nat.eq_or_lt_of_le hle with heq | hroot
    · obtain rfl : a.root = c := congrArg ScopeId.mk heq
      refine ⟨[a.root], .last hlt h.root_parent, ?_, .inl rfl⟩
      exact List.forall_mem_singleton.2 h.has_root
    · obtain ⟨d, hp, hd, hdc⟩ := h.outer c hroot hlt
      obtain ⟨cs, hcs, hall, hlast⟩ := ih d.index (hi ▸ hdc) hd rfl
      refine ⟨c :: cs, .outer hp hcs, List.forall_mem_cons.2 ⟨.inr ⟨hle, hlt⟩, hall⟩,
        hlast.imp ?_ ?_⟩
      · rw [List.getLast?_cons_of_ne_nil hcs.ne_nil]
        exact id
      · rintro ⟨e, he, hf⟩
        exact ⟨e, List.mem_cons_of_mem _ he, hf⟩

theorem addScope (h : s.Anchored a) (hparent : a.Has s parent) :
    (s.addScope (some parent)).2.Anchored a := by
  have hsize := s.size_le_addScope (some parent)
  have hold : ∀ c : ScopeId, c.index ≠ s.cells.size →
      (s.addScope (some parent)).2.cell c = s.cell c := fun c hc => by
    rw [cell_addScope, if_neg hc]
  constructor
  case root_lt => exact Nat.lt_of_lt_of_le h.root_lt hsize
  case root_parent =>
    rw [hold _ (Nat.ne_of_lt h.root_lt)]
    exact h.root_parent
  case root_bound =>
    intro n
    rw [binding?_addScope]
    exact h.root_bound n
  case foreign_chain =>
    intro c hc
    obtain ⟨cs, hcs, hall⟩ := h.foreign_chain c hc
    refine ⟨cs, hcs.mono hsize fun d hd => ?_, hall⟩
    rw [hold d (Nat.ne_of_lt hd)]
  case outer =>
    intro c hc hlt
    rw [size_addScope] at hlt
    by_cases heq : c.index = s.cells.size
    · -- the scope around the new one is there, so it is older
      refine ⟨parent, ?_, hparent.mono hsize, heq ▸ h.lt_size hparent⟩
      rw [Outer, cell_addScope, if_pos heq]
    · obtain ⟨d, hp, hd, hdc⟩ := h.outer c hc (by omega)
      exact ⟨d, by rwa [Outer, hold c heq], hd.mono hsize, hdc⟩
  case values =>
    -- nothing is bound in the new scope
    intro c n b hc hb
    rw [binding?_addScope] at hb
    have hlt := lt_size_of_isSome (s := s) (c := c) (n := n) (by rw [hb]; rfl)
    exact (h.values c n b (hc.imp_right fun hc => ⟨hc.1, hlt⟩) hb).mono hsize

theorem define (h : s.Anchored a) (hid : id ≠ a.root) (n : Name) (hv : a.Holds s v)
    (isVariable : Bool) : (s.define id n v isVariable).Anchored a := by
  have hsize : (s.define id n v isVariable).cells.size = s.cells.size := size_define ..
  have hhas : ∀ {c}, a.Has (s.define id n v isVariable) c ↔ a.Has s c := by
    simp only [Anchor.Has, hsize, implies_true]
  constructor
  case root_lt => exact hsize ▸ h.root_lt
  case root_parent => exact (parent_define ..).trans h.root_parent
  case root_bound =>
    intro m
    rw [binding?_define, if_neg fun heq => hid heq.1.symm]
    exact h.root_bound m
  case foreign_chain =>
    intro c hc
    obtain ⟨cs, hcs, hall⟩ := h.foreign_chain c hc
    exact ⟨cs, hcs.mono (Nat.le_of_eq hsize.symm) fun d _ => parent_define .., hall⟩
  case outer =>
    intro c hc hlt
    obtain ⟨d, hp, hd, hdc⟩ := h.outer c hc (hsize ▸ hlt)
    exact ⟨d, by rwa [Outer, parent_define], hhas.2 hd, hdc⟩
  case values =>
    intro c m b hc hb
    refine Anchor.Holds.mono (s := s) ?_ (Nat.le_of_eq hsize.symm)
    rw [binding?_define] at hb
    split at hb
    · cases hb
      exact hv
    · exact h.values c m b (hhas.1 hc) hb

theorem of_cells (h : s.Anchored a) (hcells : s'.cells = s.cells) : s'.Anchored a := by
  obtain ⟨cells, _⟩ := s
  obtain ⟨cells', _⟩ := s'
  cases hcells
  refine ⟨h.root_lt, h.root_parent, h.root_bound, fun c hc => ?_, h.outer, h.values⟩
  obtain ⟨cs, hcs, hall⟩ := h.foreign_chain c hc
  exact ⟨cs, hcs.mono (Nat.le_refl _) fun d _ => rfl, hall⟩

/-- What is found along a chain is a value that the run may come to refer to. -/
theorem holds_lookup (h : s.Anchored a) (hc : a.Has s c) (hv : s.lookup? c n = some v) :
    a.Holds s v := by
  obtain ⟨b, hb, rfl⟩ := Option.map_eq_some_iff.1 hv
  obtain ⟨found, hfound, hb⟩ := Option.bind_eq_some_iff.1 hb
  obtain ⟨cs, hcs, hall, -⟩ := h.exists_chain hc
  rw [hcs.nearest?_eq] at hfound
  exact h.values found n b (hall found (List.mem_of_find?_eq_some hfound)) hb

/-- A `set` never changes what the scope of the builtins binds, as it binds constants only. -/
theorem assign (h : s.Anchored a) (ho : s.owner c n = .ok found) (hv : a.Holds s v) :
    (s.define found n v true).Anchored a := by
  obtain ⟨w, hw⟩ := owner_eq_ok ho
  refine h.define (fun heq => ?_) n hv true
  rw [heq, h.root_bound] at hw
  cases a.constant n _ hw

end Anchored

end Store

/-! ### Machines -/

theorem Environment.current_mem_scopes (e : Environment) : e.current ∈ e.scopes := by
  unfold current scopes
  cases e.inner <;> simp

namespace Machine

/-- All that a machine refers to is anchored, and names are not bound in the scope of the
builtins. -/
structure Anchored (a : Anchor) (s : Machine) : Prop where
  store : s.store.Anchored a
  scopes : ∀ c ∈ s.env.scopes, a.Has s.store c
  current : s.env.current ≠ a.root
  root : s.env.root = a.root
  handlers : ∀ f ∈ s.handlers.frames, a.Has s.store f.scope
  questions : ∀ q ∈ s.log.questions, a.Holds s.store q.signal

/-- The machine `t` behind a step from `s`: no scope is lost, environment and handlers are back, and
all else that it refers to is anchored. -/
structure Upholds (a : Anchor) (s t : Machine) : Prop where
  store : t.store.Anchored a
  size : s.store.cells.size ≤ t.store.cells.size
  env : t.env = s.env
  handlers : t.handlers = s.handlers
  questions : ∀ q ∈ t.log.questions, a.Holds t.store q.signal

variable {a : Anchor} {s t u : Machine} {captured : ScopeId} {f : HandlerFrame} {outer : Nat}

theorem Upholds.trans (h : s.Upholds a t) (h' : t.Upholds a u) : s.Upholds a u :=
  ⟨h'.store, Nat.le_trans h.size h'.size, h'.env.trans h.env, h'.handlers.trans h.handlers,
    h'.questions⟩

theorem Upholds.anchored (h : s.Upholds a t) (hs : s.Anchored a) : t.Anchored a := by
  refine ⟨h.store, ?_, ?_, ?_, ?_, h.questions⟩
  · rw [h.env]
    exact fun c hc => (hs.scopes c hc).mono h.size
  · rw [h.env]
    exact hs.current
  · rw [h.env]
    exact hs.root
  · rw [h.handlers]
    exact fun f hf => (hs.handlers f hf).mono h.size

namespace Anchored

theorem upholds (hs : s.Anchored a) : s.Upholds a s :=
  ⟨hs.store, Nat.le_refl _, rfl, rfl, hs.questions⟩

theorem has_current (hs : s.Anchored a) : a.Has s.store s.env.current :=
  hs.scopes _ s.env.current_mem_scopes

/-- A machine of which another scope is the current one, just created inside one that is there. -/
theorem inNewScope (hs : s.Anchored a) (hcaptured : a.Has s.store captured) {env : Environment}
    (hcurrent : env.current = (s.store.addScope (some captured)).1)
    (hscopes : ∀ c ∈ env.scopes, c = env.current ∨ c ∈ s.env.scopes)
    (hroot : env.root = s.env.root) :
    ({ s with env, store := (s.store.addScope (some captured)).2 } : Machine).Anchored a := by
  have hsize := s.store.size_le_addScope (some captured)
  have hindex : env.current.index = s.store.cells.size := by
    rw [hcurrent]
    rfl
  refine ⟨hs.store.addScope hcaptured, fun c hc => ?_, fun heq => ?_, hroot.trans hs.root,
    fun f hf => (hs.handlers f hf).mono hsize, fun q hq => (hs.questions q hq).mono hsize⟩
  · rcases hscopes c hc with rfl | hc
    · refine .inr ⟨hindex ▸ Nat.le_of_lt hs.store.root_lt, ?_⟩
      rw [hindex, Store.size_addScope]
      omega
    · exact (hs.scopes c hc).mono hsize
  · -- the scope of the builtins is not new
    have hlt := hs.store.root_lt
    rw [← heq, hindex] at hlt
    exact Nat.lt_irrefl _ hlt

theorem inScope (hs : s.Anchored a) : s.inScope.Anchored a :=
  hs.inNewScope hs.has_current rfl (fun c hc => by
    rcases List.mem_cons.1 hc with rfl | hc
    · exact .inl rfl
    · exact .inr hc) rfl

theorem inBody (hs : s.Anchored a) (hcaptured : a.Has s.store captured)
    (loopTarget returnTarget : Option FrameId) :
    (s.inBody captured loopTarget returnTarget).Anchored a := by
  have h : ({ s with
      env := (s.env.childOf captured s.store).1,
      store := (s.store.addScope (some captured)).2 } : Machine).Anchored a :=
    hs.inNewScope hcaptured rfl (fun c hc => .inl (List.mem_singleton.1 hc)) rfl
  exact ⟨h.store, h.scopes, h.current, h.root, h.handlers, h.questions⟩

theorem inHandler (hs : s.Anchored a) (hf : f ∈ s.handlers.frames) (outer : Nat) :
    (s.inHandler f outer).Anchored a := by
  have h : ({ s with handlers := (s.handlers.splitOff outer).2 } : Machine).Anchored a :=
    ⟨hs.store, hs.scopes, hs.current, hs.root,
      fun g hg => hs.handlers g (List.mem_of_mem_drop hg), hs.questions⟩
  exact h.inBody (hs.handlers f hf) _ _

theorem install (hs : s.Anchored a) (hf : a.Has s.store f.scope) : (s.install f).Anchored a :=
  ⟨hs.store, hs.scopes, hs.current, hs.root, List.forall_mem_cons.2 ⟨hf, hs.handlers⟩,
    hs.questions⟩

end Anchored

end Machine

end SignalLang
