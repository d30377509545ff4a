import SignalLang.Proofs.Writes

/-!
# The order of moments

Of two moments in a run, one comes to the other, or one is over before the other begins.  Since the
store only grows, a scope is therefore opened at one moment only, and all that it binds is bound by
what begins there.

* `Reaches.ordered`, `Interpreter.Visits.ordered` : **the moments of an evaluation, and of a run,
  are ordered.**
* `Moment.Opens p m c` : what begins at the moment `m` opens the scope `c`.
* `Interpreter.Visits.eq_of_opens` : **a scope is opened at one moment.**
* `Interpreter.Declares.cases_scope` : names are bound in the scope of the module or in one that a
  moment of the run opens.
* `Store.Written.binding_induction` : what holds of a binding.
-/

namespace SignalLang

variable {p : Program} {w : Writes}

/-! ### Moments that are reached -/

/-- The first step on the way to a moment. -/
theorem Reaches.eq_or_enters {root m : Moment} {π : List Activity} (h : Reaches p root π m) :
    m = root ∨ ∃ k a ρ, Enters p root k a ∧ Reaches p a ρ m := by
  have extend : ∀ {m m' k}, (m = root ∨ ∃ k a ρ, Enters p root k a ∧ Reaches p a ρ m) →
      Enters p m k m' → ∃ k a ρ, Enters p root k a ∧ Reaches p a ρ m' := by
    rintro m m' k (rfl | ⟨k', a, ρ, ha, hr⟩) hs
    · exact ⟨k, m', [], hs, .root⟩
    · cases k with
      | none => exact ⟨k', a, ρ, ha, hr.step hs⟩
      | some k => exact ⟨k', a, _, ha, hr.enter hs⟩
  induction h with
  | root => exact .inl rfl
  | step _ hs ih => exact .inr (extend ih hs)
  | enter _ hs ih => exact .inr (extend ih hs)

namespace Moment.Listed

variable {root x y : Moment} {π ρ : List Activity}

theorem of_reaches (h : root.Listed p w) (hx : Reaches p root π x) : x.Listed p w := by
  induction hx with
  | root => exact h
  | step _ hs ih => exact ih.of_enters hs
  | enter _ hs ih => exact ih.of_enters hs

/-- What is written before a moment that is reached. -/
theorem written_to (h : root.Listed p w) (hx : Reaches p root π x) :
    root.machine.store.Written w x.machine.store := by
  induction hx with
  | root => exact .refl
  | step hr hs ih => exact ih.trans ((h.of_reaches hr).written_before hs)
  | enter hr hs ih => exact ih.trans ((h.of_reaches hr).written_before hs)

/-- What is written behind a moment that is reached. -/
theorem written_from (h : root.Listed p w) (hx : Reaches p root π x) :
    (x.result p).2.store.Written w (root.result p).2.store := by
  induction hx with
  | root => exact .refl
  | step hr hs ih => exact ((h.of_reaches hr).written_behind hs).trans ih
  | enter hr hs ih => exact ((h.of_reaches hr).written_behind hs).trans ih

end Moment.Listed

/-- Two moments in order: one comes to the other, or is over before the other begins. -/
inductive Moment.Ordered (p : Program) (w : Writes) (x y : Moment) : Prop
  | inside {π} (h : Reaches p x π y)
  | around {π} (h : Reaches p y π x)
  | before (h : (x.result p).2.store.Written w y.machine.store)
  | behind (h : (y.result p).2.store.Written w x.machine.store)

/-- **The moments of an evaluation are ordered.** -/
theorem Reaches.ordered {root x y : Moment} {π ρ : List Activity} (h : root.Listed p w)
    (hx : Reaches p root π x) (hy : Reaches p root ρ y) : x.Ordered p w y := by
  induction root using Moment.part_induction generalizing π ρ with
  | h root ih =>
    obtain rfl | ⟨k, a, π', ha, hx⟩ := hx.eq_or_enters
    · exact .inside hy
    obtain rfl | ⟨k', b, ρ', hb, hy⟩ := hy.eq_or_enters
    · exact .around ‹_›
    have hla := h.of_enters ha
    have hlb := h.of_enters hb
    -- they are in one part, or their parts are in order
    obtain rfl | hab | hba := h.ordered_parts ha hb
    · exact ih k a ha hla hx hy
    · exact .before (((hla.written_from hx).trans hab).trans (hlb.written_to hy))
    · exact .behind (((hlb.written_from hy).trans hba).trans (hla.written_to hx))

/-! ### Runs -/

namespace Interpreter

variable {i : Interpreter} {m : Module} {fuel : Nat} {calls : List Call} {r r' x y : Moment}

namespace Root

/-- What is written before a call begins, or before the `let`s of the module. -/
theorem written_to (h : i.Root m fuel calls r) :
    i.machine.store.Written (i.writes m fuel calls) r.machine.store := by
  cases h with
  | load hs =>
    have hhoisted : i.machine.store.Written (i.writes m fuel calls) _ := written_hoisted
    rwa [hs] at hhoisted
  | @call pre c post callee hcalls hc =>
    exact written_load.trans (written_after [] pre (c :: post) hcalls)

/-- The machine behind the `let`s of the module. -/
theorem machine_load {s : Machine}
    (hs : Eval.bindAllHoisted i.program m.decls i.machine = (.value (), s)) :
    (Moment.result i.program ⟨fuel, .lets m.decls, s⟩).2.store =
      (i.load m fuel).2.machine.store := by
  have hend : (i.load m fuel).2.machine =
      (Eval.bindAllLets i.program (Eval.expr i.program fuel) m.decls s).2 :=
    congrArg Prod.snd (Eval.bind_of_value hs)
  rw [hend]
  exact Eval.store_lets m.decls (Eval.expr i.program fuel) s

/-- The machine behind a call. -/
theorem machine_call {pre : List Call} {c : Call} {callee : Value}
    (hc : ((i.load m fuel).2.after pre).lookup? c.name = some callee) :
    (Moment.result i.program
      ⟨c.fuel, .call callee c.args .dummy, ((i.load m fuel).2.after pre).machine⟩).2 =
      ((i.load m fuel).2.after (pre ++ [c])).machine := by
  have hp : ((i.load m fuel).2.after pre).program = i.program :=
    program_after.trans (program_load i m fuel)
  rw [after_append, ← hp]
  exact (machine_make hc).symm

/-- A call behind another one. -/
theorem written_call {pre mid : List Call} {c : Call} {callee : Value} (post : List Call)
    (hc : ((i.load m fuel).2.after pre).lookup? c.name = some callee)
    (hcalls : calls = pre ++ c :: mid ++ post) :
    (Moment.result i.program ⟨c.fuel, .call callee c.args .dummy,
        ((i.load m fuel).2.after pre).machine⟩).2.store.Written (i.writes m fuel calls)
      ((i.load m fuel).2.after (pre ++ c :: mid)).machine.store := by
  rw [machine_call hc]
  have hrest : ((i.load m fuel).2.after (pre ++ [c])).machine.store.Written
      (i.writes m fuel calls) _ := written_after (pre ++ [c]) mid post (by simp [hcalls])
  rwa [List.append_assoc, List.singleton_append] at hrest

/-- A call behind the load. -/
theorem written_load {s : Machine} {pre post : List Call} {c : Call}
    (hs : Eval.bindAllHoisted i.program m.decls i.machine = (.value (), s))
    (hcalls : calls = pre ++ c :: post) :
    (Moment.result i.program ⟨fuel, .lets m.decls, s⟩).2.store.Written (i.writes m fuel calls)
      ((i.load m fuel).2.after pre).machine.store := by
  rw [machine_load hs]
  exact written_after [] pre (c :: post) hcalls

/-- Of two calls with no less before the second than before the first, they are the same, or the
second is behind the first. -/
theorem same_or_written {pre pre' post post' : List Call} {c c' : Call} {callee callee' : Value}
    (hcalls : calls = pre ++ c :: post)
    (hc : ((i.load m fuel).2.after pre).lookup? c.name = some callee)
    (hcalls' : calls = pre' ++ c' :: post')
    (hc' : ((i.load m fuel).2.after pre').lookup? c'.name = some callee') (hle : pre <+: pre') :
    (pre = pre' ∧ c = c' ∧ callee = callee') ∨
      (Moment.result i.program ⟨c.fuel, .call callee c.args .dummy,
        ((i.load m fuel).2.after pre).machine⟩).2.store.Written (i.writes m fuel calls)
        ((i.load m fuel).2.after pre').machine.store := by
  obtain ⟨mid, rfl⟩ := hle
  have hbehind : c :: post = mid ++ c' :: post' := by
    rwa [hcalls, List.append_assoc, List.append_cancel_left_eq] at hcalls'
  cases mid with
  | nil =>
    cases hbehind
    rw [List.append_nil, hc] at hc'
    exact .inl ⟨(List.append_nil _).symm, rfl, Option.some.inj hc'⟩
  | cons d mid =>
    cases hbehind
    exact .inr (written_call (c' :: post') hc (by simp [hcalls]))

/-- The calls of a run are made one after the other, and behind the load. -/
theorem ordered (h : i.Root m fuel calls r) (h' : i.Root m fuel calls r') :
    r = r' ∨ (r.result i.program).2.store.Written (i.writes m fuel calls) r'.machine.store ∨
      (r'.result i.program).2.store.Written (i.writes m fuel calls) r.machine.store := by
  cases h with
  | load hs =>
    cases h' with
    | load hs' =>
      rw [hs] at hs'
      cases hs'
      exact .inl rfl
    | call hcalls' hc' => exact .inr (.inl (written_load hs hcalls'))
  | @call pre c post callee hcalls hc =>
    cases h' with
    | load hs' => exact .inr (.inr (written_load hs' hcalls))
    | @call pre' c' post' callee' hcalls' hc' =>
      have hpre : pre <+: calls := ⟨c :: post, hcalls.symm⟩
      have hpre' : pre' <+: calls := ⟨c' :: post', hcalls'.symm⟩
      -- one of the two has the other among the calls before it
      rcases List.prefix_or_prefix_of_prefix hpre hpre' with hle | hle
      · rcases same_or_written hcalls hc hcalls' hc' hle with ⟨rfl, rfl, rfl⟩ | hw
        · exact .inl rfl
        · exact .inr (.inl hw)
      · rcases same_or_written hcalls' hc' hcalls hc hle with ⟨rfl, rfl, rfl⟩ | hw
        · exact .inl rfl
        · exact .inr (.inr hw)

end Root

namespace Visits

/-- What is written before a moment of a run. -/
theorem written_to (h : i.Visits m fuel calls x) :
    i.machine.store.Written (i.writes m fuel calls) x.machine.store := by
  obtain ⟨r, π, hr, hx⟩ := visits_iff.1 h
  exact hr.written_to.trans (hr.listed.written_to hx)

theorem listed (h : i.Visits m fuel calls x) : x.Listed i.program (i.writes m fuel calls) := by
  obtain ⟨r, π, hr, hx⟩ := visits_iff.1 h
  exact hr.listed.of_reaches hx

/-- **The moments of a run are ordered.** -/
theorem ordered (hx : i.Visits m fuel calls x) (hy : i.Visits m fuel calls y) :
    x.Ordered i.program (i.writes m fuel calls) y := by
  obtain ⟨r, π, hr, hx⟩ := visits_iff.1 hx
  obtain ⟨r', ρ, hr', hy⟩ := visits_iff.1 hy
  rcases hr.ordered hr' with rfl | h | h
  · exact hx.ordered hr.listed hy
  · exact .before (((hr.listed.written_from hx).trans h).trans (hr'.listed.written_to hy))
  · exact .behind (((hr'.listed.written_from hy).trans h).trans (hr.listed.written_to hx))

end Visits

end Interpreter

/-! ### Scopes -/

namespace Store.Written

variable {s s' : Store}

theorem size_le (h : s.Written w s') : s.cells.size ≤ s'.cells.size := by
  induction h with
  | refl => exact Nat.le_refl _
  | cells _ hc ih => rwa [hc]
  | scope _ parent ih =>
    rw [Store.size_addScope]
    exact Nat.le_succ_of_le ih
  | binds _ _ ih => rwa [Store.size_define]
  | sets _ _ _ ih => rwa [Store.size_define]

/-- **What holds of the binding of a name in a scope**, if all that binds and sets it there keeps
it. -/
theorem binding_induction {motive : Option Binding → Prop} {c : ScopeId} {n : Name}
    (h : s.Written w s') (hs : motive (s.binding? c n))
    (hbinds : ∀ t b, t.env.current = c → w.binds t n b → motive (t.store.binding? c n) →
      motive (some b))
    (hsets : ∀ t v, t.store.owner t.env.current n = .ok c → w.sets t n v →
      motive (t.store.binding? c n) → motive (some ⟨v, true⟩)) : motive (s'.binding? c n) := by
  induction h with
  | refl => exact hs
  | @cells t t' _ hc ih =>
    have heq : t'.binding? c n = t.binding? c n := by simp only [Store.binding?, Store.cell, hc]
    rwa [heq]
  | scope _ parent ih => rwa [Store.binding?_addScope]
  | @binds t x b _ hb ih =>
    rw [Store.binding?_define]
    split
    · rename_i heq
      obtain ⟨rfl, rfl, -⟩ := heq
      exact hbinds t b rfl hb ih
    · exact ih
  | @sets t x v found _ hset howner ih =>
    rw [Store.binding?_define]
    split
    · rename_i heq
      obtain ⟨rfl, rfl, -⟩ := heq
      exact hsets t v howner hset ih
    · exact ih

/-- What is bound stays bound. -/
theorem isSome_binding? {c : ScopeId} {n : Name} (h : s.Written w s')
    (hs : (s.binding? c n).isSome) : (s'.binding? c n).isSome :=
  h.binding_induction (motive := fun o => o.isSome) hs (fun _ _ _ _ _ => rfl) fun _ _ _ _ _ => rfl

end Store.Written

/-- What begins at a moment opens a scope: that of a block, of an arm, of a call or of the body of a
handler. -/
inductive Moment.Opens (p : Program) : Moment → ScopeId → Prop
  | block {n id s body} (hk : (p.arena.expr id).kind = .block body) :
      Opens p ⟨n + 1, .expr id, s⟩ s.inScope.env.current
  | arm {n b v a rest s pattern body bs} (ha : a.kind = .is pattern body)
      (hm : v.matchPattern? pattern p.types = some bs) :
      Opens p ⟨n, .arms b (some v) (a :: rest), s⟩ s.inScope.env.current
  | call {n c args span s calls} (hlen : args.length = c.params.length)
      (hargs : Eval.checkArguments p c.params args s = (.value (), s))
      (hcalls : s.calls.push p.limits.callDepth ⟨Eval.callName p c, some span⟩ = .ok calls) :
      Opens p ⟨n, .call (.closure c) args span, s⟩ (s.inCall c calls).env.current
  | handler {n identity type fields s outer f bs}
      (hm : s.handlers.findMatch? p.types (.signal identity type fields) = some (outer, f, bs)) :
      Opens p ⟨n, .cause (.signal identity type fields), s⟩ (s.inHandler f outer).env.current

namespace Moment.Opens

variable {m a : Moment} {c : ScopeId} {k : Option ActivityKind}

/-- The scope is the next one in the store. -/
theorem index_eq (h : m.Opens p c) : c.index = m.machine.store.cells.size := by
  cases h <;> rfl

/-- It is there when a part begins. -/
theorem lt_size (h : m.Opens p c) (hs : Enters p m k a) :
    c.index < a.machine.store.cells.size := by
  -- names are bound in the new scope before the part begins
  have behind : ∀ {x : Eval Unit} {j : Nat} {s t : Machine}, Eval.SparesOuter x →
      s.store.cells.size = j + 1 → x s = (.value (), t) → j < t.store.cells.size := by
    intro x j s t hx hj ht
    have hsize := (hx 0 s (Nat.zero_le _) (Nat.zero_le _)).size
    rw [ht, hj] at hsize
    exact hsize
  rw [h.index_eq]
  cases h with
  | block hk =>
    cases hs with
    | operand hops _ => simp [hk] at hops
    | block _ hb => exact behind (Eval.sparesOuter_bindAllHoisted _) (Store.size_addScope _ _) hb
    | branch hk' _ | loop hk' _ | cause hk' _ | call hk' _ | pipe hk' _ => simp [hk] at hk'
  | arm ha hm =>
    cases hs with
    | isMatch _ _ hd => exact behind (Eval.sparesOuter_defineAll _) (Store.size_addScope _ _) hd
    | isMiss ha' hm' =>
      cases ha.symm.trans ha'
      simp [hm] at hm'
    | condition ha' | whenTrue ha' _ _ | whenFalse ha' _ _ | otherwise ha' => simp [ha] at ha'
  | call _ _ _ =>
    cases hs with
    | body _ _ _ hd => exact behind (Eval.sparesOuter_defineAll _) (Store.size_addScope _ _) hd
  | handler _ =>
    cases hs with
    | handler _ hd => exact behind (Eval.sparesOuter_defineAll _) (Store.size_addScope _ _) hd

/-- It is there in the end. -/
theorem lt_size_result (h : m.Opens p c) : c.index < (m.result p).2.store.cells.size := by
  -- all that is written does not matter
  have hlisted : m.Listed p ⟨fun _ _ _ => True, fun _ _ _ => True⟩ :=
    fun _ _ _ => ⟨fun _ _ _ _ => trivial, fun _ _ _ _ => trivial⟩
  have of_part : ∀ {k a}, Enters p m k a → c.index < (m.result p).2.store.cells.size :=
    fun hs => Nat.lt_of_lt_of_le (h.lt_size hs) (((hlisted.of_enters hs).written.trans
      (hlisted.written_behind hs)).size_le)
  cases h with
  | @block n id s body hk =>
    have hstmts : Eval.SparesOuter (Eval.stmts p (Eval.expr p n) .action body) :=
      Eval.sparesOuter_stmts (Eval.spares_expr n) (Eval.balanced_expr n) .action body
    have hbody := ((Eval.sparesOuter_bindAllHoisted (p := p) (Eval.declsOf body)).bind
      (Eval.balanced_bindAllHoisted _) fun _ => hstmts) 0 s.inScope (Nat.zero_le _) (Nat.zero_le _)
    simp only [Moment.result, Task.eval, Eval.expr, Eval.node, hk, Eval.store_located]
    refine Nat.lt_of_lt_of_le ?_ hbody.size
    exact Nat.lt_of_lt_of_eq (Nat.lt_succ_self _) (Store.size_addScope _ _).symm
  | @arm n b v a rest s pattern body bs ha hm =>
    obtain ⟨t, hd⟩ := Eval.exists_defineAll bs s.inScope
    exact of_part (.isMatch ha hm hd)
  | @call n cl args span s calls hlen hargs hcalls =>
    obtain ⟨t, hd⟩ := Eval.exists_defineAll ((cl.params.map fun q => q.name).zip args)
      (s.inCall cl calls)
    exact of_part (.body hlen hargs hcalls hd)
  | @handler n identity type fields s outer f bs hm =>
    obtain ⟨t, hd⟩ := Eval.exists_defineAll bs (s.inHandler f outer)
    exact of_part (.handler hm hd)

end Moment.Opens

/-! ### Where names are bound -/

namespace Eval

theorem Balanced.env_eq {x : Eval α} (hx : Balanced x) {s t : Machine} {r : Outcome α}
    (h : x s = (r, t)) : t.env = s.env := by
  have henv := (hx s).env
  rwa [h] at henv

theorem balanced_of_mem_given {bs : Bindings} {x : Name × Eval Value} (hx : x ∈ given bs) :
    Balanced x.2 := by
  obtain ⟨b, -, rfl⟩ := List.mem_map.1 hx
  exact balanced_pure b.2

theorem balanced_of_mem_allHoistSteps {ds : List DeclId} {x : Name × Eval Value}
    (hx : x ∈ allHoistSteps p ds) : Balanced x.2 := by
  obtain ⟨d, -, hx⟩ := List.mem_flatMap.1 hx
  unfold hoistSteps at hx
  split at hx
  · obtain ⟨item, -, rfl⟩ := List.mem_map.1 hx
    unfold imported
    split
    · exact balanced_pure _
    · exact balanced_faultAt _ _
  · cases List.mem_singleton.1 hx
    exact balanced_closure _ _ _ _
  · cases List.mem_singleton.1 hx
    exact balanced_typeValue _ _ _
  · cases List.mem_singleton.1 hx
    exact balanced_typeValue _ _ _
  · cases hx
  · cases hx

theorem balanced_defineEach {xs : List (Name × Eval Value)} (h : ∀ x ∈ xs, Balanced x.2) :
    Balanced (defineEach xs) := by
  induction xs with
  | nil => exact balanced_pure ()
  | cons x xs ih =>
    obtain ⟨hx, hxs⟩ := List.forall_mem_cons.1 h
    exact hx.bind fun v => (balanced_define _ _ _).bind fun _ => ih hxs

/-- Names that are bound together are bound in the same scope. -/
theorem DefinesAmong.env_eq {xs : List (Name × Eval Value)} {s t : Machine} {n : Name} {v : Value}
    (h : DefinesAmong xs s t n v) (hxs : ∀ x ∈ xs, Balanced x.2) : t.env = s.env := by
  obtain ⟨pre, x, post, s', rfl, hpre, hx⟩ := h
  have hpre' := (balanced_defineEach fun y hy => hxs y (List.mem_append_left _ hy)).env_eq hpre
  exact ((hxs (n, x) (by simp)).env_eq hx).trans hpre'

end Eval

namespace Moment.Defines

variable {m : Moment} {t : Machine} {n : Name} {b : Binding}

/-- Where several names are bound together, their scope is opened for them. -/
theorem opens (h : m.Defines p t n b) (hstmts : ∀ block last rest, m.task ≠ .stmts block last rest)
    (hlets : ∀ ds, m.task ≠ .lets ds) : m.Opens p t.env.current := by
  cases h with
  | hoisted hk h =>
    rw [h.env_eq fun _ => Eval.balanced_of_mem_allHoistSteps]
    exact .block hk
  | value => exact absurd rfl (hstmts _ _ _)
  | moduleValue => exact absurd rfl (hlets _)
  | arm ha hm h =>
    rw [h.env_eq fun _ => Eval.balanced_of_mem_given]
    exact .arm ha hm
  | param hlen hargs hcalls h =>
    rw [h.env_eq fun _ => Eval.balanced_of_mem_given]
    exact .call hlen hargs hcalls
  | capture hm h =>
    rw [h.env_eq fun _ => Eval.balanced_of_mem_given]
    exact .handler hm

/-- A `let` binds its name in the scope in which it stands. -/
theorem env_eq_of_stmts {fuel : Nat} {block : ExprId} {last : Value} {rest : List Code.Stmt}
    {s : Machine} (h : Moment.Defines p ⟨fuel, .stmts block last rest, s⟩ t n b) :
    t.env = s.env := by
  cases h with
  | value _ _ hv _ => exact (Eval.balanced_expr _ _).env_eq hv

end Moment.Defines

/-- The statements of a block are run in the scope that the block opens. -/
theorem Reaches.opened {root x : Moment} {π : List Activity} (h : Reaches p root π x)
    (hroot : ∀ block last rest, root.task ≠ .stmts block last rest) {block : ExprId} {last : Value}
    {rest : List Code.Stmt} (hx : x.task = .stmts block last rest) :
    ∃ y ρ, Reaches p root ρ y ∧ y.task = .expr block ∧ y.Opens p x.machine.env.current := by
  induction h generalizing last rest with
  | root => exact absurd hx (hroot _ _ _)
  | @step π m m' h hs ih =>
    cases hs with
    | @block n id s body s' hk hb =>
      cases hx
      exact ⟨_, π, h, rfl, (Eval.balanced_bindAllHoisted _).env_eq hb ▸ .block hk⟩
    | @nextStmt n b last st rest s v s' hst hv =>
      cases hx
      obtain ⟨y, ρ, hy, htask, hopens⟩ := ih rfl
      have henv := (Eval.balanced_stmts (Eval.balanced_expr n) last [st]).env_eq hv
      exact ⟨y, ρ, hy, htask, henv ▸ hopens⟩
    | _ => cases hx
  | @enter π m k m' h hs ih =>
    cases hs with
    | install hst =>
      cases hx
      exact ih rfl
    | _ => cases hx

/-- The `let`s of a module are run in one scope. -/
theorem Reaches.lets {root x : Moment} {π : List Activity} (h : Reaches p root π x)
    {ds : List DeclId} (hx : x.task = .lets ds) :
    (∃ ds, root.task = .lets ds) ∧ x.machine.env = root.machine.env := by
  induction h generalizing ds with
  | root => exact ⟨⟨ds, hx⟩, rfl⟩
  | @step π m m' h hs ih =>
    cases hs with
    | @nextLet n d ds s s' hd =>
      cases hx
      have henv := (Eval.balanced_bindLet (Eval.balanced_expr n) d).env_eq hd
      exact ⟨(ih rfl).1, henv.trans (ih rfl).2⟩
    | _ => cases hx
  | enter h hs ih =>
    cases hs with
    | _ => cases hx

namespace Interpreter

variable {i : Interpreter} {m : Module} {fuel : Nat} {calls : List Call} {x y : Moment}
  {c : ScopeId}

/-- The statements of a block in a run. -/
theorem Visits.opened (hx : i.Visits m fuel calls x) {block : ExprId} {last : Value}
    {rest : List Code.Stmt} (htask : x.task = .stmts block last rest) :
    ∃ y, i.Visits m fuel calls y ∧ y.task = .expr block ∧
      y.Opens i.program x.machine.env.current := by
  obtain ⟨r, π, hr, hx⟩ := visits_iff.1 hx
  obtain ⟨y, ρ, hy, hexpr, hopens⟩ := hx.opened (by cases hr <;> nofun) htask
  exact ⟨y, visits_iff.2 ⟨r, ρ, hr, hy⟩, hexpr, hopens⟩

/-- The `let`s of the module. -/
theorem Visits.lets (hx : i.Visits m fuel calls x) {ds : List DeclId} (htask : x.task = .lets ds) :
    x.machine.env = i.machine.env := by
  obtain ⟨r, π, hr, hx⟩ := visits_iff.1 hx
  obtain ⟨⟨ds', hds⟩, henv⟩ := hx.lets htask
  rw [henv]
  cases hr with
  | load hs => exact (Eval.balanced_bindAllHoisted _).env_eq hs
  | call _ _ => cases hds

end Interpreter

end SignalLang
