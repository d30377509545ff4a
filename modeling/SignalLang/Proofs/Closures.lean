import SignalLang.Eval.Basic
import SignalLang.Proofs.NativeCalls
import SignalLang.Value.Matching

/-!
# Closures in values

What a program can call later on are the closures in its values.  This file says which closures a
value carries, and that reading, matching, storing and the functions of the library bring no other
ones about.

* `Value.Carries c v` : the closure `c` is the value `v` or stands somewhere in its fields.
* `Value.Only P v` : all closures in a value are of a kind.
* `Value.Runs bodies v`, `Store.Runs`, `Bindings.Runs` : the bodies of all closures are of a kind.
* `Host.Only`, `HostFunctions.Only` : all closures that a host makes up itself are of a kind.
-/

namespace SignalLang

variable {bodies : ExprId → Prop}

/-! ### Values -/

namespace Value

/-- A value is a closure or has it in its fields. -/
inductive Carries (c : Closure) : Value → Prop
  | self : Carries c (.closure c)
  | field {v fields n w} (hv : v.fields? = some fields) (hw : (n, w) ∈ fields)
      (h : Carries c w) : Carries c v

/-- All closures in a value are of a kind. -/
def Only (P : Closure → Prop) (v : Value) : Prop := ∀ c, v.Carries c → P c

/-- The bodies of all closures in a value are of a kind. -/
def Runs (bodies : ExprId → Prop) (v : Value) : Prop := ∀ c, v.Carries c → bodies c.body

variable {P Q : Closure → Prop}

theorem Only.mono {v : Value} (h : v.Only P) (hPQ : ∀ c, P c → Q c) : v.Only Q :=
  fun c hc => hPQ c (h c hc)

theorem only_closure {c : Closure} : (closure c).Only P ↔ P c := by
  refine ⟨fun h => h c .self, fun h d hd => ?_⟩
  cases hd with
  | self => exact h
  | field hv _ _ => cases hv

/-- A value other than a closure has only the closures in its fields. -/
theorem only_of_fields {v : Value} (hv : ∀ c, v ≠ .closure c)
    (h : ∀ fields, v.fields? = some fields → ∀ x ∈ fields, x.2.Only P) : v.Only P := by
  intro c hc
  cases hc with
  | self => exact absurd rfl (hv c)
  | field hf hw hc => exact h _ hf _ hw c hc

theorem Only.of_mem_fields {v : Value} (h : v.Only P) {fields : List (Name × Value)}
    (hv : v.fields? = some fields) {x : Name × Value} (hx : x ∈ fields) : x.2.Only P :=
  fun c hc => h c (.field hv hx hc)

theorem only_number (n : Float) : (number n).Only P := only_of_fields nofun nofun

theorem only_string (s : String) : (string s).Only P := only_of_fields nofun nofun

theorem only_action : action.Only P := only_of_fields nofun nofun

theorem only_native (f : NativeFunction) : (native f).Only P := only_of_fields nofun nofun

theorem only_constructor (type : TypeId) : (constructor type).Only P := only_of_fields nofun nofun

theorem only_object {identity : Option Identity} {type : TypeId} {fields : List (Name × Value)}
    (h : ∀ x ∈ fields, x.2.Only P) : (object identity type fields).Only P := by
  refine only_of_fields nofun ?_
  rintro _ ⟨⟩
  exact h

theorem only_signal {identity : Option Identity} {type : TypeId} {fields : List (Name × Value)}
    (h : ∀ x ∈ fields, x.2.Only P) : (signal identity type fields).Only P := by
  refine only_of_fields nofun ?_
  rintro _ ⟨⟩
  exact h

theorem only_boolean (b : Bool) : (boolean b).Only P := only_object (by simp)

theorem IsResult.only {v : Value} (h : v.IsResult) : v.Only P := by
  cases h with
  | number x => exact only_number x
  | string s => exact only_string s
  | boolean b => exact only_boolean b

theorem Only.field? {v w : Value} (h : v.Only P) {n : Name} (hw : v.field? n = some w) :
    w.Only P := by
  simp only [Value.field?, Option.bind_eq_some_iff] at hw
  obtain ⟨fields, hv, hw⟩ := hw
  obtain ⟨l₁, l₂, hfields, -⟩ := List.lookup_eq_some_iff.1 hw
  exact h.of_mem_fields (x := (n, w)) hv (by simp [hfields])

theorem Runs.mono {bodies' : ExprId → Prop} {v : Value} (h : v.Runs bodies)
    (hb : ∀ e, bodies e → bodies' e) : v.Runs bodies' :=
  Only.mono h fun _ => hb _

theorem runs_closure {c : Closure} : (closure c).Runs bodies ↔ bodies c.body :=
  only_closure (P := fun c => bodies c.body)

theorem runs_number (n : Float) : (number n).Runs bodies := only_number n

theorem runs_string (s : String) : (string s).Runs bodies := only_string s

theorem runs_action : action.Runs bodies := only_action

theorem runs_native (f : NativeFunction) : (native f).Runs bodies := only_native f

theorem runs_constructor (type : TypeId) : (constructor type).Runs bodies := only_constructor type

theorem runs_object {identity : Option Identity} {type : TypeId} {fields : List (Name × Value)}
    (h : ∀ x ∈ fields, x.2.Runs bodies) : (object identity type fields).Runs bodies :=
  only_object h

theorem runs_signal {identity : Option Identity} {type : TypeId} {fields : List (Name × Value)}
    (h : ∀ x ∈ fields, x.2.Runs bodies) : (signal identity type fields).Runs bodies :=
  only_signal h

theorem runs_boolean (b : Bool) : (boolean b).Runs bodies := only_boolean b

theorem Runs.field? {v w : Value} (h : v.Runs bodies) {n : Name} (hw : v.field? n = some w) :
    w.Runs bodies :=
  Only.field? h hw

end Value

/-! ### Bindings and matching -/

/-- The bodies of all closures in some bindings are of a kind. -/
def Bindings.Runs (bodies : ExprId → Prop) (bs : Bindings) : Prop := ∀ b ∈ bs, b.2.Runs bodies

/-- A pattern binds its name, if it has one, to the value that it matches. -/
theorem Value.eq_of_matchPattern? {v : Value} {pattern : Code.Pattern} {t : TypeTable}
    {bs : Bindings} (hm : v.matchPattern? pattern t = some bs) :
    bs = pattern.binding.toList.map fun n => (n, v) := by
  unfold Value.matchPattern? at hm
  split at hm
  · cases hm
  · split at hm
    · cases hm
      cases pattern.binding <;> rfl
    · cases hm

theorem Value.Runs.matchPattern? {v : Value} (h : v.Runs bodies) {pattern : Code.Pattern}
    {t : TypeTable} {bs : Bindings} (hm : v.matchPattern? pattern t = some bs) :
    bs.Runs bodies := by
  rw [Value.eq_of_matchPattern? hm]
  intro b hb
  obtain ⟨n, -, rfl⟩ := List.mem_map.1 hb
  exact h

/-! ### Stores -/

namespace Store

/-- The bodies of all closures in a store are of a kind. -/
def Runs (bodies : ExprId → Prop) (s : Store) : Prop :=
  ∀ cell ∈ s.cells, ∀ b ∈ cell.bindings, b.2.value.Runs bodies

theorem runs_empty : Store.empty.Runs bodies := by
  simp [Runs, Store.empty]

variable {s : Store}

theorem Runs.mono {bodies' : ExprId → Prop} (h : s.Runs bodies) (hb : ∀ e, bodies e → bodies' e) :
    s.Runs bodies' :=
  fun cell hcell b hmem => (h cell hcell b hmem).mono hb

theorem Runs.addScope (h : s.Runs bodies) (parent : Option ScopeId) :
    (s.addScope parent).2.Runs bodies := by
  intro cell hcell
  rcases Array.mem_push.1 hcell with hcell | rfl
  · exact h cell hcell
  · simp

theorem mem_putBinding {n : Name} {b : Binding} {bs : List (Name × Binding)} {x : Name × Binding}
    (hx : x ∈ putBinding n b bs) : x = (n, b) ∨ x ∈ bs := by
  induction bs with
  | nil => exact .inl (List.mem_singleton.1 hx)
  | cons c bs ih =>
    simp only [putBinding] at hx
    split at hx
    · rcases List.mem_cons.1 hx with rfl | hx
      · exact .inl rfl
      · exact .inr (List.mem_cons_of_mem _ hx)
    · rcases List.mem_cons.1 hx with rfl | hx
      · exact .inr List.mem_cons_self
      · exact (ih hx).imp_right (List.mem_cons_of_mem _)

theorem Runs.define (h : s.Runs bodies) (id : ScopeId) (n : Name) {v : Value}
    (hv : v.Runs bodies) (isVariable : Bool) : (s.define id n v isVariable).Runs bodies := by
  intro cell hcell b hb
  obtain ⟨i, hi, rfl⟩ := Array.mem_iff_getElem.1 hcell
  simp only [Store.define, Array.getElem_modify] at hb
  split at hb
  · rcases mem_putBinding hb with rfl | hb
    · exact hv
    · exact h _ (Array.getElem_mem _) b hb
  · exact h _ (Array.getElem_mem _) b hb

theorem Runs.defineAll (h : s.Runs bodies) (id : ScopeId) {bs : Bindings} (hbs : bs.Runs bodies) :
    (s.defineAll id bs).Runs bodies := by
  induction bs generalizing s with
  | nil => exact h
  | cons b bs ih =>
    obtain ⟨hb, hbs⟩ := List.forall_mem_cons.1 hbs
    exact ih (h.define id b.1 hb false) hbs

theorem Runs.lookup? (h : s.Runs bodies) {id : ScopeId} {n : Name} {v : Value}
    (hv : s.lookup? id n = some v) : v.Runs bodies := by
  simp only [Store.lookup?, Option.map_eq_some_iff, Option.bind_eq_some_iff] at hv
  obtain ⟨b, ⟨found, -, hb⟩, rfl⟩ := hv
  obtain ⟨l₁, l₂, hbindings, -⟩ := List.lookup_eq_some_iff.1 hb
  have hmem : (n, b) ∈ (s.cell found).bindings := by simp [hbindings]
  by_cases hfound : found.index < s.cells.size
  · refine h _ (Array.getElem_mem hfound) (n, b) ?_
    simpa [Store.cell, Array.getD_eq_getD_getElem?, hfound] using hmem
  · simp [Store.cell, Array.getD_eq_getD_getElem?, hfound] at hmem

theorem Runs.addInstance (h : s.Runs bodies) (isSignal : Bool) (type : TypeId)
    {fields : List (Name × Value)} (hfields : ∀ x ∈ fields, x.2.Runs bodies) :
    (s.addInstance isSignal type fields).1.Runs bodies ∧
      (s.addInstance isSignal type fields).2.Runs bodies := by
  unfold Store.addInstance
  refine ⟨?_, ?_⟩
  · cases isSignal with
    | false => exact Value.runs_object hfields
    | true => exact Value.runs_signal hfields
  · dsimp only
    split <;> exact h

end Store

/-! ### Hosts -/

theorem Host.questions_debug (h : Host) (log : HostLog) (line : String) :
    (h.debug log line).questions = log.questions := by
  unfold Host.debug
  split <;> rfl

/-- The closures that a host makes up are of a kind.  All others in its answers stem from the
signals it was asked about. -/
def Host.Only (P : Closure → Prop) (h : Host) : Prop :=
  ∀ earlier q v, h.answer earlier q = some v → ∀ c, v.Carries c →
    P c ∨ ∃ q' ∈ q :: earlier, q'.signal.Carries c

/-- The closures that the functions of a host make up are of a kind.  All others in the values that
they give stem from their arguments. -/
def HostFunctions.Only (P : Closure → Prop) (functions : HostFunctions) : Prop :=
  ∀ entry args v, functions entry args = .ok v → ∀ c, v.Carries c →
    P c ∨ ∃ w ∈ args, w.Carries c

/-- The closures that a host makes up have bodies of a kind. -/
def Host.Runs (bodies : ExprId → Prop) (h : Host) : Prop := h.Only fun c => bodies c.body

/-- The closures that the functions of a host make up have bodies of a kind. -/
def HostFunctions.Runs (bodies : ExprId → Prop) (functions : HostFunctions) : Prop :=
  functions.Only fun c => bodies c.body

/-- The closures that the host of a program makes up are of a kind, those in its answers as well as
those that its functions give. -/
structure Program.HostOnly (P : Closure → Prop) (p : Program) : Prop where
  answers : ∀ h, p.host = some h → h.Only P
  functions : p.functions.Only P

section

variable {P Q : Closure → Prop}

theorem Host.Only.mono {h : Host} (hh : h.Only P) (hPQ : ∀ c, P c → Q c) : h.Only Q :=
  fun earlier q v hv c hc => (hh earlier q v hv c hc).imp_left (hPQ c)

theorem Host.Only.answer {h : Host} (hh : h.Only P) {earlier : List Question} {q : Question}
    (hqs : ∀ q' ∈ q :: earlier, q'.signal.Only P) {v : Value} (hv : h.answer earlier q = some v) :
    v.Only P := by
  intro c hc
  rcases hh earlier q v hv c hc with hP | ⟨q', hq', hc'⟩
  · exact hP
  · exact hqs q' hq' c hc'

namespace HostFunctions.Only

variable {functions : HostFunctions}

theorem mono (h : functions.Only P) (hPQ : ∀ c, P c → Q c) : functions.Only Q :=
  fun entry args v hv c hc => (h entry args v hv c hc).imp_left (hPQ c)

/-- Calling a native function with such closures gives no others. -/
theorem call (h : functions.Only P) {f : NativeFunction} {args : List Value}
    (hargs : ∀ w ∈ args, w.Only P) {v : Value} (hv : f.call functions args = .ok v) :
    v.Only P := by
  rcases NativeFunction.ok_of_call hv with hv | hv
  · exact hv.only
  · obtain ⟨entry, hv⟩ := hv.exists
    intro c hc
    rcases h entry args v hv c hc with hP | ⟨w, hw, hc'⟩
    · exact hP
    · exact hargs w hw c hc'

end HostFunctions.Only

/-- A host without functions of its own makes up no closures with them. -/
theorem HostFunctions.only_none : HostFunctions.none.Only P := by
  rintro entry args _ ⟨⟩ c hc
  exact .inl (Value.only_action c hc)

theorem Program.HostOnly.mono {p : Program} (h : p.HostOnly P) (hPQ : ∀ c, P c → Q c) :
    p.HostOnly Q :=
  ⟨fun host hhost => (h.answers host hhost).mono hPQ, h.functions.mono hPQ⟩

end

end SignalLang
