import SignalLang.Resolve.Expr
import Mathlib.Algebra.BigOperators.Group.Multiset.Basic

/-!
# Errors of placement

Resolution reports a `break`, a `return` or an `is` that is misplaced where it checks the expression
around it.  Nothing else that it does adds such an error: it looks up names, resolves written types
and compares types without regard to the place.

* `ResolveError.isPlacement` : an error of placement.
* `Resolve.Reports x new post` : the step `x` reports the errors of placement `new` and no others.
* `Resolve.Context.place` : what encloses the place of a context.
* `Resolve.reports_hoist` : **hoisting reports no error of placement, and stays in its place.**
-/

namespace SignalLang

/-- The error is that of a misplaced `break`, `return` or `is`. -/
def ResolveError.isPlacement (e : ResolveError) : Bool :=
  match e.problem with
  | .breakOutsideLoop | .returnOutsideFunction | .isWithoutSubject => true
  | _ => false

namespace Resolve

/-- The errors of placement so far. -/
def Findings.placements (s : Findings) : Multiset ResolveError :=
  s.errors.toList.filter ResolveError.isPlacement

/-- A step reports the errors of placement `new`, whatever was found before; then `post` holds of
the result. -/
def Reports (x : Check α) (new : Multiset ResolveError) (post : α → Prop) : Prop :=
  ∀ s, (x s).2.placements = new + s.placements ∧ post (x s).1

section

variable {α β : Type} {new new' : Multiset ResolveError} {post : β → Prop}

theorem reports_pure {r : β} (h : post r) : Reports (pure r) 0 post :=
  fun _ => ⟨(zero_add _).symm, h⟩

theorem reports_skip {r : β} : Reports (pure r) 0 fun _ => True := reports_pure trivial

/-- A step that reports nothing at all. -/
theorem reports_of_errors {x : Check α} (h : ∀ s, (x s).2.errors = s.errors) :
    Reports x 0 fun _ => True :=
  fun s => ⟨by rw [zero_add, Findings.placements, h, Findings.placements], trivial⟩

theorem Reports.bind {x : Check α} {f : α → Check β} {mid : α → Prop} (hx : Reports x new mid)
    (hf : ∀ r, mid r → Reports (f r) new' post) : Reports (x >>= f) (new + new') post := by
  intro s
  obtain ⟨hnew, hmid⟩ := hx s
  obtain ⟨hnew', hpost⟩ := hf _ hmid (x s).2
  refine ⟨hnew'.trans ?_, hpost⟩
  rw [hnew, add_comm new new', add_assoc]

/-- The second step reports nothing. -/
theorem Reports.andQuiet {x : Check α} {f : α → Check β} {mid : α → Prop} (hx : Reports x new mid)
    (hf : ∀ r, mid r → Reports (f r) 0 post) : Reports (x >>= f) new post := by
  simpa only [add_zero] using hx.bind hf

/-- The first step reports nothing. -/
theorem Reports.quietThen {x : Check α} {f : α → Check β} {mid : α → Prop} (hx : Reports x 0 mid)
    (hf : ∀ r, mid r → Reports (f r) new post) : Reports (x >>= f) new post := by
  simpa only [zero_add] using hx.bind hf

/-- Nothing is left to do but to give a result. -/
theorem Reports.andPure {x : Check α} {f : α → β} {mid : α → Prop} (hx : Reports x new mid) :
    Reports (x >>= fun r => pure (f r)) new fun _ => True :=
  hx.andQuiet fun _ _ => reports_skip

theorem reports_table_bind {f : TypeTable → Check β} (hf : ∀ t, Reports (f t) new post) :
    Reports (table >>= f) new post :=
  fun s => hf s.table s

theorem reports_report (problem : ResolveProblem) (span : Span) :
    Reports (report problem span)
      (if ResolveError.isPlacement ⟨problem, span⟩ then {⟨problem, span⟩} else 0)
      fun _ => True := by
  intro s
  refine ⟨?_, trivial⟩
  change ((s.errors.push _).toList.filter _ : Multiset ResolveError) = _
  rw [Array.toList_push, List.filter_append, List.filter_singleton, ← Multiset.coe_add, add_comm]
  cases ResolveError.isPlacement ⟨problem, span⟩ <;> rfl

theorem reports_other {problem : ResolveProblem} (span : Span)
    (h : ResolveError.isPlacement ⟨problem, span⟩ = false) :
    Reports (report problem span) 0 fun _ => True := by
  simpa only [h, Bool.false_eq_true, if_false] using reports_report problem span

theorem reports_record (f : TypeTable → TypeTable) : Reports (record f) 0 fun _ => True :=
  reports_of_errors fun _ => rfl

/-! ### Several steps -/

theorem reports_mapM {f : α → Check β} {as : List α}
    (hf : ∀ r ∈ as, Reports (f r) 0 fun _ => True) : Reports (as.mapM f) 0 fun _ => True := by
  induction as with
  | nil => exact reports_skip
  | cons r as ih =>
    obtain ⟨hr, has⟩ := List.forall_mem_cons.1 hf
    rw [List.mapM_cons]
    exact hr.quietThen fun _ _ => (ih has).andPure

theorem reports_forM {f : α → Check Unit} {new : α → Multiset ResolveError} (as : List α)
    (hf : ∀ r ∈ as, Reports (f r) (new r) fun _ => True) :
    Reports (as.forM f) (as.map new).sum fun _ => True := by
  induction as with
  | nil => exact reports_skip
  | cons r as ih =>
    obtain ⟨hr, has⟩ := List.forall_mem_cons.1 hf
    have hrest : ∀ _ : Unit, Reports (as.forM f) (as.map new).sum fun _ => True := fun _ => ih has
    exact hr.bind fun r _ => hrest r

end

/-! ### Places -/

/-- What encloses a place, as far as `break` and `return` are concerned: a loop of its function, and
a function. -/
structure Place where
  inLoop : Bool
  inFunction : Bool
deriving DecidableEq

/-- What encloses the place of a context. -/
def Context.place (c : Context) : Place := ⟨c.inLoop, c.inFunction⟩

/-- A step that gives a context reports nothing and stays in its place. -/
abbrev Stays (x : Check Context) (q : Place) : Prop := Reports x 0 fun c => c.place = q

variable {c : Context} {q : Place} {a : Arena}

theorem stays_pure (h : c.place = q) : Stays (pure c) q := reports_pure h

theorem stays_foldlM {α : Type} {f : Context → α → Check Context} (as : List α)
    (hf : ∀ c r, c.place = q → Stays (f c r) q) (hc : c.place = q) :
    Stays (as.foldlM f c) q := by
  induction as generalizing c with
  | nil => exact stays_pure hc
  | cons r as ih =>
    rw [List.foldlM_cons]
    exact (hf c r hc).quietThen fun c' hc' => ih hc'

theorem stays_declare (n : Name) (span : Span) (hc : c.place = q) : Stays (declare c n span) q := by
  unfold declare
  split
  · exact (reports_other span rfl).quietThen fun _ _ => stays_pure hc
  · exact stays_pure hc

/-! ### Written types -/

theorem reports_typeWithin (depth : Nat) (r : TypeRefId) :
    Reports (typeWithin a c depth r) 0 fun _ => True := by
  induction depth generalizing r with
  | zero => exact reports_skip
  | succ depth ih =>
    have hrecord : ∀ ty, Reports (do record fun t => t.recordRef r ty; return ty) 0
        fun _ => True := fun ty => (reports_record _).andPure
    simp only [typeWithin, typeNode]
    cases (a.typeRef r).kind with
    | named n =>
      dsimp only
      cases c.type? n with
      | some place => exact hrecord (.named place)
      | none => exact (reports_other _ rfl).quietThen fun _ _ => hrecord .unknown
    | function params result =>
      exact (reports_mapM fun q _ => ih q).quietThen fun tys _ => (ih result).quietThen
        fun ty _ => hrecord (.function tys ty)

theorem reports_typeRef (r : TypeRefId) : Reports (typeRef a c r) 0 fun _ => True :=
  reports_typeWithin _ r

theorem reports_typeRef? (r : Option TypeRefId) : Reports (typeRef? a c r) 0 fun _ => True := by
  cases r with
  | none => exact reports_skip
  | some r => exact reports_typeRef r

theorem stays_pattern (p : Code.Pattern) (hc : c.place = q) : Stays (pattern a c p) q := by
  refine (reports_typeRef p.typeRef).quietThen fun ty _ => ?_
  cases p.binding with
  | some n => exact stays_pure hc
  | none => exact stays_pure hc

/-! ### Hoisting -/

theorem stays_importItem (imports : Imports) (interner : Interner) (path : String)
    (item : Code.ImportItem) (hc : c.place = q) :
    Stays (importItem imports interner path c item) q := by
  refine (stays_declare _ _ hc).quietThen fun c' hc' => ?_
  cases imports.find? path (interner.text item.name) with
  | some signature => exact stays_pure hc'
  | none => exact (reports_other _ rfl).quietThen fun _ _ => stays_pure hc'

theorem stays_importDecl (imports : Imports) (interner : Interner) (d : DeclId)
    (hc : c.place = q) : Stays (importDecl a imports interner c d) q := by
  unfold importDecl
  split
  · exact stays_foldlM _ (fun c item hc => stays_importItem imports interner _ item hc) hc
  · exact stays_pure hc

theorem stays_placeType (d : DeclId) (hc : c.place = q) : Stays (placeType a c d) q := by
  unfold placeType
  dsimp only
  split
  · refine (stays_declare _ _ hc).quietThen fun c' hc' => ?_
    exact fun s => ⟨(zero_add _).symm, hc'⟩
  · exact stays_pure hc

theorem reports_fieldTypes (seen fields : List Code.Field) :
    Reports (fieldTypes a c seen fields) 0 fun _ => True := by
  induction fields generalizing seen with
  | nil => exact reports_skip
  | cons f fields ih =>
    have hrest : Reports (do
        let ty ← typeRef a c f.typeRef
        return ⟨f.name, ty⟩ :: (← fieldTypes a c (seen ++ [f]) fields)) 0 fun _ => True :=
      (reports_typeRef _).quietThen fun _ _ => (ih _).andPure
    unfold fieldTypes
    cases seen.find? fun g => g.name == f.name with
    | some first => exact (reports_other _ rfl).quietThen fun _ _ => hrest
    | none => exact hrest

theorem stays_defineType (d : DeclId) (hc : c.place = q) : Stays (defineType a c d) q := by
  unfold defineType
  refine reports_table_bind fun t => ?_
  split
  · exact stays_pure hc
  · split
    · exact (reports_fieldTypes _ _).quietThen fun _ _ => (reports_record _).quietThen
        fun _ _ => stays_pure hc
    · rename_i n fields result _
      have hdone : ∀ types ty id, Stays (do
          record fun t => t.setKind id (.signal types ty)
          return c.addValue n (instanceInfo id types)) q := fun _ _ _ =>
        (reports_record _).quietThen fun _ _ => stays_pure hc
      refine (reports_fieldTypes _ _).quietThen fun types _ => ?_
      cases result with
      | some r => exact (reports_typeRef r).quietThen fun _ _ => hdone _ _ _
      | none => exact hdone _ _ _
    · exact (reports_mapM fun r _ => reports_typeRef r).quietThen fun _ _ =>
        (reports_record _).quietThen fun _ _ => stays_pure hc
    · exact stays_pure hc

theorem stays_functionDecl (d : DeclId) (hc : c.place = q) : Stays (functionDecl a c d) q := by
  unfold functionDecl
  dsimp only
  split
  · refine (stays_declare _ _ hc).quietThen fun c' hc' => ?_
    refine (reports_mapM fun p _ => reports_typeRef? p.typeRef).quietThen fun params _ => ?_
    exact (reports_typeRef? _).quietThen fun _ _ => (reports_record _).quietThen
      fun _ _ => stays_pure hc'
  · exact stays_pure hc

/-- **Hoisting reports no error of placement, and stays in its place.** -/
theorem reports_hoist (imports : Imports) (interner : Interner) (ds : List DeclId)
    (hc : c.place = q) : Stays (hoist a imports interner c ds) q :=
  (stays_foldlM ds (fun _ d => stays_importDecl imports interner d) hc).quietThen fun _ hc =>
    (stays_foldlM ds (fun _ d => stays_placeType d) hc).quietThen fun _ hc =>
      (stays_foldlM ds (fun _ d => stays_defineType d) hc).quietThen fun _ hc =>
        stays_foldlM ds (fun _ d => stays_functionDecl d) hc

end Resolve

end SignalLang
