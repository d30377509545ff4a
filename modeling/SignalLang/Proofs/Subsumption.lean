import SignalLang.Proofs.TypeTests

/-!
# Subsumption

Where resolution lets a value of one type stand for another type, evaluation must not reject it.
Resolution follows the options of the expected type until it finds one that takes the given type at
once; a value of the given type is then of the type found, and so of the expected one, by way of the
same options.

* `TypeTable.Takes t source ty` : the type `ty` accepts `source` at once, looking through no option.
* `TypeTable.exists_chain_of_acceptsWithin` : a type accepts another one only if options lead to a
  type that takes it.
* `TypeTable.hasType_of_accepts` : **a value of a type is of every type that accepts this one.**
-/

namespace SignalLang

namespace TypeTable

variable {t : TypeTable} {ty mid last source : Ty} {v : Value}

/-! ### Chains -/

/-- One chain behind the other. -/
theorem ChainIn.trans {options : TypeId → Prop} {n n' : Nat} (h : t.ChainIn options n ty mid)
    (h' : t.ChainIn options n' mid last) : t.ChainIn options (n' + n) ty last := by
  induction h with
  | nil => exact h'
  | cons hid hk hty _ ih => exact .cons hid hk hty (ih h')

/-- In a table with at most 64 options, a value is of a type if any chain of options leads to a type
of which the value is. -/
theorem hasType_of_chain {n depth : Nat} (hoptions : t.options.length ≤ 64)
    (hchain : t.Chain n ty last) (hlast : v.matchesWithin t depth last) : v.hasType t ty := by
  obtain ⟨n', -, last', hchain', hlast'⟩ := Value.matchesWithin_iff_chain.1 hlast
  obtain ⟨k, hk, hshort⟩ := Chain.exists_le (hchain.trans hchain')
  exact Value.matchesWithin_iff_chain.2 ⟨k, Nat.le_trans hk hoptions, last', hshort, hlast'⟩

/-! ### Types that take another one -/

/-- A type accepts another one at once: it is the same or unknown, it admits everything or every
signal, or both are function types with as many parameters. -/
inductive Takes (t : TypeTable) : Ty → Ty → Prop
  | self (a : Ty) : Takes t a a
  | unknown (a : Ty) : Takes t a .unknown
  | anything (a : Ty) {id} (hk : (t.get id).kind = .anything) : Takes t a (.named id)
  | anySignal {s id} (hk : (t.get id).kind = .anySignal) (hs : t.isSignal s) :
    Takes t (.named s) (.named id)
  | function {params result params' result'} (hlen : params.length = params'.length) :
    Takes t (.function params' result') (.function params result)

theorem takes_of_eq (hsource : source ≠ .unknown)
    (h : ty.isUnknown || source.isUnknown || ty == source) : t.Takes source ty := by
  simp only [Ty.isUnknown, hsource, decide_false, Bool.or_false, Bool.or_eq_true,
    decide_eq_true_eq, beq_iff_eq] at h
  rcases h with rfl | rfl
  · exact .unknown source
  · exact .self ty

/-- Function types that are compatible have as many parameters. -/
theorem length_eq_of_compatibleBy {accept : Ty → Ty → Bool} {expected actual : Signature}
    (h : compatibleBy accept expected actual) : expected.params.length = actual.params.length := by
  simp only [compatibleBy, Bool.and_eq_true, beq_iff_eq] at h
  exact h.1.1

/-- **A type accepts another one only if options lead to a type that takes it at once.** -/
theorem exists_chain_of_acceptsWithin {depth : Nat} (hsource : source ≠ .unknown)
    (h : t.acceptsWithin depth ty source) : ∃ n last, t.Chain n ty last ∧ t.Takes source last := by
  induction depth generalizing ty with
  | zero => exact ⟨0, ty, .nil ty, takes_of_eq hsource h⟩
  | succ depth ih =>
    simp only [acceptsWithin] at h
    rcases Bool.or_eq_true_iff.1 h with heq | h
    · exact ⟨0, ty, .nil ty, takes_of_eq hsource heq⟩
    cases ty with
    | function params result =>
      cases source with
      | named s => cases h
      | function params' result' =>
        exact ⟨0, _, .nil _, .function (length_eq_of_compatibleBy h)⟩
    | named id =>
      cases hk : (t.get id).kind with
      | anything => exact ⟨0, _, .nil _, .anything source hk⟩
      | anySignal =>
        cases source with
        | named s => exact ⟨0, _, .nil _, .anySignal hk (by simpa [hk, Ty.named?] using h)⟩
        | function params result => simp [hk, Ty.named?] at h
      | option members =>
        simp only [hk, List.any_eq_true] at h
        obtain ⟨member, hmember, h⟩ := h
        obtain ⟨n, last, hchain, hlast⟩ := ih h
        exact ⟨n + 1, last, .cons trivial hk hmember hchain, hlast⟩
      | primitive | object _ | signal _ _ | unknown => simp [hk] at h

section

variable {arena : Arena} {interner : Interner} {refCount : Nat} {depth : Nat}

/-- A value of a type is of every type that takes this one at once. -/
theorem Takes.matchesWithin (h : t.Faithful arena (.builtin interner refCount) [])
    (hv : v.WellFormed t) (htakes : t.Takes source ty) (hs : v.matchesWithin t depth source) :
    v.matchesWithin t depth ty := by
  cases htakes with
  | self => exact hs
  | unknown =>
    have hk : (t.get .unknown).kind = .unknown := h.kind_builtin (by decide)
    simp [Value.matchesWithin, Ty.unknown, hk]
  | anything _ hk => simp [Value.matchesWithin, hk]
  | @anySignal s id hk hsignal =>
    have hid : v.type? = some s := by
      unfold isSignal at hsignal
      split at hsignal
      · rename_i hks
        simpa [Value.matchesWithin, hks] using hs
      · cases hsignal
    simp [Value.matchesWithin, hk, (hv.nominal h hid).2.1, hsignal]
  | function hlen =>
    simp only [Value.matchesWithin, beq_iff_eq] at hs ⊢
    rw [hs, hlen]

end

/-! ### Modules -/

/-- **A value of a type is of every type that accepts this one**, in the table of a module with at
most 64 options, whether the value can be called or not.  Of what stands for the unknown type
nothing is known. -/
theorem hasType_of_accepts {file : Tree.File} {interner₀ interner interner' : Interner} {m : Module}
    {imports : Imports} {types : TypeTable} {errors : List ResolveError} {target source : Ty}
    {v : Value} (hm : Module.ofTree file interner₀ = (.ok m, interner))
    (hres : m.resolve imports interner = (types, errors, interner'))
    (hoptions : types.options.length ≤ 64) (hsource : source ≠ .unknown) (hv : v.WellFormed types)
    (haccepts : types.accepts target source) (hs : v.hasType types source) :
    v.hasType types target := by
  obtain ⟨n, last, hchain, htakes⟩ := exists_chain_of_acceptsWithin hsource haccepts
  have hfaithful := Module.faithful_of_resolve hm hres
  exact hasType_of_chain hoptions hchain (htakes.matchesWithin hfaithful hv hs)

/-- `option A { B } option B { A, Function(Number): Anything }`, two options that list each other.
-/
def functionOptions : Tree.File :=
  let named (s : String) : Tree.TypeExpr := .named s .dummy
  ⟨"", [.option "A" [named "B"] .dummy,
    .option "B" [named "A", .function [named "Number"] (named "Anything") .dummy] .dummy]⟩

/-- The option `A` accepts a function that takes more and gives less than its only function type
says, and a function that takes one argument is of it. -/
theorem functionOptions_subsume : ∃ m interner types interner',
    (Module.ofTree functionOptions .new = (.ok m, interner) ∧
      m.resolve .core interner = (types, [], interner')) ∧
    types.options.length ≤ 64 ∧ Ty.function [.anything] .string ≠ .unknown ∧
    (Value.native Native.numberToString).WellFormed types ∧
    types.accepts (.named ⟨11⟩) (.function [.anything] .string) ∧
    (Value.native Native.numberToString).hasType types (.function [.anything] .string) ∧
    (Value.native Native.numberToString).hasType types (.named ⟨11⟩) := by
  have hok : (functionOptions.resolved? .core).any fun (_, types, _) =>
      types.options.length ≤ 64 ∧ types.accepts (.named ⟨11⟩) (.function [.anything] .string) ∧
        (Value.native Native.numberToString).hasType types (.function [.anything] .string) := by
    decide +kernel
  obtain ⟨⟨m, types, interner'⟩, hok, htests⟩ := (Option.any_eq_true _ _).1 hok
  obtain ⟨interner, hm, hres⟩ := Tree.File.of_resolved? hok
  obtain ⟨hoptions, haccepts, hs⟩ := of_decide_eq_true htests
  have hsource : Ty.function [.anything] .string ≠ .unknown := by decide
  have hv : (Value.native Native.numberToString).WellFormed types := .native _
  exact ⟨m, interner, types, interner', ⟨hm, hres⟩, hoptions, hsource, hv, haccepts, hs,
    hasType_of_accepts hm hres hoptions hsource hv haccepts hs⟩

end TypeTable

end SignalLang
