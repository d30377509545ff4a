import Mathlib.Data.List.Basic
import Mathlib.Data.List.Induction
import Mathlib.Data.List.TakeWhile
import Mathlib.Data.Nat.Digits.Defs
import SignalLang.Number
import SignalLang.Text.Quoted

/-!
# What literal tokens stand for

Translation scans the tokens of literals.  Here their grammar is written down, with the text or the
number for which each form stands, and it is shown that the scanners follow it.

* `Quoted.Denotes token text` : a string token stands for a text, its escapes resolved.
* `Decimal.Written cs d` : the characters `cs` write the decimal `d`.
* `Number.Denotes token x` : a number token stands for a finite number, its underscores dropped.
* `Quoted.decode_eq_some_iff`, `Number.ofToken?_eq_some_iff` : **a token is decoded if and only if
  it stands for something, and to just that.**
-/

namespace SignalLang

/-! ### String tokens -/

namespace Quoted

/-- What is written between the quotes of a string token, and what it stands for.  A backslash
escapes a quote, a backslash, `n` and `t`, and stands for itself elsewhere. -/
inductive Body : List Char → List Char → Prop
  | nil : Body [] []
  | quote {cs ds} : Body cs ds → Body ('\\' :: '"' :: cs) ('"' :: ds)
  | backslash {cs ds} : Body cs ds → Body ('\\' :: '\\' :: cs) ('\\' :: ds)
  | newline {cs ds} : Body cs ds → Body ('\\' :: 'n' :: cs) ('\n' :: ds)
  | tab {cs ds} : Body cs ds → Body ('\\' :: 't' :: cs) ('\t' :: ds)
  | unknown {c cs ds} : c ∉ ['"', '\\', 'n', 't'] → Body cs ds →
      Body ('\\' :: c :: cs) ('\\' :: c :: ds)
  | last : Body ['\\'] ['\\']
  | plain {c cs ds} : c ≠ '\\' → Body cs ds → Body (c :: cs) (c :: ds)

/-- A string token stands for a text. -/
def Denotes (token text : String) : Prop :=
  ∃ cs, token.toList = '"' :: cs ++ ['"'] ∧ Body cs text.toList

theorem body_unescape (cs : List Char) : Body cs (unescape cs) := by
  fun_induction unescape cs with
  | case1 => exact .nil
  | case2 => exact .last
  | case3 rest ih => exact .quote ih
  | case4 rest ih => exact .backslash ih
  | case5 rest ih => exact .newline ih
  | case6 rest ih => exact .tab ih
  | case7 c rest _ _ _ _ ih => exact .unknown (by simp_all) ih
  | case8 c rest _ _ _ _ _ _ ih => exact .plain (by rintro rfl; cases rest <;> simp_all) ih

theorem Body.unescape_eq {cs ds : List Char} (h : Body cs ds) : unescape cs = ds := by
  induction h with
  | nil => rfl
  | last => rfl
  | unknown hc _ ih =>
    simp only [List.mem_cons, List.not_mem_nil, or_false, not_or] at hc
    obtain ⟨hquote, hbackslash, hn, ht⟩ := hc
    simp [unescape, *]
  | plain hc _ ih => simp [unescape, *]
  | _ => simp [unescape, *]

theorem inner?_eq_some_iff {cs inner : List Char} :
    inner? cs = some inner ↔ cs = '"' :: inner ++ ['"'] := by
  constructor
  · intro h
    unfold inner? at h
    split at h
    · rename_i rest
      split at h
      · rename_i hlast
        cases h
        exact congrArg _ (List.dropLast_append_getLast? _ hlast).symm
      · cases h
    · cases h
  · rintro rfl
    exact inner?_quoted inner

/-- **A string token is decoded to the text for which it stands.** -/
theorem decode_eq_some_iff {token text : String} :
    decode token = some text ↔ Denotes token text := by
  simp only [decode, Option.map_eq_some_iff, inner?_eq_some_iff, Denotes]
  refine exists_congr fun cs => and_congr_right fun _ => ⟨?_, fun h => ?_⟩
  · rintro rfl
    rw [String.toList_ofList]
    exact body_unescape cs
  · rw [h.unescape_eq, String.ofList_toList]

end Quoted

/-! ### Decimals -/

namespace Decimal

/-- A row of digits. -/
def Row (ds : List Char) : Prop := ∀ c ∈ ds, c.isDigit

/-- The number that a row of digits denotes. -/
def value (ds : List Char) : Nat := Nat.ofDigits 10 (ds.reverse.map fun c => c.toNat - '0'.toNat)

/-- The places behind the point of a number, if there is one. -/
inductive Places : List Char → List Char → Prop
  | none : Places [] []
  | point {ds} : Row ds → Places ('.' :: ds) ds

/-- The power of ten at the end of a number, if there is one. -/
inductive Power : List Char → Int → Prop
  | none : Power [] 0
  | plain {e ds} : e ∈ ['e', 'E'] → Row ds → ds ≠ [] → Power (e :: ds) (value ds)
  | plus {e ds} : e ∈ ['e', 'E'] → Row ds → ds ≠ [] → Power (e :: '+' :: ds) (value ds)
  | minus {e ds} : e ∈ ['e', 'E'] → Row ds → ds ≠ [] → Power (e :: '-' :: ds) (-value ds)

/-- A decimal that starts with a digit, but for a minus sign.  Its places are digits like those
before the point, each of which takes one off the power of ten. -/
inductive Written : List Char → Decimal → Prop
  | positive {whole point places power e} : Row whole → whole ≠ [] → Places point places →
      Power power e →
      Written (whole ++ point ++ power) ⟨false, value (whole ++ places), e - places.length⟩
  | negative {cs n e} : Written cs ⟨false, n, e⟩ → Written ('-' :: cs) ⟨true, n, e⟩

theorem ofDigits_eq_value (ds : List Char) : ofDigits ds = value ds := by
  induction ds using List.reverseRecOn with
  | nil => rfl
  | append_singleton ds c ih =>
    rw [ofDigits, List.foldl_append, ← ofDigits, ih]
    simp only [value, List.foldl_cons, List.foldl_nil, List.reverse_append, List.reverse_singleton,
      List.singleton_append, List.map_cons, Nat.ofDigits_cons]
    omega

theorem digits?_eq_some_iff {ds : List Char} {n : Nat} :
    digits? ds = some n ↔ Row ds ∧ ds ≠ [] ∧ value ds = n := by
  simp only [digits?, ofDigits_eq_value, Option.ite_none_right_eq_some, Bool.and_eq_true,
    Bool.not_eq_true', List.isEmpty_eq_false_iff, List.all_eq_true, Option.some.injEq, Row]
  tauto

theorem exponent?_eq_some_iff {cs : List Char} {e : Int} : exponent? cs = some e ↔ Power cs e := by
  constructor
  · intro h
    unfold exponent? at h
    split at h
    · cases h
      exact .none
    · rename_i c cs
      split at h
      · rename_i hc
        have hmem : c ∈ ['e', 'E'] := by simpa using hc
        split at h <;>
          simp only [Option.bind_eq_bind, Option.map_eq_some_iff, Option.bind_eq_some_iff,
            Option.pure_def, Option.some.injEq, digits?_eq_some_iff] at h <;>
          obtain ⟨-, ⟨-, ⟨hrow, hne, rfl⟩, rfl⟩, rfl⟩ := h
        · exact .minus hmem hrow hne
        · exact .plus hmem hrow hne
        · exact .plain hmem hrow hne
      · cases h
  · intro h
    cases h with
    | none => rfl
    | minus he hrow hne | plus he hrow hne =>
      have hd := digits?_eq_some_iff.2 ⟨hrow, hne, rfl⟩
      rw [exponent?, if_pos (by simpa using he), hd]
      rfl
    | plain he hrow hne =>
      have hd := digits?_eq_some_iff.2 ⟨hrow, hne, rfl⟩
      rw [exponent?, if_pos (by simpa using he), hd]
      · rfl
      · rintro ds rfl
        cases hrow '-' List.mem_cons_self
      · rintro ds rfl
        cases hrow '+' List.mem_cons_self

/-- No digit follows: a row of digits before it ends there. -/
def NoDigit (rest : List Char) : Prop := ∀ c ∈ rest.head?, ¬ c.isDigit

theorem Row.takeWhile_append {ds rest : List Char} (hds : Row ds) (hrest : NoDigit rest) :
    (ds ++ rest).takeWhile Char.isDigit = ds := by
  rw [List.takeWhile_append_of_pos hds]
  cases rest with
  | nil => simp
  | cons c rest => rw [List.takeWhile_cons_of_neg (hrest c rfl), List.append_nil]

theorem Row.dropWhile_append {ds rest : List Char} (hds : Row ds) (hrest : NoDigit rest) :
    (ds ++ rest).dropWhile Char.isDigit = rest := by
  rw [List.dropWhile_append_of_pos hds]
  cases rest with
  | nil => simp
  | cons c rest => rw [List.dropWhile_cons_of_neg (hrest c rfl)]

theorem row_takeWhile (cs : List Char) : Row (cs.takeWhile Char.isDigit) :=
  fun _ hc => List.mem_takeWhile_imp hc

theorem noDigit_letter {e : Char} (he : e ∈ ['e', 'E']) (cs : List Char) : NoDigit (e :: cs) := by
  rintro c ⟨⟩
  obtain rfl | rfl : e = 'e' ∨ e = 'E' := by simpa using he
  · decide
  · decide

theorem Power.noDigit {cs : List Char} {e : Int} (h : Power cs e) : NoDigit cs := by
  cases h with
  | none => exact fun c hc => nomatch hc
  | plain he | plus he | minus he => exact noDigit_letter he _

theorem Power.ne_point {cs ds : List Char} {e : Int} (h : Power cs e) : cs ≠ '.' :: ds := by
  rintro rfl
  cases h with
  | plain he | plus he | minus he => simp at he

/-- The places behind a point, if one is next, and the rest. -/
def splitPlaces : List Char → List Char × List Char
  | '.' :: cs => (cs.takeWhile Char.isDigit, cs.dropWhile Char.isDigit)
  | cs => ([], cs)

theorem unsigned?_eq (negative : Bool) (cs : List Char) : unsigned? negative cs =
    let whole := cs.takeWhile Char.isDigit
    let (places, power) := splitPlaces (cs.dropWhile Char.isDigit)
    if whole.isEmpty && places.isEmpty then none
    else (exponent? power).map fun e => ⟨negative, value (whole ++ places), e - places.length⟩ := by
  simp only [← ofDigits_eq_value]
  rfl

theorem places_splitPlaces (cs : List Char) :
    ∃ point, Places point (splitPlaces cs).1 ∧ cs = point ++ (splitPlaces cs).2 := by
  unfold splitPlaces
  split
  · rename_i ds
    exact ⟨_, .point (row_takeWhile ds), congrArg _ List.takeWhile_append_dropWhile.symm⟩
  · exact ⟨_, .none, rfl⟩

theorem Places.splitPlaces_append {point places power : List Char} {e : Int}
    (h : Places point places) (hpower : Power power e) :
    splitPlaces (point ++ power) = (places, power) := by
  cases h with
  | none =>
    unfold splitPlaces
    split
    · rename_i heq
      exact absurd heq hpower.ne_point
    · rfl
  | point hrow =>
    simp only [List.cons_append, splitPlaces, hrow.takeWhile_append hpower.noDigit,
      hrow.dropWhile_append hpower.noDigit]

theorem Places.noDigit {point places power : List Char} {e : Int} (h : Places point places)
    (hpower : Power power e) : NoDigit (point ++ power) := by
  cases h with
  | none => exact hpower.noDigit
  | point =>
    rintro c ⟨⟩
    decide

/-- A number that starts with a digit is read as the grammar has it. -/
theorem unsigned?_eq_some_iff {negative : Bool} {c : Char} {cs : List Char} {d : Decimal}
    (hc : c.isDigit) : unsigned? negative (c :: cs) = some d ↔
      ∃ n e, d = ⟨negative, n, e⟩ ∧ Written (c :: cs) ⟨false, n, e⟩ := by
  rw [unsigned?_eq]
  constructor
  · intro h
    have hcs := List.takeWhile_append_dropWhile (p := Char.isDigit) (l := c :: cs)
    have hwhole := row_takeWhile (c :: cs)
    have hne : (c :: cs).takeWhile Char.isDigit ≠ [] := by simp [hc]
    generalize (c :: cs).takeWhile Char.isDigit = whole at *
    generalize (c :: cs).dropWhile Char.isDigit = rest at *
    obtain ⟨point, hplaces, hrest⟩ := places_splitPlaces rest
    rw [← hcs, hrest, ← List.append_assoc]
    simp only [List.isEmpty_eq_false_iff.2 hne, Bool.false_and, Bool.false_eq_true, if_false] at h
    obtain ⟨e, he, rfl⟩ := Option.map_eq_some_iff.1 h
    exact ⟨_, _, rfl, .positive hwhole hne hplaces (exponent?_eq_some_iff.1 he)⟩
  · rintro ⟨n, e, rfl, h⟩
    generalize c :: cs = text at h
    cases h with
    | positive hwhole hne hplaces hpower =>
      have hno := hplaces.noDigit hpower
      simp only [List.append_assoc, hwhole.takeWhile_append hno, hwhole.dropWhile_append hno,
        hplaces.splitPlaces_append hpower, List.isEmpty_eq_false_iff.2 hne, Bool.false_and,
        Bool.false_eq_true, if_false, exponent?_eq_some_iff.2 hpower, Option.map_some]

theorem Written.starts {text : List Char} {d : Decimal} (h : Written text d) :
    ∃ c cs, c.isDigit ∧ text = if d.negative then '-' :: c :: cs else c :: cs := by
  induction h with
  | positive hwhole hne =>
    obtain ⟨c, cs, rfl⟩ := List.exists_cons_of_ne_nil hne
    exact ⟨c, _, hwhole c List.mem_cons_self, rfl⟩
  | negative _ ih =>
    obtain ⟨c, cs, hc, rfl⟩ := ih
    exact ⟨c, cs, hc, rfl⟩

variable {c : Char} {cs : List Char} {d : Decimal}

theorem ofText?_of_digit (hc : c.isDigit) : ofText? (c :: cs) = unsigned? false (c :: cs) := by
  unfold ofText?
  split
  · rename_i heq
    cases heq
    cases hc
  · rename_i heq
    cases heq
    cases hc
  · rfl

theorem ofText?_eq_some_iff_of_digit (hc : c.isDigit) :
    ofText? (c :: cs) = some d ↔ Written (c :: cs) d := by
  rw [ofText?_of_digit hc, unsigned?_eq_some_iff hc]
  refine ⟨fun ⟨n, e, hd, hw⟩ => hd ▸ hw, fun hw => ?_⟩
  obtain ⟨negative, n, e⟩ := d
  cases negative with
  | false => exact ⟨n, e, rfl, hw⟩
  | true =>
    obtain ⟨c', cs', -, heq⟩ := hw.starts
    cases heq
    cases hc

theorem ofText?_eq_some_iff_of_minus (hc : c.isDigit) :
    ofText? ('-' :: c :: cs) = some d ↔ Written ('-' :: c :: cs) d := by
  rw [ofText?, unsigned?_eq_some_iff hc]
  refine ⟨fun ⟨n, e, hd, hw⟩ => hd ▸ hw.negative, fun hw => ?_⟩
  obtain ⟨negative, n, e⟩ := d
  generalize htext : '-' :: c :: cs = text at hw
  cases hw with
  | positive hwhole hne =>
    obtain ⟨c', cs', hc', heq⟩ := (Written.positive hwhole hne ‹_› ‹_›).starts
    cases htext.trans heq
    cases hc'
  | negative hw =>
    cases htext
    exact ⟨n, e, rfl, hw⟩

end Decimal

/-! ### Number tokens -/

namespace Number

/-- A number token stands for a finite number.  Without its underscores it writes a decimal, which
is rounded to double precision. -/
def Denotes (token : String) (x : Float) : Prop :=
  ∃ d, Decimal.Written (token.toList.filter (· ≠ '_')) d ∧ d.toFloat = x ∧ x.isFinite

variable {c : Char} {cs : List Char}

theorem unsignedPart_of_digit (hc : c.isDigit) : unsignedPart (c :: cs) = c :: cs := by
  unfold unsignedPart
  split
  · rename_i heq
    cases heq
    cases hc
  · rename_i heq
    cases heq
    cases hc
  · rfl

theorem toLower_of_digit (hc : c.isDigit) : c.toLower = c := by
  have hle : c.val ≤ '9'.val := by
    simp only [Char.isDigit, Bool.and_eq_true, decide_eq_true_eq] at hc
    exact hc.2
  exact dif_neg fun h => absurd (UInt32.le_trans h.1 hle) (by decide)

/-- Infinities and the undefined number have names that start with a letter. -/
theorem parse?_of_ne {text : List Char} (h : unsignedPart text = c :: cs) (hi : c.toLower ≠ 'i')
    (hn : c.toLower ≠ 'n') :
    parse? (String.ofList text) = (Decimal.ofText? text).map Decimal.toFloat := by
  simp only [parse?, String.toList_ofList, h, List.map_cons]
  split <;> simp_all

theorem parse?_of_digit {text : List Char} (h : unsignedPart text = c :: cs) (hc : c.isDigit) :
    parse? (String.ofList text) = (Decimal.ofText? text).map Decimal.toFloat := by
  refine parse?_of_ne h ?_ ?_ <;>
  · rw [toLower_of_digit hc]
    rintro rfl
    cases hc

theorem parse?_minus_minus (cs : List Char) : parse? (String.ofList ('-' :: '-' :: cs)) = none := by
  have hpart : unsignedPart ('-' :: '-' :: cs) = '-' :: cs := rfl
  rw [parse?_of_ne hpart (by decide) (by decide)]
  rfl

/-- Number tokens have at most one minus sign. -/
theorem written_of_parse? {signs : List Char} {x : Float} (hsigns : ∀ s ∈ signs, s = '-')
    (hc : c.isDigit) (h : parse? (String.ofList (signs ++ c :: cs)) = some x) :
    ∃ d, Decimal.Written (signs ++ c :: cs) d ∧ d.toFloat = x := by
  match signs with
  | [] =>
    rw [List.nil_append, parse?_of_digit (unsignedPart_of_digit hc) hc] at h
    obtain ⟨d, hd, hx⟩ := Option.map_eq_some_iff.1 h
    exact ⟨d, (Decimal.ofText?_eq_some_iff_of_digit hc).1 hd, hx⟩
  | [s] =>
    obtain rfl := hsigns s List.mem_cons_self
    rw [List.singleton_append, parse?_of_digit rfl hc] at h
    obtain ⟨d, hd, hx⟩ := Option.map_eq_some_iff.1 h
    exact ⟨d, (Decimal.ofText?_eq_some_iff_of_minus hc).1 hd, hx⟩
  | s :: s' :: signs =>
    obtain rfl := hsigns s List.mem_cons_self
    obtain rfl := hsigns s' (List.mem_cons_of_mem _ List.mem_cons_self)
    rw [List.cons_append, List.cons_append, parse?_minus_minus] at h
    cases h

theorem parse?_of_written {text : List Char} {d : Decimal} (h : Decimal.Written text d) :
    parse? (String.ofList text) = some d.toFloat := by
  obtain ⟨c, cs, hc, rfl⟩ := h.starts
  split at h
  · rw [if_pos ‹_›, parse?_of_digit rfl hc, (Decimal.ofText?_eq_some_iff_of_minus hc).2 h]
    rfl
  · rw [if_neg ‹_›, parse?_of_digit (unsignedPart_of_digit hc) hc,
      (Decimal.ofText?_eq_some_iff_of_digit hc).2 h]
    rfl

theorem dropWhile_minus_of_written {text : List Char} {d : Decimal} (h : Decimal.Written text d) :
    ∃ c cs, c.isDigit ∧ text.dropWhile (· = '-') = c :: cs := by
  obtain ⟨c, cs, hc, rfl⟩ := h.starts
  have hcs : (c :: cs).dropWhile (· = '-') = c :: cs := List.dropWhile_cons_of_neg fun h => by
    obtain rfl : c = '-' := by simpa using h
    cases hc
  refine ⟨c, cs, hc, ?_⟩
  split
  · rw [List.dropWhile_cons_of_pos (by decide), hcs]
  · exact hcs

/-- **A number token is read as the number for which it stands.** -/
theorem ofToken?_eq_some_iff {token : String} {x : Float} :
    ofToken? token = some x ↔ Denotes token x := by
  simp only [ofToken?, Denotes]
  generalize token.toList.filter (· ≠ '_') = text
  constructor
  · intro h
    split at h
    · rename_i c cs hrest
      split at h
      · rename_i hc
        obtain ⟨hparse, hfinite⟩ := Option.filter_eq_some_iff.1 h
        have htext := List.takeWhile_append_dropWhile (p := (· = '-')) (l := text)
        rw [hrest] at htext
        rw [← htext] at hparse ⊢
        obtain ⟨d, hw, hx⟩ := written_of_parse?
          (fun s hs => by simpa using List.mem_takeWhile_imp hs) hc hparse
        exact ⟨d, hw, hx, hfinite⟩
      · cases h
    · cases h
  · rintro ⟨d, hw, rfl, hfinite⟩
    obtain ⟨c, cs, hc, hrest⟩ := dropWhile_minus_of_written hw
    simp only [hrest, hc, if_true, parse?_of_written hw, Option.filter_some, hfinite]

end Number

end SignalLang
