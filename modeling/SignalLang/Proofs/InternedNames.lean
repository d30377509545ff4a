import Mathlib.Algebra.BigOperators.Fin
import Mathlib.Data.Finset.Dedup
import Mathlib.Data.Fintype.BigOperators
import SignalLang.Proofs.Translation

/-!
# Interned names

A sequence of strings is interned one by one, from a new interner on.  What a call gives is the name
of its string and of no other, in whichever call it is asked for again, and the name can be looked
up from then on.  A shard has room for the strings whose positions fit into the 28 low bits of a
packed name; while no shard is asked for more, no call fails, and packed names tell strings apart as
well.

* `Name.code_inj` : shard and position share one word.
* `Interner.tryIntern` : interning with the room of the shards taken into account.
* `Interner.toFinset_texts` : a shard holds those strings asked for that belong there.
* `Interner.Counts` : the counter agrees with the shards; `Interner.Counts.intern` : a call keeps it
  so.
* `Interner.names_stable` : **names and strings determine each other throughout a sequence of calls,
  and the counter, the shards and the distinct strings asked for agree on how many there are.**
-/

namespace SignalLang

/-! ### Packed names -/

namespace Name

/-- The last position in a shard for which there are bits. -/
def maxLocal : Nat := 0x0FFFFFFF

theorem code_lt {n : Name} (h : n.index ≤ maxLocal) : n.code < 2 ^ 32 := by
  have hshard := n.shard.isLt
  simp only [code, maxLocal] at h ⊢
  omega

theorem shard_code {n : Name} (h : n.index ≤ maxLocal) : n.code >>> 28 = n.shard.val := by
  rw [Nat.shiftRight_eq_div_pow]
  simp only [code, maxLocal] at h ⊢
  omega

theorem index_code {n : Name} (h : n.index ≤ maxLocal) : n.code &&& maxLocal = n.index := by
  rw [show maxLocal = 2 ^ 28 - 1 from rfl, Nat.and_two_pow_sub_one_eq_mod]
  simp only [code, maxLocal] at h ⊢
  omega

theorem code_inj {n n' : Name} (h : n.index ≤ maxLocal) (h' : n'.index ≤ maxLocal) :
    n.code = n'.code ↔ n = n' := by
  refine ⟨fun heq => ?_, fun heq => heq ▸ rfl⟩
  have hshard : n.shard = n'.shard := Fin.ext (by rw [← shard_code h, ← shard_code h', heq])
  have hindex : n.index = n'.index := by rw [← index_code h, ← index_code h', heq]
  cases n
  cases n'
  simp_all

end Name

/-! ### Shards -/

namespace Shard

/-- No string stands twice in a shard. -/
theorem nodup_texts (sh : Shard) : sh.texts.toList.Nodup := by
  rw [List.nodup_iff_injective_get]
  intro i j hij
  have hi : sh.texts[i.val]? = some (sh.texts.toList.get i) := by simp
  have hj : sh.texts[j.val]? = some (sh.texts.toList.get j) := by simp
  rw [← sh.agrees] at hi hj
  exact Fin.ext (Option.some.inj (hi.symm.trans (hij ▸ hj)))

theorem index_eq_none_iff (sh : Shard) (s : String) : sh.index[s]? = none ↔ s ∉ sh.texts := by
  rw [Array.mem_iff_getElem?, not_exists, Option.eq_none_iff_forall_ne_some]
  exact forall_congr' fun i => not_congr (sh.agrees s i)

/-- Interning a string that is there leaves the shard as it is. -/
theorem intern_of_mem {sh : Shard} {s : String} (h : s ∈ sh.texts) : (sh.intern s).2 = sh := by
  unfold intern
  split
  · rfl
  · rename_i hnew
    exact absurd h ((sh.index_eq_none_iff s).1 hnew)

/-- A new string goes to the end. -/
theorem texts_intern_of_notMem {sh : Shard} {s : String} (h : s ∉ sh.texts) :
    (sh.intern s).2.texts = sh.texts.push s := by
  unfold intern
  split
  · rename_i i hi
    rw [(sh.index_eq_none_iff s).2 h] at hi
    cases hi
  · rfl

theorem size_texts_intern (sh : Shard) (s : String) :
    (sh.intern s).2.texts.size = sh.texts.size + if s ∈ sh.texts then 0 else 1 := by
  split
  · rw [intern_of_mem ‹_›, Nat.add_zero]
  · rw [texts_intern_of_notMem ‹_›, Array.size_push]

theorem mem_texts_intern {sh : Shard} {s s' : String} :
    s' ∈ (sh.intern s).2.texts ↔ s' ∈ sh.texts ∨ s' = s := by
  by_cases h : s ∈ sh.texts
  · rw [intern_of_mem h]
    exact ⟨.inl, fun h' => h'.elim id fun heq => heq ▸ h⟩
  · rw [texts_intern_of_notMem h, Array.mem_push]

end Shard

/-! ### The strings held -/

namespace Interner

theorem shards_intern (t : Interner) (s : String) (k : Fin 16) :
    (t.intern s).2.shards[k] = if k = shardOf s then (t.shards[k].intern s).2 else t.shards[k] := by
  simp only [intern, Fin.getElem_fin, Vector.getElem_set, Fin.ext_iff, eq_comm]
  split
  · rename_i hk
    simp only [hk]
  · rfl

/-- A shard holds what it held before and what was asked for and belongs there. -/
theorem mem_texts_internAll {t : Interner} {ss : List String} {k : Fin 16} {s : String} :
    s ∈ (t.internAll ss).shards[k].texts ↔ s ∈ t.shards[k].texts ∨ s ∈ ss ∧ shardOf s = k := by
  induction ss generalizing t with
  | nil => simp [internAll]
  | cons x rest ih =>
    rw [internAll, List.foldl_cons, ← internAll, ih, shards_intern]
    split
    · rename_i hk
      rw [Shard.mem_texts_intern, List.mem_cons, or_assoc]
      exact or_congr_right ⟨fun h => h.elim (fun heq => ⟨.inl heq, heq ▸ hk.symm⟩)
          fun h => ⟨.inr h.1, h.2⟩, fun h => h.1.elim .inl fun hrest => .inr ⟨hrest, h.2⟩⟩
    · rename_i hk
      rw [List.mem_cons]
      refine or_congr_right ⟨fun h => ⟨.inr h.1, h.2⟩, fun h => ⟨h.1.resolve_left ?_, h.2⟩⟩
      rintro rfl
      exact hk h.2.symm

/-- The strings for which an interner was asked: those of a new one, then a sequence of others. -/
def asked (ss : List String) : List String := "" :: reserved ++ ss

/-- In the first shard of all there is nothing but the empty string. -/
theorem mem_texts_blank {k : Fin 16} {s : String} :
    s ∈ blank.shards[k].texts ↔ s = "" ∧ shardOf s = k := by
  have hempty : shardOf "" = 0 := by decide +kernel
  simp only [blank, Fin.getElem_fin, Vector.getElem_set, Vector.getElem_replicate]
  split
  · rename_i hk
    obtain rfl : 0 = k := Fin.ext hk
    simp only [Shard.push, Shard.empty, Array.mem_push, Array.not_mem_empty, false_or]
    exact ⟨fun h => ⟨h, h ▸ hempty⟩, fun h => h.1⟩
  · rename_i hk
    simp only [Shard.empty, Array.not_mem_empty, false_iff, not_and]
    rintro rfl rfl
    exact hk (congrArg Fin.val hempty).symm

/-- A shard holds those strings asked for that belong there. -/
theorem toFinset_texts (ss : List String) (k : Fin 16) :
    (new.internAll ss).shards[k].texts.toList.toFinset =
      (asked ss).toFinset.filter fun s => shardOf s = k := by
  ext s
  have hnew : new.internAll ss = blank.internAll (reserved ++ ss) := List.foldl_append.symm
  rw [List.mem_toFinset, Array.mem_toList_iff, hnew, mem_texts_internAll, mem_texts_blank,
    ← or_and_right, Finset.mem_filter, List.mem_toFinset, asked, List.cons_append, List.mem_cons]

/-- How many strings a shard holds. -/
theorem size_texts (ss : List String) (k : Fin 16) :
    (new.internAll ss).shards[k].texts.size =
      ((asked ss).toFinset.filter fun s => shardOf s = k).card := by
  rw [← toFinset_texts, List.toFinset_card_of_nodup (Shard.nodup_texts _), Array.length_toList]

/-! ### The counter -/

/-- The counter tells how many strings the shards hold. -/
def Counts (t : Interner) : Prop := t.size = ∑ k : Fin 16, t.shards[k].texts.size

theorem counts_blank : blank.Counts := by
  rw [Counts]
  decide +kernel

/-- The counter goes up exactly where a shard gets one more string. -/
theorem Counts.intern {t : Interner} (h : t.Counts) (s : String) : (t.intern s).2.Counts := by
  have hknown : (t.shards[shardOf s].index[s]?).isSome ↔ s ∈ t.shards[shardOf s].texts := by
    rw [Option.isSome_iff_ne_none, Ne, Shard.index_eq_none_iff, not_not]
  have hcount : (t.intern s).2.size =
      t.size + if s ∈ t.shards[shardOf s].texts then 0 else 1 := by
    simp only [size, Interner.intern, hknown]
    split <;> rfl
  have hshard (k : Fin 16) : (t.intern s).2.shards[k].texts.size = t.shards[k].texts.size +
      if k = shardOf s then (if s ∈ t.shards[shardOf s].texts then 0 else 1) else 0 := by
    rw [shards_intern]
    by_cases hk : k = shardOf s
    · rw [if_pos hk, if_pos hk, Shard.size_texts_intern, hk]
    · rw [if_neg hk, if_neg hk, Nat.add_zero]
  rw [Counts, hcount, h, Finset.sum_congr rfl fun k _ => hshard k, Finset.sum_add_distrib,
    Finset.sum_ite_eq', if_pos (Finset.mem_univ _)]

theorem Counts.internAll {t : Interner} (h : t.Counts) (ss : List String) :
    (t.internAll ss).Counts := by
  induction ss generalizing t with
  | nil => exact h
  | cons s rest ih => exact ih (h.intern s)

theorem counts_new : new.Counts := counts_blank.internAll reserved

theorem size_internAll (ss : List String) :
    (new.internAll ss).size = (asked ss).toFinset.card := by
  have hshard : Set.MapsTo shardOf (asked ss).toFinset (Finset.univ : Finset (Fin 16)) :=
    fun s _ => Finset.mem_coe.2 (Finset.mem_univ (shardOf s))
  rw [counts_new.internAll ss, Finset.card_eq_sum_card_fiberwise hshard]
  exact Finset.sum_congr rfl fun k _ => size_texts ss k

/-! ### Sequences of calls -/

theorem internAll_append (t : Interner) (ss ss' : List String) :
    t.internAll (ss ++ ss') = (t.internAll ss).internAll ss' :=
  List.foldl_append

theorem find?_internAll {t : Interner} {s : String} {n : Name} (h : t.find? s = some n)
    (ss : List String) : (t.internAll ss).find? s = some n := by
  induction ss generalizing t with
  | nil => exact h
  | cons s' rest ih => exact ih (find?_intern h s')

/-- A shard has no room for one more string. -/
structure ShardOverflow where
  shard : Fin 16
  count : Nat

/-- What is reported about a full shard. -/
def ShardOverflow.message (e : ShardOverflow) : String :=
  s!"interner shard {e.shard.val} exceeded capacity: {e.count} strings, max is {Name.maxLocal}"

/-- The name of a string, and the interner that knows it; unless the string is new and there is no
position for it. -/
def tryIntern (t : Interner) (s : String) : Except ShardOverflow (Name × Interner) :=
  let count := (t.shards.get (shardOf s)).texts.size
  if (t.find? s).isSome ∨ count ≤ Name.maxLocal then .ok (t.intern s)
  else .error ⟨shardOf s, count⟩

/-- The interner behind the first `i` calls of a sequence. -/
def after (ss : List String) (i : Nat) : Interner := new.internAll (ss.take i)

/-- The name that call `i` of a sequence gives. -/
def given (ss : List String) (i : Fin ss.length) : Name := ((after ss i).intern ss[i]).1

/-- No shard has more strings to hold than there are positions for. -/
def Fit (ss : List String) : Prop :=
  ∀ k, ((asked ss).toFinset.filter fun s => shardOf s = k).card ≤ Name.maxLocal + 1

section Sequence

variable {ss : List String}

theorem after_succ (i : Fin ss.length) : after ss (i + 1) = ((after ss i).intern ss[i]).2 := by
  rw [after, ← List.take_append_getElem i.isLt, internAll_append]
  rfl

theorem after_of_le {i j : Nat} (h : i ≤ j) :
    after ss j = (after ss i).internAll ((ss.take j).drop i) := by
  have htake : ss.take i = (ss.take j).take i := by rw [List.take_take, Nat.min_eq_left h]
  rw [after, after, ← internAll_append, htake, List.take_append_drop]

/-- What a call gave is found from then on. -/
theorem find?_after (i : Fin ss.length) {j : Nat} (h : i.val < j) :
    (after ss j).find? ss[i] = some (given ss i) := by
  rw [after_of_le (Nat.succ_le_of_lt h), after_succ]
  exact find?_internAll (find?_intern_self _ _) _

/-- A name stands for one string, and a string has one name, whichever calls gave them. -/
theorem given_eq_iff (i j : Fin ss.length) : given ss i = given ss j ↔ ss[i] = ss[j] := by
  have hi := find?_after i i.isLt
  have hj := find?_after j j.isLt
  refine ⟨fun h => ?_, fun h => ?_⟩
  · have hs := text?_of_find? hi
    rw [h, text?_of_find? hj] at hs
    exact (Option.some.inj hs).symm
  · rw [h, hj] at hi
    exact (Option.some.inj hi).symm

/-- The empty string has its name before the first call. -/
theorem find?_empty (i : Nat) : (after ss i).find? "" = some .empty := by
  have hfirst : blank.find? "" = some .empty := by decide +kernel
  exact find?_internAll (find?_internAll hfirst reserved) _

theorem given_eq_empty_iff (i : Fin ss.length) : ss[i] = "" ↔ given ss i = .empty := by
  have hi := find?_after i (Nat.lt_succ_self i)
  refine ⟨fun h => ?_, fun h => ?_⟩
  · rw [h, find?_empty] at hi
    exact (Option.some.inj hi).symm
  · have hs := text?_of_find? hi
    rw [h, text?_of_find? (find?_empty _)] at hs
    exact (Option.some.inj hs).symm

theorem size_texts_after (i : Nat) (k : Fin 16) (hfit : Fit ss) :
    (after ss i).shards[k].texts.size ≤ Name.maxLocal + 1 := by
  rw [after, size_texts]
  refine (Finset.card_le_card (Finset.filter_subset_filter _ fun s hs => ?_)).trans (hfit k)
  rw [List.mem_toFinset, asked, List.mem_append] at hs ⊢
  exact hs.imp_right List.mem_of_mem_take

/-- While there is room, every name is within the bits for it. -/
theorem index_given_le (hfit : Fit ss) (i : Fin ss.length) :
    (given ss i).index ≤ Name.maxLocal := by
  have htext := text?_of_find? (find?_after i (Nat.lt_succ_self i))
  obtain ⟨hlt, -⟩ := Array.getElem?_eq_some_iff.1 htext
  exact Nat.le_of_lt_succ (hlt.trans_le (size_texts_after _ _ hfit))

/-- While there is room, no call fails. -/
theorem tryIntern_after (hfit : Fit ss) (i : Fin ss.length) :
    (after ss i).tryIntern ss[i] = .ok (given ss i, after ss (i + 1)) := by
  rw [after_succ]
  refine if_pos ?_
  cases hs : (after ss i).find? ss[i] with
  | some n => exact .inl rfl
  | none =>
    -- a new string is in its shard after the call, so before it there was room for one more
    have hnew : ss[i] ∉ (after ss i).shards[shardOf ss[i]].texts :=
      (Shard.index_eq_none_iff _ _).1 (Option.map_eq_none_iff.1 hs)
    have hroom := size_texts_after (i + 1) (shardOf ss[i]) hfit
    rw [after_succ, shards_intern, if_pos rfl, Shard.size_texts_intern, if_neg hnew] at hroom
    exact .inr (Nat.le_of_succ_le_succ hroom)

/-- **While no shard is full, interning never fails, and names and strings determine each other.**
The name that a call gives can be looked up from then on, after any later calls; two calls, whenever
they happen, give the same name, also as one word, exactly if they are for the same string; the
empty string is what the first name of all stands for; and the counter tells how many strings the
shards hold, which are as many as there are distinct ones among those asked for. -/
theorem names_stable (ss : List String) (hfit : Fit ss) :
    (∀ i : Fin ss.length,
      (after ss i).tryIntern ss[i] = .ok (given ss i, after ss (i + 1)) ∧
      (∀ j, i.val < j → (after ss j).text? (given ss i) = some ss[i]) ∧
      (given ss i).code < 2 ^ 32 ∧ (given ss i).code >>> 28 = (given ss i).shard.val ∧
      (given ss i).code &&& Name.maxLocal = (given ss i).index ∧
      (ss[i] = "" ↔ given ss i = .empty)) ∧
    (∀ i j : Fin ss.length, (given ss i = given ss j ↔ ss[i] = ss[j]) ∧
      ((given ss i).code = (given ss j).code ↔ ss[i] = ss[j])) ∧
    ∀ i, (after ss i).text? .empty = some "" ∧
      (after ss i).size = (∑ k : Fin 16, (after ss i).shards[k].texts.size) ∧
      (after ss i).size = (asked (ss.take i)).toFinset.card := by
  refine ⟨fun i => ?_, fun i j => ⟨given_eq_iff i j, ?_⟩, fun i => ?_⟩
  · have hbits := index_given_le hfit i
    exact ⟨tryIntern_after hfit i, fun j hj => text?_of_find? (find?_after i hj),
      Name.code_lt hbits, Name.shard_code hbits, Name.index_code hbits, given_eq_empty_iff i⟩
  · rw [Name.code_inj (index_given_le hfit i) (index_given_le hfit j), given_eq_iff]
  · exact ⟨text?_of_find? (find?_empty i), counts_new.internAll _, size_internAll _⟩

end Sequence

/-- The names of a string asked for twice, of a reserved one and of the empty one. -/
theorem greeting_stable :
    let ss := ["greeting", "main", "", "greeting"]
    Fit ss ∧ given ss ⟨0, by decide⟩ = given ss ⟨3, by decide⟩ ∧
      (given ss ⟨0, by decide⟩).code ≠ (given ss ⟨1, by decide⟩).code ∧
      given ss ⟨2, by decide⟩ = .empty ∧
      (after ss 4).text? (given ss ⟨0, by decide⟩) = some "greeting" ∧ (after ss 4).size = 38 := by
  intro ss
  have hfit : Fit ss := fun k =>
    (Finset.card_filter_le _ _).trans ((List.toFinset_card_le _).trans (by decide))
  obtain ⟨hcall, hpair, hheld⟩ := names_stable ss hfit
  refine ⟨hfit, (hpair ⟨0, by decide⟩ ⟨3, by decide⟩).1.2 rfl, fun h => ?_,
    (hcall ⟨2, by decide⟩).2.2.2.2.2.1 rfl, (hcall ⟨0, by decide⟩).2.1 4 (by decide), ?_⟩
  · exact absurd ((hpair ⟨0, by decide⟩ ⟨1, by decide⟩).2.1 h) (by decide)
  · rw [(hheld 4).2.2]
    decide +kernel

end Interner

end SignalLang
