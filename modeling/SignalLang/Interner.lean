import SignalLang.Name
import Std.Data.TreeMap.Lemmas

/-!
# The interner

The interner gives every string it is handed a `Name`, the same one every time.  Strings are spread
over sixteen shards by their first eight bytes; within a shard they are numbered in the order of
their first use.  A counter beside the shards tells how many strings there are.

* `Shard.agrees` : in every shard the index and the list of texts describe the same numbering.
* `Interner.intern` : the name of a string, allotted if the string is new.
* `Interner.text` : the string of a name.
-/

namespace SignalLang

/-- One shard: the strings in order of first use, and the position of each. -/
structure Shard where
  texts : Array String
  index : Std.TreeMap String Nat
  agrees : ∀ (s : String) (i : Nat), index[s]? = some i ↔ texts[i]? = some s

namespace Shard

/-- The shard without strings. -/
def empty : Shard := ⟨#[], ∅, by simp⟩

instance : Inhabited Shard := ⟨empty⟩

/-- A shard with one more string, which it did not hold before. -/
def push (sh : Shard) (s : String) (new : sh.index[s]? = none) : Shard where
  texts := sh.texts.push s
  index := sh.index.insert s sh.texts.size
  agrees t i := by
    have hn : ∀ j, sh.texts[j]? ≠ some s := fun j hj => by
      have := (sh.agrees s j).2 hj
      simp [new] at this
    rw [Std.TreeMap.getElem?_insert, Array.getElem?_push]
    by_cases hst : s = t
    · subst hst
      by_cases hi : i = sh.texts.size
      · simp [hi]
      · simp only [Std.compare_self, if_true, hi, if_false, hn, iff_false]
        simpa using fun h => hi h.symm
    · by_cases hi : i = sh.texts.size
      · subst hi
        simp [hst, sh.agrees t]
      · simp [hst, hi, sh.agrees t i]

/-- The position of a string and the shard that holds it there. -/
def intern (sh : Shard) (s : String) : Nat × Shard :=
  match h : sh.index[s]? with
  | some i => (i, sh)
  | none => (sh.texts.size, sh.push s h)

theorem index_intern_self (sh : Shard) (s : String) :
    (sh.intern s).2.index[s]? = some (sh.intern s).1 := by
  unfold intern
  split
  · assumption
  · simp [push]

theorem index_intern {sh : Shard} {t : String} {i : Nat} (h : sh.index[t]? = some i) (s : String) :
    (sh.intern s).2.index[t]? = some i := by
  unfold intern
  split
  · exact h
  · rename_i hnew
    have hst : s ≠ t := by
      rintro rfl
      simp [hnew] at h
    simp [push, Std.TreeMap.getElem?_insert, hst, h]

theorem intern_of_index {sh : Shard} {s : String} {i : Nat} (h : sh.index[s]? = some i) :
    (sh.intern s).1 = i := by
  unfold intern
  split
  · rename_i j hj
    exact Option.some.inj (hj.symm.trans h)
  · rename_i hnew
    simp [hnew] at h

end Shard

/-- A set of strings with a name for each, and their number. -/
structure Interner where
  shards : Vector Shard 16
  count : Nat

namespace Interner

/-- A hash of the first eight bytes picks the shard. -/
def shardOf (s : String) : Fin 16 :=
  let hash : UInt32 := (s.toUTF8.toList.take 8).foldl (fun h b => h * 31 + b.toUInt32) 0
  ⟨hash.toNat % 16, Nat.mod_lt _ (by decide)⟩

/-- The name of a string, and the interner that knows it.  A string that is new counts. -/
def intern (t : Interner) (s : String) : Name × Interner :=
  let k := shardOf s
  let (i, sh) := t.shards[k].intern s
  let count := if (t.shards[k].index[s]?).isSome then t.count else t.count + 1
  (⟨k, i⟩, ⟨t.shards.set k sh, count⟩)

/-- Interns several strings, the first one first. -/
def internAll (t : Interner) (ss : List String) : Interner :=
  ss.foldl (fun t s => (t.intern s).2) t

/-- The name of a string, if it was interned before. -/
def find? (t : Interner) (s : String) : Option Name :=
  let k := shardOf s
  (t.shards[k].index[s]?).map fun i => ⟨k, i⟩

/-- A string that was interned is known. -/
theorem find?_intern_self (t : Interner) (s : String) :
    (t.intern s).2.find? s = some (t.intern s).1 := by
  simp only [find?, intern, Fin.getElem_fin, Vector.getElem_set_self]
  rw [Shard.index_intern_self]
  rfl

/-- It stays known by its name. -/
theorem find?_intern {t : Interner} {s : String} {n : Name} (h : t.find? s = some n) (s' : String) :
    (t.intern s').2.find? s = some n := by
  obtain ⟨i, hi, rfl⟩ := Option.map_eq_some_iff.1 h
  simp only [find?, intern, Fin.getElem_fin, Vector.getElem_set]
  split
  · rename_i hk
    have hi' : t.shards[shardOf s'].index[s]? = some i := by simpa only [Fin.ext hk] using hi
    exact congrArg (Option.map _) (Shard.index_intern hi' s')
  · exact h

theorem intern_of_find? {t : Interner} {s : String} {n : Name} (h : t.find? s = some n) :
    (t.intern s).1 = n := by
  obtain ⟨i, hi, rfl⟩ := Option.map_eq_some_iff.1 h
  simp only [intern]
  rw [Shard.intern_of_index hi]

/-- The string that a name stands for, if the interner has given out that name. -/
def text? (t : Interner) (n : Name) : Option String := t.shards[n.shard].texts[n.index]?

/-- The string that a name stands for; empty for a name that was never given out. -/
def text (t : Interner) (n : Name) : String := (t.text? n).getD ""

/-- Number of strings held. -/
def size (t : Interner) : Nat := t.count

/-- The empty string is always held and does not count. -/
def isEmpty (t : Interner) : Bool := t.size ≤ 1

/-- Keywords of the language, the names of its builtins and some that every program uses. -/
def reserved : List String :=
  ["as", "branch", "break", "cause", "effect", "else", "fn", "for", "function", "Function", "if",
    "is", "import", "let", "loop", "object", "option", "return", "set", "signal", "variable",
    "with", "Number", "String", "Action", "Anything", "AnySignal", "True", "False",
    "BinaryAnswer", "Debug", "AssumptionBroken", "main", "value", "message", "equals"]

/-- The interner that holds only the empty string, as the first one of the first shard. -/
def blank : Interner :=
  ⟨(Vector.replicate 16 Shard.empty).set 0 (Shard.empty.push "" (by simp [Shard.empty])), 1⟩

/-- A new interner, which holds the empty string and the reserved ones. -/
def new : Interner := blank.internAll reserved

instance : Inhabited Interner := ⟨new⟩

end Interner

end SignalLang
