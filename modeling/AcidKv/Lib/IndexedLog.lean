import Mathlib.Data.List.Range
import Mathlib.Tactic.Ring

/-!
# Logs by index

A log is what stands at its indices.  Its one operation, `replaceFrom`, keeps what is below an index
and puts a batch from there on.  A log that holds a list from a base on (`ofList`) stays of that
kind as long as the batch starts within the list or right behind it, and a slice of it is a slice of
the list.
-/

/-- What stands at each index. -/
structure IndexedLog (α : Type) where
  entry : ℕ → Option α

namespace IndexedLog

variable {α : Type} {base f low high i : ℕ} {l batch : List α}

@[ext] lemma ext {log log' : IndexedLog α} (h : ∀ i, log.entry i = log'.entry i) : log = log' := by
  cases log
  cases log'
  exact congrArg mk (funext h)

/-- Keep what is below `f` and go on with the batch. -/
def replaceFrom (log : IndexedLog α) (f : ℕ) (batch : List α) : IndexedLog α where
  entry i := if i < f then log.entry i else batch[i - f]?

/-- What stands from `low` up to `high`. -/
def slice (log : IndexedLog α) (low high : ℕ) : List α :=
  (List.range' low (high - low)).filterMap log.entry

/-- A list from `base` on. -/
def ofList (base : ℕ) (l : List α) : IndexedLog α where
  entry i := if i < base then none else l[i - base]?

lemma isSome_ofList : ((ofList base l).entry i).isSome ↔ base ≤ i ∧ i < base + l.length := by
  simp only [ofList]
  split_ifs with h
  · simp
    omega
  · simp
    omega

/-- A batch that starts within the list or right behind it. -/
theorem replaceFrom_ofList (hlo : base ≤ f) (hhi : f ≤ base + l.length) :
    (ofList base l).replaceFrom f batch = ofList base (l.take (f - base) ++ batch) := by
  ext1 i
  have hlen : (l.take (f - base)).length = f - base := by
    rw [List.length_take]
    omega
  simp only [replaceFrom, ofList]
  by_cases hbase : i < base
  · simp [hbase, show i < f by omega]
  · by_cases hf : i < f
    · rw [if_pos hf, if_neg hbase, if_neg hbase, List.getElem?_append_left (by omega),
        List.getElem?_take_of_lt (by omega)]
    · rw [if_neg hf, if_neg hbase, List.getElem?_append_right (by omega), hlen]
      congr 1
      omega

/-- A slice of the log is one of the list. -/
theorem slice_ofList (hlo : base ≤ low) (hhi : high ≤ base + l.length) :
    (ofList base l).slice low high = (l.take (high - base)).drop (low - base) := by
  have hmap : ((List.range' low (high - low)).map (ofList base l).entry) =
      ((l.take (high - base)).drop (low - base)).map some := by
    apply List.ext_getElem?
    intro i
    simp only [List.getElem?_map, List.getElem?_drop]
    by_cases hi : i < high - low
    · rw [List.getElem?_range' hi, List.getElem?_take_of_lt (by omega)]
      simp only [Option.map_some, one_mul, ofList, show ¬ low + i < base by omega, if_false]
      have hin : low + i - base = low - base + i := by omega
      rw [hin, List.getElem?_eq_getElem (show low - base + i < l.length by omega)]
      rfl
    · rw [List.getElem?_eq_none (by simp; omega), List.getElem?_eq_none (by simp; omega)]
      rfl
  calc (ofList base l).slice low high
      = ((List.range' low (high - low)).map (ofList base l).entry).filterMap id := by
        rw [List.filterMap_map]
        rfl
    _ = (l.take (high - base)).drop (low - base) := by
        rw [hmap, List.filterMap_map]
        simp

end IndexedLog
