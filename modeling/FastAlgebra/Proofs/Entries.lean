import Mathlib

/-! Entries of arrays. An array is known by its size and by what it holds at each index, so a loop
that fills one is described by the function that its entries are the values of.
-/

namespace FastAlgebra

variable {α : Type} {a : Array α} {f : Nat → α} {i j n : Nat}

theorem getElem?_eq_getD (inside : i < a.size) (default : α) : a[i]? = some (a.getD i default) := by
  rw [Array.getD_eq_getD_getElem?, Array.getElem?_eq_getElem inside, Option.getD_some]

-----------------------------------------------------------------------------------------
-- The values of a function
-----------------------------------------------------------------------------------------

theorem getElem?_toArray_map_range (f : Nat → α) (below : i < n)
    : ((List.range n).map f).toArray[i]? = some (f i) := by
  rw [List.getElem?_toArray, List.getElem?_map, List.getElem?_range below, Option.map_some]

theorem toArray_map_range_succ (f : Nat → α) (n : Nat)
    : ((List.range (n + 1)).map f).toArray = ((List.range n).map f).toArray.push (f n) := by
  rw [List.range_succ, List.map_append, List.map_singleton, List.push_toArray]

/-- The entries at all indices make up the array. -/
theorem eq_toArray_map_range (size : a.size = n) (entries : ∀ i < n, a[i]? = some (f i))
    : a = ((List.range n).map f).toArray := by
  apply Array.ext_getElem?
  intro i
  rcases Nat.lt_or_ge i n with inside | past
  · rw [entries i inside, getElem?_toArray_map_range f inside]
  · rw [Array.getElem?_eq_none (by omega), Array.getElem?_eq_none (by simpa using past)]

/-- Where every entry has a result, so has the list, by induction on it. -/
theorem mapM_eq_some {α β : Type} {f : α → Option β} {g : α → β} {l : List α}
    (each : ∀ x ∈ l, f x = some (g x))
    : l.mapM f = some (l.map g) := by
  induction l with
  | nil => rfl
  | cons x rest ih =>
      have later := ih fun y member => each y (List.mem_cons_of_mem x member)
      rw [List.mapM_cons, each x List.mem_cons_self, later]
      rfl

/-- Where every step has a result, so has the loop, by induction on the list. -/
theorem foldlM_eq_some {α β : Type} {f : β → α → Option β} {g : β → α → β} {l : List α}
    (each : ∀ y, ∀ x ∈ l, f y x = some (g y x)) (start : β)
    : l.foldlM f start = some (l.foldl g start) := by
  induction l generalizing start with
  | nil => rfl
  | cons x rest ih =>
      rw [List.foldlM_cons, each start x List.mem_cons_self]
      exact ih (fun y later member => each y later (List.mem_cons_of_mem x member)) _

-----------------------------------------------------------------------------------------
-- Swaps
-----------------------------------------------------------------------------------------

/-- A swap writes each of two entries to the place of the other. -/
theorem swapIfInBounds_eq {x y : α} (here : a[i]? = some x) (there : a[j]? = some y)
    : a.swapIfInBounds i j = (a.setIfInBounds i y).setIfInBounds j x := by
  obtain ⟨insideHere, rfl⟩ := Array.getElem?_eq_some_iff.mp here
  obtain ⟨insideThere, rfl⟩ := Array.getElem?_eq_some_iff.mp there
  simp [Array.swapIfInBounds_def, Array.swap_def, Array.setIfInBounds, insideHere, insideThere]

end FastAlgebra
