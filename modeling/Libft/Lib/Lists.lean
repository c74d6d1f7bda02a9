import Mathlib.Data.List.Basic

/-!
# Lists made by loops

Loops over an index that put pieces together, and loops that may fail on the way.
-/

namespace Libft

open List

variable {α β : Type*} {l : List α}

/-- All results of a function that may fail, or none. -/
theorem mapM_eq_some_iff {f : α → Option β} {l' : List β} : l.mapM f = some l' ↔ l.map f = l'.map some := by
  induction l generalizing l' with
  | nil => cases l' <;> simp
  | cons a l ih =>
    rw [mapM_cons, map_cons]
    simp only [Option.bind_eq_bind, Option.bind_eq_some_iff, Option.pure_def, Option.some.injEq, ih]
    constructor
    · rintro ⟨b, hb, tl, hr, rfl⟩
      rw [map_cons, hb, hr]
    · intro h
      cases l' with
      | nil => cases h
      | cons b tl =>
        obtain ⟨hb, hr⟩ := cons.inj h
        exact ⟨b, hb, tl, hr, rfl⟩

/-- A loop over the indices of a list whose turns do not fail gives the results of the members. -/
theorem mapM_range_eq_some {f : ℕ → Option β} {g : ℕ → α → β} (h : ∀ (i : ℕ) (x : α), l[i]? = some x → f i = some (g i x)) :
    (List.range l.length).mapM f = some (l.mapIdx g) := by
  refine mapM_eq_some_iff.mpr (ext_getElem? fun i => ?_)
  simp only [getElem?_map, getElem?_mapIdx]
  by_cases hi : i < l.length
  · rw [getElem?_range hi, getElem?_eq_getElem hi, Option.map_some, h i l[i] (getElem?_eq_getElem hi)]
    rfl
  · rw [getElem?_eq_none (by simpa using hi), getElem?_eq_none (by simpa using hi)]
    rfl

/-- The separator stands before what follows. -/
theorem intercalate_cons_of_ne_nil (sep a : List α) {l : List (List α)} (h : l ≠ []) :
    sep.intercalate (a :: l) = a ++ (sep ++ sep.intercalate l) := by
  obtain ⟨b, l, rfl⟩ := exists_cons_of_ne_nil h
  simp [intercalate]

/-- A loop that puts the separator before every piece but the first. -/
theorem flatten_mapIdx_before (sep : List α) (g : β → List α) (l : List β) :
    (l.mapIdx fun i b => (if 0 < i then sep else []) ++ g b).flatten = sep.intercalate (l.map g) := by
  have hr : ∀ (b : β) (l : List β), g b ++ (l.map fun c => sep ++ g c).flatten = sep.intercalate ((b :: l).map g) := by
    intro b l
    induction l generalizing b with
    | nil => simp
    | cons c l ih =>
      rw [map_cons (f := g), intercalate_cons_of_ne_nil _ _ (by simp), ← ih, map_cons, flatten_cons, append_assoc]
  cases l with
  | nil => rfl
  | cons b l =>
    have hc : (l.mapIdx fun _ c => sep ++ g c) = l.map fun c => sep ++ g c := ext_getElem? fun i => by simp
    rw [mapIdx_cons, flatten_cons, ← hr, ← hc]
    simp

/-- A loop that puts the separator after every piece but the last. -/
theorem flatten_mapIdx_after (sep : List α) (g : β → List α) (l : List β) :
    (l.mapIdx fun i b => g b ++ if i + 1 < l.length then sep else []).flatten = sep.intercalate (l.map g) := by
  induction l with
  | nil => rfl
  | cons b l ih =>
    rw [mapIdx_cons, flatten_cons]
    cases l with
    | nil => simp
    | cons c l =>
      rw [map_cons, intercalate_cons_of_ne_nil _ _ (by simp), ← ih]
      simp

end Libft
