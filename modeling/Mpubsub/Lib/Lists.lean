import Mathlib.Data.List.Basic
import Mathlib.Data.List.Forall2

/-!
# Lists

What is in a list with one element at its end or modified, a filter behind an injective map, and
a `filterMap` that answers a filter.
-/

namespace Mpubsub.Lib

variable {α β : Type*}

theorem forall_mem_concat {l : List α} {a : α} {P : α → Prop} :
    (∀ b ∈ l ++ [a], P b) ↔ (∀ b ∈ l, P b) ∧ P a := by
  rw [List.forall_mem_append, List.forall_mem_singleton]

theorem getElem?_concat_eq_some_iff {l : List α} {a b : α} {i : Nat} :
    (l ++ [a])[i]? = some b ↔ l[i]? = some b ∨ i = l.length ∧ a = b := by
  rcases Nat.lt_trichotomy i l.length with hlt | rfl | hgt
  · simp [List.getElem?_append_left hlt, Nat.ne_of_lt hlt]
  · simp
  · have hout : (l ++ [a]).length ≤ i := by
      rw [List.length_append, List.length_singleton]
      exact hgt
    simp [List.getElem?_eq_none hout, List.getElem?_eq_none (Nat.le_of_lt hgt), Nat.ne_of_gt hgt]

theorem getElem?_modify_eq_some {l : List α} {i j : Nat} {f : α → α} {b : α}
    (h : (l.modify i f)[j]? = some b) : ∃ a, l[j]? = some a ∧ b = if i = j then f a else a := by
  rw [List.getElem?_modify] at h
  obtain ⟨a, ha, rfl⟩ := Option.map_eq_some_iff.mp h
  exact ⟨a, ha, rfl⟩

theorem mem_modify {l : List α} {i : Nat} {f : α → α} {b : α} (h : b ∈ l.modify i f) :
    ∃ a ∈ l, b = a ∨ b = f a := by
  obtain ⟨j, hj⟩ := List.mem_iff_getElem?.mp h
  obtain ⟨a, ha, rfl⟩ := getElem?_modify_eq_some hj
  refine ⟨a, List.mem_of_getElem? ha, ?_⟩
  split
  · exact .inr rfl
  · exact .inl rfl

/-- The element at an index behind a prefix is modified. -/
theorem modify_length_append (done rest : List α) (a : α) (f : α → α) :
    (done ++ a :: rest).modify done.length f = done ++ f a :: rest := by
  induction done with
  | nil => rfl
  | cons b done ih => simp [ih]

/-- An element is left out before or after a map that is injective at it. -/
theorem filter_ne_map [DecidableEq α] [DecidableEq β] (f : α → β) {l : List α} {a : α}
    (h : ∀ b ∈ l, f b = f a → b = a) : (l.map f).filter (· ≠ f a) = (l.filter (· ≠ a)).map f := by
  rw [List.filter_map]
  refine congrArg (List.map f) ?_
  apply List.filter_congr
  intro b hb
  exact decide_eq_decide.mpr (not_congr ⟨h b hb, congrArg f⟩)

section

variable {f : α → Option β} {P : α → Prop} [DecidablePred P] {l : List α}

theorem length_filterMap_le_filter (h : ∀ a ∈ l, ¬P a → f a = none) :
    (l.filterMap f).length ≤ (l.filter P).length := by
  induction l with
  | nil => exact Nat.le_refl 0
  | cons a l ih =>
    rw [List.forall_mem_cons] at h
    have hrest := ih h.2
    by_cases ha : P a
    · rw [List.filter_cons_of_pos (by simpa using ha), List.length_cons, List.filterMap_cons]
      cases f a with
      | none => exact Nat.le_succ_of_le hrest
      | some b => exact Nat.succ_le_succ hrest
    · rw [List.filterMap_cons_none (h.1 ha), List.filter_cons_of_neg (by simpa using ha)]
      exact hrest

/-- What a `filterMap` makes corresponds to a filter one by one if and only if every element of the
filter gets an answer that fits it. -/
theorem forall₂_filter_filterMap_iff {R : α → β → Prop} (h : ∀ a ∈ l, ¬P a → f a = none) :
    List.Forall₂ R (l.filter P) (l.filterMap f) ↔ ∀ a ∈ l, P a → ∃ b, f a = some b ∧ R a b := by
  induction l with
  | nil => exact iff_of_true .nil (List.forall_mem_nil _)
  | cons a l ih =>
    rw [List.forall_mem_cons] at h ⊢
    by_cases ha : P a
    · rw [List.filter_cons_of_pos (by simpa using ha)]
      cases hb : f a with
      | none =>
        -- The other answers are too few.
        rw [List.filterMap_cons_none hb]
        refine iff_of_false (fun hall => ?_) fun hall => ?_
        · have hlength := hall.length_eq
          have hle := length_filterMap_le_filter h.2
          rw [List.length_cons] at hlength
          omega
        · obtain ⟨b, heq, -⟩ := hall.1 ha
          cases heq
      | some b =>
        rw [List.filterMap_cons_some hb, List.forall₂_cons, ih h.2]
        refine and_congr_left fun _ => ⟨fun hR _ => ⟨b, rfl, hR⟩, fun hall => ?_⟩
        obtain ⟨b', heq, hR⟩ := hall ha
        cases heq
        exact hR
    · rw [List.filter_cons_of_neg (by simpa using ha), List.filterMap_cons_none (h.1 ha), ih h.2]
      exact ⟨fun hall => ⟨fun ha' => absurd ha' ha, hall⟩, And.right⟩

end

end Mpubsub.Lib
