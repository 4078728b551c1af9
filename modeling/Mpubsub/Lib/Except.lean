import Mathlib.Control.Basic
import Mathlib.Data.List.Forall2

/-!
# Computations that may fail

What a successful computation in `Except` went through, and what a successful `mapM` has done to
each element.
-/

namespace Mpubsub.Lib

universe u

variable {ε α β : Type u}

theorem ok_bind (a : α) (f : α → Except ε β) : Except.ok a >>= f = f a := rfl

theorem bind_eq_ok {x : Except ε α} {f : α → Except ε β} {b : β} :
    x >>= f = .ok b ↔ ∃ a, x = .ok a ∧ f a = .ok b := by
  cases x with
  | error e =>
    constructor
    · intro h
      cases h
    · rintro ⟨a, ha, -⟩
      cases ha
  | ok a =>
    constructor
    · exact fun h => ⟨a, rfl, h⟩
    · rintro ⟨a', ha, h⟩
      cases ha
      exact h

theorem bind_eq_error {x : Except ε α} {f : α → Except ε β} {e : ε} :
    x >>= f = .error e ↔ x = .error e ∨ ∃ a, x = .ok a ∧ f a = .error e := by
  cases x with
  | error e' =>
    constructor
    · exact fun h => .inl (congrArg Except.error (Except.error.inj h))
    · rintro (h | ⟨a, ha, -⟩)
      · exact congrArg Except.error (Except.error.inj h)
      · cases ha
  | ok a =>
    constructor
    · exact fun h => .inr ⟨a, rfl, h⟩
    · rintro (h | ⟨a', ha, h⟩)
      · cases h
      · cases ha
        exact h

theorem pure_eq_ok {a b : α} : (pure a : Except ε α) = .ok b ↔ a = b :=
  ⟨fun h => Except.ok.inj h, fun h => congrArg Except.ok h⟩

theorem exists_bind_pure_eq_ok_iff {x : Except ε α} {f : α → β} :
    (∃ b, (x >>= fun a => pure (f a)) = .ok b) ↔ ∃ a, x = .ok a := by
  cases x with
  | error e =>
    constructor
    · rintro ⟨b, hb⟩
      cases hb
    · rintro ⟨a, ha⟩
      cases ha
  | ok a => exact ⟨fun _ => ⟨a, rfl⟩, fun _ => ⟨f a, rfl⟩⟩

theorem isOk_iff {x : Except ε α} : x.isOk = true ↔ ∃ a, x = .ok a := by
  cases x with
  | error e => exact iff_of_false Bool.false_ne_true fun ⟨a, ha⟩ => by cases ha
  | ok a => exact iff_of_true rfl ⟨a, rfl⟩

theorem exists_error_iff {x : Except ε α} : (∃ e, x = .error e) ↔ ¬∃ a, x = .ok a := by
  cases x with
  | error e =>
    refine ⟨fun _ h => ?_, fun _ => ⟨e, rfl⟩⟩
    obtain ⟨a, ha⟩ := h
    cases ha
  | ok a =>
    refine ⟨fun h => ?_, fun h => absurd ⟨a, rfl⟩ h⟩
    obtain ⟨e, he⟩ := h
    cases he

/-- A fold that fails at elements of a kind only, whatever has come together before them. -/
theorem foldlM_eq_ok_iff {f : β → α → Except ε β} {P : α → Prop} {l : List α}
    (h : ∀ a ∈ l, ∀ b, (∃ b', f b a = .ok b') ↔ P a) (b : β) :
    (∃ b', l.foldlM f b = .ok b') ↔ ∀ a ∈ l, P a := by
  induction l generalizing b with
  | nil => exact ⟨fun _ a ha => absurd ha List.not_mem_nil, fun _ => ⟨b, rfl⟩⟩
  | cons a l ih =>
    rw [List.forall_mem_cons] at h
    rw [List.foldlM_cons, List.forall_mem_cons]
    constructor
    · rintro ⟨b', hb'⟩
      obtain ⟨c, hc, hrest⟩ := bind_eq_ok.mp hb'
      exact ⟨(h.1 b).mp ⟨c, hc⟩, (ih h.2 c).mp ⟨b', hrest⟩⟩
    · rintro ⟨ha, hl⟩
      obtain ⟨c, hc⟩ := (h.1 b).mpr ha
      obtain ⟨b', hb'⟩ := (ih h.2 c).mpr hl
      exact ⟨b', bind_eq_ok.mpr ⟨c, hc, hb'⟩⟩

theorem foldlM_congr {f g : β → α → Except ε β} {l : List α} (h : ∀ a ∈ l, ∀ b, f b a = g b a)
    (b : β) : l.foldlM f b = l.foldlM g b := by
  induction l generalizing b with
  | nil => rfl
  | cons a l ih =>
    rw [List.forall_mem_cons] at h
    rw [List.foldlM_cons, List.foldlM_cons, h.1]
    exact congrArg _ (funext fun b => ih h.2 b)

theorem mapM_eq_ok_iff {f : α → Except ε β} {l : List α} {l' : List β} :
    l.mapM f = .ok l' ↔ List.Forall₂ (fun a b => f a = .ok b) l l' := by
  induction l generalizing l' with
  | nil =>
    rw [List.mapM_nil, List.forall₂_nil_left_iff, pure_eq_ok]
    exact eq_comm
  | cons a l ih =>
    rw [List.mapM_cons, List.forall₂_cons_left_iff, bind_eq_ok]
    constructor
    · rintro ⟨b, hb, h⟩
      obtain ⟨bs, hbs, h⟩ := bind_eq_ok.mp h
      cases h
      exact ⟨b, bs, hb, ih.mp hbs, rfl⟩
    · rintro ⟨b, bs, hb, hbs, rfl⟩
      exact ⟨b, hb, bind_eq_ok.mpr ⟨bs, ih.mpr hbs, rfl⟩⟩

/-- What a successful `mapM` returns comes from the list. -/
theorem exists_of_mem_mapM {f : α → Except ε β} {l : List α} {l' : List β}
    (h : l.mapM f = .ok l') : ∀ b ∈ l', ∃ a ∈ l, f a = .ok b := by
  induction mapM_eq_ok_iff.mp h with
  | nil => exact List.forall_mem_nil _
  | cons hab _ ih =>
    refine List.forall_mem_cons.mpr ⟨⟨_, List.mem_cons_self, hab⟩, ?_⟩
    intro b hb
    obtain ⟨a, ha, hab⟩ := ih (mapM_eq_ok_iff.mpr ‹_›) b hb
    exact ⟨a, List.mem_cons_of_mem _ ha, hab⟩

/-- A `mapM` over elements that all succeed returns something for each of them. -/
theorem exists_mapM_of_forall_mem {f : α → Except ε β} {l : List α}
    (h : ∀ a ∈ l, ∃ b, f a = .ok b) :
    ∃ l', l.mapM f = .ok l' ∧ ∀ a ∈ l, ∃ b ∈ l', f a = .ok b := by
  induction l with
  | nil => exact ⟨[], rfl, List.forall_mem_nil _⟩
  | cons a l ih =>
    rw [List.forall_mem_cons] at h
    obtain ⟨⟨b, hb⟩, hrest⟩ := h
    obtain ⟨bs, hbs, hmem⟩ := ih hrest
    refine ⟨b :: bs, mapM_eq_ok_iff.mpr (.cons hb (mapM_eq_ok_iff.mp hbs)), ?_⟩
    refine List.forall_mem_cons.mpr ⟨⟨b, List.mem_cons_self, hb⟩, ?_⟩
    intro a' ha'
    obtain ⟨b', hb', hok⟩ := hmem a' ha'
    exact ⟨b', List.mem_cons_of_mem _ hb', hok⟩

theorem mapM_eq_some_iff {f : α → Option β} {l : List α} {l' : List β} :
    l.mapM f = some l' ↔ List.Forall₂ (fun a b => f a = some b) l l' := by
  induction l generalizing l' with
  | nil =>
    rw [List.mapM_nil, List.forall₂_nil_left_iff]
    exact Option.some_inj.trans eq_comm
  | cons a l ih =>
    rw [List.mapM_cons, List.forall₂_cons_left_iff]
    constructor
    · intro h
      obtain ⟨b, hb, h⟩ := Option.bind_eq_some_iff.mp h
      obtain ⟨bs, hbs, h⟩ := Option.bind_eq_some_iff.mp h
      cases h
      exact ⟨b, bs, hb, ih.mp hbs, rfl⟩
    · rintro ⟨b, bs, hb, hbs, rfl⟩
      rw [hb, ih.mpr hbs]
      rfl

end Mpubsub.Lib
