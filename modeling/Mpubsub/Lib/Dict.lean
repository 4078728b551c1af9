import Mpubsub.Lib.Lists
import Mathlib.Data.List.Nodup

/-!
# Dictionaries

Association lists whose keys are distinct, in the order in which the keys came
(`Dict`): the maps of Python and Go, as far as a program looks keys up, sets and
deletes them and walks over the values. `get?_set` and `get?_erase` say what a change
does to each key. The first section has the same facts for plain lists.
-/

namespace Mpubsub.Lib

variable {κ ν : Type*}

/-! ## Lists of pairs -/

section Lookup

variable [BEq κ] [LawfulBEq κ] {l : List (κ × ν)} {k k' : κ} {v : ν}

theorem mem_of_lookup (h : l.lookup k = some v) : (k, v) ∈ l := by
  obtain ⟨before, after, rfl, -⟩ := List.lookup_eq_some_iff.mp h
  simp

theorem lookup_of_mem (hnodup : (l.map Prod.fst).Nodup) (h : (k, v) ∈ l) :
    l.lookup k = some v := by
  induction l with
  | nil => cases h
  | cons p l ih =>
    rw [List.map_cons, List.nodup_cons] at hnodup
    obtain ⟨a, b⟩ := p
    rcases List.mem_cons.mp h with heq | hin
    · cases heq
      exact List.lookup_cons_self
    · have hne : k ≠ a := fun heq => hnodup.1 (heq ▸ List.mem_map.mpr ⟨(k, v), hin, rfl⟩)
      rw [List.lookup_cons, beq_false_of_ne hne]
      exact ih hnodup.2 hin

theorem lookup_eq_none_iff_forall : l.lookup k = none ↔ ∀ p ∈ l, p.1 ≠ k := by
  rw [List.lookup_eq_none_iff]
  constructor
  · intro h p hp heq
    have hne := h p hp
    rw [heq, bne_self_eq_false] at hne
    cases hne
  · intro h p hp
    exact bne_iff_ne.mpr (h p hp).symm

theorem lookup_filter_self [DecidableEq κ] (l : List (κ × ν)) (k : κ) :
    (l.filter fun p => p.1 ≠ k).lookup k = none :=
  lookup_eq_none_iff_forall.mpr fun _ hp => of_decide_eq_true (List.mem_filter.mp hp).2

theorem lookup_filter_of_ne [DecidableEq κ] (l : List (κ × ν)) (h : k' ≠ k) :
    (l.filter fun p => p.1 ≠ k).lookup k' = l.lookup k' := by
  induction l with
  | nil => rfl
  | cons p l ih =>
    obtain ⟨a, b⟩ := p
    by_cases ha : a = k
    · rw [List.filter_cons_of_neg (by simpa using ha), ih, List.lookup_cons,
        beq_false_of_ne (ha ▸ h)]
    · rw [List.filter_cons_of_pos (by simpa using ha), List.lookup_cons, List.lookup_cons, ih]

theorem lookup_append_singleton [DecidableEq κ] (l : List (κ × ν)) (k : κ) (v : ν) (k' : κ) :
    (l ++ [(k, v)]).lookup k' = (l.lookup k').or (if k' = k then some v else none) := by
  rw [List.lookup_append, List.lookup_cons, List.lookup_nil]
  by_cases h : k' = k
  · rw [if_pos h, h, beq_self_eq_true]
  · rw [if_neg h, beq_false_of_ne h]

/-- The values go through a function that may fail. -/
def mapSnd {μ : Type*} (g : ν → Option μ) : List (κ × ν) → Option (List (κ × μ))
  | [] => some []
  | (k, v) :: l => (g v).bind fun u => (mapSnd g l).map ((k, u) :: ·)

omit [BEq κ] [LawfulBEq κ] in
theorem mapSnd_spec {μ : Type*} {g : ν → Option μ} {l' : List (κ × μ)}
    (h : mapSnd g l = some l') :
    l'.map Prod.fst = l.map Prod.fst ∧
      ∀ k u, (k, u) ∈ l' ↔ ∃ v, (k, v) ∈ l ∧ g v = some u := by
  induction l generalizing l' with
  | nil =>
    cases h
    simp
  | cons p l ih =>
    obtain ⟨a, v⟩ := p
    obtain ⟨u, hu, h⟩ := Option.bind_eq_some_iff.mp h
    obtain ⟨l', hl', rfl⟩ := Option.map_eq_some_iff.mp h
    obtain ⟨hkeys, hmem⟩ := ih hl'
    refine ⟨by rw [List.map_cons, List.map_cons, hkeys], fun k u' => ?_⟩
    simp only [List.mem_cons, Prod.mk.injEq, hmem]
    constructor
    · rintro (⟨rfl, rfl⟩ | ⟨v', hv', hu'⟩)
      · exact ⟨v, .inl ⟨rfl, rfl⟩, hu⟩
      · exact ⟨v', .inr hv', hu'⟩
    · rintro ⟨v', ⟨rfl, rfl⟩ | hv', hu'⟩
      · exact .inl ⟨rfl, Option.some.inj (hu'.symm.trans hu)⟩
      · exact .inr ⟨v', hv', hu'⟩

omit [BEq κ] [LawfulBEq κ] in
theorem mapSnd_eq_none_iff {μ : Type*} {g : ν → Option μ} :
    mapSnd g l = none ↔ ∃ p ∈ l, g p.2 = none := by
  induction l with
  | nil => simp [mapSnd]
  | cons p l ih =>
    obtain ⟨a, v⟩ := p
    cases hg : g v with
    | none => simp [mapSnd, hg]
    | some u => simp [mapSnd, hg, ih]

end Lookup

/-! ## Dictionaries -/

/-- A dictionary, with its entries in order. -/
structure Dict (κ ν : Type*) where
  entries : List (κ × ν)
  nodup : (entries.map Prod.fst).Nodup

namespace Dict

variable [DecidableEq κ]

instance [DecidableEq ν] : DecidableEq (Dict κ ν) := fun d e =>
  decidable_of_iff (d.entries = e.entries)
    ⟨fun h => by cases d; cases e; cases h; rfl, congrArg entries⟩

def empty : Dict κ ν := ⟨[], List.nodup_nil⟩

variable (d : Dict κ ν)

def get? (k : κ) : Option ν := d.entries.lookup k

def keys : List κ := d.entries.map Prod.fst

def values : List ν := d.entries.map Prod.snd

/-- `del d[k]`, for a key that may be absent. -/
def erase (k : κ) : Dict κ ν :=
  ⟨d.entries.filter fun p => p.1 ≠ k, d.nodup.sublist (List.filter_sublist.map _)⟩

theorem map_fst_replace (l : List (κ × ν)) (k : κ) (v : ν) :
    (l.map fun p => if p.1 = k then (k, v) else p).map Prod.fst = l.map Prod.fst := by
  rw [List.map_map]
  apply List.map_congr_left
  intro p _
  by_cases h : p.1 = k
  · simp [h]
  · simp [h]

/-- `d[k] = v`: a key that is there keeps its place, a new one comes last. -/
def set (k : κ) (v : ν) : Dict κ ν :=
  if h : k ∈ d.entries.map Prod.fst then
    ⟨d.entries.map fun p => if p.1 = k then (k, v) else p, by
      rw [map_fst_replace]
      exact d.nodup⟩
  else
    ⟨d.entries ++ [(k, v)], by
      rw [List.map_append]
      exact d.nodup.append (List.nodup_singleton k) (by simpa using h)⟩

variable {d}

@[simp] theorem get?_empty (k : κ) : (empty : Dict κ ν).get? k = none := rfl

theorem mem_entries_iff {k : κ} {v : ν} : (k, v) ∈ d.entries ↔ d.get? k = some v :=
  ⟨lookup_of_mem d.nodup, mem_of_lookup⟩

theorem mem_values_iff {v : ν} : v ∈ d.values ↔ ∃ k, d.get? k = some v := by
  simp only [values, List.mem_map, ← mem_entries_iff]
  constructor
  · rintro ⟨⟨k, v⟩, h, rfl⟩
    exact ⟨k, h⟩
  · rintro ⟨k, h⟩
    exact ⟨(k, v), h, rfl⟩

theorem mem_keys_iff {k : κ} : k ∈ d.keys ↔ ∃ v, d.get? k = some v := by
  simp only [keys, List.mem_map, ← mem_entries_iff]
  constructor
  · rintro ⟨⟨k, v⟩, h, rfl⟩
    exact ⟨v, h⟩
  · rintro ⟨v, h⟩
    exact ⟨(k, v), h, rfl⟩

theorem get?_erase (d : Dict κ ν) (k k' : κ) :
    (d.erase k).get? k' = if k' = k then none else d.get? k' := by
  by_cases h : k' = k
  · subst h
    rw [if_pos rfl]
    exact lookup_filter_self ..
  · rw [if_neg h]
    exact lookup_filter_of_ne _ h

theorem lookup_replace {l : List (κ × ν)} {k : κ} (h : k ∈ l.map Prod.fst) (v : ν) (k' : κ) :
    (l.map fun p => if p.1 = k then (k, v) else p).lookup k' =
      if k' = k then some v else l.lookup k' := by
  induction l with
  | nil => cases h
  | cons p l ih =>
    obtain ⟨a, b⟩ := p
    rw [List.map_cons, List.lookup_cons]
    by_cases ha : a = k
    · subst ha
      rw [if_pos rfl, List.lookup_cons]
      by_cases hk : k' = a
      · simp [hk]
      · simp only [beq_false_of_ne hk, if_neg hk]
        by_cases hin : a ∈ l.map Prod.fst
        · rw [ih hin, if_neg hk]
        · have hsame : (l.map fun p => if p.1 = a then (a, v) else p) = l := by
            refine (List.map_congr_left fun p hp => ?_).trans (List.map_id l)
            exact if_neg fun heq => hin (List.mem_map.mpr ⟨p, hp, heq⟩)
          rw [hsame]
    · have hin : k ∈ l.map Prod.fst := by
        rcases List.mem_cons.mp h with heq | hin
        · exact absurd heq.symm ha
        · exact hin
      rw [if_neg ha, List.lookup_cons, ih hin]
      by_cases hk : k' = k
      · subst hk
        simp [beq_false_of_ne (Ne.symm ha)]
      · simp [hk]

theorem get?_set (d : Dict κ ν) (k : κ) (v : ν) (k' : κ) :
    (d.set k v).get? k' = if k' = k then some v else d.get? k' := by
  unfold set
  split
  · rename_i h
    exact lookup_replace h v k'
  · rename_i h
    show (d.entries ++ [(k, v)]).lookup k' = _
    rw [lookup_append_singleton]
    by_cases hk : k' = k
    · subst hk
      rw [lookup_eq_none_iff_forall.mpr fun p hp heq => h (List.mem_map.mpr ⟨p, hp, heq⟩)]
      simp
    · simp [hk, get?]

/-- The entries beside a new one. -/
theorem exists_get?_set_iff {k : κ} (hnew : d.get? k = none) (v : ν) {u : ν} {P : κ → Prop} :
    (∃ k', (d.set k v).get? k' = some u ∧ P k') ↔
      (∃ k', d.get? k' = some u ∧ P k') ∨ u = v ∧ P k := by
  simp only [get?_set]
  constructor
  · rintro ⟨k', hget, hk'⟩
    split at hget
    · rename_i heq
      cases hget
      exact .inr ⟨rfl, heq ▸ hk'⟩
    · exact .inl ⟨k', hget, hk'⟩
  · rintro (⟨k', hget, hk'⟩ | ⟨rfl, hk⟩)
    · refine ⟨k', ?_, hk'⟩
      rw [if_neg]
      · exact hget
      · rintro rfl
        rw [hnew] at hget
        cases hget
    · exact ⟨k, if_pos rfl, hk⟩

/-- The entries that are left. -/
theorem exists_get?_erase_iff {k : κ} {u : ν} {P : κ → Prop} :
    (∃ k', (d.erase k).get? k' = some u ∧ P k') ↔ ∃ k', d.get? k' = some u ∧ k' ≠ k ∧ P k' := by
  simp only [get?_erase]
  refine exists_congr fun k' => ?_
  split
  · rename_i heq
    simp [heq]
  · rename_i hne
    simp [hne]

/-- Every value is replaced by another. -/
def mapVal {μ : Type*} (d : Dict κ ν) (g : κ → ν → μ) : Dict κ μ :=
  ⟨d.entries.map fun p => (p.1, g p.1 p.2), by
    rw [List.map_map]
    exact d.nodup⟩

theorem lookup_map_snd {μ : Type*} (g : κ → ν → μ) (l : List (κ × ν)) (k : κ) :
    (l.map fun p => (p.1, g p.1 p.2)).lookup k = (l.lookup k).map (g k) := by
  induction l with
  | nil => rfl
  | cons p l ih =>
    obtain ⟨a, b⟩ := p
    rw [List.map_cons, List.lookup_cons, List.lookup_cons]
    by_cases hk : k = a
    · subst hk
      simp
    · simp [beq_false_of_ne hk, ih]

theorem get?_mapVal {μ : Type*} (d : Dict κ ν) (g : κ → ν → μ) (k : κ) :
    (d.mapVal g).get? k = (d.get? k).map (g k) := lookup_map_snd g d.entries k

/-- Entries with distinct keys are added to a dictionary. -/
theorem get?_foldl_set {l : List (κ × ν)} (hnodup : (l.map Prod.fst).Nodup) (d : Dict κ ν)
    (k : κ) (v : ν) :
    (l.foldl (fun d p => d.set p.1 p.2) d).get? k = some v ↔
      (k, v) ∈ l ∨ k ∉ l.map Prod.fst ∧ d.get? k = some v := by
  induction l generalizing d with
  | nil => simp
  | cons p l ih =>
    obtain ⟨a, b⟩ := p
    rw [List.map_cons, List.nodup_cons] at hnodup
    rw [List.foldl_cons, ih hnodup.2, get?_set]
    by_cases hk : k = a
    · subst hk
      have hnot : (k, v) ∉ l := fun hmem => hnodup.1 (List.mem_map.mpr ⟨_, hmem, rfl⟩)
      simp [hnot, hnodup.1, eq_comm]
    · simp [hk]

/-! ## Lists of values -/

/-- A list is made longer, and an absent one is empty. -/
theorem getD_set_append {α : Type*} (d : Dict κ (List α)) (k : κ) (l : List α) (k' : κ) :
    ((d.set k ((d.get? k).getD [] ++ l)).get? k').getD [] =
      (d.get? k').getD [] ++ if k' = k then l else [] := by
  rw [get?_set]
  split
  · rename_i heq
    rw [heq, Option.getD_some]
  · rw [List.append_nil]

/-- A list is replaced, and an empty one is deleted. -/
theorem getD_set_or_erase {α : Type*} [DecidableEq α] (d : Dict κ (List α)) (k : κ) (l : List α)
    (k' : κ) : ((if l = [] then d.erase k else d.set k l).get? k').getD [] =
      if k' = k then l else (d.get? k').getD [] := by
  split
  · rename_i hnil
    rw [get?_erase]
    split
    · exact hnil.symm
    · rfl
  · rw [get?_set]
    split <;> rfl

/-! ## Positions in a list -/

/-- The dictionary has the position of every element of a list under its key. -/
def Indexes {α : Type*} (key : α → κ) (l : List α) (d : Dict κ Nat) : Prop :=
  ∀ k i, d.get? k = some i ↔ ∃ a, l[i]? = some a ∧ key a = k

section Indexes

variable {α : Type*} {key : α → κ} {l : List α} {d : Dict κ Nat}

theorem indexes_empty : Indexes key [] (empty : Dict κ Nat) := by
  intro k i
  simp

/-- A key is absent where no element has it. -/
theorem Indexes.get?_eq_none_iff (h : Indexes key l d) {k : κ} :
    d.get? k = none ↔ k ∉ l.map key := by
  rw [Option.eq_none_iff_forall_ne_some, List.mem_map]
  constructor
  · rintro hnone ⟨a, ha, rfl⟩
    obtain ⟨i, hi⟩ := List.mem_iff_getElem?.mp ha
    exact hnone i ((h _ i).mpr ⟨a, hi, rfl⟩)
  · intro hnot i hi
    obtain ⟨a, ha, hk⟩ := (h k i).mp hi
    exact hnot ⟨a, List.mem_of_getElem? ha, hk⟩

/-- An element with a new key comes last. -/
theorem Indexes.append (h : Indexes key l d) {a : α} (hnew : d.get? (key a) = none) :
    Indexes key (l ++ [a]) (d.set (key a) l.length) := by
  intro k i
  rw [get?_set]
  by_cases hk : k = key a
  · subst hk
    rw [if_pos rfl, Option.some.injEq]
    constructor
    · rintro rfl
      exact ⟨a, List.getElem?_concat_length .., rfl⟩
    · rintro ⟨b, hb, hkey⟩
      rcases getElem?_concat_eq_some_iff.mp hb with hb | ⟨rfl, -⟩
      · exact absurd (List.mem_map.mpr ⟨b, List.mem_of_getElem? hb, hkey⟩)
          (h.get?_eq_none_iff.mp hnew)
      · rfl
  · rw [if_neg hk, h k i]
    constructor
    · rintro ⟨b, hb, hkey⟩
      exact ⟨b, getElem?_concat_eq_some_iff.mpr (.inl hb), hkey⟩
    · rintro ⟨b, hb, hkey⟩
      rcases getElem?_concat_eq_some_iff.mp hb with hb | ⟨-, rfl⟩
      · exact ⟨b, hb, hkey⟩
      · exact absurd hkey.symm hk

end Indexes

end Dict

end Mpubsub.Lib
