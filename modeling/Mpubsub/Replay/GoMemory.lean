import Mpubsub.Replay.Go
import Mathlib.Data.Finset.Card

/-!
# What `replayGuard` remembers (`replay.go`)

The map and the slice hold the same nonces, of at most `maxEntries` packets (`Bounded`), so
there is always a nonce that is not remembered (`exists_fresh`), and a packet that is stamped
now and bears it is taken (`accept_fresh`).
-/

namespace Mpubsub.Replay.Go.ReplayGuard

/-- The guard remembers no nonces but those of its entries, of which there are 4096 at most. -/
structure Bounded (g : ReplayGuard) : Prop where
  maxEntries : g.maxEntries = 4096
  length : g.order.length ≤ 4096
  seen : ∀ n ∈ g.seen, n ∈ g.order.map ReplayEntry.nonce

theorem bounded_new (window : UInt32) : Bounded (new window 4096) :=
  ⟨rfl, Nat.zero_le _, fun n hn => absurd hn (Finset.notMem_empty n)⟩

theorem seen_pruneLoop (cutoff : UInt32) (order : List ReplayEntry)
    (seen : Finset UInt32) :
    (pruneLoop cutoff order seen).1 <:+ order ∧
      (pruneLoop cutoff order seen).2 ⊆ seen ∧
      ((∀ n ∈ seen, n ∈ order.map ReplayEntry.nonce) →
        ∀ n ∈ (pruneLoop cutoff order seen).2,
          n ∈ (pruneLoop cutoff order seen).1.map ReplayEntry.nonce) := by
  induction order generalizing seen with
  | nil => exact ⟨List.suffix_rfl, Finset.Subset.refl _, fun h => h⟩
  | cons e order ih =>
    unfold pruneLoop
    split
    · obtain ⟨hsuffix, hsub, hkeep⟩ := ih (seen.erase e.nonce)
      refine ⟨hsuffix.trans (List.suffix_cons ..), hsub.trans (Finset.erase_subset ..), ?_⟩
      intro h
      refine hkeep fun n hn => ?_
      obtain ⟨hne, hn⟩ := Finset.mem_erase.mp hn
      exact (List.mem_cons.mp (h n hn)).resolve_left hne
    · exact ⟨List.suffix_rfl, Finset.Subset.refl _, fun h => h⟩

theorem Bounded.prune {g : ReplayGuard} (h : Bounded g) (now : UInt32) : Bounded (g.prune now) := by
  obtain ⟨hsuffix, -, hkeep⟩ := seen_pruneLoop (now - g.window) g.order g.seen
  exact ⟨h.maxEntries, hsuffix.length_le.trans h.length, hkeep h.seen⟩

theorem Bounded.recordNonce {g : ReplayGuard} (h : Bounded g) (timestamp nonce : UInt32) :
    Bounded (g.recordNonce timestamp nonce) := by
  have hseen : ∀ n ∈ insert nonce g.seen,
      n ∈ (g.order ++ [(⟨nonce, timestamp⟩ : ReplayEntry)]).map ReplayEntry.nonce := by
    intro n hn
    rw [List.map_append, List.mem_append]
    rcases Finset.mem_insert.mp hn with rfl | hn
    · exact .inr (List.mem_singleton_self _)
    · exact .inl (h.seen n hn)
  have hlength : (g.order ++ [(⟨nonce, timestamp⟩ : ReplayEntry)]).length =
      g.order.length + 1 := by simp
  unfold ReplayGuard.recordNonce
  simp only
  split
  · split
    · rename_i hnil
      exact absurd hnil (by simp)
    · rename_i e order hcons
      rw [hcons] at hseen hlength
      refine ⟨h.maxEntries, ?_, ?_⟩
      · have := h.length
        simp only [List.length_cons] at hlength
        simp only
        omega
      · intro n hn
        obtain ⟨hne, hn⟩ := Finset.mem_erase.mp hn
        exact (List.mem_cons.mp (hseen n hn)).resolve_left hne
  · rename_i hfits
    refine ⟨h.maxEntries, ?_, hseen⟩
    rw [h.maxEntries] at hfits
    simp only
    omega

theorem Bounded.accept {g : ReplayGuard} (h : Bounded g) (now timestamp nonce : UInt32)
    (nowValid : Bool) : Bounded (g.accept now nowValid timestamp nonce).1 := by
  unfold ReplayGuard.accept
  split
  · exact h
  split
  · exact h
  split
  · exact h
  simp only
  generalize (if now ≥ timestamp then now - timestamp else timestamp - now) = skew
  split
  · exact h
  split
  · exact h.prune now
  · exact (h.prune now).recordNonce timestamp nonce

/-- There is a nonce that the guard does not remember. -/
theorem Bounded.exists_fresh {g : ReplayGuard} (h : Bounded g) : ∃ n, n ∉ g.seen := by
  by_contra hall
  simp only [not_exists, not_not] at hall
  have hsub : (Finset.range 4097).image UInt32.ofNat ⊆ (g.order.map ReplayEntry.nonce).toFinset :=
    fun n _ => List.mem_toFinset.mpr (h.seen n (hall n))
  have hcard : ((Finset.range 4097).image UInt32.ofNat).card = 4097 := by
    rw [Finset.card_image_of_injOn, Finset.card_range]
    intro a ha b hb heq
    rw [Finset.coe_range, Set.mem_Iio] at ha hb
    have heq := congrArg UInt32.toNat heq
    have hsize : UInt32.size = 4294967296 := rfl
    rwa [UInt32.toNat_ofNat_of_lt' (by omega), UInt32.toNat_ofNat_of_lt' (by omega)] at heq
  have hle := (Finset.card_le_card hsub).trans (List.toFinset_card_le _)
  rw [hcard, List.length_map] at hle
  have := h.length
  omega

/-- The guard takes a packet that is stamped now, with a nonce that it does not remember. -/
theorem accept_fresh {g : ReplayGuard} {now nonce : UInt32} (hnow : now ≠ 0)
    (hnonce : nonce ∉ g.seen) : (g.accept now true now nonce).2 = true := by
  have hsub := (seen_pruneLoop (now - g.window) g.order g.seen).2.1
  unfold accept
  by_cases hwindow : g.window = 0
  · rw [if_pos hwindow]
  rw [if_neg hwindow, if_neg (by decide), if_neg hnow]
  have hskew : ¬(if now ≥ now then now - now else now - now) > g.window := by
    rw [ite_self, UInt32.sub_self]
    exact UInt32.not_lt.mpr (UInt32.zero_le)
  simp only
  rw [if_neg hskew]
  exact congrArg Prod.snd (if_neg fun hin => hnonce (hsub hin))

end Mpubsub.Replay.Go.ReplayGuard
