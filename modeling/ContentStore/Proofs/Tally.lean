import ContentStore.Accounting.Scan
import ContentStore.Proofs.ChunkFile
import ContentStore.Proofs.Files
import ContentStore.Proofs.MakeDirs
import Mathlib.Data.List.Induction

/-!
# A scan is a tally of files

A scan of a directory counts those files below it that it sees, each with the number of its bytes:
`count_eq_tally`.  A tally does not depend on the order of the files (`tally_perm`), and a file more or
less is one term more or less (`tally_cons`, `tally_erase`).
-/

namespace ContentStore

namespace Totals

theorem zero_add (a : Totals) : zero.add a = a := by simp [add, zero]

theorem add_assoc (a b c : Totals) : (a.add b).add c = a.add (b.add c) := by
  simp only [add, Nat.add_assoc]

theorem add_left_comm (a b c : Totals) : a.add (b.add c) = b.add (a.add c) := by
  simp only [add, Nat.add_left_comm]

end Totals

namespace Tracker

theorem totals_add {t : Tracker} {n : Nat} (h : t.size + n < Decimal.wordLimit) :
    (t.add n).totals = (Totals.one n).add t.totals := by
  have hmin : min (t.size + n) Decimal.wordMax = t.size + n :=
    Nat.min_eq_left (Nat.le_sub_one_of_lt h)
  simp only [totals, add, Totals.add, Totals.one, hmin, Totals.mk.injEq]
  exact ⟨Nat.add_comm _ _, Nat.add_comm _ _⟩

theorem totals_remove {t : Tracker} {n : Nat} {rest : Totals}
    (h : t.totals = (Totals.one n).add rest) : (t.remove n).totals = rest := by
  cases rest with
  | mk count size =>
    obtain ⟨hcount, hsize⟩ := Totals.mk.inj h
    simp only [totals, remove, hcount, hsize, Totals.one, Nat.add_sub_cancel_left]

end Tracker

namespace Scan

/-- Whether a scan counts the file that names lead to from a path: it is named like a chunk, and no path
on the way is too long. -/
def sees (m : Mode) (path : Path) : List Bytes → Bool
  | [] => false
  | name :: rest =>
    !(path.join name).isTooLong &&
      (if rest = [] then (m.classify name).isSome else sees m (path.join name) rest)

def share (m : Mode) (root : Path) (r : Key) (c : Bytes) : Totals :=
  if sees m root r.reverse then .one c.length else .zero

/-- The totals of those files that a scan counts. -/
def tally (m : Mode) (root : Path) (files : List (Key × Bytes)) : Totals :=
  files.foldr (fun f sum => (share m root f.1 f.2).add sum) .zero

variable {m : Mode} {root : Path} {r : Key} {c : Bytes} {xs ys : List (Key × Bytes)}

theorem tally_cons : tally m root ((r, c) :: xs) = (share m root r c).add (tally m root xs) := rfl

theorem tally_perm (h : xs.Perm ys) : tally m root xs = tally m root ys := by
  have : LeftCommutative fun (f : Key × Bytes) sum => (share m root f.1 f.2).add sum :=
    ⟨fun f g sum => Totals.add_left_comm _ _ sum⟩
  exact h.foldr_eq Totals.zero

theorem tally_erase (h : (r, c) ∈ xs) :
    tally m root xs = (share m root r c).add (tally m root (xs.erase (r, c))) := by
  rw [← tally_cons]
  exact tally_perm (List.perm_cons_erase h)

theorem tally_append : tally m root (xs ++ ys) = (tally m root xs).add (tally m root ys) := by
  induction xs with
  | nil => exact (Totals.zero_add _).symm
  | cons f xs ih => rw [List.cons_append, tally_cons, tally_cons, ih, Totals.add_assoc]

theorem tally_size_le (hys : ys.Nodup) (hsub : ys ⊆ xs) :
    (tally m root ys).size ≤ (tally m root xs).size := by
  induction ys generalizing xs with
  | nil => exact Nat.zero_le _
  | cons f ys ih =>
    obtain ⟨hf, hys⟩ := List.nodup_cons.mp hys
    have hrest : ys ⊆ xs.erase f := fun g hg =>
      (List.mem_erase_of_ne (ne_of_mem_of_not_mem hg hf)).mpr (hsub (List.mem_cons_of_mem _ hg))
    rw [tally_cons, tally_erase (hsub List.mem_cons_self)]
    exact Nat.add_le_add_left (ih hys hrest) _

theorem share_eq_one (h : sees m root r.reverse = true) (c : Bytes) : share m root r c = .one c.length :=
  if_pos h

theorem sees_below {p : Path} {x : Bytes} {k : Key} (hk : ∀ y ∈ k, Path.IsName y) (hx : Path.IsName x)
    (hlong : (p.below (x :: k)).isTooLong = false) (hchunk : (m.classify x).isSome = true) :
    sees m p (x :: k).reverse = true := by
  induction k using List.reverseRecOn generalizing p with
  | nil =>
    have hlong : (p.join x).isTooLong = false := hlong
    simp [sees, hlong, hchunk]
  | append_singleton k y ih =>
    have hall : ∀ z ∈ x :: (k ++ [y]), Path.IsName z := by
      intro z hz
      rcases List.mem_cons.mp hz with rfl | hz
      · exact hx
      · exact hk z hz
    have hy : (p.join y).isTooLong = false :=
      Path.isTooLong_below (l := [y]) hall ⟨x :: k, by simp⟩ hlong
    have hrest : sees m (p.join y) (x :: k).reverse = true := by
      refine ih (fun z hz => hk z (List.mem_append_left _ hz)) ?_
      rwa [← List.cons_append, Path.below_concat] at hlong
    rw [← List.cons_append, List.reverse_append, List.reverse_singleton, List.singleton_append, sees,
      if_neg (by simp), hy, hrest]
    rfl

/-! ### Scans -/

theorem totals_append (a b : List Sighting) : totals (a ++ b) = (totals a).add (totals b) := by
  induction a with
  | nil => exact (Totals.zero_add _).symm
  | cons s a ih =>
    have hcons : ∀ l, totals (s :: l) = s.totals.add (totals l) := fun _ => rfl
    rw [List.cons_append, hcons, hcons, ih, Totals.add_assoc]

theorem totals_sight (m : Mode) (path : Path) (name content : Bytes) :
    totals (sight m (path.join name) name content) = share m path [name] content := by
  unfold sight share
  rcases h : m.classify name with _ | n
  · simp [sees, h, totals]
  · cases hlong : (path.join name).isTooLong <;>
      simp [sees, h, hlong, totals, Sighting.totals, Totals.add, Totals.zero, Totals.one]

theorem files_eq_map (l : Listing) (k : Key) : l.files k = (l.files []).map fun f => (f.1 ++ k, f.2) := by
  induction l generalizing k with
  | nil => rfl
  | file name content rest ih => simp [Listing.files, ih k]
  | dir name inner rest ihi ih =>
    rw [Listing.files, Listing.files, ihi (name :: k), ihi [name], ih k]
    simp

theorem tally_below (m : Mode) (path : Path) (name : Bytes) (xs : List (Key × Bytes))
    (hne : ∀ f ∈ xs, f.1 ≠ []) :
    tally m path (xs.map fun f => (f.1 ++ [name], f.2)) =
      if (path.join name).isTooLong then .zero else tally m (path.join name) xs := by
  induction xs with
  | nil => simp [tally]
  | cons f xs ih =>
    have hf := hne f List.mem_cons_self
    have ih := ih fun g hg => hne g (List.mem_cons_of_mem _ hg)
    obtain ⟨r, c⟩ := f
    have hshare : share m path (r ++ [name]) c =
        if (path.join name).isTooLong then .zero else share m (path.join name) r c := by
      unfold share
      rw [List.reverse_append, List.reverse_singleton, List.singleton_append, sees,
        if_neg (show r.reverse ≠ [] by simpa using hf)]
      cases (path.join name).isTooLong <;> simp
    rw [List.map_cons, tally_cons, tally_cons, ih, hshare]
    cases (path.join name).isTooLong <;> simp [Totals.add, Totals.zero]

theorem ne_nil_of_mem_files {l : Listing} {f : Key × Bytes} (h : f ∈ l.files []) : f.1 ≠ [] := by
  induction l with
  | nil => cases h
  | file name content rest ih =>
    rcases List.mem_cons.mp h with h | h
    · subst h
      simp
    · exact ih h
  | dir name inner rest ihi ih =>
    rcases List.mem_append.mp h with h | h
    · rw [files_eq_map] at h
      obtain ⟨g, -, rfl⟩ := List.mem_map.mp h
      simp
    · exact ih h

/-- What a walk comes upon is the tally of all files. -/
theorem totals_walk (m : Mode) (path : Path) (l : Listing) :
    totals (walk m path l) = tally m path (l.files []) := by
  induction l generalizing path with
  | nil => rfl
  | file name content rest ih =>
    rw [walk, totals_append, totals_sight, ih, Listing.files, tally_cons]
  | dir name inner rest ihi ih =>
    rw [walk, totals_append, ih, Listing.files, tally_append, files_eq_map inner [name],
      tally_below m path name _ fun f hf => ne_nil_of_mem_files hf]
    cases (path.join name).isTooLong
    · rw [if_neg (by simp), ihi, if_neg (by simp)]
    · rfl

/-- **A scan is a tally.** -/
theorem count_eq_tally {t : Tree} (h : t.leadsToDir root = true) (m : Mode) :
    count m t root = tally m root (t.filesBelow root.key) := by
  obtain ⟨hc, hw, hd⟩ := Tree.leadsToDir_iff.mp h
  obtain ⟨inner, hnode⟩ := Tree.node?_of_kind?_dir hd
  have hstat := Tree.stat_eq_ok_iff.mpr ⟨hc, hw, hnode⟩
  unfold count sightings? Tree.filesBelow
  simp only [hstat, hnode, totals_walk]

theorem count_of_lists {t : Tree} (h : t.leadsToDir root = true) (m : Mode)
    (hxs : Lists t.kind? root.key xs) : count m t root = tally m root xs := by
  rw [count_eq_tally h]
  exact tally_perm ((Tree.lists_filesBelow (Tree.leadsToDir_iff.mp h).2.2).perm hxs)

end Scan

end ContentStore
