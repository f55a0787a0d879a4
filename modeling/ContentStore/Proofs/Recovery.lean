import ContentStore.Proofs.Spelling
import ContentStore.Proofs.Tally
import ContentStore.Proofs.Veil
import Mathlib.Algebra.BigOperators.Group.List.Basic

/-!
# What a scan recovers

A scan of a directory counts the files below it that are named like chunks and whose paths are short enough to
be used (`Scan.recovers`), each once and with the number of its bytes:

* a tree in which one entry differs differs by what that entry is worth (`count_update`), so that all laws about
  single files and directories follow from one;
* a scan is the sum of the scans of all that the directory lists (`count_children`);
* the number of references in a name does not matter (`count_recounted`).

`recovery_is_additive` puts them together.
-/

namespace ContentStore

open Bytes (dot)
open Function (update)

/-! ### Names of a tree -/

instance (x : Bytes) : Decidable (Path.IsName x) :=
  decidable_of_iff (x ≠ [] ∧ Bytes.slash ∉ x ∧ x ≠ [dot] ∧ x ≠ upPiece)
    ⟨fun ⟨hne, hslash, hdot, hup⟩ => ⟨hne, hslash, hdot, hup⟩, fun h => ⟨h.ne_nil, h.noSlash, h.ne_dot, h.ne_up⟩⟩

namespace Tree

/-- Every name in a tree is one that a path can spell and that can be looked up. -/
def Spellable (t : Tree) : Prop :=
  ∀ n d, t.kind? (n :: d) ≠ none → Path.IsName n ∧ (0 : UInt8) ∉ n ∧ n.length ≤ nameLimit

variable {t : Tree} {p : Path}

theorem spellable_bare : bare.Spellable := fun n d h => absurd (kind?_bare n d) h

theorem Spellable.update (h : t.Spellable) {u : Tree} {n : Bytes} {d : Key} {v : Option Kind}
    (hu : u.kind? = update t.kind? (n :: d) v) (hn : Path.IsName n ∧ (0 : UInt8) ∉ n ∧ n.length ≤ nameLimit) :
    u.Spellable := by
  intro x k hk
  rw [hu, Function.update_apply] at hk
  split at hk
  · next hsame =>
    obtain ⟨rfl, -⟩ := List.cons.inj hsame
    exact hn
  · exact h x k hk

theorem Spellable.isName (h : t.Spellable) {k : Key} (hk : t.kind? k ≠ none) : ∀ x ∈ k, Path.IsName x := by
  induction k with
  | nil => simp
  | cons n d ih =>
    have hd : t.kind? d ≠ none := by
      rw [isDir_of_kind?_cons hk]
      simp
    intro x hx
    rcases List.mem_cons.mp hx with rfl | hx
    · exact (h x d hk).1
    · exact ih hd x hx

theorem leadsToDir_update {u : Tree} (h : t.leadsToDir p = true) {k : Key} {v : Option Kind}
    (hk : t.kind? k ≠ some .dir) (hu : u.kind? = update t.kind? k v) : u.leadsToDir p = true := by
  refine leadsToDir_mono h fun j hj => ?_
  rw [hu, Function.update_of_ne, hj]
  rintro rfl
  exact hk hj

theorem stat_join_node {x : Bytes} (hx : Path.IsName x) (hcheck : (p.join x).check = .ok ())
    (hlen : x.length ≤ nameLimit) (hlead : t.leadsToDir p = true) {node : Node}
    (hnode : t.node? (x :: p.key) = some node) : t.stat (p.join x) = .ok node := by
  obtain ⟨-, hwalk, hdir⟩ := leadsToDir_iff.mp hlead
  have hkey := p.key_join hx
  have hkind : t.kind? (x :: p.key) ≠ none := by
    rw [kind?_of_node? hnode]
    simp
  refine stat_eq_ok_iff.mpr ⟨hcheck, ?_, by rw [hkey]; exact hnode⟩
  rw [Path.pieces_join _ hx, walk_concat, walk_base hwalk, hkey]
  exact stepFrom_eq_ok_iff.mpr ⟨hdir, hlen, (hx.step _).symm, hkind⟩

end Tree

theorem Totals.add_left_cancel {a b c : Totals} (h : a.add b = a.add c) : b = c := by
  cases b
  cases c
  simpa only [Totals.add, Totals.mk.injEq, Nat.add_left_cancel_iff] using h

namespace Scan

variable {m : Mode} {root : Path} {t u : Tree} {r : Key} {c : Bytes} {xs ys : List (Key × Bytes)}

/-! ### The files that are counted -/

/-- Whether a scan counts a file with the given key from the root: it is named like a chunk, and its path, which is
the root as it is spelled with the names that follow, is short enough to be used. -/
def recovers (m : Mode) (root : Path) (r : Key) : Bool :=
  (r.head?.bind m.classify).isSome && !(root.below r).isTooLong

theorem sees_reverse (h : ∀ x ∈ r, Path.IsName x) : sees m root r.reverse = recovers m root r := by
  induction r using List.reverseRecOn generalizing root with
  | nil => simp [sees, recovers]
  | append_singleton r x ih =>
    have ih := @ih (root.join x) fun y hy => h y (List.mem_append_left _ hy)
    rw [List.reverse_append, List.reverse_singleton, List.singleton_append, sees]
    rcases r with _ | ⟨y, r⟩
    · simp [recovers, Path.below, Bool.and_comm]
    · rw [if_neg (by simp), ih]
      have hbelow := Path.below_concat root (y :: r) x
      have hlong : (root.join x).isTooLong = true → (root.below (y :: r ++ [x])).isTooLong = true := by
        intro hx
        by_contra hno
        rw [Bool.not_eq_true] at hno
        have := Path.isTooLong_below (l := [x]) h ⟨y :: r, rfl⟩ hno
        rw [show root.below [x] = root.join x from rfl, hx] at this
        cases this
      unfold recovers
      rw [hbelow] at hlong ⊢
      cases hx : (root.join x).isTooLong
      · simp
      · simp [hlong hx]

/-- What a file adds to a scan. -/
def gain (m : Mode) (root : Path) (r : Key) (c : Bytes) : Totals :=
  if recovers m root r then .one c.length else .zero

theorem share_eq_gain (h : ∀ x ∈ r, Path.IsName x) (c : Bytes) : share m root r c = gain m root r c := by
  rw [share, gain, sees_reverse h]

/-- A tally is a number of files and the sum of their lengths. -/
theorem tally_eq (h : ∀ f ∈ xs, ∀ x ∈ f.1, Path.IsName x) :
    tally m root xs = ⟨(xs.filter fun f => recovers m root f.1).length,
      ((xs.filter fun f => recovers m root f.1).map fun f => f.2.length).sum⟩ := by
  induction xs with
  | nil => rfl
  | cons f xs ih =>
    have ih := ih fun g hg => h g (List.mem_cons_of_mem _ hg)
    rw [tally_cons, share_eq_gain (h f List.mem_cons_self), ih, List.filter_cons, gain]
    split
    · simp [Totals.add, Totals.one, Nat.add_comm]
    · exact Totals.zero_add _

theorem isName_of_kind? (ht : t.Spellable) {kind : Kind} (h : t.kind? (r ++ root.key) = some kind) :
    ∀ x ∈ r, Path.IsName x := fun x hx =>
  ht.isName (by rw [h]; simp) x (List.mem_append_left _ hx)

theorem isName_of_lists (ht : t.Spellable) (hxs : Lists t.kind? root.key xs) :
    ∀ f ∈ xs, ∀ x ∈ f.1, Path.IsName x := fun f hf => isName_of_kind? ht ((hxs.mem f.1 f.2).mp hf)

/-- Trees with the same entries, in whatever order they list them, count the same. -/
theorem count_congr (hroot : t.leadsToDir root = true) (hu : u.kind? = t.kind?) (m : Mode) :
    count m u root = count m t root := by
  have hroot' : u.leadsToDir root = true := Tree.leadsToDir_mono hroot fun k hk => by rw [hu, hk]
  rw [count_eq_tally hroot m]
  exact count_of_lists hroot' m (hu ▸ Tree.lists_filesBelow (Tree.leadsToDir_iff.mp hroot).2.2)

/-! ### One entry more or less -/

/-- What an entry with the given key from the root adds to a scan. -/
def worth (m : Mode) (root : Path) (r : Key) : Option Kind → Totals
  | some (.file c) => share m root r c
  | _ => .zero

@[simp] theorem worth_none : worth m root r none = .zero := rfl

@[simp] theorem worth_dir : worth m root r (some .dir) = .zero := rfl

@[simp] theorem worth_file : worth m root r (some (.file c)) = share m root r c := rfl

theorem count_without (hroot : t.leadsToDir root = true) (m : Mode) (r : Key) :
    ∃ xs, Lists (update t.kind? (r ++ root.key) none) root.key xs ∧
      count m t root = (worth m root r (t.kind? (r ++ root.key))).add (tally m root xs) := by
  have hall := Tree.lists_filesBelow (Tree.leadsToDir_iff.mp hroot).2.2
  rw [count_eq_tally hroot]
  by_cases hfile : ∃ c, t.kind? (r ++ root.key) = some (.file c)
  · obtain ⟨c, hc⟩ := hfile
    refine ⟨_, hall.remove hc, ?_⟩
    rw [hc, worth, tally_erase ((hall.mem r c).mpr hc)]
  · -- what is no file is in no list of files
    have hworth : worth m root r (t.kind? (r ++ root.key)) = .zero := by
      rcases hk : t.kind? (r ++ root.key) with _ | _ | c
      · rfl
      · rfl
      · exact absurd ⟨c, hk⟩ hfile
    refine ⟨_, hall.congr fun k c _ => ?_, by rw [hworth, Totals.zero_add]⟩
    rw [Function.update_apply]
    split
    · next hk => exact ⟨nofun, fun h => absurd ⟨c, hk ▸ h⟩ hfile⟩
    · rfl

/-- **One entry.**  Where two trees differ in one entry, their scans differ by what it is worth. -/
theorem count_update (hroot : t.leadsToDir root = true) (hroot' : u.leadsToDir root = true) {v : Option Kind}
    (hu : u.kind? = update t.kind? (r ++ root.key) v) (m : Mode) :
    (worth m root r (t.kind? (r ++ root.key))).add (count m u root) =
      (worth m root r v).add (count m t root) := by
  obtain ⟨xs, hxs, ht⟩ := count_without hroot m r
  obtain ⟨ys, hys, hcount⟩ := count_without hroot' m r
  rw [hu, Function.update_idem] at hys
  rw [hu, Function.update_self] at hcount
  rw [ht, hcount, tally_perm (hys.perm hxs), Totals.add_left_comm]

/-! ### Files and directories that come and go -/

/-- A name that no path can spell is not that of a chunk. -/
theorem share_cons (h : ∀ x ∈ r, Path.IsName x) (n c : Bytes) :
    share m root (n :: r) c = gain m root (n :: r) c := by
  by_cases hn : (m.classify n).isSome = true
  · obtain ⟨count, hcount⟩ := Option.isSome_iff_exists.mp hn
    obtain ⟨stem, hs, hfile⟩ := Mode.classify_eq_some_iff.mp hcount
    refine share_eq_gain (fun x hx => ?_) c
    rcases List.mem_cons.mp hx with rfl | hx
    · exact (hfile.isName hs).1
    · exact h x hx
  · have hsees : sees m root (n :: r).reverse = false := by
      by_contra hsees
      obtain ⟨x, hx, hchunk⟩ := classify_of_sees (Bool.not_eq_false _ ▸ hsees)
      rw [List.getLast?_reverse] at hx
      cases hx
      exact hn hchunk
    rw [share, gain, hsees, if_neg (by simp), if_neg (by simp [recovers, hn])]

theorem count_putFile (ht : t.Spellable) (hroot : t.leadsToDir root = true) (m : Mode) {n : Bytes}
    (hdir : t.kind? (r ++ root.key) = some .dir) (hnone : t.kind? (n :: r ++ root.key) = none) (c : Bytes) :
    count m (t.putFile (n :: r ++ root.key) c) root = (gain m root (n :: r) c).add (count m t root) := by
  have hnames := isName_of_kind? ht hdir
  have hold : t.kind? (n :: r ++ root.key) ≠ some .dir := by rw [hnone]; simp
  have hu := Tree.kind?_putFile c hdir hold
  have hlaw := count_update (r := n :: r) hroot (Tree.leadsToDir_update hroot hold hu) hu m
  rwa [hnone, worth_none, worth_file, Totals.zero_add, share_cons hnames] at hlaw

theorem count_remove (hnames : ∀ x ∈ r, Path.IsName x) (hroot : t.leadsToDir root = true) (m : Mode)
    (hfile : t.kind? (r ++ root.key) = some (.file c)) :
    count m t root = (gain m root r c).add (count m (t.remove (r ++ root.key)) root) := by
  have hold : t.kind? (r ++ root.key) ≠ some .dir := by rw [hfile]; simp
  have hu := Tree.kind?_removeFile hold
  have hlaw := count_update hroot (Tree.leadsToDir_update hroot hold hu) hu m
  rw [hfile, worth_none, worth_file, Totals.zero_add, share_eq_gain hnames] at hlaw
  exact hlaw.symm

theorem count_move (ht : t.Spellable) (hroot : t.leadsToDir root = true) (m : Mode) {n : Bytes} {old : Key}
    (hfile : t.kind? (old ++ root.key) = some (.file c)) (hdir : t.kind? (r ++ root.key) = some .dir)
    (hnone : t.kind? (n :: r ++ root.key) = none) :
    (gain m root old c).add (count m (t.move (old ++ root.key) (n :: r ++ root.key)) root) =
      (gain m root (n :: r) c).add (count m t root) := by
  have hnames := isName_of_kind? ht hdir
  have hold : t.kind? (old ++ root.key) ≠ some .dir := by rw [hfile]; simp
  have hgone := Tree.kind?_removeFile hold
  have hleft := Tree.leadsToDir_update hroot hold hgone
  -- the file is gone before it comes
  have hfree : (t.remove (old ++ root.key)).kind? (n :: r ++ root.key) = none := by
    rw [hgone, Function.update_apply, hnone, ite_self]
  have hu : (t.move (old ++ root.key) (n :: r ++ root.key)).kind? =
      update (t.remove (old ++ root.key)).kind? (n :: r ++ root.key) (some (.file c)) := by
    rw [hgone]
    exact Tree.kind?_move hfile hdir (by rw [hnone]; simp)
  have hlaw := count_update (r := n :: r) hleft
    (Tree.leadsToDir_update hleft (by rw [hfree]; simp) hu) hu m
  rw [hfree, worth_none, worth_file, Totals.zero_add, share_cons hnames] at hlaw
  rw [hlaw, count_remove (isName_of_kind? ht hfile) hroot m hfile, Totals.add_left_comm]

theorem count_putDir (hroot : t.leadsToDir root = true) (m : Mode) {n : Bytes}
    (hdir : t.kind? (r ++ root.key) = some .dir) (hnone : t.kind? (n :: r ++ root.key) = none) :
    count m (t.putDir (n :: r ++ root.key)) root = count m t root := by
  have hu := Tree.kind?_putDir hdir hnone
  have hroot' := Tree.leadsToDir_update hroot (show t.kind? (n :: r ++ root.key) ≠ some .dir by rw [hnone]; simp) hu
  have hlaw := count_update (r := n :: r) hroot hroot' hu m
  rwa [hnone, worth_none, worth_dir, Totals.zero_add, Totals.zero_add] at hlaw

/-- An empty directory that is gone is not missed, if the root can still be reached. -/
theorem count_removeDir (hroot : t.leadsToDir root = true) (m : Mode)
    (hempty : t.node? (r ++ root.key) = some (.dir .nil))
    (hroot' : (t.remove (r ++ root.key)).leadsToDir root = true) :
    count m (t.remove (r ++ root.key)) root = count m t root := by
  by_cases hk : r ++ root.key = []
  · rw [hk, Tree.remove]
  have hu : (t.remove (r ++ root.key)).kind? = update t.kind? (r ++ root.key) none := by
    funext k
    rw [Tree.kind?_remove hk, Function.update_apply]
    by_cases hsame : k = r ++ root.key
    · rw [if_pos hsame, if_pos (hsame ▸ List.suffix_refl _)]
    rw [if_neg hsame]
    split
    · next hbelow =>
      -- nothing lies below an empty directory
      obtain ⟨s, rfl⟩ := hbelow
      obtain ⟨s, n, rfl⟩ := List.eq_nil_or_concat s |>.resolve_left (by rintro rfl; exact hsame rfl)
      rw [Tree.kind?, Tree.node?_append, hempty, Option.bind_some, List.concat_eq_append, Node.descend_concat]
      rfl
    · rfl
  have hlaw := count_update hroot hroot' hu m
  rwa [Tree.kind?_of_node? hempty, Node.kind, worth_none, worth_dir, Totals.zero_add, Totals.zero_add] at hlaw

/-! ### The entries of the root -/

/-- What one entry of a directory adds to a scan of the directory. -/
def entryTotals (m : Mode) (path : Path) : Bytes × Node → Totals
  | (n, .file c) => totals (sight m (path.join n) n c)
  | (n, .dir inner) => if (path.join n).isTooLong then .zero else totals (walk m (path.join n) inner)

theorem totals_walk_entries (m : Mode) (path : Path) (l : Listing) :
    totals (walk m path l) = (l.toList.map (entryTotals m path)).foldr Totals.add .zero := by
  induction l with
  | nil => rfl
  | file n c rest ih => rw [walk, totals_append, ih, Listing.toList, List.map_cons, List.foldr_cons, entryTotals]
  | dir n inner rest _ ih =>
    rw [walk, totals_append, ih, Listing.toList, List.map_cons, List.foldr_cons, entryTotals]
    cases (path.join n).isTooLong <;> rfl

theorem count_join (ht : t.Spellable) (hroot : t.leadsToDir root = true) (m : Mode) {n : Bytes} {node : Node}
    (hnode : t.node? (n :: root.key) = some node) : count m t (root.join n) = entryTotals m root (n, node) := by
  obtain ⟨hname, hzero, hlen⟩ := ht n root.key (by rw [Tree.kind?_of_node? hnode]; simp)
  have hroot0 := Path.zero_notMem_of_check (Tree.leadsToDir_iff.mp hroot).1
  cases hlong : (root.join n).isTooLong with
  | false =>
    have hstat := Tree.stat_join_node hname (Path.check_join hname hroot0 hzero hlong) hlen hroot hnode
    cases node with
    | file c => simp only [count, sightings?, hstat, Path.fileName?_join _ hname, Option.getD_some, entryTotals]
    | dir inner => simp [count, sightings?, hstat, entryTotals, hlong]
  | true =>
    -- neither the entry nor anything below it can be looked at
    have hcheck : (root.join n).check = .error .invalidFilename := by
      have hbytes : (root.join n).bytes ≠ [] := fun e => Path.join_ne_blank root hname (congrArg Path.mk e)
      have hnul := Path.zero_notMem_join hname hroot0 hzero
      simp [Path.check, hbytes, hnul, hlong]
    have hstat := Tree.stat_eq_error_iff (t := t).mpr (Or.inl hcheck)
    have hcount : count m t (root.join n) = .zero := by simp only [count, sightings?, hstat]
    rw [hcount]
    cases node with
    | file c => cases hchunk : m.classify n <;> simp [entryTotals, sight, hlong, hchunk, totals, Sighting.totals,
        Totals.add, Totals.zero]
    | dir inner => simp [entryTotals, hlong]

theorem foldr_add (sums : List Totals) :
    sums.foldr Totals.add .zero = ⟨(sums.map Totals.count).sum, (sums.map Totals.size).sum⟩ := by
  induction sums with
  | nil => rfl
  | cons a sums ih => rw [List.foldr_cons, ih, Totals.add, List.map_cons, List.map_cons, List.sum_cons, List.sum_cons]

/-- **The entries of the root.**  A scan is the sum of the scans of all that the root lists. -/
theorem count_children (ht : t.Spellable) (hroot : t.leadsToDir root = true) (m : Mode) {names : List Bytes}
    (hnodup : names.Nodup) (hmem : ∀ n, n ∈ names ↔ t.kind? (n :: root.key) ≠ none) :
    count m t root = ⟨(names.map fun n => (count m t (root.join n)).count).sum,
      (names.map fun n => (count m t (root.join n)).size).sum⟩ := by
  obtain ⟨hc, hw, hd⟩ := Tree.leadsToDir_iff.mp hroot
  obtain ⟨inner, hnode⟩ := Tree.node?_of_kind?_dir hd
  have hdistinct : inner.Distinct := Tree.distinct_of_node? hnode
  have hchild : ∀ n node, (n, node) ∈ inner.toList ↔ t.node? (n :: root.key) = some node := by
    intro n node
    rw [Listing.mem_toList_iff hdistinct, Tree.node?, hnode, Option.bind_some, Node.child?]
  have hperm : names.Perm (inner.toList.map Prod.fst) := by
    refine (List.perm_ext_iff_of_nodup hnodup (Listing.nodup_toList hdistinct)).mpr fun n => ?_
    rw [hmem, ne_eq, ← Tree.node?_eq_none_iff, ← ne_eq, Option.ne_none_iff_exists']
    simp only [List.mem_map, Prod.exists, hchild, exists_and_right, exists_eq_right]
  have hentries : inner.toList.map (entryTotals m root) =
      (inner.toList.map Prod.fst).map fun n => count m t (root.join n) := by
    rw [List.map_map]
    exact List.map_congr_left fun e he => (count_join ht hroot m ((hchild e.1 e.2).mp he)).symm
  have hcount : count m t root = totals (walk m root inner) := by
    simp only [count, sightings?, Tree.stat_eq_ok_iff.mpr ⟨hc, hw, hnode⟩]
  rw [hcount, totals_walk_entries, hentries, foldr_add, ← ((hperm.map _).map _).sum_eq,
    ← ((hperm.map _).map _).sum_eq, List.map_map, List.map_map]
  rfl

/-! ### The numbers of references -/

/-- Two files of one chunk in one directory, which may differ in the number of references in their names, and whose
paths are short enough to be used; or one and the same file. -/
inductive Recounted (m : Mode) (root : Path) : Key × Bytes → Key × Bytes → Prop where
  | same (f : Key × Bytes) : Recounted m root f f
  | other {stem f g : Bytes} {i j : Nat} {k : Key} {c : Bytes} (hs : isStem stem = true) (hf : m.IsFile stem i f)
      (hg : m.IsFile stem j g) (hshort : (root.below (f :: k)).isTooLong = false)
      (hshort' : (root.below (g :: k)).isTooLong = false) : Recounted m root (f :: k, c) (g :: k, c)

theorem recovers_of_isFile {stem f : Bytes} {i : Nat} {k : Key} (hs : isStem stem = true) (hf : m.IsFile stem i f)
    (hshort : (root.below (f :: k)).isTooLong = false) : recovers m root (f :: k) = true := by
  have hchunk := Mode.classify_eq_some_iff.mpr ⟨stem, hs, hf⟩
  simp [recovers, hchunk, hshort]

theorem Recounted.share_eq {f g : Key × Bytes} (h : Recounted m root f g) (hf : ∀ x ∈ f.1, Path.IsName x) :
    share m root f.1 f.2 = share m root g.1 g.2 := by
  cases h with
  | same => rfl
  | other hs hf' hg hshort hshort' =>
    have hk := fun x hx => hf x (List.mem_cons_of_mem _ hx)
    rw [share_cons hk, share_cons hk, gain, gain, if_pos (recovers_of_isFile hs hf' hshort),
      if_pos (recovers_of_isFile hs hg hshort')]

/-- **The numbers of references** in the names of the files do not matter. -/
theorem count_recounted (ht : t.Spellable) (hroot : t.leadsToDir root = true) (hroot' : u.leadsToDir root = true)
    (m : Mode) (hxs : Lists t.kind? root.key xs) (hys : Lists u.kind? root.key ys)
    (h : List.Forall₂ (Recounted m root) xs ys) : count m u root = count m t root := by
  rw [count_of_lists hroot m hxs, count_of_lists hroot' m hys]
  have hnames := isName_of_lists ht hxs
  clear hxs hys
  induction h with
  | nil => rfl
  | cons hfg _ ih =>
    rw [tally_cons, tally_cons, ih fun f hf => hnames f (List.mem_cons_of_mem _ hf),
      hfg.share_eq (hnames _ List.mem_cons_self)]

/-! ### All laws together -/

/-- What a scan of a directory comes to, and what it comes to after a change below the directory. -/
structure Additive (m : Mode) (root : Path) (t : Tree) : Prop where
  /-- The files that are recovered are counted and their bytes are summed up, in whatever order they are listed. -/
  found : ∀ files, Lists t.kind? root.key files → count m t root =
    ⟨(files.filter fun f => recovers m root f.1).length,
      ((files.filter fun f => recovers m root f.1).map fun f => f.2.length).sum⟩
  /-- The order in which directories list their entries does not matter. -/
  unordered : ∀ u : Tree, u.kind? = t.kind? → count m u root = count m t root
  /-- A scan is the sum of the scans of all that the directory lists. -/
  children : ∀ names : List Bytes, names.Nodup → (∀ n, n ∈ names ↔ t.kind? (n :: root.key) ≠ none) →
    count m t root = ⟨(names.map fun n => (count m t (root.join n)).count).sum,
      (names.map fun n => (count m t (root.join n)).size).sum⟩
  /-- The numbers of references in the names of the files do not matter. -/
  recounted : ∀ (u : Tree) (files others : List (Key × Bytes)), u.leadsToDir root = true →
    Lists t.kind? root.key files → Lists u.kind? root.key others → List.Forall₂ (Recounted m root) files others →
    count m u root = count m t root
  /-- A file that is recovered may take any other key under which it is recovered. -/
  renamed : ∀ (old : Key) (n : Bytes) (dir : Key) (c : Bytes), t.kind? (old ++ root.key) = some (.file c) →
    t.kind? (dir ++ root.key) = some .dir → t.kind? (n :: dir ++ root.key) = none →
    recovers m root old = true → recovers m root (n :: dir) = true →
    count m (t.move (old ++ root.key) (n :: dir ++ root.key)) root = count m t root
  /-- A file that comes is one chunk more if it is recovered, and nothing more otherwise. -/
  added : ∀ (n : Bytes) (dir : Key) (c : Bytes), t.kind? (dir ++ root.key) = some .dir →
    t.kind? (n :: dir ++ root.key) = none →
    count m (t.putFile (n :: dir ++ root.key) c) root = (gain m root (n :: dir) c).add (count m t root)
  /-- A file that goes is one chunk less if it was recovered, and nothing less otherwise. -/
  removed : ∀ (r : Key) (c : Bytes), t.kind? (r ++ root.key) = some (.file c) →
    count m t root = (gain m root r c).add (count m (t.remove (r ++ root.key)) root)
  /-- An empty directory that comes is nothing more. -/
  dirMade : ∀ (n : Bytes) (dir : Key), t.kind? (dir ++ root.key) = some .dir →
    t.kind? (n :: dir ++ root.key) = none → count m (t.putDir (n :: dir ++ root.key)) root = count m t root
  /-- An empty directory that goes is nothing less, if the root can still be reached. -/
  dirRemoved : ∀ r : Key, t.node? (r ++ root.key) = some (.dir .nil) →
    (t.remove (r ++ root.key)).leadsToDir root = true → count m (t.remove (r ++ root.key)) root = count m t root

end Scan

/-- **A scan is additive.**  It comes to the number of the files below the root that are named like chunks and whose
paths are short enough to be used, and to the sum of their lengths: in whatever order directories list them, child by
child, and whatever their numbers of references are; and a file or an empty directory that comes, goes or takes
another name changes it by what it is worth. -/
theorem recovery_is_additive {t : Tree} (ht : t.Spellable) {root : Path} (hroot : t.leadsToDir root = true)
    (m : Mode) : Scan.Additive m root t where
  found files hfiles := by
    rw [Scan.count_of_lists hroot m hfiles, Scan.tally_eq (Scan.isName_of_lists ht hfiles)]
  unordered _ hu := Scan.count_congr hroot hu m
  children _ hnodup hmem := Scan.count_children ht hroot m hnodup hmem
  recounted _ _ _ hroot' hfiles hothers h := Scan.count_recounted ht hroot hroot' m hfiles hothers h
  renamed old n dir c hfile hdir hnone hold hnew := by
    have h := Scan.count_move ht hroot m hfile hdir hnone
    rw [Scan.gain, Scan.gain, if_pos hold, if_pos hnew] at h
    exact Totals.add_left_cancel h
  added _ _ c hdir hnone := Scan.count_putFile ht hroot m hdir hnone c
  removed _ _ hfile := Scan.count_remove (Scan.isName_of_kind? ht hfile) hroot m hfile
  dirMade _ _ hdir hnone := Scan.count_putDir hroot m hdir hnone
  dirRemoved _ hempty hroot' := Scan.count_removeDir hroot m hempty hroot'

namespace Grove

def root : Path := Path.ofText "r"

/-- The root holds a chunk with two references, a chunk in a directory of its own, and a file that is no chunk. -/
def tree : Tree :=
  let r := Bytes.ofText "r"
  ((((Tree.bare.putDir [r]).putFile [Bytes.ofText "ab.2", r] [1, 2, 3]).putDir [Bytes.ofText "6", r]).putFile
    [Bytes.ofText "1.07", Bytes.ofText "6", r] [4]).putFile [Bytes.ofText "notes", r] [5]

theorem spellable : tree.Spellable := by
  let r := Bytes.ofText "r"
  let shard := Bytes.ofText "6"
  have hr := Tree.spellable_bare.update (@Tree.kind?_putDir _ r [] rfl (by decide +kernel)) (by decide +kernel)
  have hshared := hr.update (@Tree.kind?_putFile _ (Bytes.ofText "ab.2") [r] [1, 2, 3] (by decide +kernel)
    (by decide +kernel)) (by decide +kernel)
  have hshard := hshared.update (@Tree.kind?_putDir _ shard [r] (by decide +kernel) (by decide +kernel))
    (by decide +kernel)
  have hchunk := hshard.update (@Tree.kind?_putFile _ (Bytes.ofText "1.07") [shard, r] [4] (by decide +kernel)
    (by decide +kernel)) (by decide +kernel)
  exact hchunk.update (@Tree.kind?_putFile _ (Bytes.ofText "notes") [r] [5] (by decide +kernel) (by decide +kernel))
    (by decide +kernel)

end Grove

/-- Two chunks; one of them gets another name and goes deeper, and a chunk or another file comes. -/
theorem recovery_is_additive_grove :
    Grove.tree.Spellable ∧ Grove.tree.leadsToDir Grove.root = true ∧
    Scan.count .counted Grove.tree Grove.root = ⟨2, 4⟩ ∧
    Scan.count .counted (Grove.tree.move ([Bytes.ofText "ab.2"] ++ Grove.root.key)
      ([Bytes.ofText "c.11", Bytes.ofText "6"] ++ Grove.root.key)) Grove.root = ⟨2, 4⟩ ∧
    Scan.count .counted (Grove.tree.putFile ([Bytes.ofText "d.1"] ++ Grove.root.key) [6, 7]) Grove.root = ⟨3, 6⟩ ∧
    Scan.count .counted (Grove.tree.putFile ([Bytes.ofText "d"] ++ Grove.root.key) [6, 7]) Grove.root = ⟨2, 4⟩ := by
  have hroot : Grove.tree.leadsToDir Grove.root = true := by decide +kernel
  have h := recovery_is_additive Grove.spellable hroot .counted
  have hcount : Scan.count .counted Grove.tree Grove.root = ⟨2, 4⟩ := by decide +kernel
  refine ⟨Grove.spellable, hroot, hcount, ?_, ?_, ?_⟩
  · rw [h.renamed [Bytes.ofText "ab.2"] (Bytes.ofText "c.11") [Bytes.ofText "6"] [1, 2, 3] (by decide +kernel)
      (by decide +kernel) (by decide +kernel) (by decide +kernel) (by decide +kernel), hcount]
  · rw [h.added (Bytes.ofText "d.1") [] [6, 7] (by decide +kernel) (by decide +kernel), hcount]
    decide +kernel
  · rw [h.added (Bytes.ofText "d") [] [6, 7] (by decide +kernel) (by decide +kernel), hcount]
    decide +kernel

/-! ### Trees that are too deep, and roots that are spelled through their own directories -/

namespace Abyss

/-- A directory name of the greatest length. -/
def long : Bytes := List.replicate nameLimit 120

/-- Sixteen directories of such a name, one in the other, below `r`. -/
def dir : Key := List.replicate 16 long ++ [Bytes.ofText "r"]

/-- The tree with a chunk file in the innermost of them. -/
def tree : Tree :=
  (dir.tails.reverse.foldl (fun t k => t.putDir k) Tree.bare).putFile (Bytes.ofText "ab" :: dir) [1]

end Abyss

namespace Winding

/-- This path leads to the directory `r`, by way of the directory `x` in it. -/
def root : Path := Path.ofText "r/x/.."

/-- The key of the directory `x`. -/
def aside : Key := [Bytes.ofText "x"] ++ root.key

/-- A chunk file and the empty directory `x` in `r`. -/
def tree : Tree :=
  let r := Bytes.ofText "r"
  ((Tree.bare.putDir [r]).putDir [Bytes.ofText "x", r]).putFile [Bytes.ofText "ab", r] [1]

end Winding

/-- A scan does not count a chunk file that lies so deep that its path is too long, and it counts nothing after an
empty directory has gone that the root is spelled through. -/
theorem recovery_misses_deep_file :
    Abyss.tree.leadsToDir (Path.ofText "r") = true ∧
    Abyss.tree.files = [(Bytes.ofText "ab" :: Abyss.dir, [1])] ∧
    Mode.plain.classify (Bytes.ofText "ab") = some 1 ∧
    Scan.count .plain Abyss.tree (Path.ofText "r") ≠ .one 1 ∧
    Winding.tree.leadsToDir Winding.root = true ∧
    Winding.tree.node? Winding.aside = some (.dir .nil) ∧
    Scan.count .plain Winding.tree Winding.root = .one 1 ∧
    Scan.count .plain (Winding.tree.remove Winding.aside) Winding.root ≠ .one 1 := by
  refine ⟨?_, ?_, ?_, ?_, ?_, ?_, ?_, ?_⟩ <;> decide +kernel

end ContentStore
