import ContentStore.Proofs.Found
import ContentStore.Proofs.Recovery

/-!
# Counted chunks are looked up exactly

A counted chunk is looked for among all that its directory lists.  Where the directory has at most one file of the
chunk, the lookup comes to this file or to nothing, whatever else is listed and in whatever order
(`pick_eq_some_iff`); it comes to nothing, too, where the directory is missing (`list_of_missing`).  What is found is
a file that a scan of any directory above it counts once, if the path that the scan uses is not too long
(`count_found`).
-/

namespace ContentStore

/-! ### Picking from a listing -/

namespace Location

variable {l : Location} {entries others : List (Bytes × Node)} {e : Entry}

/-- At most one entry is a file of the counted chunk at a location. -/
def Sole (l : Location) (entries : List (Bytes × Node)) : Prop :=
  ∀ f g i j x y, (f, .file x) ∈ entries → (g, .file y) ∈ entries → Mode.counted.IsFile l.stem i f →
    Mode.counted.IsFile l.stem j g → f = g ∧ x = y

theorem sole_of_all (hs : isStem l.stem = true)
    (h : ∀ a ∈ entries, ∀ b ∈ entries, (l.chunkOf? a.1 a.2).isSome = true → (l.chunkOf? b.1 b.2).isSome = true →
      a = b) : l.Sole entries := by
  intro f g i j x y hf hg hfi hgj
  have hchunk := fun file count content hfile => (@chunkOf?_eq_some_iff l hs file (.file content) _).mpr
    ⟨content, count, rfl, hfile, rfl⟩
  have hsame := h _ hf _ hg (by rw [hchunk f i x hfi]; rfl) (by rw [hchunk g j y hgj]; rfl)
  cases hsame
  exact ⟨rfl, rfl⟩

theorem Sole.perm (h : l.Sole entries) (hperm : others.Perm entries) : l.Sole others :=
  fun f g i j x y hf hg => h f g i j x y (hperm.mem_iff.mp hf) (hperm.mem_iff.mp hg)

theorem pick_eq_some_iff (hs : isStem l.stem = true) (hsole : l.Sole entries) :
    l.pick entries = some e ↔ ∃ file content count, (file, .file content) ∈ entries ∧
      Mode.counted.IsFile l.stem count file ∧ e = ⟨l.dir.join file, count, content.length⟩ := by
  constructor
  · intro h
    obtain ⟨⟨file, node⟩, hmem, hchunk⟩ := List.exists_of_findSome?_eq_some h
    obtain ⟨content, count, rfl, hfile, he⟩ := (chunkOf?_eq_some_iff hs).mp hchunk
    exact ⟨file, content, count, hmem, hfile, he⟩
  · rintro ⟨file, content, count, hmem, hfile, rfl⟩
    have hchunk := (chunkOf?_eq_some_iff hs).mpr ⟨content, count, rfl, hfile, rfl⟩
    -- something is picked, and it can be nothing else
    rcases hpick : l.pick entries with _ | e
    · have hnone : l.chunkOf? file (.file content) = none := List.findSome?_eq_none_iff.mp hpick _ hmem
      rw [hnone] at hchunk
      cases hchunk
    · obtain ⟨⟨other, node⟩, hother, hchunk'⟩ := List.exists_of_findSome?_eq_some hpick
      obtain ⟨content', count', rfl, hfile', rfl⟩ := (chunkOf?_eq_some_iff hs).mp hchunk'
      obtain ⟨rfl, rfl⟩ := hsole _ _ _ _ _ _ hother hmem hfile' hfile
      rw [(hfile'.inj hfile).2]

theorem pick_perm (hs : isStem l.stem = true) (hsole : l.Sole entries) (hperm : others.Perm entries) :
    l.pick others = l.pick entries := by
  ext e
  simp only [pick_eq_some_iff hs hsole, pick_eq_some_iff hs (hsole.perm hperm), hperm.mem_iff]

end Location

/-! ### Names in keys -/

theorem Key.isName_step {k : Key} {piece : Bytes} (hslash : Bytes.slash ∉ piece) (hk : ∀ x ∈ k, Path.IsName x) :
    ∀ x ∈ k.step piece, Path.IsName x := by
  intro x hx
  unfold Key.step at hx
  split at hx
  · exact hk x hx
  · next hidle =>
    split at hx
    · exact hk x (List.mem_of_mem_tail hx)
    · next hup =>
      rcases List.mem_cons.mp hx with rfl | hx
      · rw [Path.isIdle, Bool.or_eq_true, decide_eq_true_eq, decide_eq_true_eq, not_or] at hidle
        exact ⟨hidle.1, hslash, hidle.2, hup⟩
      · exact hk x hx

theorem Path.isName_of_mem_key (p : Path) : ∀ x ∈ p.key, IsName x := by
  refine List.foldlRecOn (motive := fun k => ∀ x ∈ k, IsName x) p.pieces Key.step (by simp) fun k hk piece hpiece => ?_
  exact Key.isName_step (Bytes.notMem_of_mem_splitOn hpiece) hk

/-! ### Directories that are missing -/

namespace Tree

variable {t : Tree} {p : Path}

/-- A path that could be used leads to no directory, and no file is in its way. -/
structure Missing (t : Tree) (p : Path) : Prop where
  noZero : (0 : UInt8) ∉ p.bytes
  short : p.isTooLong = false
  shortNames : ∀ piece ∈ p.pieces, piece.length ≤ nameLimit
  noFile : ∀ k ∈ p.visits, t.kind? k = none ∨ t.kind? k = some .dir
  noDir : t.leadsToDir p = false

theorem stepFrom_of_none {k : Key} {piece : Bytes} (hk : t.kind? k = some .dir) (hlen : piece.length ≤ nameLimit)
    (hnone : t.kind? (k.step piece) = none) : t.stepFrom k piece = .error .notFound := by
  -- the piece is a name, since an idle one or one that leads up would lead to a directory
  have hidle : Path.isIdle piece = false := by
    by_contra h
    rw [Key.step, if_pos (by simpa using h), hk] at hnone
    cases hnone
  have hup : piece ≠ upPiece := by
    intro h
    rw [Key.step, hidle, if_neg (by simp), if_pos h, isDir_tail (by rw [hk]; simp)] at hnone
    cases hnone
  rw [Key.step, hidle, if_neg (by simp), if_neg hup] at hnone
  simp [stepFrom, hk, hidle, hup, Nat.not_lt.mpr hlen, hnone]

/-- Where no file is in the way and no name is too long, a way ends in a directory or at a name that is not there. -/
theorem walk_of_noFile {k : Key} {pieces : List Bytes} (hk : t.kind? k = some .dir)
    (hlen : ∀ piece ∈ pieces, piece.length ≤ nameLimit)
    (hfile : ∀ j ∈ k.visits pieces, t.kind? j = none ∨ t.kind? j = some .dir) :
    t.walk k pieces = .error .notFound ∨
      t.walk k pieces = .ok (pieces.foldl Key.step k) ∧ t.kind? (pieces.foldl Key.step k) = some .dir := by
  induction pieces generalizing k with
  | nil => exact Or.inr ⟨rfl, hk⟩
  | cons piece pieces ih =>
    have hpiece := hlen piece List.mem_cons_self
    have hrest := fun j hj => hfile j (List.mem_cons_of_mem k hj)
    rw [walk_cons]
    rcases hrest _ (Key.mem_visits_self (k.step piece) pieces) with hnext | hnext
    · rw [stepFrom_of_none hk hpiece hnext]
      exact Or.inl rfl
    · rw [stepFrom_eq_ok hk hpiece (by rw [hnext]; simp), List.foldl_cons]
      exact ih hnext (fun y hy => hlen y (List.mem_cons_of_mem _ hy)) hrest

theorem list_of_missing (h : t.Missing p) : t.list p = .error .notFound := by
  have hstat : t.stat p = .error .notFound := by
    refine stat_eq_error_iff.mpr ?_
    by_cases hblank : p.bytes = []
    · exact Or.inl (by simp [Path.check, hblank])
    · have hcheck := Path.check_eq_ok_iff.mpr ⟨h.noZero, hblank, h.short⟩
      refine Or.inr ⟨hcheck, ?_⟩
      rcases walk_of_noFile (t.kind?_nil) h.shortNames h.noFile with hwalk | ⟨hwalk, hdir⟩
      · exact hwalk
      · exact absurd (leadsToDir_iff.mpr ⟨hcheck, hwalk, hdir⟩) (by rw [h.noDir]; simp)
  simp [list, hstat]

theorem leadsToDir_of_list {inner : Listing} (h : t.list p = .ok inner) : t.leadsToDir p = true := by
  obtain ⟨hc, hw, hnode⟩ := stat_eq_ok_iff.mp (list_eq_ok_iff.mp h)
  exact leadsToDir_iff.mpr ⟨hc, hw, kind?_of_node? hnode⟩

end Tree

/-! ### Finding and scanning -/

namespace Mode

variable {l : Location} {t : Tree} {e : Entry}

theorem find_counted_of_list {inner : Listing} (h : t.list l.dir = .ok inner) :
    Mode.counted.find l t = .ok (l.pick inner.toList) := by
  unfold find
  simp only [h]

theorem found_of_find_counted (hs : isStem l.stem = true) (h : Mode.counted.find l t = .ok (some e)) :
    ∃ file content, Mode.counted.Found l t e file content := by
  refine find_eq_some (fun hblank => ?_) hs h
  rcases hlist : t.list l.dir with f | inner
  · unfold find at h
    rw [hlist] at h
    cases f <;> cases h
  · exact Layout.root_ne_blank (Tree.leadsToDir_of_list hlist) hblank

/-- A file that is found is one chunk in a scan of a directory above it. -/
theorem count_found (hs : isStem l.stem = true) (h : Mode.counted.find l t = .ok (some e)) {d : Path}
    (hd : t.leadsToDir d = true) {r : Key} (hr : e.path.key = r ++ d.key) (hshort : (d.below r).isTooLong = false) :
    Scan.count .counted t d =
      (Totals.one e.size).add (Scan.count .counted (t.remove e.path.key) d) := by
  obtain ⟨file, content, found⟩ := found_of_find_counted hs h
  have hkey := found.key hs
  have hkind : t.kind? (r ++ d.key) = some (.file content) := by rw [← hr, hkey, found.kind]
  have hnames : ∀ x ∈ r, Path.IsName x := fun x hx =>
    e.path.isName_of_mem_key x (by rw [hr]; exact List.mem_append_left _ hx)
  rw [hr, Scan.count_remove hnames hd .counted hkind, found.size]
  congr 1
  cases r with
  | nil =>
    rw [List.nil_append, (Tree.leadsToDir_iff.mp hd).2.2] at hkind
    cases hkind
  | cons x r =>
    obtain rfl : x = file := (List.cons.inj (hr.symm.trans hkey)).1
    rw [Scan.gain, if_pos (Scan.recovers_of_isFile hs found.isFile hshort)]

end Mode

/-- What the lookup of a counted chunk comes to where the directory of the chunk can be listed. -/
structure Location.LooksUp (l : Location) (t : Tree) (inner : Listing) : Prop where
  /-- The file of the chunk, if it is listed. -/
  present : ∀ file content count, (file, .file content) ∈ inner.toList → Mode.counted.IsFile l.stem count file →
    Mode.counted.find l t = .ok (some ⟨l.dir.join file, count, content.length⟩)
  /-- Nothing, if no file of the chunk is listed. -/
  absent : (∀ file content count, (file, .file content) ∈ inner.toList → ¬ Mode.counted.IsFile l.stem count file) →
    Mode.counted.find l t = .ok none
  /-- The same where the same is listed in another order. -/
  unordered : ∀ (u : Tree) (other : Listing), u.list l.dir = .ok other → other.toList.Perm inner.toList →
    Mode.counted.find l u = Mode.counted.find l t

/-- **Counted chunks are looked up exactly.**  Where at most one file of a chunk is listed, this file is found with
its number of references and its length, and nothing is found where there is none or where the directory is missing;
what is found is one chunk in every scan of a directory above it, if its path from there is short enough. -/
theorem counted_lookup_exact {layout : Layout} {name : Bytes} {l : Location} (h : layout.locate name = .ok l)
    (t : Tree) :
    (∀ inner, t.list l.dir = .ok inner → l.Sole inner.toList → l.LooksUp t inner) ∧
    (t.Missing l.dir → Mode.counted.find l t = .ok none) ∧
    (∀ e, Mode.counted.find l t = .ok (some e) → ∀ (d : Path) (r : Key), t.leadsToDir d = true →
      e.path.key = r ++ d.key → (d.below r).isTooLong = false →
      Scan.count .counted t d = (Totals.one e.size).add (Scan.count .counted (t.remove e.path.key) d)) := by
  obtain ⟨hname, rfl⟩ := Layout.locate_eq_ok_iff.mp h
  have hs := layout.isStem_place hname
  refine ⟨fun inner hlist hsole => ?_, fun hmissing => ?_, fun e he d r hd hr hshort => ?_⟩
  · have hfind := Mode.find_counted_of_list hlist
    constructor
    case present =>
      intro file content count hmem hfile
      rw [hfind, (Location.pick_eq_some_iff hs hsole).mpr ⟨file, content, count, hmem, hfile, rfl⟩]
    case absent =>
      intro hnone
      have hpick : (layout.place name).pick inner.toList = none := by
        refine Option.eq_none_iff_forall_ne_some.mpr fun e he => ?_
        obtain ⟨file, content, count, hmem, hfile, -⟩ := (Location.pick_eq_some_iff hs hsole).mp he
        exact hnone file content count hmem hfile
      rw [hfind, hpick]
    case unordered =>
      intro u other hother hperm
      rw [hfind, Mode.find_counted_of_list hother, Location.pick_perm hs hsole hperm]
  · unfold Mode.find
    simp only [Tree.list_of_missing hmissing]
  · exact Mode.count_found hs he hd hr hshort

namespace Thicket

def layout : Layout := ⟨Path.ofText "r", 1⟩

def dir : Key := [Bytes.ofText "a", Bytes.ofText "r"]

/-- The directory of the chunk `ab` holds its file and much that looks like it, which is a directory, the file of a
plain store, files with no reference, too many or a longer stem, one that is hidden, and one whose name is no text. -/
def tree : Tree :=
  let odd := [[98], Bytes.ofText "b.0", Bytes.ofText "b.18446744073709551616", Bytes.ofText "bc.1",
    Bytes.ofText "b.1.2", Bytes.ofText ".b.1", [98, 255, 46, 49]]
  let shard := ((Tree.bare.putDir [Bytes.ofText "r"]).putDir dir).putDir (Bytes.ofText "b.7" :: dir)
  (odd.foldl (fun t name => t.putFile (name :: dir) [1]) shard).putFile (Bytes.ofText "b.02" :: dir) [7, 8, 9]

/-- What this directory lists. -/
def inner : Listing :=
  match tree.node? dir with
  | some (.dir inner) => inner
  | _ => .nil

/-- A path that leads to the directory `r` and has room for two bytes more. -/
def longRoot : Path := ⟨114 :: (List.replicate 2046 [47, 46]).flatten⟩

/-- The tree with one chunk file in the directory `r`. -/
def flat : Tree := (Tree.bare.putDir [Bytes.ofText "r"]).putFile [Bytes.ofText "6b.1", Bytes.ofText "r"] [7, 8, 9]

end Thicket

/-- The one chunk file is found with its two references and its three bytes and is one chunk in a scan of the root; a
chunk without a file and one without a directory are not found. -/
theorem counted_lookup_exact_thicket :
    Thicket.layout.locate [171] = .ok ⟨Path.ofText "r/a", [98]⟩ ∧
    Mode.counted.find ⟨Path.ofText "r/a", [98]⟩ Thicket.tree = .ok (some ⟨Path.ofText "r/a/b.02", 2, 3⟩) ∧
    Scan.count .counted Thicket.tree (Path.ofText "r") = (Totals.one 3).add
      (Scan.count .counted (Thicket.tree.remove (Path.ofText "r/a/b.02").key) (Path.ofText "r")) ∧
    Thicket.layout.locate [175] = .ok ⟨Path.ofText "r/a", [102]⟩ ∧
    Mode.counted.find ⟨Path.ofText "r/a", [102]⟩ Thicket.tree = .ok none ∧
    Thicket.layout.locate [205] = .ok ⟨Path.ofText "r/c", [100]⟩ ∧
    Mode.counted.find ⟨Path.ofText "r/c", [100]⟩ Thicket.tree = .ok none := by
  have hab : Thicket.layout.locate [171] = .ok ⟨Path.ofText "r/a", [98]⟩ := by decide +kernel
  have haf : Thicket.layout.locate [175] = .ok ⟨Path.ofText "r/a", [102]⟩ := by decide +kernel
  have hcd : Thicket.layout.locate [205] = .ok ⟨Path.ofText "r/c", [100]⟩ := by decide +kernel
  have hlist : Thicket.tree.list (Path.ofText "r/a") = .ok Thicket.inner := by decide +kernel
  obtain ⟨hfound, -, hscan⟩ := counted_lookup_exact hab Thicket.tree
  obtain ⟨hlacks, -, -⟩ := counted_lookup_exact haf Thicket.tree
  obtain ⟨-, hmissing, -⟩ := counted_lookup_exact hcd Thicket.tree
  have hone := hfound _ hlist (Location.sole_of_all (by decide) (by decide +kernel))
  have hfind := hone.present (Bytes.ofText "b.02") [7, 8, 9] 2 (by decide +kernel)
    ⟨Bytes.ofText "02", by decide +kernel, by decide +kernel, by decide +kernel, by decide +kernel, by decide,
      by decide⟩
  refine ⟨hab, hfind, ?_, haf, ?_, hcd, ?_⟩
  · exact hscan _ hfind (Path.ofText "r") [Bytes.ofText "b.02", Bytes.ofText "a"] (by decide +kernel)
      (by decide +kernel) (by decide +kernel)
  · have hnone : ∀ a ∈ Thicket.inner.toList, (⟨Path.ofText "r/a", [102]⟩ : Location).chunkOf? a.1 a.2 = none := by
      decide +kernel
    refine (hlacks _ hlist (Location.sole_of_all (by decide) (by decide +kernel))).absent
      fun file content count hmem hfile => ?_
    have hchunk := (Location.chunkOf?_eq_some_iff (by decide)).mpr ⟨content, count, rfl, hfile, rfl⟩
    rw [hnone _ hmem] at hchunk
    cases hchunk
  · exact hmissing ⟨by decide +kernel, by decide +kernel, by decide +kernel, by decide +kernel, by decide +kernel⟩

/-- A file that is found is no chunk in a scan whose root is spelled so that the path of the file is too long; and the
lookup fails where a file is in the way of a directory that is not there. -/
theorem counted_lookup_unscanned :
    (⟨Thicket.longRoot, 0⟩ : Layout).locate [107] = .ok ⟨Thicket.longRoot, Bytes.ofText "6b"⟩ ∧
    Thicket.flat.leadsToDir Thicket.longRoot = true ∧
    Mode.counted.find ⟨Thicket.longRoot, Bytes.ofText "6b"⟩ Thicket.flat =
      .ok (some ⟨Thicket.longRoot.join (Bytes.ofText "6b.1"), 1, 3⟩) ∧
    Thicket.flat.files = [((Thicket.longRoot.join (Bytes.ofText "6b.1")).key, [7, 8, 9])] ∧
    Scan.count .counted Thicket.flat Thicket.longRoot ≠ .one 3 ∧
    (⟨Path.ofText "r/6b.1", 1⟩ : Layout).locate [107] = .ok ⟨Path.ofText "r/6b.1/6", Bytes.ofText "b"⟩ ∧
    Thicket.flat.leadsToDir (Path.ofText "r/6b.1/6") = false ∧
    Mode.counted.find ⟨Path.ofText "r/6b.1/6", Bytes.ofText "b"⟩ Thicket.flat ≠ .ok none := by
  have hlist : Thicket.flat.list Thicket.longRoot = .ok (.file (Bytes.ofText "6b.1") [7, 8, 9] .nil) := by
    decide +kernel
  refine ⟨rfl, by decide +kernel, ?_, by decide +kernel, by decide +kernel, by decide +kernel, by decide +kernel,
    by decide +kernel⟩
  exact @Mode.find_counted_of_list ⟨Thicket.longRoot, Bytes.ofText "6b"⟩ _ _ hlist

end ContentStore
