import ContentStore.Proofs.Bystander

/-!
# A root that nobody else works in

Below such a root there is nothing but the files of chunks and the directories that lead to them: `Shelf`.
Taking a chunk in and dropping a reference keep it so (`Shelf.took`, `Shelf.dropped`).

What a store needs is then never in its own way.  A chunk is found if it is held and not found otherwise
(`Shelf.find`), its directory can be made (`Shelf.makeDirs`), and its file can be put there under the next
count (`Shelf.admits`) by way of a hidden file (`Shelf.admits_hidden`).
-/

namespace ContentStore

open Function (update)
open FileSystem (Free)

/-! ### Names of files and directories -/

theorem Mode.IsFile.head? {m : Mode} {stem file : Bytes} {n : Nat} (hs : isStem stem = true)
    (h : m.IsFile stem n file) : file.head? ≠ some Bytes.dot := h.names.head? hs

theorem Mode.IsFile.ne_digit {stem file : Bytes} {n : Nat} (hs : isStem stem = true)
    (h : Mode.counted.IsFile stem n file) (b : UInt8) : file ≠ [b] := by
  obtain ⟨digits, rfl, -⟩ := h
  intro e
  have hne := (isStem_iff.mp hs).1
  have hlen := congrArg List.length e
  have := List.length_pos_iff.mpr hne
  simp at hlen
  omega

theorem Layout.length_shards (l : Layout) (name : Bytes) :
    (l.shards name).length = min l.depth ((Hex.encode name).length - 1) := by
  simp [Layout.shards, Layout.levels]

theorem Layout.length_shards_le (l : Layout) (name : Bytes) : (l.shards name).length ≤ l.depth := by
  rw [l.length_shards]
  omega

theorem Layout.length_shards_of_lt {l : Layout} {name : Bytes} (h : l.depth < (Hex.encode name).length) :
    (l.shards name).length = l.depth := by
  rw [l.length_shards]
  omega

/-- The path of a chunk file can be used, and a plain chunk has all levels of directories above it, so that
none of them has the stem of a chunk for a name. -/
structure Mode.Usable (m : Mode) (l : Layout) (name file : Bytes) : Prop where
  ne_nil : name ≠ []
  short : ((l.place name).dir.join file).isTooLong = false
  length : file.length ≤ nameLimit
  deep : m = .plain → l.depth < (Hex.encode name).length

instance (m : Mode) (l : Layout) (name file : Bytes) : Decidable (m.Usable l name file) :=
  decidable_of_iff (name ≠ [] ∧ ((l.place name).dir.join file).isTooLong = false ∧
      file.length ≤ nameLimit ∧ (m = .plain → l.depth < (Hex.encode name).length))
    ⟨fun ⟨h, hshort, hlen, hdeep⟩ => ⟨h, hshort, hlen, hdeep⟩,
      fun ⟨h, hshort, hlen, hdeep⟩ => ⟨h, hshort, hlen, hdeep⟩⟩

namespace Mode.Usable

variable {m : Mode} {l : Layout} {name file : Bytes} {n : Nat}

theorem dir_short (h : m.Usable l name file) (hfile : m.IsFile (l.place name).stem n file) :
    (l.place name).dir.isTooLong = false :=
  Path.isTooLong_of_join (hfile.isName (l.isStem_place h.ne_nil)).1 h.short

theorem spells (h : m.Usable l name file) (hfile : m.IsFile (l.place name).stem n file) :
    m.Spells (l.place name) := by
  cases m with
  | plain =>
    obtain ⟨rfl, -⟩ := hfile
    exact ⟨h.short, h.length⟩
  | counted => exact h.dir_short hfile

end Mode.Usable

/-! ### What lies below the root -/

/-- Below the root there are only files of chunks, whose paths can be used, and directories of single digits
that are no deeper than the levels of the store. -/
structure Shelf (m : Mode) (l : Layout) (kinds : Key → Option Kind) : Prop where
  dir : ∀ r, r ≠ [] → kinds (r ++ l.root.key) = some .dir →
    (∀ x ∈ r, ∃ b, x = [b] ∧ Hex.isDigit b = true) ∧ r.length ≤ l.depth ∧ (l.root.below r).isTooLong = false
  file : ∀ r c, kinds (r ++ l.root.key) = some (.file c) → ∃ name n file, m.Usable l name file ∧
    m.IsFile (l.place name).stem n file ∧ r = file :: l.shards name

namespace Shelf

variable {m : Mode} {l : Layout} {kinds kinds' : Key → Option Kind} {name file content : Bytes} {n : Nat}
  {t u : Tree}

theorem congr (h : Shelf m l kinds) (hsame : ∀ k, l.root.key <:+ k → k ≠ l.root.key → kinds' k = kinds k)
    (hroot : kinds' l.root.key = some .dir) : Shelf m l kinds' where
  dir r hr hk := h.dir r hr ((hsame _ ⟨r, rfl⟩ (by simpa using hr)).symm.trans hk)
  file r c hk := by
    have hr : r ≠ [] := by
      rintro rfl
      rw [List.nil_append, hroot] at hk
      cases hk
    exact h.file r c ((hsame _ ⟨r, rfl⟩ (by simpa using hr)).symm.trans hk)

theorem remove (h : Shelf m l kinds) (k : Key) : Shelf m l (update kinds k none) where
  dir r hr hk := by
    rw [Function.update_apply] at hk
    split at hk
    · cases hk
    · exact h.dir r hr hk
  file r c hk := by
    rw [Function.update_apply] at hk
    split at hk
    · cases hk
    · exact h.file r c hk

theorem put (h : Shelf m l kinds) (husable : m.Usable l name file)
    (hfile : m.IsFile (l.place name).stem n file) (c : Bytes) :
    Shelf m l (update kinds (file :: (l.place name).dir.key) (some (.file c))) where
  dir r hr hk := by
    rw [Function.update_apply] at hk
    split at hk
    · cases hk
    · exact h.dir r hr hk
  file r d hk := by
    rw [Function.update_apply] at hk
    split at hk
    · next e =>
      rw [l.key_dir_place, ← List.cons_append] at e
      exact ⟨name, n, file, husable, hfile, List.append_cancel_right e⟩
    · exact h.file r d hk

theorem grown (h : Shelf m l t.kind?) (hself : l.root.Avoids l.root.key)
    (hlong : (l.place name).dir.isTooLong = false) (hu : Grown (l.place name).dir t u) :
    Shelf m l u.kind? where
  dir r hr hk := by
    rcases hu (r ++ l.root.key) with e | ⟨-, -, hv, -⟩
    · exact h.dir r hr (e ▸ hk)
    · have hname : ∀ x ∈ l.shards name, Path.IsName x := fun x hx => (Layout.isName_of_mem_shards hx).1
      rw [Layout.dir_place] at hv hlong
      rcases (Path.mem_visits_below hname _).mp hv with hv | ⟨j, hj, -, e⟩
      · exact absurd (hself _ hv ⟨r, rfl⟩) (by simpa using hr)
      · obtain rfl := List.append_cancel_right e
        exact ⟨fun x hx => Layout.mem_shards (hj.subset hx), hj.length_le.trans (l.length_shards_le name),
          Path.isTooLong_below hname hj hlong⟩
  file r c hk := h.file r c ((hu.file_iff _ c).mp hk)

theorem tidy (h : Shelf m l kinds) : Tidy l.root.key kinds := by
  rintro x k ⟨r, rfl⟩ hk
  exact (h.dir (x :: r) (by simp) hk).1 x (by simp)

theorem usable (h : Shelf m l kinds) (hfile : m.IsFile (l.place name).stem n file)
    (hk : kinds (file :: (l.place name).dir.key) = some (.file content)) : m.Usable l name file := by
  rw [l.key_dir_place, ← List.cons_append] at hk
  obtain ⟨other, i, g, husable, hg, e⟩ := h.file _ _ hk
  have hkey : file :: (l.place name).dir.key = g :: (l.place other).dir.key := by
    rw [l.key_dir_place, l.key_dir_place, ← List.cons_append, ← List.cons_append, e]
  obtain rfl := FileStore.name_eq_of_key hfile hg hkey
  obtain ⟨rfl, -⟩ := List.cons.inj e
  exact husable

theorem noDir (h : Shelf m l kinds) (husable : m.Usable l name file)
    (hfile : m.IsFile (l.place name).stem n file) :
    kinds (file :: (l.place name).dir.key) ≠ some .dir := by
  intro hk
  rw [l.key_dir_place, ← List.cons_append] at hk
  obtain ⟨hdigit, hlen, -⟩ := h.dir _ (by simp) hk
  cases m with
  | plain =>
    rw [List.length_cons, Layout.length_shards_of_lt (husable.deep rfl)] at hlen
    omega
  | counted =>
    obtain ⟨b, hb, -⟩ := hdigit file (by simp)
    exact hfile.ne_digit (l.isStem_place husable.ne_nil) b hb

theorem free (h : Shelf m l kinds) (name : Bytes) {k : Key} (hk : k <:+ l.shards name) :
    kinds (k ++ l.root.key) = none ∨ kinds (k ++ l.root.key) = some .dir := by
  rcases hkind : kinds (k ++ l.root.key) with _ | _ | c
  · exact Or.inl rfl
  · exact Or.inr rfl
  · exfalso
    obtain ⟨other, i, g, husable, hg, rfl⟩ := h.file k c hkind
    cases m with
    | plain =>
      have hlen := hk.length_le.trans (l.length_shards_le name)
      rw [List.length_cons, Layout.length_shards_of_lt (husable.deep rfl)] at hlen
      omega
    | counted =>
      obtain ⟨b, hb, -⟩ := Layout.mem_shards (hk.subset List.mem_cons_self)
      exact hg.ne_digit (l.isStem_place husable.ne_nil) b hb

theorem unhidden (h : Shelf m l kinds) (name : Bytes) (i : Nat) :
    kinds (Staging.hiddenName i :: (l.place name).dir.key) = none := by
  rcases hkind : kinds (Staging.hiddenName i :: (l.place name).dir.key) with _ | _ | c
  · rfl
  · exfalso
    obtain ⟨b, hb, hdigit⟩ := h.tidy _ _ (FileStore.root_suffix_dir l name) hkind
    have hhead := Staging.head?_hiddenName i
    rw [hb, List.head?_cons, Option.some.injEq] at hhead
    exact (Hex.ne_of_isDigit hdigit).1 hhead
  · exfalso
    rw [l.key_dir_place, ← List.cons_append] at hkind
    obtain ⟨other, n, g, husable, hg, e⟩ := h.file _ c hkind
    obtain ⟨rfl, -⟩ := List.cons.inj e
    exact hg.head? (l.isStem_place husable.ne_nil) (Staging.head?_hiddenName i)

/-! ### What keeps it -/

theorem usable_of_admits (hname : name ≠ []) (hdeep : m = .plain → l.depth < (Hex.encode name).length)
    (h : t.Admits (m.path (l.place name) n)) :
    m.Usable l name (m.fileName (l.place name).stem n) := by
  obtain ⟨x, d, hn, -⟩ := h
  have hkey := hn.key
  rw [l.key_path m hname] at hkey
  obtain ⟨rfl, -⟩ := List.cons.inj hkey
  refine ⟨hname, ?_, hn.length, hdeep⟩
  rw [← m.path_eq]
  exact (Path.check_eq_ok_iff.mp hn.check).2.2

theorem recount (h : Shelf m l t.kind?) {e : Entry} {old c : Bytes}
    (found : m.Found (l.place name) t e file old) (hcarries : m.Carries n)
    (admits : t.Admits (m.path (l.place name) n)) :
    Shelf m l (update (update t.kind? (file :: (l.place name).dir.key) none)
      (m.fileName (l.place name).stem n :: (l.place name).dir.key) (some (.file c))) := by
  have hold := h.usable found.isFile found.kind
  exact (h.remove _).put (usable_of_admits hold.ne_nil hold.deep admits) (Mode.isFile_fileName _ hcarries) c

end Shelf

namespace Layout

variable {m : Mode} {l : Layout} {name : Bytes} {n : Nat} {t : Tree} {w : Workspace}

/-! ### The way to a chunk

The shards of a chunk are free if each of them is a directory or is not there. -/

theorem find_of_free (hlead : t.leadsToDir l.root = true) (hname : name ≠ [])
    (hspells : m.Spells (l.place name)) (hlacks : m.Lacks (l.place name) t)
    (hfree : ∀ k, k <:+ l.shards name → t.kind? (k ++ l.root.key) = none ∨ t.kind? (k ++ l.root.key) = some .dir) :
    m.find (l.place name) t = .ok none := by
  have hs := l.isStem_place hname
  have hlong := Mode.spells_dir hs hspells
  have hfits := Mode.fits_of_spells hspells
  rcases hfree _ (List.suffix_refl _) with hnone | hdir
  · rw [← l.key_dir_place] at hnone
    exact find_of_missing hlead hname hlong hfits hnone hfree
  · rw [← l.key_dir_place] at hdir
    exact Mode.find_of_lacks hs hfits (leadsToDir_place hlead hlong hdir) hlacks

/-- The directory of a chunk can be made, if its shards are free and nothing is shut. -/
theorem makeDirs_of_free [FileSystem] (hopen : Free l.root.key) (hlead : w.tree.leadsToDir l.root = true)
    (hlong : (l.place name).dir.isTooLong = false)
    (hfree : ∀ k, k <:+ l.shards name →
      w.tree.kind? (k ++ l.root.key) = none ∨ w.tree.kind? (k ++ l.root.key) = some .dir) :
    ∃ v, (Request.makeDirs (l.place name).dir).run w = (.ok (), v) ∧
      v.tree.leadsToDir (l.place name).dir = true := by
  have hrun : ∃ cs, (Request.makeDirs (l.place name).dir).run w = (.ok (), w.commits cs) := by
    rw [l.dir_place] at hlong ⊢
    rcases eq_or_ne (l.shards name) [] with hnil | hne
    · rw [hnil]
      exact ⟨[], by rw [Workspace.commits_nil]; exact Request.makeDirs_of_dir hlead⟩
    · obtain ⟨cs, hrun, -⟩ := Request.makeDirs_below hlead hopen hne (joins_shards hlong) hfree
      exact ⟨cs, hrun⟩
  obtain ⟨cs, hrun⟩ := hrun
  obtain ⟨r, ds, hspec, -, hok⟩ := Request.makeDirs_spec (l.place name).dir w
  rw [hrun] at hspec
  obtain ⟨rfl, hv⟩ := Prod.mk.inj hspec
  refine ⟨_, hrun, ?_⟩
  rw [hv]
  exact hok rfl (dir_place_ne_blank (root_ne_blank hlead) name)

/-- The file of a chunk can be put in its directory, if no directory has its name. -/
theorem admits_of_noDir (hdir : t.leadsToDir (l.place name).dir = true) (hname : name ≠ [])
    (hshort : ((l.place name).dir.join (m.fileName (l.place name).stem n)).isTooLong = false)
    (hlength : (m.fileName (l.place name).stem n).length ≤ nameLimit)
    (hno : t.kind? (m.fileName (l.place name).stem n :: (l.place name).dir.key) ≠ some .dir) :
    t.Admits (m.path (l.place name) n) := by
  obtain ⟨hfile, hfile0⟩ := m.isName_fileName (l.isStem_place hname) n
  have hzero := Path.zero_notMem_of_check (Tree.leadsToDir_iff.mp hdir).1
  rw [m.path_eq]
  exact Tree.admits_join hfile (Path.check_join hfile hzero hfile0 hshort) hlength hdir hno

theorem admits_hidden_of_none (hdir : t.leadsToDir (l.place name).dir = true)
    (hlong : ((l.place name).dir.join (Staging.hiddenName 0)).isTooLong = false)
    (hnone : t.kind? (Staging.hiddenName 0 :: (l.place name).dir.key) = none) :
    t.Admits (Staging.hiddenPath t (l.place name).dir) := by
  have hfree : Staging.freeName (Staging.taken t (l.place name).dir) = Staging.hiddenName 0 :=
    Staging.freeName_of_notMem fun hmem => (Staging.mem_taken_iff hdir).mp hmem hnone
  refine Staging.admits_hiddenPath hdir ?_ ?_
  · rwa [Staging.hiddenPath, hfree]
  · rw [hfree]
    decide +kernel

end Layout

namespace FileStore

variable {s s' : FileStore} {l : Layout} {name content : Bytes} {t : Tree} {kinds : Key → Option Kind}

theorem Took.shelf [FileSystem] (h : Shelf s.mode l t.kind?) (hself : l.root.Avoids l.root.key) (hname : name ≠ [])
    (hdeep : s.mode = .plain → l.depth < (Hex.encode name).length)
    (htook : Took s l name content t s' kinds)
    (hcount : ∀ e, s.mode = .counted → s.mode.find (l.place name) t = .ok (some e) →
      e.count + 1 < Decimal.wordLimit) : Shelf s.mode l kinds := by
  cases htook with
  | kept => exact h
  | recounted e file old hmode hfind found hold admits =>
    refine h.recount found ?_ admits
    have hlt := hcount e hmode hfind
    rw [hmode]
    exact ⟨Nat.succ_pos _, hlt⟩
  | added hfind hroom w v htree hdirs grown admits =>
    have husable := Shelf.usable_of_admits hname hdeep admits
    have hfile := s.mode.isFile_fileName (l.place name).stem s.mode.carries_one
    exact (h.grown hself (husable.dir_short hfile) grown).put husable hfile content

theorem Dropped.shelf (h : Shelf s.mode l t.kind?) (hdropped : Dropped s l name t s' kinds) :
    Shelf s.mode l kinds := by
  cases hdropped with
  | absent => exact h
  | recounted e file old hmode hcount hfind found hold admits =>
    refine h.recount found ?_ admits
    have hcarries := found.isFile.carries
    rw [hmode] at hcarries ⊢
    exact ⟨by omega, lt_of_le_of_lt (Nat.sub_le _ _) hcarries.2⟩
  | removed e file old hcount hfind found hold => exact h.remove _

end FileStore

namespace Shelf

variable {m : Mode} {l : Layout} {name content : Bytes} {n : Nat} {t : Tree} {w : Workspace}

/-! ### What can be done on it -/

/-- A chunk is found if it is held and not found otherwise, and the content of its file can be read. -/
theorem find {s : FileStore} (hl : s.layout? = some l) (h : Shelf s.mode l t.kind?)
    (hlead : t.leadsToDir l.root = true) (hsingle : s.mode.Single l.root.key t.kind?) (hname : name ≠ [])
    (hspells : s.mode.Spells (l.place name)) :
    (s.held? t name = none ∧ s.mode.find (l.place name) t = .ok none) ∨
    ∃ e file content, s.held? t name = some ⟨content, e.count⟩ ∧
      s.mode.find (l.place name) t = .ok (some e) ∧ s.mode.Found (l.place name) t e file content ∧
      t.stat e.path = .ok (.file content) := by
  have hs := l.isStem_place hname
  by_cases hlacks : s.mode.Lacks (l.place name) t
  · have hfind := Layout.find_of_free hlead hname hspells hlacks fun _ => h.free name
    exact Or.inl ⟨FileStore.held?_of_find hl hname hfind, hfind⟩
  · simp only [Mode.Lacks, not_forall, not_not] at hlacks
    obtain ⟨file, n, content, hfile, hk⟩ := hlacks
    have hholds : s.mode.Holds (l.place name) t.kind? ⟨content, n⟩ := ⟨hspells, file, hfile, hk⟩
    obtain ⟨e, g, hfind, hcount, found⟩ := FileStore.find_of_holds hname hlead hsingle hholds
    have husable := h.usable found.isFile found.kind
    obtain ⟨hg, hg0⟩ := found.isFile.isName hs
    have hzero := Path.zero_notMem_of_check (Tree.leadsToDir_iff.mp found.dir).1
    refine Or.inr ⟨e, g, content, FileStore.held?_of_found hl hname hfind found, hfind, found, ?_⟩
    rw [found.path]
    exact Tree.stat_join hg (Path.check_join hg hzero hg0 husable.short) husable.length found.dir found.kind

theorem makeDirs [FileSystem] (h : Shelf m l w.tree.kind?) (hopen : Free l.root.key)
    (hlead : w.tree.leadsToDir l.root = true)
    (hlong : (l.place name).dir.isTooLong = false) :
    ∃ v, (Request.makeDirs (l.place name).dir).run w = (.ok (), v) ∧
      v.tree.leadsToDir (l.place name).dir = true :=
  Layout.makeDirs_of_free hopen hlead hlong fun _ => h.free name

theorem admits (h : Shelf m l t.kind?) (hdir : t.leadsToDir (l.place name).dir = true)
    (husable : m.Usable l name (m.fileName (l.place name).stem n)) (hcarries : m.Carries n) :
    t.Admits (m.path (l.place name) n) :=
  Layout.admits_of_noDir hdir husable.ne_nil husable.short husable.length
    (h.noDir husable (Mode.isFile_fileName _ hcarries))

theorem admits_hidden (h : Shelf m l t.kind?) (hdir : t.leadsToDir (l.place name).dir = true)
    (hlong : ((l.place name).dir.join (Staging.hiddenName 0)).isTooLong = false) :
    t.Admits (Staging.hiddenPath t (l.place name).dir) :=
  Layout.admits_hidden_of_none hdir hlong (h.unhidden name 0)

end Shelf

end ContentStore
