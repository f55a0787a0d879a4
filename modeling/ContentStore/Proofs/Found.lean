import ContentStore.Proofs.ChunkFile
import ContentStore.Proofs.MakeDirs

/-!
# What is found of a chunk

A chunk that is found is a file of the chunk in its directory (`find_eq_some`), and a chunk that is not
found has no file there (`lacks_of_find`), as long as the root can be reached.  Where no directory holds
two counts of a chunk, the one file that there is is found (`find_of_file`); where there is none, or no
directory for it, none is (`find_of_lacks`, `find_of_missing`).
-/

namespace ContentStore

open Bytes (dot)

namespace Listing

theorem mem_names_of_mem_toList {name : Bytes} {node : Node} {l : Listing} (h : (name, node) ∈ l.toList) :
    name ∈ l.names := by
  induction l with
  | nil => cases h
  | file n content rest ih =>
    rcases List.mem_cons.mp h with h | h
    · cases h
      exact List.mem_cons_self
    · exact List.mem_cons_of_mem _ (ih h)
  | dir n inner rest _ ih =>
    rcases List.mem_cons.mp h with h | h
    · cases h
      exact List.mem_cons_self
    · exact List.mem_cons_of_mem _ (ih h)

theorem mem_toList_iff {name : Bytes} {node : Node} {l : Listing} (hl : l.Distinct) :
    (name, node) ∈ l.toList ↔ l.find? name = some node := by
  induction l with
  | nil => simp [toList, find?]
  | file n content rest ih =>
    have hmem : (name, node) ∈ rest.toList → name ≠ n := fun h e =>
      hl.1 (e ▸ mem_names_of_mem_toList h)
    rw [toList, List.mem_cons, find?, ih hl.2]
    by_cases hn : n = name
    · subst hn
      have hnone := find?_eq_none hl.1
      simp [hnone, eq_comm]
    · simp [hn, Ne.symm hn]
  | dir n inner rest _ ih =>
    rw [toList, List.mem_cons, find?, ih hl.2.2]
    by_cases hn : n = name
    · subst hn
      have hnone := find?_eq_none hl.1
      simp [hnone, eq_comm]
    · simp [hn, Ne.symm hn]

theorem nodup_toList {l : Listing} (hl : l.Distinct) : (l.toList.map Prod.fst).Nodup := by
  induction l with
  | nil => exact List.nodup_nil
  | file n content rest ih =>
    refine List.nodup_cons.mpr ⟨fun h => ?_, ih hl.2⟩
    obtain ⟨⟨name, node⟩, hmem, rfl⟩ := List.mem_map.mp h
    exact hl.1 (mem_names_of_mem_toList hmem)
  | dir n inner rest _ ih =>
    refine List.nodup_cons.mpr ⟨fun h => ?_, ih hl.2.2⟩
    obtain ⟨⟨name, node⟩, hmem, rfl⟩ := List.mem_map.mp h
    exact hl.1 (mem_names_of_mem_toList hmem)

end Listing

namespace Location

theorem chunkOf?_eq_some_iff {l : Location} (hs : isStem l.stem = true) {name : Bytes} {node : Node}
    {e : Entry} : l.chunkOf? name node = some e ↔ ∃ content count, node = .file content ∧
      Mode.counted.IsFile l.stem count name ∧ e = ⟨l.dir.join name, count, content.length⟩ := by
  cases node with
  | dir inner => simp [chunkOf?]
  | file content =>
    rw [chunkOf?]
    constructor
    · intro h
      split at h
      · next hprefix =>
        obtain ⟨count, hcount, rfl⟩ := Option.map_eq_some_iff.mp h
        refine ⟨content, count, rfl, ?_, rfl⟩
        obtain ⟨stem, hstem, hfile⟩ := Mode.classify_eq_some_iff.mp hcount
        obtain ⟨digits, hname, hrest⟩ := id hfile
        -- the stem in the name has no dot, so the one before the first dot is all of it
        obtain ⟨rest, rfl⟩ := List.isPrefixOf_iff_prefix.mp hprefix.1
        have hdot := hprefix.2
        rw [List.drop_left] at hdot
        obtain ⟨tail, rfl⟩ : ∃ tail, rest = dot :: tail := by
          cases rest with
          | nil => cases hdot
          | cons b tail => cases hdot; exact ⟨tail, rfl⟩
        have hsame : l.stem = stem := by
          rcases List.append_eq_append_iff.mp hname with ⟨a, ha, hb⟩ | ⟨a, ha, hb⟩
          · cases a with
            | nil => simpa using ha.symm
            | cons b a =>
              rw [List.cons_append] at hb
              obtain ⟨rfl, -⟩ := List.cons.inj hb
              exact absurd (ha ▸ by simp) (dot_notMem_stem hstem)
          · cases a with
            | nil => simpa using ha
            | cons b a =>
              rw [List.cons_append] at hb
              obtain ⟨rfl, -⟩ := List.cons.inj hb
              exact absurd (ha ▸ by simp) (dot_notMem_stem hs)
        rw [← hsame] at hfile
        exact hfile
      · cases h
    · rintro ⟨c, count, hc, hfile, rfl⟩
      cases hc
      obtain ⟨digits, rfl, -⟩ := id hfile
      have hprefix : l.stem.isPrefixOf (l.stem ++ dot :: digits) = true ∧
          ((l.stem ++ dot :: digits).drop l.stem.length).head? = some dot :=
        ⟨List.isPrefixOf_iff_prefix.mpr ⟨_, rfl⟩, by rw [List.drop_left]; rfl⟩
      rw [if_pos hprefix, Mode.classify_eq_some_iff.mpr ⟨_, hs, hfile⟩]
      rfl

end Location

namespace Mode

/-- An entry says what stands in the directory of a location: a file of the chunk there. -/
structure Found (m : Mode) (l : Location) (t : Tree) (e : Entry) (file content : Bytes) : Prop where
  path : e.path = l.dir.join file
  isFile : m.IsFile l.stem e.count file
  size : e.size = content.length
  dir : t.leadsToDir l.dir = true
  kind : t.kind? (file :: l.dir.key) = some (.file content)

theorem Found.key {m : Mode} {l : Location} {t : Tree} {e : Entry} {file content : Bytes}
    (h : m.Found l t e file content) (hs : isStem l.stem = true) : e.path.key = file :: l.dir.key := by
  rw [h.path, Path.key_join _ (h.isFile.isName hs).1]

/-- The file of a chunk that is found in plain mode can be looked at. -/
theorem find_plain_eq_some {l : Location} (hdir : l.dir ≠ .blank) (hs : isStem l.stem = true) {t : Tree}
    {e : Entry} (h : Mode.plain.find l t = .ok (some e)) : ∃ content,
      Mode.plain.Found l t e l.stem content ∧ t.stat e.path = .ok (.file content) := by
  unfold find at h
  rcases hstat : t.stat l.plainPath with f | ⟨content | inner⟩
  · rw [hstat] at h
    cases f <;> cases h
  · simp only [hstat] at h
    cases h
    refine ⟨content, ⟨rfl, ⟨rfl, rfl⟩, rfl, ?_, ?_⟩, hstat⟩
    · obtain ⟨n, d, hn, -⟩ := Tree.names_of_stat hstat
      have hname := (isName_stem hs).1
      exact Tree.leadsToDir_iff.mpr (hn.of_join hname hdir).2.2
    · have hname := (isName_stem hs).1
      rw [← Path.key_join _ hname]
      exact Tree.kind?_of_node? (Tree.stat_eq_ok_iff.mp hstat).2.2
  · rw [hstat] at h
    cases h

theorem find_eq_some {m : Mode} {l : Location} (hdir : l.dir ≠ .blank) (hs : isStem l.stem = true)
    {t : Tree} {e : Entry} (h : m.find l t = .ok (some e)) : ∃ file content, m.Found l t e file content := by
  cases m with
  | plain =>
    obtain ⟨content, hfound, -⟩ := find_plain_eq_some hdir hs h
    exact ⟨_, content, hfound⟩
  | counted =>
    unfold find at h
    rcases hlist : t.list l.dir with f | inner
    · rw [hlist] at h
      cases f <;> cases h
    · simp only [hlist, Except.ok.injEq] at h
      have hstat := Tree.list_eq_ok_iff.mp hlist
      obtain ⟨hc, hw, hnode⟩ := Tree.stat_eq_ok_iff.mp hstat
      obtain ⟨⟨file, node⟩, hmem, hchunk⟩ := List.exists_of_findSome?_eq_some h
      obtain ⟨content, count, rfl, hfile, rfl⟩ := (Location.chunkOf?_eq_some_iff hs).mp hchunk
      refine ⟨file, content, rfl, hfile, rfl, ?_, ?_⟩
      · exact Tree.leadsToDir_iff.mpr ⟨hc, hw, Tree.kind?_of_node? hnode⟩
      · have hfind := (Listing.mem_toList_iff (Tree.distinct_of_node? hnode)).mp hmem
        rw [Tree.kind?, Tree.node?, hnode]
        simp [Node.child?, hfind, Node.kind]

/-- No directory from `d` on down holds two files of one chunk. -/
def Single (m : Mode) (d : Key) (t : Key → Option Kind) : Prop :=
  ∀ k stem f g i j x y, d <:+ k → isStem stem = true → m.IsFile stem i f → m.IsFile stem j g →
    t (f :: k) = some (.file x) → t (g :: k) = some (.file y) → f = g

theorem single_plain (d : Key) (t : Key → Option Kind) : Mode.plain.Single d t :=
  fun _ _ _ _ _ _ _ _ _ _ hf hg _ _ => hf.1.trans hg.1.symm

/-- A file of the chunk at a location stands at one key and at no other. -/
def Only (m : Mode) (l : Location) (k : Key) (t : Key → Option Kind) : Prop :=
  ∀ file count content, m.IsFile l.stem count file → t (file :: l.dir.key) = some (.file content) →
    file :: l.dir.key = k

theorem Single.only {m : Mode} {l : Location} {d : Key} {t : Tree} {e : Entry} {file content : Bytes}
    (h : m.Single d t.kind?) (hd : d <:+ l.dir.key) (hs : isStem l.stem = true)
    (found : m.Found l t e file content) : m.Only l e.path.key t.kind? := by
  intro other n c hother hk
  obtain rfl : other = file := h _ _ _ _ _ _ _ _ hd hs hother found.isFile hk found.kind
  exact (found.key hs).symm

theorem Only.mono {m : Mode} {l : Location} {k : Key} {t u : Key → Option Kind} (h : m.Only l k t)
    (hu : ∀ file n c, m.IsFile l.stem n file → u (file :: l.dir.key) = some (.file c) →
      t (file :: l.dir.key) = some (.file c)) : m.Only l k u :=
  fun file n c hfile hk => h file n c hfile (hu file n c hfile hk)

theorem Only.remove {m : Mode} {l : Location} {k j : Key} {t : Key → Option Kind} (h : m.Only l k t) :
    m.Only l k (Function.update t j none) := by
  refine h.mono fun file n c _ hk => ?_
  rw [Function.update_apply] at hk
  split at hk
  · cases hk
  · exact hk

/-! ### What is not found -/

def Lacks (m : Mode) (l : Location) (t : Tree) : Prop :=
  ∀ file count content, m.IsFile l.stem count file → t.kind? (file :: l.dir.key) ≠ some (.file content)

theorem pick_eq_none_iff {l : Location} (hs : isStem l.stem = true) {t : Tree} {inner : Listing}
    (hnode : t.node? l.dir.key = some (.dir inner)) :
    l.pick inner.toList = none ↔ Mode.counted.Lacks l t := by
  have hdistinct : inner.Distinct := Tree.distinct_of_node? hnode
  have hkind : ∀ file content, t.kind? (file :: l.dir.key) = some (.file content) ↔
      (file, Node.file content) ∈ inner.toList := by
    intro file content
    rw [Listing.mem_toList_iff hdistinct]
    constructor
    · intro h
      have := Tree.node?_of_kind?_file h
      rwa [Tree.node?, hnode] at this
    · intro h
      rw [Tree.kind?, Tree.node?, hnode]
      simp [Node.child?, h, Node.kind]
  rw [Location.pick, List.findSome?_eq_none_iff]
  constructor
  · intro h file count content hfile hk
    have hnone : l.chunkOf? file (.file content) = none := h _ ((hkind file content).mp hk)
    rw [(Location.chunkOf?_eq_some_iff hs).mpr ⟨content, count, rfl, hfile, rfl⟩] at hnone
    cases hnone
  · rintro h ⟨file, node⟩ hmem
    show l.chunkOf? file node = none
    rcases hchunk : l.chunkOf? file node with _ | e
    · rfl
    · obtain ⟨content, count, rfl, hfile, -⟩ := (Location.chunkOf?_eq_some_iff hs).mp hchunk
      exact absurd ((hkind file content).mpr hmem) (h file count content hfile)

/-- Whether the files of the chunk at a location can be looked for one by one. -/
def Fits (m : Mode) (l : Location) : Prop :=
  m = .plain → l.plainPath.isTooLong = false ∧ l.stem.length ≤ nameLimit

theorem check_plainPath {l : Location} (hs : isStem l.stem = true) {t : Tree}
    (hlead : t.leadsToDir l.dir = true) (h : l.plainPath.isTooLong = false) :
    l.plainPath.check = .ok () := by
  obtain ⟨hname, h0⟩ := isName_stem hs
  exact Path.check_join hname (Path.zero_notMem_of_check (Tree.leadsToDir_iff.mp hlead).1) h0 h

theorem find_of_lacks {m : Mode} {l : Location} (hs : isStem l.stem = true) {t : Tree} (hfits : m.Fits l)
    (hlead : t.leadsToDir l.dir = true) (h : m.Lacks l t) : m.find l t = .ok none := by
  cases m with
  | plain =>
    have hname := (isName_stem hs).1
    obtain ⟨hlong, hlen⟩ := hfits rfl
    have hcheck := check_plainPath hs hlead hlong
    unfold find
    rcases hk : t.kind? (l.stem :: l.dir.key) with _ | _ | content
    · have hstat : t.stat l.plainPath = .error .notFound :=
        Tree.stat_join_of_none hname hcheck hlen hlead hk
      simp only [hstat]
    · have hdir : t.leadsToDir l.plainPath = true := Tree.leadsToDir_join hname hcheck hlen hlead hk
      obtain ⟨hc, hw, hd⟩ := Tree.leadsToDir_iff.mp hdir
      obtain ⟨inner, hnode⟩ := Tree.node?_of_kind?_dir hd
      simp only [Tree.stat_eq_ok_iff.mpr ⟨hc, hw, hnode⟩]
    · exact absurd hk (h l.stem 1 content ⟨rfl, rfl⟩)
  | counted =>
    obtain ⟨hc, hw, hd⟩ := Tree.leadsToDir_iff.mp hlead
    obtain ⟨inner, hnode⟩ := Tree.node?_of_kind?_dir hd
    have hlist : t.list l.dir = .ok inner :=
      Tree.list_eq_ok_iff.mpr (Tree.stat_eq_ok_iff.mpr ⟨hc, hw, hnode⟩)
    unfold find
    simp only [hlist, (pick_eq_none_iff hs hnode).mpr h]

/-- Where a chunk has one file, this is what is found. -/
theorem find_of_file {m : Mode} {l : Location} (hs : isStem l.stem = true) {t : Tree} (hfits : m.Fits l)
    (hlead : t.leadsToDir l.dir = true) {file : Bytes} {count : Nat} {content : Bytes}
    (hfile : m.IsFile l.stem count file) (hk : t.kind? (file :: l.dir.key) = some (.file content))
    (hone : ∀ other n c, m.IsFile l.stem n other → t.kind? (other :: l.dir.key) = some (.file c) →
      other = file) : m.find l t = .ok (some ⟨l.dir.join file, count, content.length⟩) := by
  cases m with
  | plain =>
    obtain ⟨rfl, rfl⟩ := hfile
    have hname := (isName_stem hs).1
    obtain ⟨hlong, hlen⟩ := hfits rfl
    have hstat : t.stat l.plainPath = .ok (.file content) :=
      Tree.stat_join hname (check_plainPath hs hlead hlong) hlen hlead hk
    unfold find
    simp only [hstat]
    rfl
  | counted =>
    obtain ⟨hc, hw, hd⟩ := Tree.leadsToDir_iff.mp hlead
    obtain ⟨inner, hnode⟩ := Tree.node?_of_kind?_dir hd
    have hlist : t.list l.dir = .ok inner :=
      Tree.list_eq_ok_iff.mpr (Tree.stat_eq_ok_iff.mpr ⟨hc, hw, hnode⟩)
    have hfind : Mode.counted.find l t = .ok (l.pick inner.toList) := by
      unfold find
      simp only [hlist]
    rcases hpick : l.pick inner.toList with _ | e
    · exact absurd hk ((pick_eq_none_iff hs hnode).mp hpick file count content hfile)
    · obtain ⟨⟨other, node⟩, hmem, hchunk⟩ := List.exists_of_findSome?_eq_some hpick
      obtain ⟨c, n, rfl, hother, rfl⟩ := (Location.chunkOf?_eq_some_iff hs).mp hchunk
      have hfind' := (Listing.mem_toList_iff (Tree.distinct_of_node? hnode)).mp hmem
      have hk' : t.kind? (other :: l.dir.key) = some (.file c) := by
        rw [Tree.kind?, Tree.node?, hnode]
        simp [Node.child?, hfind', Node.kind]
      obtain rfl := hone other n c hother hk'
      rw [hk] at hk'
      cases hk'
      rw [hfind, hpick, (hother.inj hfile).2]

end Mode

namespace Layout

theorem dir_place_ne_blank {l : Layout} (hroot : l.root ≠ .blank) (name : Bytes) :
    (l.place name).dir ≠ .blank := by
  rw [dir_place]
  cases h : l.shards name with
  | nil => exact hroot
  | cons x k => exact Path.join_ne_blank _ (isName_of_mem_shards (by rw [h]; simp)).1

theorem leadsToDir_place {l : Layout} {t : Tree} (hroot : t.leadsToDir l.root = true) {name : Bytes}
    (hlong : (l.place name).dir.isTooLong = false)
    (hd : t.kind? (l.place name).dir.key = some .dir) : t.leadsToDir (l.place name).dir = true := by
  rw [key_dir_place] at hd
  rw [dir_place] at hlong ⊢
  exact Tree.leadsToDir_below hroot (joins_shards hlong) hd

theorem leadsToDir_root {l : Layout} {t : Tree} (hroot : l.root ≠ .blank) {name : Bytes}
    (h : t.leadsToDir (l.place name).dir = true) : t.leadsToDir l.root = true := by
  rw [dir_place] at h
  have hnames : ∀ x ∈ l.shards name, Path.IsName x := fun x hx => (isName_of_mem_shards hx).1
  generalize l.shards name = k at h hnames
  induction k with
  | nil => exact h
  | cons x k ih =>
    have hnames' : ∀ y ∈ k, Path.IsName y := fun y hy => hnames y (List.mem_cons_of_mem _ hy)
    have hblank : l.root.below k ≠ .blank := by
      cases k with
      | nil => exact hroot
      | cons y k => exact Path.join_ne_blank _ (hnames' y List.mem_cons_self)
    exact ih (Tree.leadsToDir_of_join (hnames x List.mem_cons_self) hblank h) hnames'

theorem root_ne_blank {p : Path} {t : Tree} (h : t.leadsToDir p = true) : p ≠ .blank := by
  rintro rfl
  exact absurd (Tree.leadsToDir_iff.mp h).1 (by decide)

theorem check_ne_notFound {p : Path} (h : p ≠ .blank) : p.check ≠ .error .notFound := by
  have hne : p.bytes ≠ [] := fun e => h (by cases p; simp_all [Path.blank])
  unfold Path.check
  rw [if_neg hne]
  split <;> [simp; split <;> simp]

/-- A chunk that is not found below a root that can be reached has no file. -/
theorem lacks_of_find {l : Layout} {t : Tree} (hroot : t.leadsToDir l.root = true) {m : Mode}
    {name : Bytes} (hname : name ≠ []) (h : m.find (l.place name) t = .ok none) :
    m.Lacks (l.place name) t := by
  have hs := l.isStem_place hname
  have hblank := dir_place_ne_blank (root_ne_blank hroot) name
  intro file count content hfile hk
  have hd : t.kind? (l.place name).dir.key = some .dir := Tree.isDir_of_kind?_cons (by rw [hk]; simp)
  cases m with
  | plain =>
    obtain ⟨rfl, rfl⟩ := hfile
    have hstem := (Mode.isName_stem hs).1
    have hkey := Path.key_join (l.place name).dir hstem
    unfold Mode.find at h
    rcases hstat : t.stat (l.place name).plainPath with f | ⟨c | inner⟩
    · rw [hstat] at h
      have hf : f = .notFound := by
        cases f <;> first | rfl | cases h
      subst hf
      rcases Tree.stat_eq_error_iff.mp hstat with hcheck | ⟨hcheck, hwalk⟩
      · exact check_ne_notFound (Path.join_ne_blank _ hstem) hcheck
      · have hlong := Path.isTooLong_of_join hstem (Path.check_eq_ok_iff.mp hcheck).2.2
        obtain ⟨-, hw, -⟩ := Tree.leadsToDir_iff.mp (leadsToDir_place hroot hlong hd)
        rw [Location.plainPath, Path.pieces_join _ hstem, Tree.walk_concat, Tree.walk_base hw] at hwalk
        simp only [Except.bind, Tree.stepFrom, hd, hstem.isIdle, hstem.ne_up, hk] at hwalk
        simp only [ne_eq, not_true, if_false, Bool.false_eq_true, reduceCtorEq] at hwalk
        split at hwalk <;> cases hwalk
    · rw [hstat] at h
      cases h
    · have hdir := Tree.kind?_of_node? (Tree.stat_eq_ok_iff.mp hstat).2.2
      rw [Location.plainPath, hkey, hk] at hdir
      cases hdir
  | counted =>
    have hlead : t.leadsToDir (l.place name).dir = true := by
      rcases hlist : t.list (l.place name).dir with f | inner
      · simp only [Mode.find, hlist] at h
        have hf : f = .notFound := by
          cases f <;> first | rfl | cases h
        subst hf
        rcases hstat : t.stat (l.place name).dir with f | ⟨c | inner⟩
        · simp only [Tree.list, hstat, error_bind, Except.error.injEq] at hlist
          subst hlist
          rcases Tree.stat_eq_error_iff.mp hstat with hcheck | ⟨hcheck, -⟩
          · exact absurd hcheck (check_ne_notFound hblank)
          · exact leadsToDir_place hroot (Path.check_eq_ok_iff.mp hcheck).2.2 hd
        · simp [Tree.list, hstat] at hlist
        · simp [Tree.list, hstat] at hlist
      · obtain ⟨hc, -⟩ := Tree.stat_eq_ok_iff.mp (Tree.list_eq_ok_iff.mp hlist)
        exact leadsToDir_place hroot (Path.check_eq_ok_iff.mp hc).2.2 hd
    obtain ⟨hc, hw, hd⟩ := Tree.leadsToDir_iff.mp hlead
    obtain ⟨inner, hnode⟩ := Tree.node?_of_kind?_dir hd
    have hlist : t.list (l.place name).dir = .ok inner :=
      Tree.list_eq_ok_iff.mpr (Tree.stat_eq_ok_iff.mpr ⟨hc, hw, hnode⟩)
    simp only [Mode.find, hlist, Except.ok.injEq] at h
    exact (Mode.pick_eq_none_iff hs hnode).mp h file count content hfile hk

/-- A chunk is not found where its directory is missing and no file is in the way. -/
theorem find_of_missing {l : Layout} {t : Tree} (hroot : t.leadsToDir l.root = true) {m : Mode}
    {name : Bytes} (hname : name ≠ []) (hlong : (l.place name).dir.isTooLong = false)
    (hfits : m.Fits (l.place name)) (hnone : t.kind? (l.place name).dir.key = none)
    (hfree : ∀ k, k <:+ l.shards name → t.kind? (k ++ l.root.key) = none ∨ t.kind? (k ++ l.root.key) = some .dir) :
    m.find (l.place name) t = .ok none := by
  have hjoins : l.root.Joins (l.shards name) := joins_shards (by rwa [← dir_place])
  have hwalk : t.walk [] (l.place name).dir.base = .error .notFound := by
    rw [dir_place]
    rw [key_dir_place] at hnone
    exact Tree.walk_below_notFound hroot hjoins hnone hfree
  have hzero : (0 : UInt8) ∉ (l.place name).dir.bytes := by
    rw [dir_place]
    exact hjoins.zero_notMem (Tree.leadsToDir_iff.mp hroot).1
  cases m with
  | plain =>
    obtain ⟨hstem, hstem0⟩ := Mode.isName_stem (l.isStem_place hname)
    have hstat := Tree.stat_join_of_notFound hstem (Path.check_join hstem hzero hstem0 (hfits rfl).1) hwalk
    unfold Mode.find
    rw [Location.plainPath, hstat]
  | counted =>
    have hpieces : (l.place name).dir.pieces = (l.place name).dir.base := by
      rcases hs : l.shards name with _ | ⟨x, k⟩
      · rw [key_dir_place, hs, List.nil_append, (Tree.leadsToDir_iff.mp hroot).2.2] at hnone
        cases hnone
      · have hx := hjoins.names x (by simp [hs])
        rw [dir_place, hs, Path.below, Path.pieces_join _ hx, Path.base_join _ hx]
    have hne := dir_place_ne_blank (root_ne_blank hroot) name
    have hcheck : (l.place name).dir.check = .ok () :=
      Path.check_eq_ok_iff.mpr ⟨hzero, fun e => hne (congrArg Path.mk e), hlong⟩
    have hstat : t.stat (l.place name).dir = .error .notFound :=
      Tree.stat_eq_error_iff.mpr (Or.inr ⟨hcheck, by rw [hpieces]; exact hwalk⟩)
    unfold Mode.find
    simp [Tree.list, hstat]

end Layout

end ContentStore
