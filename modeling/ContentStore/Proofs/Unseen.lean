import ContentStore.Proofs.Lockstep
import ContentStore.Proofs.Singles

/-!
# What a file store does not see

A file store works alike in two trees that differ where it does not look: in files that it does not take for
chunk files, and in directories that it makes itself or never needs (`Reserves`).  Every operation is answered
alike and both trees take the same step: `Reserves.find_eq` for looking a chunk up, `store_concurs`,
`storeFile_concurs`, `delete_concurs`, `getToFile_concurs` and the others for the operations.
-/

namespace ContentStore

open Function (update)
open Attempt (Concurs)

/-- What a path passes is a directory in the first tree, or at a key at which the trees do not differ. -/
def Path.Clear (F D : Key → Prop) (t : Key → Option Kind) (p : Path) : Prop :=
  ∀ k ∈ p.visits, t k = some .dir ∨ ¬ F k ∧ ¬ D k

theorem Path.Clear.alike {F D : Key → Prop} {p : Path} {t u : Key → Option Kind} (h : p.Clear F D t)
    (hv : Veiled F D t u) : p.Alike t u := fun k hk =>
  (h k hk).elim hv.eq_of_dir fun hno => hv.eq hno.1 hno.2

namespace Mode

/-- What a store needs for a chunk is kept free: the directories and the files of the chunk.  Directories on the way to
the chunk may differ if the chunk can be looked for wherever they are, and they can be made below the root. -/
structure Reserves [FileSystem] (F D : Key → Prop) (m : Mode) (l : Layout) (name : Bytes) : Prop where
  shard : ∀ k, k <:+ l.shards name → ¬ F (k ++ l.root.key)
  level : (∀ k, k <:+ l.shards name → ¬ D (k ++ l.root.key)) ∨
    m.Spells (l.place name) ∧ FileSystem.Free l.root.key
  file : ∀ file n, m.IsFile (l.place name).stem n file →
    ¬ F (file :: (l.place name).dir.key) ∧ ¬ D (file :: (l.place name).dir.key)

namespace Reserves

variable [FileSystem] {F D : Key → Prop} {m : Mode} {l : Layout} {name file content : Bytes} {n : Nat} {t u : Tree}

/-- Both trees have the same on the way to a chunk, or no file is on that way and the first tree has no directory
at its end. -/
theorem dir_cases (h : m.Reserves F D l name) (hv : Veiled F D t.kind? u.kind?)
    (hlead : t.leadsToDir l.root = true) :
    (l.place name).dir.Alike t.kind? u.kind? ∨
    (t.kind? (l.place name).dir.key = none ∧ m.Spells (l.place name) ∧ FileSystem.Free l.root.key ∧
      (∀ k, k <:+ l.shards name → t.kind? (k ++ l.root.key) = none ∨ t.kind? (k ++ l.root.key) = some .dir) ∧
      ∀ k, k <:+ l.shards name → u.kind? (k ++ l.root.key) = none ∨ u.kind? (k ++ l.root.key) = some .dir) := by
  have hnames : ∀ x ∈ l.shards name, Path.IsName x := fun x hx => (l.isName_of_mem_shards hx).1
  have halike : (∀ k, k <:+ l.shards name → t.kind? (k ++ l.root.key) = u.kind? (k ++ l.root.key)) →
      (l.place name).dir.Alike t.kind? u.kind? := by
    intro hall k hk
    rw [l.dir_place, Path.mem_visits_below hnames] at hk
    rcases hk with hk | ⟨j, hj, -, rfl⟩
    · exact Path.Alike.of_leadsToDir hv hlead k hk
    · exact hall j hj
  by_cases hfile : ∃ k c, k <:+ l.shards name ∧ t.kind? (k ++ l.root.key) = some (.file c)
  · -- a file on the way is the same in both trees, and so is all above and below it
    obtain ⟨k, c, hk, hc⟩ := hfile
    have hc' : u.kind? (k ++ l.root.key) = some (.file c) := (hv.file _ c (h.shard k hk)).mpr hc
    refine Or.inl (halike fun j hj => ?_)
    rcases List.suffix_or_suffix_of_suffix hj hk with hjk | hkj
    · by_cases hne : j = k
      · rw [hne, hc, hc']
      · exact hv.eq_of_dir (Tree.isDir_of_suffix (List.suffix_append_self_iff.mpr hjk) (by simpa using hne)
          (by rw [hc]; simp))
    · by_cases hne : k = j
      · rw [← hne, hc, hc']
      · have hbelow : k ++ l.root.key <:+ j ++ l.root.key := List.suffix_append_self_iff.mpr hkj
        rw [Tree.kind?_below_eq_none hbelow (by simpa using hne) (by rw [hc]; simp),
          Tree.kind?_below_eq_none hbelow (by simpa using hne) (by rw [hc']; simp)]
  · have hfree : ∀ k, k <:+ l.shards name →
        t.kind? (k ++ l.root.key) = none ∨ t.kind? (k ++ l.root.key) = some .dir := by
      intro k hk
      rcases hc : t.kind? (k ++ l.root.key) with _ | _ | c
      · exact Or.inl rfl
      · exact Or.inr rfl
      · exact absurd ⟨k, c, hk, hc⟩ hfile
    have hfree' : ∀ k, k <:+ l.shards name →
        u.kind? (k ++ l.root.key) = none ∨ u.kind? (k ++ l.root.key) = some .dir := by
      intro k hk
      rcases hc : u.kind? (k ++ l.root.key) with _ | _ | c
      · exact Or.inl rfl
      · exact Or.inr rfl
      · exact absurd ⟨k, c, hk, (hv.file _ c (h.shard k hk)).mp hc⟩ hfile
    rcases h.level with hlevel | ⟨hspells, hroot⟩
    · exact Or.inl (halike fun k hk => hv.eq (h.shard k hk) (hlevel k hk))
    rcases hfree _ (List.suffix_refl _) with hnone | hdir
    · exact Or.inr ⟨by rw [l.key_dir_place]; exact hnone, hspells, hroot, hfree, hfree'⟩
    · refine Or.inl (halike fun k hk => ?_)
      by_cases hne : k = l.shards name
      · exact hv.eq_of_dir (hne ▸ hdir)
      · exact hv.eq_of_dir (Tree.isDir_of_suffix (List.suffix_append_self_iff.mpr hk) (by simpa using hne)
          (by rw [hdir]; simp))

section

variable (h : m.Reserves F D l name) (hv : Veiled F D t.kind? u.kind?)
include h hv

theorem file_eq (hfile : m.IsFile (l.place name).stem n file) :
    t.kind? (file :: (l.place name).dir.key) = u.kind? (file :: (l.place name).dir.key) :=
  hv.eq (h.file file n hfile).1 (h.file file n hfile).2

theorem file_alike (hname : name ≠ []) (halike : (l.place name).dir.Alike t.kind? u.kind?)
    (hfile : m.IsFile (l.place name).stem n file) : ((l.place name).dir.join file).Alike t.kind? u.kind? := by
  intro k hk
  rw [Path.mem_visits_join _ (hfile.isName (l.isStem_place hname)).1] at hk
  rcases hk with hk | rfl
  · exact halike k hk
  · exact h.file_eq hv hfile

theorem lacks (hlacks : m.Lacks (l.place name) t) : m.Lacks (l.place name) u := fun file n c hfile => by
  rw [← h.file_eq hv hfile]
  exact hlacks file n c hfile

/-- **Looking for a chunk** comes to the same in both trees. -/
theorem find_eq (hlead : t.leadsToDir l.root = true) (hname : name ≠ []) (hsingle : m.Single l.root.key t.kind?) :
    m.find (l.place name) u = m.find (l.place name) t := by
  have hroot := Layout.root_ne_blank hlead
  have hs := l.isStem_place hname
  have hlead' : u.leadsToDir l.root = true := Tree.leadsToDir_mono hlead hv.dir
  rcases h.dir_cases hv hlead with halike | ⟨hnone, hspells, -, hfree, hfree'⟩
  · cases hm : m with
    | plain =>
      subst hm
      have hpath : (l.place name).plainPath.Alike t.kind? u.kind? := h.file_alike hv hname halike ⟨rfl, rfl⟩
      have hstat := hpath.stat
      simp only [Mode.find]
      rcases ht : t.stat (l.place name).plainPath with f | c | inner <;>
        rcases hu : u.stat (l.place name).plainPath with g | c' | inner' <;> rw [ht, hu] at hstat <;>
        cases hstat <;> rfl
    | counted =>
      subst hm
      cases hdir : t.leadsToDir (l.place name).dir with
      | false =>
        have hstat := halike.stat
        have hdir' : u.leadsToDir (l.place name).dir = false := halike.leadsToDir ▸ hdir
        simp only [Mode.find, Tree.list]
        unfold Tree.leadsToDir at hdir hdir'
        rcases ht : t.stat (l.place name).dir with f | c | inner <;>
          rcases hu : u.stat (l.place name).dir with g | c' | inner' <;> rw [ht, hu] at hstat <;>
          simp only [ht, hu] at hdir hdir' <;> cases hstat <;> first | rfl | cases hdir
      | true =>
        have hdir' : u.leadsToDir (l.place name).dir = true := halike.leadsToDir ▸ hdir
        rcases hfind : Mode.counted.find (l.place name) t with f | _ | e
        · obtain ⟨inner, hlist⟩ : ∃ inner, t.list (l.place name).dir = .ok inner := by
            obtain ⟨hcheck, hwalk, hkind⟩ := Tree.leadsToDir_iff.mp hdir
            obtain ⟨inner, hinner⟩ := Tree.node?_of_kind?_dir hkind
            exact ⟨inner, Tree.list_eq_ok_iff.mpr (Tree.stat_eq_ok_iff.mpr ⟨hcheck, hwalk, hinner⟩)⟩
          simp only [Mode.find, hlist] at hfind
          cases hfind
        · exact find_of_lacks hs (fun hm => by cases hm) hdir'
            (h.lacks hv (Layout.lacks_of_find hlead hname hfind))
        · obtain ⟨file, c, found⟩ := find_eq_some (l.dir_place_ne_blank hroot name) hs hfind
          have hfound := find_of_file hs (fun hm => by cases hm) hdir' found.isFile
            (h.file_eq hv found.isFile ▸ found.kind) fun other n c' hother hk => by
              rw [← h.file_eq hv hother] at hk
              exact hsingle _ _ _ _ _ _ _ _ (FileStore.root_suffix_dir l name) hs hother found.isFile hk found.kind
          rw [hfound, ← found.path, ← found.size]
  · have hlong := spells_dir hs hspells
    rw [Layout.find_of_missing hlead hname hlong (fits_of_spells hspells) hnone hfree]
    rcases hfree' _ (List.suffix_refl _) with hnone' | hdir'
    · rw [← l.key_dir_place] at hnone'
      exact Layout.find_of_missing hlead' hname hlong (fits_of_spells hspells) hnone' hfree'
    · rw [← l.key_dir_place] at hdir'
      refine find_of_lacks hs (fits_of_spells hspells) (Layout.leadsToDir_place hlead' hlong hdir') ?_
      refine h.lacks hv fun file n c _ hk => ?_
      rw [Tree.isDir_of_kind?_cons (by rw [hk]; simp)] at hnone
      cases hnone

end

/-- **Making the directory of a chunk.** -/
theorem makeDirs_concurs {w v : Workspace} (h : m.Reserves F D l name) (hv : Veiled F D w.tree.kind? v.tree.kind?)
    (hlead : w.tree.leadsToDir l.root = true) (hname : name ≠ []) :
    Concurs F (Request.makeDirs (l.place name).dir) w v := by
  rcases h.dir_cases hv hlead with halike | ⟨hnone, hspells, hroot, hfree, hfree'⟩
  · exact Request.makeDirs_concurs halike
  · have hlead' : v.tree.leadsToDir l.root = true := Tree.leadsToDir_mono hlead hv.dir
    have hne : l.shards name ≠ [] := by
      intro hnil
      rw [l.key_dir_place, hnil, List.nil_append, (Tree.leadsToDir_iff.mp hlead).2.2] at hnone
      cases hnone
    have hjoins : l.root.Joins (l.shards name) := by
      refine Layout.joins_shards ?_
      rw [← l.dir_place]
      exact spells_dir (l.isStem_place hname) hspells
    obtain ⟨cs, hrun, hkinds⟩ := Request.makeDirs_below hlead hroot hne hjoins hfree
    obtain ⟨cs', hrun', hkinds'⟩ := Request.makeDirs_below hlead' hroot hne hjoins hfree'
    rw [← l.dir_place] at hrun hrun'
    refine .of_ok hrun hrun' ?_
    rw [hkinds, hkinds']
    exact InStep.withDirs hfree hfree'

/-! ### References -/

section

variable {e : Entry} {w v : Workspace} (h : m.Reserves F D l name) (hv : Veiled F D w.tree.kind? v.tree.kind?)
  (hname : name ≠ []) (found : m.Found (l.place name) w.tree e file content)
include h hv hname found

theorem entry_alike : e.path.Alike w.tree.kind? v.tree.kind? := by
  rw [found.path]
  exact h.file_alike hv hname (.of_leadsToDir hv found.dir) found.isFile

omit hv in
theorem entry_key : ¬ F e.path.key := by
  rw [found.key (l.isStem_place hname)]
  exact (h.file _ _ found.isFile).1

theorem recount_concurs (hcarries : m.Carries n) :
    Concurs F (Request.rename e.path (m.path (l.place name) n)) w v := by
  have hfile := Mode.isFile_fileName (l.place name).stem hcarries
  refine Request.rename_concurs (h.entry_alike hv hname found) ?_
    (found.key (l.isStem_place hname) ▸ found.kind) (h.entry_key hname found) ?_
  · rw [Mode.path_eq]
    exact h.file_alike hv hname (.of_leadsToDir hv found.dir) hfile
  · rw [l.key_path m hname]
    exact (h.file _ _ hfile).1

/-- **Taking a reference.** -/
theorem acquire_concurs (hcount : m = .counted → e.count + 1 < Decimal.wordLimit) :
    Concurs F (m.acquire (l.place name) e) w v := by
  unfold acquire
  cases hm : m with
  | plain => exact .pure _
  | counted =>
    subst hm
    exact (Concurs.file (h.recount_concurs hv hname found ⟨Nat.succ_pos _, hcount rfl⟩)).bind fun _ _ _ =>
      (Concurs.lift (.report _)).bind fun _ _ _ => .pure _

/-- **Dropping a reference.** -/
theorem release_concurs : Concurs F (m.release (l.place name) e) w v := by
  unfold release
  split
  · next hmany =>
    have hmode : m = .counted := by simpa [isCounted] using hmany.1
    have hcarries : m.Carries (e.count - 1) := found.isFile.carries_fewer hmode hmany.2
    exact (Concurs.file (h.recount_concurs hv hname found hcarries)).bind fun _ _ _ =>
      (Concurs.lift (.report _)).bind fun _ _ _ => .pure _
  · exact (Concurs.file (Request.unlink_concurs (h.entry_alike hv hname found) (h.entry_key hname found))).bind
      fun _ _ _ => (Concurs.lift (.report _)).bind fun _ _ _ => .pure _

end

end Reserves

end Mode

namespace FileStore

variable [FileSystem] {F D : Key → Prop} {s s' : FileStore} {l : Layout} {name content file old : Bytes}
  {t u t' u' : Tree}
  {e : Entry} {w v : Workspace}

/-- A store cannot tell two trees apart by looking for a chunk. -/
structure Blind (F D : Key → Prop) (s : FileStore) (l : Layout) (name : Bytes) (t u : Tree) : Prop where
  layout : s.layout? = some l
  lead : t.leadsToDir l.root = true
  single : s.mode.Single l.root.key t.kind?
  veiled : Veiled F D t.kind? u.kind?
  reserves : name ≠ [] → s.mode.Reserves F D l name

namespace Blind

theorem step (h : Blind F D s l name t u) (hstep : InStep F t.kind? u.kind? t'.kind? u'.kind?)
    (hsingle : s.mode.Single l.root.key t'.kind?) : Blind F D s l name t' u' :=
  ⟨h.layout, Tree.leadsToDir_mono h.lead hstep.dir, hsingle, hstep.veiled h.veiled, h.reserves⟩

theorem find_eq (h : Blind F D s l name t u) (hname : name ≠ []) :
    s.mode.find (l.place name) t = s.mode.find (l.place name) u :=
  ((h.reserves hname).find_eq h.veiled h.lead hname h.single).symm

theorem found (h : Blind F D s l name t u) (hname : name ≠ [])
    (hfind : s.mode.find (l.place name) t = .ok (some e)) :
    ∃ file content, s.mode.Found (l.place name) t e file content :=
  Mode.find_eq_some (l.dir_place_ne_blank (Layout.root_ne_blank h.lead) name) (l.isStem_place hname) hfind

end Blind

omit [FileSystem] in
theorem layout_of_ok (h : s.layout = .ok l) : s.layout? = some l := by
  unfold layout at h
  rcases hl : s.layout? with _ | l' <;> rw [hl] at h <;> cases h
  rfl

/-! ### Looking

Without a root nothing is done. -/

section

variable (h : ∀ l, s.layout? = some l → Blind F D s l name w.tree v.tree)
include h

theorem find_concurs : Concurs F (s.find name) w v := by
  unfold find
  refine .except_bind fun l hl => .except_bind fun place hplace => ?_
  have hname : name ≠ [] := by
    rintro rfl
    cases hplace
  rw [locate_eq hname] at hplace
  cases hplace
  exact .ask_bind ((h l (layout_of_ok hl)).find_eq hname) fun _ _ => .pure _

theorem require_concurs : Concurs F (s.require name) w v :=
  (s.find_concurs h).bind fun ⟨_, e⟩ _ _ => by
    cases e with
    | none => exact .throw _
    | some e => exact .pure _

theorem require_bind {β : Type} {f : Location × Entry → Attempt β}
    (hf : ∀ l e file old, Blind F D s l name w.tree v.tree → name ≠ [] →
      s.mode.Found (l.place name) w.tree e file old → Concurs F (f (l.place name, e)) w v) :
    Concurs F (s.require name >>= f) w v := by
  refine (s.require_concurs h).bind fun ⟨place, e⟩ hw _ => ?_
  rw [require_same, require_same]
  rcases hl : s.layout? with _ | l
  · rw [require_uninitialized hl] at hw
    cases hw
  have h := h l hl
  have hrun := require_run hl name w
  rcases hr : (s.require name).run w with ⟨r, x⟩
  rw [hr] at hrun hw
  cases hw
  cases hrun with
  | present hname e hfind =>
    obtain ⟨file, old, found⟩ := h.found hname hfind
    exact hf l e file old h hname found

theorem get_concurs : Concurs F (s.get name) w v := by
  refine s.require_bind h fun l e file old h hname found => ?_
  exact .file (.ask ((h.reserves hname).entry_alike h.veiled hname found).read)

theorem validate_concurs : Concurs F (s.validate name) w v := by
  refine s.require_bind h fun l e file old h hname found => ?_
  exact (Concurs.file (.ask ((h.reserves hname).entry_alike h.veiled hname found).read)).bind fun _ _ _ => .pure _

/-- **Reading a chunk into a file.** -/
theorem getToFile_concurs {target : Path} (htarget : target.Alike w.tree.kind? v.tree.kind?)
    (hkey : ¬ F target.key) (hw : Staging.Spacious w.tree.kind?) (hv : Staging.Spacious v.tree.kind?) :
    Concurs F (s.getToFile name target) w v := by
  refine s.require_bind h fun l e file old h hname found => ?_
  have hentry := (h.reserves hname).entry_alike h.veiled hname found
  refine .tree_bind (by simp only [hentry.sameFile htarget]) ?_
  split
  · exact .pure _
  · exact (Staging.copy_concurs (stagingDir_ne_blank target) htarget.stagingDir htarget hkey (hw _) (hv _) hentry).bind
      fun _ _ _ => .pure _

end

/-! ### Directories of chunks -/

omit [FileSystem] in
/-- Directories that are made for a chunk leave the chunks below the root single. -/
theorem single_grown {p : Path} {m : Mode} {d : Key} (h : m.Single d t.kind?) (hu : Grown p t u) :
    m.Single d u.kind? := h.congr fun k c _ => hu.file_iff k c

omit [FileSystem] in
theorem roomy_grown (hlead : t.leadsToDir l.root = true) (hu : Grown (l.place name).dir t u)
    (h : Staging.Roomy (l.place name).dir.key t.kind?) : Staging.Roomy (l.place name).dir.key u.kind? := by
  obtain ⟨n, hn, hfree⟩ := h
  refine ⟨n, hn, ?_⟩
  rcases hu (Staging.hiddenName n :: (l.place name).dir.key) with heq | ⟨-, -, hvisit, -⟩
  · rw [heq, hfree]
  exfalso
  rw [l.dir_place, Path.mem_visits_below fun x hx => (l.isName_of_mem_shards hx).1] at hvisit
  rcases hvisit with hroot | ⟨k, hk, -, heq⟩
  · -- all that the root passes is there
    obtain ⟨-, hwalk, hdir⟩ := Tree.leadsToDir_iff.mp hlead
    rw [← l.dir_place] at hroot
    rcases Tree.isDir_of_mem_visits hwalk hroot with hkey | hdir'
    · rw [hkey, hdir] at hfree
      cases hfree
    · rw [hdir'] at hfree
      cases hfree
  · have hlen := congrArg List.length heq
    rw [← l.dir_place, l.key_dir_place] at hlen
    simp only [List.length_cons, List.length_append] at hlen
    have := hk.length_le
    omega

/-- The directory of a chunk has been made in both trees, and its file can be put there in both or in neither. -/
structure Ready (F D : Key → Prop) (s : FileStore) (l : Layout) (name : Bytes) (t u : Tree) : Prop
    extends Blind F D s l name t u where
  dir : t.leadsToDir (l.place name).dir = true
  roomy : Staging.Roomy (l.place name).dir.key t.kind?
  roomy' : Staging.Roomy (l.place name).dir.key u.kind?

namespace Ready

variable (h : Ready F D s l name t u) (hname : name ≠ [])
include h hname

omit hname in
theorem dir_alike : (l.place name).dir.Alike t.kind? u.kind? := .of_leadsToDir h.veiled h.dir

theorem path_alike : (s.mode.path (l.place name) 1).Alike t.kind? u.kind? := by
  rw [Mode.path_eq]
  exact (h.reserves hname).file_alike h.veiled hname (h.dir_alike) (Mode.isFile_fileName _ s.mode.carries_one)

omit h in
theorem path_key (h : s.mode.Reserves F D l name) : ¬ F (s.mode.path (l.place name) 1).key := by
  rw [l.key_path s.mode hname]
  exact (h.file _ _ (Mode.isFile_fileName _ s.mode.carries_one)).1

end Ready

/-- Making the directory of a chunk gets both trees ready. -/
theorem makeDirs_bind {β : Type} {f : Unit → Attempt β} (h : Blind F D s l name w.tree v.tree) (hname : name ≠ [])
    (hw : Staging.Spacious w.tree.kind?) (hv : Staging.Spacious v.tree.kind?)
    (hf : ∀ x y, Grown (l.place name).dir w.tree x.tree → InStep F w.tree.kind? v.tree.kind? x.tree.kind? y.tree.kind? →
      Ready F D s l name x.tree y.tree → Concurs F (f ()) x y) :
    Concurs F ((liftM (Request.makeDirs (l.place name).dir) : Attempt Unit) >>= f) w v := by
  have hdirs := (h.reserves hname).makeDirs_concurs h.veiled h.lead hname
  refine hdirs.file.bind fun r hr hr' => ?_
  have hdir := l.dir_place_ne_blank (Layout.root_ne_blank h.lead) name
  obtain ⟨q, cs, hrun, hgrown, hlead⟩ := Request.makeDirs_spec (l.place name).dir w
  obtain ⟨q', cs', hrun', hgrown', -⟩ := Request.makeDirs_spec (l.place name).dir v
  have hstep := hdirs.step
  rw [Action.run_file, hrun] at hr ⊢
  rw [Action.run_file, hrun'] at hr' ⊢
  rw [hrun, hrun'] at hstep
  rcases q with fault | ⟨⟩
  · cases hr
  rcases q' with fault | ⟨⟩
  · cases hr'
  exact hf _ _ hgrown hstep
    { toBlind := h.step hstep (single_grown h.single hgrown)
      dir := hlead rfl hdir
      roomy := roomy_grown h.lead hgrown (hw _)
      roomy' := roomy_grown (Tree.leadsToDir_mono h.lead h.veiled.dir) hgrown' (hv _) }

/-! ### Storing -/

/-- **Storing a content.** -/
theorem store_concurs (h : ∀ l, s.layout? = some l → Blind F D s l name w.tree v.tree)
    (hshare : (AnyStore.file s).CanShare w.tree name) (hw : Staging.Spacious w.tree.kind?)
    (hv : Staging.Spacious v.tree.kind?) : Concurs F (s.store name content) w v := by
  unfold store
  refine .except_bind fun l hl => ?_
  have h := h l (layout_of_ok hl)
  have hroot := Layout.root_ne_blank h.lead
  dsimp only
  split
  · exact .throw_bind _ _
  next hname =>
  split
  · exact .throw_bind _ _
  refine .except_bind fun place hplace => ?_
  rw [locate_eq hname] at hplace
  cases hplace
  refine .ask_bind (h.find_eq hname) fun e hfind => ?_
  cases e with
  | some e =>
    obtain ⟨file, old, found⟩ := h.found hname hfind
    refine ((h.reserves hname).acquire_concurs h.veiled hname found fun hmode => ?_).bind fun _ _ _ => .pure _
    exact countable_of_canShare h.layout hroot hname hshare e hmode hfind
  | none =>
    refine .except_bind fun _ _ => makeDirs_bind h hname hw hv fun x y hgrown hstep hready => ?_
    have hwrite : Concurs F (Staging.write (l.place name).dir (s.mode.path (l.place name) 1) content) x y :=
      Staging.write_concurs (l.dir_place_ne_blank hroot name) (hready.dir_alike) (hready.path_alike hname)
        (Ready.path_key hname (h.reserves hname)) hready.roomy hready.roomy'
    exact hwrite.bind fun _ _ _ => (Concurs.lift (.report _)).bind fun _ _ _ => .pure _

section

variable {source : Path} (hsource : source.Alike w.tree.kind? v.tree.kind?)
include hsource

omit [FileSystem] in
theorem sourceSize_bind {β : Type} {f : Nat → Attempt β}
    (hf : ∀ content, w.tree.stat source = .ok (.file content) → Concurs F (f content.length) w v) :
    Concurs F (sourceSize source >>= f) w v := by
  rcases sourceSize_spec source w with ⟨c, hstat, hrun⟩ | ⟨err, hno, hrun⟩ <;>
    rcases sourceSize_spec source v with ⟨c', hstat', hrun'⟩ | ⟨err', hno', hrun'⟩
  · rw [hsource.stat_file hstat] at hstat'
    cases hstat'
    exact (hf c hstat).of_run (by rw [Action.run_bind, hrun]) (by rw [Action.run_bind, hrun'])
  · exact absurd (hsource.stat_file hstat) (hno' c)
  · exact absurd (hsource.symm.stat_file hstat') (hno c')
  · exact .of_error (by rw [Action.run_bind, hrun]) (by rw [Action.run_bind, hrun']) (.refl _ _ _)

theorem discard_agrees (hkey : ¬ F source.key) : Action.Agrees F (discard name source) w v := by
  refine (Request.unlink_concurs hsource hkey).granted.bind ?_
  cases (Attempt.granted (Request.unlink source) w).1 with
  | false => exact .report _
  | true => exact .pure _

/-- **Storing a file** that is the same in both trees. -/
theorem storeFile_concurs (h : ∀ l, s.layout? = some l → Blind F D s l name w.tree v.tree)
    (hkey : ¬ F source.key) (asked : Bool) (hshare : (AnyStore.file s).CanShare w.tree name)
    (hw : Staging.Spacious w.tree.kind?) (hv : Staging.Spacious v.tree.kind?) :
    Concurs F (s.storeFile name source asked) w v := by
  unfold storeFile
  refine .except_bind fun l hl => ?_
  have h := h l (layout_of_ok hl)
  have hroot := Layout.root_ne_blank h.lead
  refine .except_bind fun place hplace => ?_
  have hname : name ≠ [] := by
    rintro rfl
    cases hplace
  rw [locate_eq hname] at hplace
  cases hplace
  refine sourceSize_bind hsource fun content hstat => ?_
  dsimp only
  split
  · exact .throw_bind _ _
  refine .ask_bind (h.find_eq hname) fun e hfind => ?_
  cases e with
  | some e =>
    obtain ⟨file, old, found⟩ := h.found hname hfind
    have hentry := (h.reserves hname).entry_alike h.veiled hname found
    refine .tree_bind (by simp only [hentry.sameFile hsource]) ?_
    have hacquire := (h.reserves hname).acquire_concurs h.veiled hname found fun hmode =>
      countable_of_canShare h.layout hroot hname hshare e hmode hfind
    refine hacquire.bind fun _ _ _ => ?_
    split
    · exact (Concurs.lift (discard_agrees (hsource.step hacquire.step) hkey)).bind fun _ _ _ => .pure _
    · exact .pure _
  | none =>
    refine .except_bind fun _ _ => makeDirs_bind h hname hw hv fun x y hgrown hstep hready => ?_
    have hsource' := hsource.step hstep
    have hpath := hready.path_alike hname
    have hpathKey := Ready.path_key hname (h.reserves hname)
    -- what is left to do once the content is in its place
    have hlast : ∀ (x y : Workspace), source.Alike x.tree.kind? y.tree.kind? → ∀ (stored : Nat) (renamed : Bool),
        Concurs F (do
          Action.report (.storedFromFile name stored renamed)
          if asked && !renamed then discard name source
          return { s with tracker := s.tracker.add stored } : Attempt FileStore) x y := by
      intro x y hxy stored renamed
      refine (Concurs.lift (.report _)).bind fun _ _ _ => ?_
      split
      · refine (Concurs.lift (discard_agrees ?_ hkey)).bind fun _ _ _ => .pure _
        exact hxy
      · exact .pure _
    have hcopied : Concurs F (do
        let stored ← Staging.copy (l.place name).dir source (s.mode.path (l.place name) 1)
        Action.report (.storedFromFile name stored false)
        if asked && !false then discard name source
        return { s with tracker := s.tracker.add stored } : Attempt FileStore) x y := by
      have hcopy : Concurs F (Staging.copy (l.place name).dir source (s.mode.path (l.place name) 1)) x y :=
        Staging.copy_concurs (l.dir_place_ne_blank hroot name) (hready.dir_alike) hpath hpathKey hready.roomy
          hready.roomy' hsource'
      exact hcopy.bind fun stored _ _ => hlast _ _ (hsource'.step hcopy.step) stored false
    split
    · have hfile : x.tree.kind? source.key = some (.file content) :=
        (hgrown.file_iff _ _).mpr (kind?_of_stat hstat)
      refine (Request.rename_concurs hsource' hpath hfile hkey hpathKey).granted_bind
        (fun _ _ _ => Request.eq_of_perform_error) hcopied fun x' y' hstep' => ?_
      exact hlast x' y' (hsource'.step hstep') content.length true
    · exact hcopied

end

/-! ### Letting go -/

/-- **Dropping a reference.** -/
theorem delete_concurs (h : ∀ l, s.layout? = some l → Blind F D s l name w.tree v.tree) :
    Concurs F (s.delete name) w v := by
  unfold delete
  refine .except_bind fun l hl => ?_
  have h := h l (layout_of_ok hl)
  split
  · exact .pure _
  next hname =>
  refine .except_bind fun place hplace => ?_
  rw [locate_eq hname] at hplace
  cases hplace
  refine .ask_bind (h.find_eq hname) fun e hfind => ?_
  cases e with
  | none => exact .pure _
  | some e =>
    obtain ⟨file, old, found⟩ := h.found hname hfind
    refine ((h.reserves hname).release_concurs h.veiled hname found).bind fun n _ _ => ?_
    split
    · exact (Concurs.lift (.report _)).bind fun _ _ _ => .pure _
    · exact .pure _

/-- **Dropping the reference** to a chunk that was handed over. -/
theorem letGo_concurs (h : Blind F D s l name w.tree v.tree) (hname : name ≠ []) (e : Entry) :
    Concurs F (s.letGo name (l.place name) e) w v := by
  have hlast : ∀ (x y : Workspace) (after : FileStore), Concurs F (do
      Action.report (.moved name (e.count ≤ 1))
      return after : Attempt FileStore) x y :=
    fun _ _ _ => (Concurs.lift (.report _)).bind fun _ _ _ => .pure _
  unfold letGo
  refine .ask_bind (h.find_eq hname) fun current hfind => ?_
  cases current with
  | none => exact hlast _ _ _
  | some current =>
    obtain ⟨file, old, found⟩ := h.found hname hfind
    dsimp only
    split
    · refine ((h.reserves hname).release_concurs h.veiled hname found).bind fun n _ _ => ?_
      split
      · exact hlast _ _ _
      · exact hlast _ _ _
    · exact hlast _ _ _

/-- **The path of a chunk.** -/
theorem locate_concurs (h : ∀ l, s.layout? = some l → Blind F D s l name w.tree v.tree) (create : Bool)
    (hw : Staging.Spacious w.tree.kind?) (hv : Staging.Spacious v.tree.kind?) :
    Concurs F (s.locate name create) w v := by
  unfold locate
  refine .except_bind fun l hl => ?_
  have h := h l (layout_of_ok hl)
  refine .except_bind fun place hplace => ?_
  have hname : name ≠ [] := by
    rintro rfl
    cases hplace
  rw [locate_eq hname] at hplace
  cases hplace
  cases create with
  | true =>
    refine makeDirs_bind h hname hw hv fun x y _ _ hready => ?_
    refine .ask_bind (hready.find_eq hname) fun e _ => ?_
    cases e with
    | none => exact .pure _
    | some e => exact .pure _
  | false =>
    refine .ask_bind (h.find_eq hname) fun e _ => ?_
    cases e with
    | none => exact .pure _
    | some e => exact .pure _

/-! ### Taking a root -/

theorem prepareRoot_concurs {root : Path} (hroot : root.Alike w.tree.kind? v.tree.kind?) :
    Concurs F (prepareRoot root) w v := by
  unfold prepareRoot
  split
  · exact .throw_bind _ _
  have hdirs := Request.makeDirs_concurs (F := F) hroot
  refine hdirs.file.bind fun _ _ _ => ?_
  refine .tree_bind (by simp only [(hroot.step hdirs.file.step).leadsToDir]) ?_
  split
  · exact .throw _
  · exact .pure _

/-- **Taking a root** below which the trees differ in no chunk files. -/
theorem start_agrees {root : Path} (hv : Veiled F D w.tree.kind? v.tree.kind?)
    (hroot : root.Clear F D w.tree.kind?)
    (hforeign : ∀ k, F k → s.mode.Foreign root.key k) (depth : Nat) :
    Action.Agrees F (s.start root depth) w v := by
  have hprepare : Concurs F (prepareRoot root) w v := prepareRoot_concurs (hroot.alike hv)
  have hanswer := hprepare.answer
  have hstep := hprepare.step
  obtain ⟨x, -, ⟨e, hrun⟩ | ⟨hrun, hlead⟩⟩ := prepareRoot_spec root w <;>
    obtain ⟨y, -, ⟨e', hrun'⟩ | ⟨hrun', -⟩⟩ := prepareRoot_spec root v <;> rw [hrun, hrun'] at hanswer hstep
  · obtain ⟨x', hstart, htree⟩ := start_error (s := s) hrun depth
    obtain ⟨y', hstart', htree'⟩ := start_error (s := s) hrun' depth
    exact ⟨by rw [hstart, hstart'], by rw [hstart, hstart', htree, htree']; exact hstep⟩
  · cases hanswer
  · cases hanswer
  · obtain ⟨x', hstart, htree⟩ := start_ok (s := s) hrun depth
    obtain ⟨y', hstart', htree'⟩ := start_ok (s := s) hrun' depth
    refine ⟨?_, by rw [hstart, hstart', htree, htree']; exact hstep⟩
    rw [hstart, hstart', (hstep.veiled hv).count (fun n k hk hs => hforeign _ hk hs n rfl) hlead]

end FileStore

end ContentStore
