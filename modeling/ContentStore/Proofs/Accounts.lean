import ContentStore.Proofs.Effect
import ContentStore.Proofs.Tally

/-!
# The accounts of a file store

A store keeps its accounts if its counts are the tally of the files below its root and no directory there
holds two files of one chunk.  Taking a chunk in and dropping a reference keep them:

* `Took.accounts`, as long as the counts stay words;
* `Dropped.accounts`, whatever the counts are;
* `Accounts.congr`: they depend on nothing but the files below the root.
-/

namespace ContentStore

open Function (update)

namespace Mode

variable {m : Mode} {d k : Key} {t u : Key → Option Kind} {stem file : Bytes} {count : Nat}

theorem Single.mono (h : m.Single d t)
    (hsub : ∀ k c, d <:+ k → u k = some (.file c) → t k = some (.file c)) : m.Single d u := by
  intro k stem f g i j x y hk hs hf hg hx hy
  exact h k stem f g i j x y hk hs hf hg (hsub _ _ (hk.trans (List.suffix_cons _ _)) hx)
    (hsub _ _ (hk.trans (List.suffix_cons _ _)) hy)

theorem Single.congr (h : m.Single d t)
    (hsame : ∀ k c, d <:+ k → (u k = some (.file c) ↔ t k = some (.file c))) : m.Single d u :=
  h.mono fun k c hk => (hsame k c hk).mp

theorem Single.remove (h : m.Single d t) (k : Key) : m.Single d (update t k none) := by
  refine h.mono fun j c _ hj => ?_
  rw [Function.update_apply] at hj
  split at hj
  · cases hj
  · exact hj

theorem Single.put (h : m.Single d t) (hs : isStem stem = true) (hfile : m.IsFile stem count file)
    (hno : ∀ other n c, m.IsFile stem n other → t (other :: k) ≠ some (.file c)) (c : Bytes) :
    m.Single d (update t (file :: k) (some (.file c))) := by
  intro j stem' f g i n x y hj hs' hf hg hx hy
  by_cases hfk : f :: j = file :: k <;> by_cases hgk : g :: j = file :: k
  · exact (List.cons.inj hfk).1.trans (List.cons.inj hgk).1.symm
  · -- the other file would be one of the same chunk
    obtain ⟨rfl, rfl⟩ := List.cons.inj hfk
    obtain ⟨rfl, -⟩ := hf.inj hfile
    rw [Function.update_of_ne hgk] at hy
    exact absurd hy (hno g n y hg)
  · obtain ⟨rfl, rfl⟩ := List.cons.inj hgk
    obtain ⟨rfl, -⟩ := hg.inj hfile
    rw [Function.update_of_ne hfk] at hx
    exact absurd hx (hno f i x hf)
  · rw [Function.update_of_ne hfk] at hx
    rw [Function.update_of_ne hgk] at hy
    exact h j stem' f g i n x y hj hs' hf hg hx hy

/-- A file comes where its chunk had none, in whatever mode the chunk is. -/
theorem Single.put_any {m' : Mode} (h : m'.Single d t) (hs : isStem stem = true) (hfile : m.IsFile stem count file)
    (hno : ∀ other n c, m.IsFile stem n other → t (other :: k) ≠ some (.file c)) (c : Bytes) :
    m'.Single d (update t (file :: k) (some (.file c))) := by
  by_cases hm : m' = m
  · subst hm
    exact h.put hs hfile hno c
  · -- the new file is no chunk in the other mode
    intro j stem' f g i i' x y hj hs' hf hg hfx hgy
    have hne : ∀ {other i}, m'.IsFile stem' i other → other :: j ≠ file :: k := by
      intro other i hother e
      have hnames := hfile.names
      rw [← (List.cons.inj e).1] at hnames
      exact hm (Mode.Names.inj hs' hs hother.names hnames).1
    rw [Function.update_of_ne (hne hf)] at hfx
    rw [Function.update_of_ne (hne hg)] at hgy
    exact h j stem' f g i i' x y hj hs' hf hg hfx hgy

end Mode

namespace FileStore

variable {s s' : FileStore} {l : Layout} {name content file old : Bytes} {t : Tree} {e : Entry}
  {kinds kinds' : Key → Option Kind}

/-- The counts of a store are the tally of the files below its root, and no directory there holds two
files of one chunk. -/
structure Accounts (s : FileStore) (l : Layout) (kinds : Key → Option Kind) : Prop where
  single : s.mode.Single l.root.key kinds
  tallied : ∃ xs, Lists kinds l.root.key xs ∧ s.tracker.totals = Scan.tally s.mode l.root xs

theorem Accounts.congr (h : Accounts s l kinds)
    (hsame : ∀ k c, l.root.key <:+ k → (kinds' k = some (.file c) ↔ kinds k = some (.file c))) :
    Accounts s l kinds' := by
  obtain ⟨xs, hxs, htotals⟩ := h.tallied
  exact ⟨h.single.congr hsame, xs, hxs.congr hsame, htotals⟩

theorem Accounts.count (h : Accounts s l t.kind?) (hlead : t.leadsToDir l.root = true) :
    s.tracker.totals = Scan.count s.mode t l.root := by
  obtain ⟨xs, hxs, htotals⟩ := h.tallied
  rw [htotals, Scan.count_of_lists hlead _ hxs]

theorem accounts_of_count (hlead : t.leadsToDir l.root = true) (hsingle : s.mode.Single l.root.key t.kind?)
    (h : s.tracker.totals = Scan.count s.mode t l.root) : Accounts s l t.kind? :=
  ⟨hsingle, _, Tree.lists_filesBelow (Tree.leadsToDir_iff.mp hlead).2.2,
    h.trans (Scan.count_eq_tally hlead _)⟩

/-! ### The files of one chunk -/

theorem key_file (l : Layout) (name file : Bytes) :
    file :: (l.place name).dir.key = (file :: l.shards name) ++ l.root.key := by
  rw [l.key_dir_place, List.cons_append]

theorem share_file (m : Mode) (hname : name ≠ []) {n : Nat} (hfile : m.IsFile (l.place name).stem n file)
    (hlong : ((l.place name).dir.join file).isTooLong = false) (c : Bytes) :
    Scan.share m l.root (file :: l.shards name) c = .one c.length := by
  have hs := l.isStem_place hname
  refine Scan.share_eq_one (Scan.sees_below (fun y hy => (Layout.isName_of_mem_shards hy).1)
    (hfile.isName hs).1 ?_ ?_) c
  · rw [Path.below, ← Layout.dir_place]
    exact hlong
  · rw [Mode.classify_eq_some_iff.mpr ⟨_, hs, hfile⟩]
    rfl

theorem lacks_of_remove (hname : name ≠ []) (hsingle : s.mode.Single l.root.key kinds) {n : Nat}
    (hfile : s.mode.IsFile (l.place name).stem n file)
    (hold : kinds (file :: (l.place name).dir.key) = some (.file old)) :
    ∀ other n c, s.mode.IsFile (l.place name).stem n other →
      update kinds (file :: (l.place name).dir.key) none (other :: (l.place name).dir.key) ≠
        some (.file c) := by
  intro other n c hother hk
  rw [Function.update_apply] at hk
  split at hk
  · cases hk
  · next hne =>
    have := hsingle _ _ _ _ _ _ _ _ (root_suffix_dir l name) (l.isStem_place hname) hother hfile hk hold
    exact hne (by rw [this])

theorem single_recount (hname : name ≠ []) (h : s.mode.Single l.root.key t.kind?)
    (found : s.mode.Found (l.place name) t e file old) {n : Nat} (hcarries : s.mode.Carries n) :
    s.mode.Single l.root.key (update (update t.kind? (file :: (l.place name).dir.key) none)
      (s.mode.fileName (l.place name).stem n :: (l.place name).dir.key) (some (.file old))) :=
  (h.remove _).put (l.isStem_place hname) (Mode.isFile_fileName (l.place name).stem hcarries)
    (lacks_of_remove hname h found.isFile found.kind) old

/-- A chunk file that takes another count is one file as before. -/
theorem Accounts.recount (h : Accounts s l t.kind?) (hname : name ≠ [])
    (found : s.mode.Found (l.place name) t e file old) (hold : t.Admits e.path) {n : Nat}
    (hcarries : s.mode.Carries n) (admits : t.Admits (s.mode.path (l.place name) n)) :
    Accounts s l (update (update t.kind? (file :: (l.place name).dir.key) none)
      (s.mode.fileName (l.place name).stem n :: (l.place name).dir.key) (some (.file old))) := by
  have hs := l.isStem_place hname
  have hnew := Mode.isFile_fileName (l.place name).stem hcarries
  have hlacks := lacks_of_remove hname h.single found.isFile found.kind
  obtain ⟨xs, hxs, htotals⟩ := h.tallied
  refine ⟨single_recount hname h.single found hcarries, ?_⟩
  have hkind := found.kind
  rw [key_file] at hkind hlacks
  have hlists := hxs.remove hkind
  rw [key_file l name file, key_file l name (s.mode.fileName (l.place name).stem n)]
  refine ⟨_, hlists.add (fun c => ?_) old, ?_⟩
  · have := hlacks _ n c hnew
    rwa [key_file] at this
  · have hlong := (Path.check_eq_ok_iff.mp hold.check).2.2
    rw [found.path] at hlong
    have hlong' := (Path.check_eq_ok_iff.mp admits.check).2.2
    rw [Mode.path_eq] at hlong'
    rw [htotals, Scan.tally_erase ((hxs.mem _ _).mpr hkind), Scan.tally_cons,
      share_file s.mode hname found.isFile hlong, share_file s.mode hname hnew hlong']

theorem Accounts.counted (h : Accounts s l kinds) (hname : name ≠ []) {n : Nat}
    (hfile : s.mode.IsFile (l.place name).stem n file)
    (hlong : ((l.place name).dir.join file).isTooLong = false)
    (hk : kinds (file :: (l.place name).dir.key) = some (.file old)) :
    s.tracker.totals = (Totals.one old.length).add (s.tracker.remove old.length).totals := by
  obtain ⟨xs, hxs, htotals⟩ := h.tallied
  rw [key_file] at hk
  rw [Scan.tally_erase ((hxs.mem _ _).mpr hk), share_file s.mode hname hfile hlong] at htotals
  rw [Tracker.totals_remove htotals, htotals]

theorem Accounts.forget (h : Accounts s l kinds) (hname : name ≠ []) {n : Nat}
    (hfile : s.mode.IsFile (l.place name).stem n file)
    (hlong : ((l.place name).dir.join file).isTooLong = false)
    (hk : kinds (file :: (l.place name).dir.key) = some (.file old)) :
    Accounts { s with tracker := s.tracker.remove old.length } l
      (update kinds (file :: (l.place name).dir.key) none) := by
  obtain ⟨xs, hxs, htotals⟩ := h.tallied
  refine ⟨h.single.remove _, ?_⟩
  rw [key_file] at hk ⊢
  refine ⟨_, hxs.remove hk, ?_⟩
  rw [Scan.tally_erase ((hxs.mem _ _).mpr hk), share_file s.mode hname hfile hlong] at htotals
  exact Tracker.totals_remove htotals

theorem Took.single [FileSystem] (hname : name ≠ []) (hroot : t.leadsToDir l.root = true)
    (h : s.mode.Single l.root.key t.kind?) (htook : Took s l name content t s' kinds)
    (hcount : ∀ e, s.mode = .counted → s.mode.find (l.place name) t = .ok (some e) →
      e.count + 1 < Decimal.wordLimit) : s.mode.Single l.root.key kinds := by
  cases htook with
  | kept => exact h
  | recounted e file old hmode hfind found hold admits =>
    refine single_recount hname h found ?_
    rw [hmode]
    exact ⟨Nat.succ_pos _, hcount e hmode hfind⟩
  | added hfind hroom w v htree hdirs grown admits =>
    have hv : s.mode.Single l.root.key v.tree.kind? := h.congr fun k c _ => grown.file_iff k c
    exact hv.put (l.isStem_place hname) (Mode.isFile_fileName (l.place name).stem s.mode.carries_one)
      (fun other n c hother hk =>
        Layout.lacks_of_find hroot hname hfind other n c hother ((grown.file_iff _ _).mp hk)) content

theorem Dropped.single (hname : name ≠ []) (h : s.mode.Single l.root.key t.kind?)
    (hdropped : Dropped s l name t s' kinds) : s.mode.Single l.root.key kinds := by
  cases hdropped with
  | absent => exact h
  | recounted e file old hmode hcount hfind found hold admits =>
    refine single_recount hname h found ?_
    have hc := found.isFile.carries
    rw [hmode] at hc ⊢
    exact ⟨Nat.sub_pos_of_lt hcount, lt_of_le_of_lt (Nat.sub_le _ _) hc.2⟩
  | removed => exact h.remove _

/-- What a scan counts after a chunk has been taken in: the same as before, or one chunk more. -/
theorem Took.lists [FileSystem] (hname : name ≠ []) (hroot : t.leadsToDir l.root = true)
    (h : Accounts s l t.kind?) (htook : Took s l name content t s' kinds)
    (hcount : ∀ e, s.mode = .counted → s.mode.find (l.place name) t = .ok (some e) →
      e.count + 1 < Decimal.wordLimit) :
    ∃ xs, Lists kinds l.root.key xs ∧ (s' = s ∧ Scan.tally s.mode l.root xs = s.tracker.totals ∨
      s' = { s with tracker := s.tracker.add content.length } ∧
        Scan.tally s.mode l.root xs = (Totals.one content.length).add s.tracker.totals) := by
  cases htook with
  | kept =>
    obtain ⟨xs, hxs, htotals⟩ := h.tallied
    exact ⟨xs, hxs, Or.inl ⟨rfl, htotals.symm⟩⟩
  | recounted e file old hmode hfind found hold admits =>
    have hcarries : s.mode.Carries (e.count + 1) := by
      rw [hmode]
      exact ⟨Nat.succ_pos _, hcount e hmode hfind⟩
    obtain ⟨xs, hxs, htotals⟩ := (h.recount hname found hold hcarries admits).tallied
    exact ⟨xs, hxs, Or.inl ⟨rfl, htotals.symm⟩⟩
  | added hfind hroom w v htree hdirs grown admits =>
    have hnew := Mode.isFile_fileName (l.place name).stem s.mode.carries_one
    have hlacks := Layout.lacks_of_find hroot hname hfind
    have hv : Accounts s l v.tree.kind? := h.congr fun k c _ => grown.file_iff k c
    obtain ⟨xs, hxs, htotals⟩ := hv.tallied
    rw [key_file]
    have hadd := hxs.add (fun c hk => hlacks _ 1 c hnew
      ((grown.file_iff _ _).mp (key_file l name (s.mode.fileName (l.place name).stem 1) ▸ hk))) content
    have hlong := (Path.check_eq_ok_iff.mp admits.check).2.2
    rw [Mode.path_eq] at hlong
    refine ⟨_, hadd, Or.inr ⟨rfl, ?_⟩⟩
    rw [Scan.tally_cons, share_file s.mode hname hnew hlong, htotals]

/-- **Taking a chunk in keeps the accounts**, as long as the references and the bytes can be counted. -/
theorem Took.accounts [FileSystem] (hname : name ≠ []) (hroot : t.leadsToDir l.root = true)
    (h : Accounts s l t.kind?) (htook : Took s l name content t s' kinds)
    (hcount : ∀ e, s.mode = .counted → s.mode.find (l.place name) t = .ok (some e) →
      e.count + 1 < Decimal.wordLimit)
    (hsize : ∀ xs, Lists kinds l.root.key xs → (Scan.tally s.mode l.root xs).size < Decimal.wordLimit) :
    Accounts s' l kinds := by
  have hsingle := htook.single hname hroot h.single hcount
  obtain ⟨xs, hxs, ⟨rfl, htotals⟩ | ⟨rfl, htotals⟩⟩ := htook.lists hname hroot h hcount
  · exact ⟨hsingle, xs, hxs, htotals.symm⟩
  · refine ⟨hsingle, xs, hxs, ?_⟩
    have hbound := hsize xs hxs
    rw [htotals] at hbound ⊢
    exact Tracker.totals_add (by rwa [Nat.add_comm])

/-- A scan after a chunk was taken in counts no more bytes than before and those of the content. -/
theorem Took.size_le [FileSystem] (hname : name ≠ []) (hroot : t.leadsToDir l.root = true)
    (h : Accounts s l t.kind?) (htook : Took s l name content t s' kinds)
    (hcount : ∀ e, s.mode = .counted → s.mode.find (l.place name) t = .ok (some e) →
      e.count + 1 < Decimal.wordLimit) {ys : List (Key × Bytes)} (hys : Lists kinds l.root.key ys) :
    (Scan.tally s.mode l.root ys).size ≤ s.tracker.size + content.length := by
  obtain ⟨xs, hxs, ⟨-, htotals⟩ | ⟨-, htotals⟩⟩ := htook.lists hname hroot h hcount
  · rw [Scan.tally_perm (hys.perm hxs), htotals]
    exact Nat.le_add_right _ _
  · rw [Scan.tally_perm (hys.perm hxs), htotals]
    exact (Nat.add_comm _ _).le

/-- **Dropping a reference keeps the accounts.** -/
theorem Dropped.accounts (hname : name ≠ []) (h : Accounts s l t.kind?)
    (hdropped : Dropped s l name t s' kinds) : Accounts s' l kinds := by
  cases hdropped with
  | absent => exact h
  | recounted e file old hmode hcount hfind found hold admits =>
    refine h.recount hname found hold ?_ admits
    have hc := found.isFile.carries
    rw [hmode] at hc ⊢
    exact ⟨Nat.sub_pos_of_lt hcount, lt_of_le_of_lt (Nat.sub_le _ _) hc.2⟩
  | removed e file old hcount hfind found hold =>
    have hlong := (Path.check_eq_ok_iff.mp hold.check).2.2
    rw [found.path] at hlong
    exact h.forget hname found.isFile hlong found.kind

end FileStore

end ContentStore
