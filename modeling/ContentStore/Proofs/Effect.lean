import ContentStore.Proofs.FileRun

/-!
# What an operation of a file store does to its chunk

Whatever way an operation takes, in the end the chunk has one reference more or less, or a first
reference, or none any more: `Took` and `Dropped` say which, and what then stands at every key.

* `store_took`, `storeFile_took`: storing a content and storing a file come to the same, but for the
  source;
* `storeFile_taken`: storing a file from wherever it is;
* `delete_dropped`: dropping a reference;
* `Took.frame`, `Dropped.frame`: nothing else but directories has changed.
-/

namespace ContentStore

open Function (update)
open FileSystem (shut Between Moves)

/-- What a store that works in the directory `d` does to a tree: the files outside stay, no directory
goes, and new directories are on the way of `p`. -/
structure Frame (d : Key) (p : Path) (t u : Key → Option Kind) : Prop where
  dir : ∀ k, t k = some .dir → u k = some .dir
  file : ∀ k c, ¬ d <:+ k → (u k = some (.file c) ↔ t k = some (.file c))
  fresh : ∀ k, u k = some .dir → t k = some .dir ∨ k ∈ p.visits
  named : ∀ n k, u (n :: k) ≠ none → t (n :: k) ≠ none ∨ Path.IsName n

namespace Frame

variable {d : Key} {p : Path} {t u v : Key → Option Kind}

theorem refl (d : Key) (p : Path) (t : Key → Option Kind) : Frame d p t t :=
  ⟨fun _ h => h, fun _ _ _ => Iff.rfl, fun _ => Or.inl, fun _ _ => Or.inl⟩

theorem trans (h : Frame d p t u) (h' : Frame d p u v) : Frame d p t v where
  dir k hk := h'.dir k (h.dir k hk)
  file k c hk := (h'.file k c hk).trans (h.file k c hk)
  fresh k hk := (h'.fresh k hk).elim (h.fresh k) Or.inr
  named n k hk := (h'.named n k hk).elim (h.named n k) Or.inr

theorem of_grown {t u : Tree} (h : Grown p t u) (d : Key) : Frame d p t.kind? u.kind? where
  dir _ := h.dir
  file k c _ := h.file_iff k c
  fresh k hk := by
    rcases h k with e | ⟨-, -, hp, -⟩
    · exact Or.inl (e ▸ hk)
    · exact Or.inr hp
  named n k hk := by
    rcases h (n :: k) with e | ⟨-, -, -, hname⟩
    · exact Or.inl (e ▸ hk)
    · exact Or.inr (hname n rfl)

theorem remove (p : Path) {k : Key} (hk : d <:+ k) (hdir : t k ≠ some .dir) :
    Frame d p t (update t k none) where
  dir j hj := by
    have hne : j ≠ k := fun e => hdir (e ▸ hj)
    rw [Function.update_of_ne hne, hj]
  file j c hj := by
    have hne : j ≠ k := fun e => hj (e ▸ hk)
    rw [Function.update_of_ne hne]
  fresh j hj := by
    rw [Function.update_apply] at hj
    split at hj
    · cases hj
    · exact Or.inl hj
  named n j hj := by
    rw [Function.update_apply] at hj
    split at hj
    · exact absurd rfl hj
    · exact Or.inl hj

theorem put (p : Path) {n : Bytes} {k : Key} (hk : d <:+ n :: k) (hdir : t (n :: k) ≠ some .dir)
    (hn : Path.IsName n) (c : Bytes) : Frame d p t (update t (n :: k) (some (.file c))) where
  dir j hj := by
    have hne : j ≠ n :: k := fun e => hdir (e ▸ hj)
    rw [Function.update_of_ne hne, hj]
  file j c hj := by
    have hne : j ≠ n :: k := fun e => hj (e ▸ hk)
    rw [Function.update_of_ne hne]
  fresh j hj := by
    rw [Function.update_apply] at hj
    split at hj
    · cases hj
    · exact Or.inl hj
  named m j hj := by
    rw [Function.update_apply] at hj
    split at hj
    · next e => exact Or.inr ((List.cons.inj e).1 ▸ hn)
    · exact Or.inl hj

end Frame

theorem FileSystem.Free.shut_dir [FileSystem] {l : Layout} (h : FileSystem.Free l.root.key) (name : Bytes) :
    shut (l.place name).dir.key = false :=
  (h _ ⟨l.shards name, (l.key_dir_place name).symm⟩).1

theorem Mode.Found.unshut [FileSystem] {m : Mode} {l : Layout} {name file content : Bytes} {t : Tree} {e : Entry}
    (found : m.Found (l.place name) t e file content) (hname : name ≠ []) (hfree : FileSystem.Free l.root.key) :
    shut e.path.key.tail = false := by
  rw [found.key (l.isStem_place hname)]
  exact hfree.shut_dir name

namespace FileStore

variable {s s' : FileStore} {l : Layout} {name content : Bytes} {t : Tree} {w v : Workspace}

/-- A chunk has been taken in: the store after it, and what stands at each key. -/
inductive Took [FileSystem] (s : FileStore) (l : Layout) (name content : Bytes) (t : Tree) :
    FileStore → (Key → Option Kind) → Prop
  | kept (e : Entry) (old : Bytes) (hmode : s.mode = .plain)
      (hfind : s.mode.find (l.place name) t = .ok (some e))
      (found : s.mode.Found (l.place name) t e (l.place name).stem old) :
      Took s l name content t s t.kind?
  | recounted (e : Entry) (file old : Bytes) (hmode : s.mode = .counted)
      (hfind : s.mode.find (l.place name) t = .ok (some e))
      (found : s.mode.Found (l.place name) t e file old) (hold : t.Admits e.path)
      (admits : t.Admits (s.mode.path (l.place name) (e.count + 1))) :
      Took s l name content t s
        (update (update t.kind? (file :: (l.place name).dir.key) none)
          (s.mode.fileName (l.place name).stem (e.count + 1) :: (l.place name).dir.key)
          (some (.file old)))
  | added (hfind : s.mode.find (l.place name) t = .ok none)
      (hroom : s.tracker.ensureRoom content.length = .ok ()) (w v : Workspace) (htree : w.tree = t)
      (hdirs : (Request.makeDirs (l.place name).dir).run w = (.ok (), v))
      (grown : Grown (l.place name).dir t v.tree)
      (admits : v.tree.Admits (s.mode.path (l.place name) 1)) :
      Took s l name content t { s with tracker := s.tracker.add content.length }
        (update v.tree.kind? (s.mode.fileName (l.place name).stem 1 :: (l.place name).dir.key)
          (some (.file content)))

theorem root_suffix_dir (l : Layout) (name : Bytes) : l.root.key <:+ (l.place name).dir.key :=
  ⟨l.shards name, (l.key_dir_place name).symm⟩

theorem root_suffix_file (l : Layout) (name file : Bytes) :
    l.root.key <:+ file :: (l.place name).dir.key :=
  (root_suffix_dir l name).trans (List.suffix_cons _ _)

/-- A file can be moved to a chunk from within its directory, unless that is shut. -/
theorem between_place [FileSystem] (hname : name ≠ []) (hopen : shut (l.place name).dir.key = false) (m : Mode)
    (n : Nat) : Between (l.place name).dir.key (m.path (l.place name) n).key.tail := by
  rw [l.key_path m hname]
  exact ⟨hopen, hopen, rfl⟩

theorem frame_recount {file new old c : Bytes} (hnew : Path.IsName new)
    (hold : t.kind? (file :: (l.place name).dir.key) = some (.file old))
    (hdir : t.kind? (new :: (l.place name).dir.key) ≠ some .dir) :
    Frame l.root.key (l.place name).dir t.kind?
      (update (update t.kind? (file :: (l.place name).dir.key) none) (new :: (l.place name).dir.key)
        (some (.file c))) := by
  have hfirst : Frame l.root.key (l.place name).dir t.kind?
      (update t.kind? (file :: (l.place name).dir.key) none) :=
    .remove _ (root_suffix_file l name file) (by rw [hold]; simp)
  refine hfirst.trans (.put _ (root_suffix_file l name new) ?_ hnew c)
  rw [Function.update_apply]
  split
  · simp
  · exact hdir

/-- Taking in a chunk changes no file outside the root. -/
theorem Took.frame [FileSystem] {kinds : Key → Option Kind} (hname : name ≠ [])
    (h : Took s l name content t s' kinds) :
    Frame l.root.key (l.place name).dir t.kind? kinds := by
  have hfile := fun n => (s.mode.isName_fileName (l.isStem_place hname) n).1
  cases h with
  | kept => exact .refl _ _ _
  | recounted e file old hmode hfind found hold admits =>
    exact frame_recount (hfile _) found.kind (l.key_path s.mode hname _ ▸ admits.noDir)
  | added hfind hroom w v htree hdirs grown admits =>
    have hadmits := admits.noDir
    rw [l.key_path s.mode hname] at hadmits
    exact (Frame.of_grown grown _).trans (.put _ (root_suffix_file l name _) hadmits (hfile _) _)

/-- Whether all directories can be made or not, those that are made are on the way. -/
theorem makeDirs_grown [FileSystem] {p : Path} {r : Except Fault Unit} (h : (Request.makeDirs p).run w = (r, v)) :
    Grown p w.tree v.tree := by
  obtain ⟨r, cs, hrun, hgrown, -⟩ := Request.makeDirs_spec p w
  rw [h] at hrun
  cases hrun
  exact hgrown

theorem found_plain (hname : name ≠ []) (hroot : l.root ≠ .blank) (hmode : s.mode = .plain) {e : Entry}
    (hfind : s.mode.find (l.place name) t = .ok (some e)) :
    ∃ old, s.mode.Found (l.place name) t e (l.place name).stem old := by
  rw [hmode] at hfind ⊢
  obtain ⟨old, hfound, -⟩ :=
    Mode.find_plain_eq_some (l.dir_place_ne_blank hroot name) (l.isStem_place hname) hfind
  exact ⟨old, hfound⟩

theorem took_of_acquire [FileSystem] (hname : name ≠ []) (hroot : l.root ≠ .blank) {e : Entry}
    (hfind : s.mode.find (l.place name) w.tree = .ok (some e)) {n : Nat}
    (h : (s.mode.acquire (l.place name) e).run w = (.ok n, v)) :
    Took s l name content w.tree s v.tree.kind? := by
  have hs := l.isStem_place hname
  obtain ⟨file, old, found⟩ := Mode.find_eq_some (l.dir_place_ne_blank hroot name) hs hfind
  have hkey := found.key hs
  have hrun := Mode.acquire_run (m := s.mode) (l := l.place name) (by rw [hkey]; exact found.kind)
  rw [h] at hrun
  cases hrun with
  | plain hmode =>
    obtain ⟨old, found⟩ := found_plain hname hroot hmode hfind
    exact .kept e old hmode hfind found
  | renamed hmode v after hold moved =>
    have h : Took s l name content w.tree s _ := .recounted e file old hmode hfind found hold moved.admits
    rw [moved.kinds, hkey, l.key_path s.mode hname]
    exact h

/-- **Storing a content.**  The chunk is taken in. -/
theorem store_took [FileSystem] (hl : s.layout? = some l) (hroot : l.root ≠ .blank)
    (h : (s.store name content).run w = (.ok s', v)) :
    name ≠ [] ∧ content ≠ [] ∧ Took s l name content w.tree s' v.tree.kind? := by
  have hrun := store_run hl name content w
  rw [h] at hrun
  cases hrun with
  | shared hname hcontent e hfind n v hacquire =>
    exact ⟨hname, hcontent, took_of_acquire hname hroot hfind hacquire⟩
  | stored hname hcontent hfind hroom u hdirs x y hwrite hlast =>
    refine ⟨hname, hcontent, ?_⟩
    have hblank := l.dir_place_ne_blank hroot name
    rcases Staging.write_spec hblank (s.mode.path (l.place name) 1) content u with
      ⟨e, cs, -, -, herr, -⟩ | ⟨hidden, hok, -, hplaced⟩
    · rw [hwrite] at herr
      cases herr
    · rw [hwrite] at hok
      cases hok
      rw [hlast.tree, Workspace.commits_nil, hplaced.kinds, l.key_path s.mode hname]
      exact .added hfind hroom w u rfl hdirs (makeDirs_grown hdirs) hplaced.admits

theorem kind?_of_stat {p : Path} (h : t.stat p = .ok (.file content)) :
    t.kind? p.key = some (.file content) :=
  Tree.kind?_of_node? (Tree.stat_eq_ok_iff.mp h).2.2

/-- A source that can still be looked at is gone exactly if that was asked for and its directory is not
shut. -/
theorem Discarded.kinds [FileSystem] {asked : Bool} {source : Path}
    (hstat : w.tree.stat source = .ok (.file content)) (h : Discarded asked source w v) :
    v.tree.kind? = if asked && !shut source.key.tail then update w.tree.kind? source.key none
      else w.tree.kind? := by
  cases h with
  | unasked h => rw [h]; rfl
  | kept h hno x after =>
    cases hshut : shut source.key.tail with
    | true => simp [after.tree]
    | false => exact absurd hstat (hno hshut content)
  | gone h hopen c hfile x after kinds => rw [h, hopen, kinds]; rfl

/-- Taking in a chunk changes no file whose name is none of the chunk. -/
theorem Took.file_iff [FileSystem] {kinds : Key → Option Kind} (h : Took s l name content t s' kinds) {k : Key}
    (hk : ∀ file, s.mode.Names (l.place name).stem file → k ≠ file :: (l.place name).dir.key) (c : Bytes) :
    kinds k = some (.file c) ↔ t.kind? k = some (.file c) := by
  have hnew := fun n => hk _ (s.mode.names_fileName (l.place name).stem n)
  cases h with
  | kept => exact Iff.rfl
  | recounted e file old hmode hfind found =>
    rw [Function.update_of_ne (hnew _), Function.update_of_ne (hk _ found.isFile.names)]
  | added hfind hroom w v htree hdirs grown =>
    rw [Function.update_of_ne (hnew _)]
    exact grown.file_iff k c

theorem Discarded.thinned [FileSystem] {asked : Bool} {source : Path} (h : Discarded asked source w v) (k : Key) :
    v.tree.kind? k = w.tree.kind? k ∨ v.tree.kind? k = none := by
  cases h with
  | unasked => exact Or.inl rfl
  | kept _ _ x after => exact Or.inl (by rw [after.tree, Workspace.commits_nil])
  | gone _ _ _ _ x _ kinds =>
    rw [kinds, Function.update_apply]
    split
    · exact Or.inr rfl
    · exact Or.inl rfl

theorem Discarded.dir [FileSystem] {asked : Bool} {source : Path} (h : Discarded asked source w v) {k : Key}
    (hk : w.tree.kind? k = some .dir) : v.tree.kind? k = some .dir := by
  cases h with
  | unasked => exact hk
  | kept _ _ x after => rwa [after.tree, Workspace.commits_nil]
  | gone _ _ c hfile x _ kinds =>
    have hne : k ≠ source.key := by
      rintro rfl
      rw [hfile] at hk
      cases hk
    rwa [kinds, Function.update_of_ne hne]

/-- **Storing a file.**  The chunk is taken in.  If that was asked for, the source was renamed to the file of the
chunk, or it is removed in the end, unless it is that file. -/
theorem storeFile_taken [FileSystem] (hl : s.layout? = some l) (hroot : l.root ≠ .blank) {source : Path} {asked : Bool}
    (h : (s.storeFile name source asked).run w = (.ok s', v)) :
    name ≠ [] ∧ ∃ content kinds, content ≠ [] ∧ w.tree.stat source = .ok (.file content) ∧
      Took s l name content w.tree s' kinds ∧
      ((asked = true ∧ Moves source.key (s.mode.fileName (l.place name).stem 1 :: (l.place name).dir.key) ∧
        v.tree.kind? = update (update kinds source.key none)
          (s.mode.fileName (l.place name).stem 1 :: (l.place name).dir.key) (some (.file content)) ∧
        kinds (s.mode.fileName (l.place name).stem 1 :: (l.place name).dir.key) = some (.file content)) ∨
      ∃ u gone, u.tree.kind? = kinds ∧ Discarded gone source u v ∧
        (gone = asked ∨ gone = false ∧ ∃ file, s.mode.Names (l.place name).stem file ∧
          source.key = file :: (l.place name).dir.key)) := by
  have hrun := storeFile_run hl name source asked w
  rw [h] at hrun
  cases hrun with
  | shared hname content hsource hcontent e hfind n u x hacquire hlast =>
    refine ⟨hname, content, _, hcontent, hsource, took_of_acquire hname hroot hfind hacquire,
      Or.inr ⟨u, _, rfl, hlast, ?_⟩⟩
    cases hsame : w.tree.sameFile e.path source with
    | false => exact Or.inl (by simp)
    | true =>
      have hs := l.isStem_place hname
      obtain ⟨file, old, found⟩ := Mode.find_eq_some (l.dir_place_ne_blank hroot name) hs hfind
      exact Or.inr ⟨by simp, file, found.isFile.names,
        (Tree.key_eq_of_sameFile hsame).symm.trans (found.key hs)⟩
  | renamed hname content hsource hcontent hfind hroom u hdirs hasked x y hrename hlast =>
    have hgrown := makeDirs_grown hdirs
    have hfile := (hgrown.file_iff _ _).mpr (kind?_of_stat hsource)
    rcases Request.rename_spec hfile (s.mode.path (l.place name) 1) with
      ⟨f, -, -, herr⟩ | ⟨-, hadmits, hmoves, -, hok, hkinds⟩
    · rw [hrename] at herr
      cases herr
    · rw [hrename] at hok
      cases hok
      refine ⟨hname, content, _, hcontent, hsource, .added hfind hroom w u rfl hdirs hgrown hadmits,
        Or.inl ⟨hasked, l.key_path s.mode hname 1 ▸ hmoves, ?_, Function.update_self ..⟩⟩
      rw [hlast.tree, Workspace.commits_nil, hkinds, l.key_path s.mode hname]
      funext k
      simp only [Function.update_apply]
      split <;> rfl
  | copied hname content hsource hcontent hfind hroom u hdirs hasked n x y z hcopy after hlast =>
    have hgrown := makeDirs_grown hdirs
    have hblank := l.dir_place_ne_blank hroot name
    rcases Staging.copy_spec hblank source (s.mode.path (l.place name) 1) u with
      ⟨e, cs, -, -, herr, -⟩ | ⟨c, hidden, hstat, hok, -, hplaced⟩
    · rw [hcopy] at herr
      cases herr
    · have hc := Tree.stat_mono hsource (fun k => hgrown.dir)
        ((hgrown.file_iff _ _).mpr (kind?_of_stat hsource))
      rw [hstat] at hc
      cases hc
      rw [hcopy] at hok
      cases hok
      refine ⟨hname, content, _, hcontent, hsource, .added hfind hroom w u rfl hdirs hgrown hplaced.admits,
        Or.inr ⟨y, asked, ?_, hlast, Or.inl rfl⟩⟩
      rw [after.tree, Workspace.commits_nil, hplaced.kinds, l.key_path s.mode hname]

/-- Storing a file leaves nothing but what taking the chunk in leaves, and all directories. -/
theorem storeFile_fewer [FileSystem] (hl : s.layout? = some l) (hroot : l.root ≠ .blank) {source : Path} {asked : Bool}
    (h : (s.storeFile name source asked).run w = (.ok s', v)) :
    name ≠ [] ∧ ∃ content kinds, w.tree.stat source = .ok (.file content) ∧
      Took s l name content w.tree s' kinds ∧ (∀ k, v.tree.kind? k = kinds k ∨ v.tree.kind? k = none) ∧
      ∀ k, w.tree.kind? k = some .dir → v.tree.kind? k = some .dir := by
  obtain ⟨hname, content, kinds, -, hstat, htook, ⟨-, -, hkinds, hfile⟩ | ⟨u, gone, rfl, hlast, -⟩⟩ :=
    storeFile_taken hl hroot h
  · refine ⟨hname, content, kinds, hstat, htook, fun k => ?_, fun k hk => ?_⟩
    · rw [hkinds, Function.update_apply, Function.update_apply]
      split
      · next e => exact Or.inl (e ▸ hfile.symm)
      · split
        · exact Or.inr rfl
        · exact Or.inl rfl
    · have hdir := (htook.frame hname).dir k hk
      have hne : k ≠ source.key := by
        rintro rfl
        rw [kind?_of_stat hstat] at hk
        cases hk
      have hne' : k ≠ s.mode.fileName (l.place name).stem 1 :: (l.place name).dir.key := by
        rintro rfl
        rw [hfile] at hdir
        cases hdir
      rw [hkinds, Function.update_of_ne hne', Function.update_of_ne hne, hdir]
  · exact ⟨hname, content, _, hstat, htook, hlast.thinned, fun k hk => hlast.dir ((htook.frame hname).dir k hk)⟩

/-- **Storing a file** that has none of the names of the chunk.  The chunk is taken in as if its content had
been stored, and the source is gone exactly if that was asked for and its directory is not shut. -/
theorem storeFile_took_far [FileSystem] (hl : s.layout? = some l) (hroot : l.root ≠ .blank) {source : Path}
    (hfar : ∀ file, s.mode.Names (l.place name).stem file → source.key ≠ file :: (l.place name).dir.key)
    {asked : Bool} (h : (s.storeFile name source asked).run w = (.ok s', v)) :
    name ≠ [] ∧ ∃ content kinds, content ≠ [] ∧ w.tree.stat source = .ok (.file content) ∧
      Took s l name content w.tree s' kinds ∧
      v.tree.kind? = if asked && !shut source.key.tail then update kinds source.key none else kinds := by
  have hnew := hfar _ (s.mode.names_fileName (l.place name).stem 1)
  obtain ⟨hname, content, kinds, hcontent, hsource, htook, hend⟩ := storeFile_taken hl hroot h
  refine ⟨hname, content, kinds, hcontent, hsource, htook, ?_⟩
  rcases hend with ⟨rfl, hmoves, hkinds, hfile⟩ | ⟨u, gone, rfl, hlast, hgone⟩
  · have hopen : shut source.key.tail = false := (hmoves.resolve_left hnew).1
    rw [hopen, hkinds, Function.update_comm hnew, ← hfile, Function.update_eq_self]
    rfl
  · have hstat : u.tree.stat source = .ok (.file content) :=
      Tree.stat_mono hsource (htook.frame hname).dir ((htook.file_iff hfar _).mpr (kind?_of_stat hsource))
    rw [hlast.kinds hstat]
    rcases hgone with rfl | ⟨-, file, hnames, hkey⟩
    · rfl
    · exact absurd hkey (hfar file hnames)

theorem far_of_outside {k : Key} (hout : ¬ l.root.key <:+ k) (file : Bytes)
    (_ : s.mode.Names (l.place name).stem file) : k ≠ file :: (l.place name).dir.key :=
  fun h => hout (h ▸ root_suffix_file l name file)

/-- **Storing a file** from outside the root. -/
theorem storeFile_took [FileSystem] (hl : s.layout? = some l) (hroot : l.root ≠ .blank) {source : Path}
    (hout : ¬ l.root.key <:+ source.key) {asked : Bool}
    (h : (s.storeFile name source asked).run w = (.ok s', v)) :
    name ≠ [] ∧ ∃ content kinds, content ≠ [] ∧ w.tree.stat source = .ok (.file content) ∧
      Took s l name content w.tree s' kinds ∧
      v.tree.kind? = if asked && !shut source.key.tail then update kinds source.key none else kinds :=
  storeFile_took_far hl hroot (far_of_outside hout) h

/-! ### Dropping a reference -/

/-- A reference has been dropped: the store after it, and what stands at each key. -/
inductive Dropped (s : FileStore) (l : Layout) (name : Bytes) (t : Tree) :
    FileStore → (Key → Option Kind) → Prop
  | absent (hfind : s.mode.find (l.place name) t = .ok none) : Dropped s l name t s t.kind?
  | recounted (e : Entry) (file old : Bytes) (hmode : s.mode = .counted) (hcount : 1 < e.count)
      (hfind : s.mode.find (l.place name) t = .ok (some e))
      (found : s.mode.Found (l.place name) t e file old) (hold : t.Admits e.path)
      (admits : t.Admits (s.mode.path (l.place name) (e.count - 1))) :
      Dropped s l name t s
        (update (update t.kind? (file :: (l.place name).dir.key) none)
          (s.mode.fileName (l.place name).stem (e.count - 1) :: (l.place name).dir.key)
          (some (.file old)))
  | removed (e : Entry) (file old : Bytes) (hcount : e.count = 1)
      (hfind : s.mode.find (l.place name) t = .ok (some e))
      (found : s.mode.Found (l.place name) t e file old) (hold : t.Admits e.path) :
      Dropped s l name t { s with tracker := s.tracker.remove old.length }
        (update t.kind? (file :: (l.place name).dir.key) none)

theorem Dropped.frame {kinds : Key → Option Kind} (hname : name ≠ [])
    (h : Dropped s l name t s' kinds) :
    Frame l.root.key (l.place name).dir t.kind? kinds := by
  have hfile := fun n => (s.mode.isName_fileName (l.isStem_place hname) n).1
  cases h with
  | absent => exact .refl _ _ _
  | recounted e file old hmode hcount hfind found hold admits =>
    exact frame_recount (hfile _) found.kind (l.key_path s.mode hname _ ▸ admits.noDir)
  | removed e file old hcount hfind found =>
    exact .remove _ (root_suffix_file l name file) (by rw [found.kind]; simp)

theorem Dropped.file_iff {kinds : Key → Option Kind} (h : Dropped s l name t s' kinds) {k : Key}
    (hk : ∀ file, s.mode.Names (l.place name).stem file → k ≠ file :: (l.place name).dir.key) (c : Bytes) :
    kinds k = some (.file c) ↔ t.kind? k = some (.file c) := by
  cases h with
  | absent => exact Iff.rfl
  | recounted e file old hmode hcount hfind found =>
    rw [Function.update_of_ne (hk _ (s.mode.names_fileName _ _)), Function.update_of_ne (hk _ found.isFile.names)]
  | removed e file old hcount hfind found => rw [Function.update_of_ne (hk _ found.isFile.names)]

theorem count_of_not_shared {e : Entry} {file old : Bytes}
    (found : s.mode.Found (l.place name) t e file old) (h : ¬ (s.mode = .counted ∧ 1 < e.count)) :
    e.count = 1 := by
  have hc := found.isFile.carries
  cases hmode : s.mode with
  | plain =>
    rw [hmode] at hc
    exact hc
  | counted =>
    rw [hmode] at hc
    have hpos : 0 < e.count := hc.1
    have hle : ¬ 1 < e.count := fun hlt => h ⟨hmode, hlt⟩
    omega

theorem dropped_of_release [FileSystem] (hname : name ≠ []) (hroot : l.root ≠ .blank) {e : Entry}
    (hfind : s.mode.find (l.place name) w.tree = .ok (some e)) {n : Nat}
    (h : (s.mode.release (l.place name) e).run w = (.ok n, v)) :
    (n ≠ 0 ∧ Dropped s l name w.tree s v.tree.kind?) ∨
    (n = 0 ∧ Dropped s l name w.tree { s with tracker := s.tracker.remove e.size } v.tree.kind?) := by
  have hs := l.isStem_place hname
  obtain ⟨file, old, found⟩ := Mode.find_eq_some (l.dir_place_ne_blank hroot name) hs hfind
  have hkey := found.key hs
  have hrun := Mode.release_run (m := s.mode) (l := l.place name) (by rw [hkey]; exact found.kind)
  rw [h] at hrun
  cases hrun with
  | renamed hmode hcount v after hold moved =>
    refine Or.inl ⟨by omega, ?_⟩
    have h := Dropped.recounted e file old hmode hcount hfind found hold moved.admits
    rw [moved.kinds, hkey, l.key_path s.mode hname]
    exact h
  | removed hcount v after hold kinds =>
    refine Or.inr ⟨rfl, ?_⟩
    rw [kinds, hkey, found.size]
    exact .removed e file old (count_of_not_shared found hcount) hfind found hold

/-- **Dropping a reference.** -/
theorem delete_dropped [FileSystem] (hl : s.layout? = some l) (hroot : l.root ≠ .blank)
    (h : (s.delete name).run w = (.ok s', v)) :
    (name = [] ∧ s' = s ∧ v = w) ∨ (name ≠ [] ∧ Dropped s l name w.tree s' v.tree.kind?) := by
  have hrun := delete_run hl name w
  rw [h] at hrun
  cases hrun with
  | emptyName hname => exact Or.inl ⟨hname, rfl, rfl⟩
  | absent hname hfind => exact Or.inr ⟨hname, .absent hfind⟩
  | dropped hname e hfind n v hrelease hn =>
    refine Or.inr ⟨hname, ?_⟩
    rcases dropped_of_release hname hroot hfind hrelease with ⟨-, hd⟩ | ⟨h0, -⟩
    · exact hd
    · exact absurd h0 hn
  | removed hname e hfind u v hrelease hlast =>
    refine Or.inr ⟨hname, ?_⟩
    rw [hlast.tree, Workspace.commits_nil]
    rcases dropped_of_release hname hroot hfind hrelease with ⟨h0, -⟩ | ⟨-, hd⟩
    · exact absurd rfl h0
    · exact hd

end FileStore

end ContentStore
