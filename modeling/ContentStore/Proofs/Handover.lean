import ContentStore.Proofs.Unharmed

/-!
# Handing a chunk over

A sink that is given a file answers whether it has taken it.  If it has not, no file has changed; if it
has, the file is gone exactly if that was asked for and its directory is not shut, and nothing else has
changed outside the sink (`sink_file`, `sink_memory`).  A memory store that cannot remove the file has taken
its content all the same and answers that it has not.  A file store that hands over the last reference to a
chunk either finds it gone afterwards (`find_after_handover`), so that it has nothing left to drop that
could fail, or finds it where it was.
-/

namespace ContentStore

open Function (update)
open FileSystem (shut)

namespace Attempt

variable {σ : Type}

theorem reported_of_ok {α : Type} {op : Operation} {name : Bytes} {a : Attempt α} {x : α} {w v : Workspace}
    (h : a.run w = (.ok x, v)) : a.reported op name w = (some x, v) := by
  unfold reported
  rw [Action.bind_apply, h]
  rfl

theorem reported_of_error {α : Type} (op : Operation) (name : Bytes) {a : Attempt α} {w v : Workspace}
    {e : StoreError} (h : a.run w = (.error e, v)) :
    a.reported op name w = (none, (Action.report (.ofError op name e) v).2) := by
  unfold reported
  rw [Action.bind_apply, h]
  rfl

theorem settled_of_ok {op : Operation} {name : Bytes} {before after : σ} {a : Attempt σ} {w v : Workspace}
    (h : a.run w = (.ok after, v)) : settled op name before a w = ((true, after), v) := by
  unfold settled reported
  simp only [Action.bind_apply]
  rw [h]
  rfl

theorem settled_of_error {op : Operation} {name : Bytes} {before : σ} {a : Attempt σ} {w v : Workspace}
    {e : StoreError} (h : a.run w = (.error e, v)) :
    settled op name before a w = ((false, before), (Action.report (.ofError op name e) v).2) := by
  unfold settled reported
  simp only [Action.bind_apply]
  rw [h]
  rfl

end Attempt

/-- Of two keys neither lies below the other. -/
def Key.Apart (k l : Key) : Prop := ¬ k <:+ l ∧ ¬ l <:+ k

namespace Key.Apart

variable {a b k : Key}

theorem symm (h : a.Apart b) : b.Apart a := ⟨h.2, h.1⟩

theorem not_suffix (h : a.Apart b) (hk : a <:+ k) : ¬ b <:+ k := by
  intro hb
  rcases List.suffix_or_suffix_of_suffix hk hb with h' | h'
  · exact h.1 h'
  · exact h.2 h'

end Key.Apart

section

variable [FileSystem]

namespace FileStore

variable {f f' : FileStore} {l : Layout} {name : Bytes} {p : Path} {asked taken : Bool} {w v : Workspace}

/-- What a file store does with a file that it is given. -/
theorem sink_file (hl : f.layout? = some l) (hroot : l.root ≠ .blank)
    (h : Sink.storeFile f name p asked w = ((taken, f'), v)) :
    (taken = false ∧ f' = f ∧ Grown (l.place name).dir w.tree v.tree) ∨
    (taken = true ∧ (f.storeFile name p asked).run w = (.ok f', v)) := by
  have h : Attempt.settled .storeFile name f (f.storeFile name p asked) w = ((taken, f'), v) := h
  rcases hrun : (f.storeFile name p asked).run w with ⟨e | after, u⟩
  · rw [Attempt.settled_of_error hrun] at h
    cases h
    exact Or.inl ⟨rfl, rfl, (storeFile_error hl hroot hrun).grown⟩
  · rw [Attempt.settled_of_ok hrun] at h
    cases h
    exact Or.inr ⟨rfl, rfl⟩

theorem sink_uninitialized (hl : f.layout? = none)
    (h : Sink.storeFile f name p asked w = ((taken, f'), v)) :
    taken = false ∧ f' = f ∧ v.tree = w.tree := by
  have h : Attempt.settled .storeFile name f (f.storeFile name p asked) w = ((taken, f'), v) := h
  rw [Attempt.settled_of_error (storeFile_uninitialized hl name p asked w)] at h
  cases h
  exact ⟨rfl, rfl, rfl⟩

end FileStore

namespace MemoryStore

variable {m m' : MemoryStore} {name : Bytes} {p : Path} {asked : Bool} {w v : Workspace}

omit [FileSystem] in
theorem sourceContent_eq (p : Path) (w : Workspace) :
    (∃ content, w.tree.stat p = .ok (.file content) ∧
      (sourceContent p).run w = (.ok content, w)) ∨
    ∃ e, (∀ content, w.tree.stat p ≠ .ok (.file content)) ∧ (sourceContent p).run w = (.error e, w) := by
  unfold sourceContent
  rw [Action.run_bind, Attempt.run_tree]
  dsimp only
  rcases hread : w.tree.read p with fault | content
  · have hno : ∀ content, w.tree.stat p ≠ .ok (.file content) := fun content hstat => by
      rw [Tree.read_eq_ok_iff.mpr hstat] at hread
      cases hread
    cases fault <;> exact Or.inr ⟨_, hno, rfl⟩
  · exact Or.inl ⟨content, Tree.read_eq_ok_iff.mp hread, rfl⟩

/-- What storing the content of a file comes to.  A source that cannot be removed is an error, although its
content is stored. -/
inductive StoreFileRun (m : MemoryStore) (name : Bytes) (p : Path) (asked : Bool) (w : Workspace) :
    (Except StoreError Unit × MemoryStore) × Workspace → Prop
  | unread (e : StoreError) (hno : ∀ content, w.tree.stat p ≠ .ok (.file content))
      (hread : (sourceContent p).run w = (.error e, w)) : StoreFileRun m name p asked w ((.error e, m), w)
  | refused (content : Bytes) (hstat : w.tree.stat p = .ok (.file content)) (e : StoreError)
      (hstore : m.store name content = .error e) : StoreFileRun m name p asked w ((.error e, m), w)
  | kept (content : Bytes) (hstat : w.tree.stat p = .ok (.file content)) (m' : MemoryStore)
      (hstore : m.store name content = .ok m') (hasked : asked = true) (hshut : shut p.key.tail = true)
      (f : Fault) : StoreFileRun m name p asked w ((.error (.file f), m'), w)
  | stored (content : Bytes) (hstat : w.tree.stat p = .ok (.file content)) (m' : MemoryStore)
      (hstore : m.store name content = .ok m') (hopen : asked = true → shut p.key.tail = false) (v : Workspace)
      (hkinds : v.tree.kind? = if asked then update w.tree.kind? p.key none else w.tree.kind?) :
      StoreFileRun m name p asked w ((.ok (), m'), v)

theorem storeFile_run (m : MemoryStore) (name : Bytes) (p : Path) (asked : Bool) (w : Workspace) :
    StoreFileRun m name p asked w (m.storeFile name p asked w) := by
  have hread : ((sourceContent p >>= fun content => liftM (m.store name content)) :
      Attempt MemoryStore).run w = match (sourceContent p).run w with
        | (.ok content, u) => (m.store name content, u)
        | (.error e, u) => (.error e, u) := by
    rw [Action.run_bind]
    rcases (sourceContent p).run w with ⟨e | content, u⟩
    · rfl
    · exact Action.run_except _ _
  unfold storeFile
  simp only [Action.bind_apply]
  rw [hread]
  rcases sourceContent_eq p w with ⟨content, hstat, hrun⟩ | ⟨e, hno, hrun⟩
  · rw [hrun]
    rcases hstore : m.store name content with e | m'
    · simp only [hstore]
      exact .refused content hstat e hstore
    · simp only [hstore]
      cases asked with
      | false => exact .stored content hstat m' hstore (by simp) w rfl
      | true =>
        simp only [if_true, Action.bind_apply]
        rcases Request.unlink_spec p w with ⟨f, hno, hunlink⟩ | ⟨c, -, -, hopen, hunlink, hkinds⟩
        · rw [hunlink]
          refine .kept content hstat m' hstore rfl ?_ f
          by_contra hopen
          exact hno ⟨Tree.admits_of_stat hstat, ⟨content, FileStore.kind?_of_stat hstat⟩, by simpa using hopen⟩
        · rw [hunlink]
          exact .stored content hstat m' hstore (fun _ => hopen) _ hkinds
  · rw [hrun]
    exact .unread e hno hrun

theorem sink_of_ok {m n : MemoryStore} {v : Workspace} (h : m.storeFile name p asked w = ((.ok (), n), v)) :
    Sink.storeFile m name p asked w = ((true, n), v) := by
  simp only [Sink.storeFile, Action.bind_apply, h]
  rfl

theorem sink_of_error {m n : MemoryStore} {e : StoreError} {v : Workspace}
    (h : m.storeFile name p asked w = ((.error e, n), v)) :
    Sink.storeFile m name p asked w = ((false, n), (Action.report (.ofError .storeFile name e) v).2) := by
  simp only [Sink.storeFile, Action.bind_apply, h]
  rfl

/-- What a memory store does with a file that it is given. -/
theorem sink_memory {taken : Bool} (h : Sink.storeFile m name p asked w = ((taken, m'), v)) :
    (taken = false ∧ m' = m ∧ v.tree = w.tree ∧
      ∀ content n, w.tree.stat p = .ok (.file content) → m.store name content ≠ .ok n) ∨
    ∃ content, taken = !(asked && shut p.key.tail) ∧ w.tree.stat p = .ok (.file content) ∧
      m.store name content = .ok m' ∧
      v.tree.kind? = if asked && !shut p.key.tail then update w.tree.kind? p.key none else w.tree.kind? := by
  have hrun := storeFile_run m name p asked w
  rcases hr : m.storeFile name p asked w with ⟨⟨r, n⟩, x⟩
  rw [hr] at hrun
  cases hrun with
  | unread e hno =>
    rw [sink_of_error hr] at h
    cases h
    exact Or.inl ⟨rfl, rfl, rfl, fun content _ hstat => absurd hstat (hno content)⟩
  | refused content hstat e hstore =>
    rw [sink_of_error hr] at h
    cases h
    refine Or.inl ⟨rfl, rfl, rfl, fun content' n hstat' => ?_⟩
    rw [hstat] at hstat'
    cases hstat'
    rw [hstore]
    simp
  | kept content hstat m' hstore hasked hshut f =>
    rw [sink_of_error hr] at h
    cases h
    exact Or.inr ⟨content, by simp [hasked, hshut], hstat, hstore, by simp [hshut]; rfl⟩
  | stored content hstat m' hstore hopen x hkinds =>
    rw [sink_of_ok hr] at h
    cases h
    refine Or.inr ⟨content, ?_, hstat, hstore, ?_⟩
    · cases asked <;> simp_all
    · cases asked <;> simp_all

end MemoryStore

/-! ### Stores of any kind -/

namespace AnyStore

variable {name content : Bytes} {source : Path} {asked : Bool} {w : Workspace}

theorem store_file_error {s : FileStore} {e : StoreError} {v : Workspace}
    (h : (s.store name content).run w = (.error e, v)) :
    (AnyStore.file s).store name content w = ((.error e, .file s), v) := by
  unfold store
  simp only [Action.bind_apply, h]
  rfl

theorem store_file_ok {s s' : FileStore} {v : Workspace} (h : (s.store name content).run w = (.ok s', v)) :
    (AnyStore.file s).store name content w = ((.ok (), .file s'), v) := by
  unfold store
  simp only [Action.bind_apply, h]
  rfl

theorem storeFile_file_error {s : FileStore} {e : StoreError} {v : Workspace}
    (h : (s.storeFile name source asked).run w = (.error e, v)) :
    (AnyStore.file s).storeFile name source asked w = ((.error e, .file s), v) := by
  unfold storeFile
  simp only [Action.bind_apply, h]
  rfl

theorem storeFile_file_ok {s s' : FileStore} {v : Workspace}
    (h : (s.storeFile name source asked).run w = (.ok s', v)) :
    (AnyStore.file s).storeFile name source asked w = ((.ok (), .file s'), v) := by
  unfold storeFile
  simp only [Action.bind_apply, h]
  rfl

theorem store_memory_of_error {m : MemoryStore} {e : StoreError} (h : m.store name content = .error e) :
    (AnyStore.memory m).store name content w = ((.error e, .memory m), w) := by
  unfold store
  simp only [h]
  rfl

theorem store_memory_of_ok {m m' : MemoryStore} (h : m.store name content = .ok m') :
    (AnyStore.memory m).store name content w = ((.ok (), .memory m'), w) := by
  unfold store
  simp only [h]
  rfl

theorem storeFile_memory (m : MemoryStore) (name : Bytes) (source : Path) (asked : Bool) (w : Workspace) :
    (AnyStore.memory m).storeFile name source asked w =
      (((m.storeFile name source asked w).1.1, .memory (m.storeFile name source asked w).1.2),
        (m.storeFile name source asked w).2) := rfl

end AnyStore

end

/-! ### Sinks apart from a directory -/

/-- No file in a directory has changed, and no directory has gone. -/
structure Spared (d : Key) (t u : Key → Option Kind) : Prop where
  dir : ∀ k, t k = some .dir → u k = some .dir
  file : ∀ k c, d <:+ k → (u k = some (.file c) ↔ t k = some (.file c))

theorem Frame.spared {d r : Key} {p : Path} {t u : Key → Option Kind} (h : Frame r p t u)
    (hd : r.Apart d) : Spared d t u :=
  ⟨h.dir, fun k c hk => h.file k c (hd.symm.not_suffix hk)⟩

theorem Spared.of_grown {p : Path} {t u : Tree} (h : Grown p t u) (d : Key) :
    Spared d t.kind? u.kind? :=
  ⟨fun _ => h.dir, fun k c _ => h.file_iff k c⟩

theorem Spared.content? {d : Key} {t u : Tree} (h : Spared d t.kind? u.kind?) {k : Key} (hk : d <:+ k) :
    u.content? k = t.content? k :=
  Tree.content?_congr fun c => h.file k c hk

namespace AnyStore

/-- A store keeps its chunks apart from a directory: in memory, or below a root that neither lies in the
directory nor holds it. -/
def ApartFrom (d : Key) : AnyStore → Prop
  | .file f => f.Rooted ∧ ∀ l, f.layout? = some l → l.root.key.Apart d
  | .memory _ => True
  | .fixed _ => False

theorem sink_file_inv [FileSystem] {f : FileStore} {sink' : AnyStore} {name : Bytes} {p : Path} {asked taken : Bool}
    {w v : Workspace} (h : Sink.storeFile (AnyStore.file f) name p asked w = ((taken, sink'), v)) :
    ∃ f', sink' = .file f' ∧ Sink.storeFile f name p asked w = ((taken, f'), v) := by
  have h : after .file (Sink.storeFile f name p asked) w = ((taken, sink'), v) := h
  unfold after at h
  rcases hrun : Sink.storeFile f name p asked w with ⟨⟨b, f'⟩, x⟩
  simp only [Action.bind_apply, hrun] at h
  cases h
  exact ⟨f', rfl, rfl⟩

theorem sink_memory_inv [FileSystem] {m : MemoryStore} {sink' : AnyStore} {name : Bytes} {p : Path}
    {asked taken : Bool} {w v : Workspace}
    (h : Sink.storeFile (AnyStore.memory m) name p asked w = ((taken, sink'), v)) :
    ∃ m', sink' = .memory m' ∧ Sink.storeFile m name p asked w = ((taken, m'), v) := by
  have h : after .memory (Sink.storeFile m name p asked) w = ((taken, sink'), v) := h
  unfold after at h
  rcases hrun : Sink.storeFile m name p asked w with ⟨⟨b, m'⟩, x⟩
  simp only [Action.bind_apply, hrun] at h
  cases h
  exact ⟨m', rfl, rfl⟩

/-- What a store does with a file that it is given from a directory apart from it: the file is gone at most
if that was asked for and its directory is not shut. -/
theorem sink_spared [FileSystem] {sink sink' : AnyStore} {d : Key} (hsink : sink.ApartFrom d) {name : Bytes} {p : Path}
    (hp : d <:+ p.key) {asked taken : Bool} {w v : Workspace}
    (h : Sink.storeFile sink name p asked w = ((taken, sink'), v)) :
    (taken = false ∧ sink' = sink ∧ ∃ q, Grown q w.tree v.tree) ∨
    ((taken = true ∨ asked = true ∧ shut p.key.tail = true) ∧ ∃ content kinds,
      w.tree.stat p = .ok (.file content) ∧ Spared d w.tree.kind? kinds ∧
      v.tree.kind? = if asked && !shut p.key.tail then Function.update kinds p.key none else kinds) := by
  cases sink with
  | file f =>
    obtain ⟨hf, hapart⟩ := hsink
    obtain ⟨f', rfl, hrun⟩ := sink_file_inv h
    rcases hl : f.layout? with _ | l
    · obtain ⟨rfl, rfl, htree⟩ := FileStore.sink_uninitialized hl hrun
      exact Or.inl ⟨rfl, rfl, p, .of_eq _ (by rw [htree])⟩
    · rcases FileStore.sink_file hl (hf l hl) hrun with ⟨rfl, rfl, hgrown⟩ | ⟨rfl, hstore⟩
      · exact Or.inl ⟨rfl, rfl, _, hgrown⟩
      · have hout := (hapart l hl).symm.not_suffix hp
        obtain ⟨hname, content, kinds, -, hstat, htook, hkinds⟩ :=
          FileStore.storeFile_took hl (hf l hl) hout hstore
        exact Or.inr ⟨Or.inl rfl, content, kinds, hstat, (htook.frame hname).spared (hapart l hl), hkinds⟩
  | memory m =>
    obtain ⟨m', rfl, hrun⟩ := sink_memory_inv h
    rcases MemoryStore.sink_memory hrun with ⟨rfl, rfl, htree, -⟩ | ⟨content, htaken, hstat, -, hkinds⟩
    · exact Or.inl ⟨rfl, rfl, p, .of_eq _ (by rw [htree])⟩
    · refine Or.inr ⟨?_, content, _, hstat, .of_grown (.refl p _) d, hkinds⟩
      rw [htaken]
      cases asked <;> cases shut p.key.tail <;> simp
  | fixed f => exact absurd hsink id

end AnyStore

namespace FileStore

variable {s : FileStore} {l : Layout} {name content : Bytes} {t u : Tree} {e : Entry}

theorem fits_of_find (hname : name ≠ []) (hroot : l.root ≠ .blank)
    (hfind : s.mode.find (l.place name) t = .ok (some e)) : s.mode.Fits (l.place name) := by
  intro hmode
  rw [hmode] at hfind
  have hs := l.isStem_place hname
  obtain ⟨old, hfound, hstat⟩ := Mode.find_plain_eq_some (l.dir_place_ne_blank hroot name) hs hfind
  obtain ⟨n, d, hn, -⟩ := Tree.names_of_stat hstat
  rw [hfound.path] at hn
  have hcheck := (Path.check_eq_ok_iff.mp hn.check).2.2
  obtain ⟨rfl, -⟩ := hn.of_join (Mode.isName_stem hs).1 (l.dir_place_ne_blank hroot name)
  exact ⟨hcheck, hn.length⟩

theorem find_of_gone (hname : name ≠ []) (hroot : l.root ≠ .blank)
    (hfind : s.mode.find (l.place name) t = .ok (some e)) (hdir : u.leadsToDir (l.place name).dir = true)
    (honly : s.mode.Only (l.place name) e.path.key u.kind?) (hgone : u.kind? e.path.key = none) :
    s.mode.find (l.place name) u = .ok none := by
  refine Mode.find_of_lacks (l.isStem_place hname) (fits_of_find hname hroot hfind) hdir fun other n c hother hk => ?_
  rw [honly other n c hother hk, hgone] at hk
  cases hk

/-- The directory of a chunk stays when the file of the chunk is removed. -/
theorem leadsToDir_of_removed (hname : name ≠ []) (hroot : l.root ≠ .blank)
    (hfind : s.mode.find (l.place name) t = .ok (some e)) {kinds : Key → Option Kind}
    (hdir : ∀ k, t.kind? k = some .dir → kinds k = some .dir)
    (hu : u.kind? = update kinds e.path.key none) : u.leadsToDir (l.place name).dir = true := by
  have hs := l.isStem_place hname
  obtain ⟨file, old, found⟩ := Mode.find_eq_some (l.dir_place_ne_blank hroot name) hs hfind
  refine Tree.leadsToDir_mono found.dir fun k hk => ?_
  have hne : k ≠ e.path.key := by
    rintro rfl
    rw [found.key hs, found.kind] at hk
    cases hk
  rw [hu, Function.update_of_ne hne]
  exact hdir k hk

theorem find_of_removed (hname : name ≠ []) (hroot : l.root ≠ .blank)
    (hfind : s.mode.find (l.place name) t = .ok (some e)) {kinds : Key → Option Kind}
    (hdir : ∀ k, t.kind? k = some .dir → kinds k = some .dir)
    (honly : s.mode.Only (l.place name) e.path.key kinds) (hu : u.kind? = update kinds e.path.key none) :
    s.mode.find (l.place name) u = .ok none :=
  find_of_gone hname hroot hfind (leadsToDir_of_removed hname hroot hfind hdir hu) (hu ▸ honly.remove)
    (by rw [hu, Function.update_self])

/-- The only file of a chunk has been given another name of it: the chunk is found there. -/
theorem find_of_renamed {old : Bytes} {n : Nat} {k : Key} (hname : name ≠ [])
    (hfits : s.mode.Fits (l.place name)) (hdir : t.leadsToDir (l.place name).dir = true)
    (hk : t.kind? k = some (.file old)) (honly : s.mode.Only (l.place name) k t.kind?)
    (hcarries : s.mode.Carries n)
    (hfree : t.kind? (s.mode.fileName (l.place name).stem n :: (l.place name).dir.key) ≠ some .dir)
    (hu : u.kind? = update (update t.kind? k none)
      (s.mode.fileName (l.place name).stem n :: (l.place name).dir.key) (some (.file old))) :
    u.leadsToDir (l.place name).dir = true ∧
      s.mode.find (l.place name) u = .ok (some ⟨s.mode.path (l.place name) n, n, old.length⟩) := by
  have hlead : u.leadsToDir (l.place name).dir = true := by
    refine Tree.leadsToDir_mono hdir fun j hj => ?_
    have hold : j ≠ k := by
      rintro rfl
      rw [hk] at hj
      cases hj
    have hnew : j ≠ s.mode.fileName (l.place name).stem n :: (l.place name).dir.key := by
      rintro rfl
      exact hfree hj
    rw [hu, Function.update_of_ne hnew, Function.update_of_ne hold, hj]
  have hfile := Mode.isFile_fileName (l.place name).stem hcarries
  rw [Mode.path_eq]
  refine ⟨hlead, Mode.find_of_file (l.isStem_place hname) hfits hlead hfile (by rw [hu, Function.update_self])
    fun other m c hother hc => ?_⟩
  by_contra hne
  rw [hu, Function.update_of_ne (fun h => hne (List.cons.inj h).1), Function.update_apply] at hc
  split at hc
  · cases hc
  · next h => exact h (honly other m c hother hc)

/-- A chunk whose only file was handed over and removed is found no more. -/
theorem find_after_handover (hname : name ≠ []) (hroot : l.root ≠ .blank)
    (hfind : s.mode.find (l.place name) t = .ok (some e)) (hsingle : s.mode.Single l.root.key t.kind?)
    {kinds : Key → Option Kind} (hspared : Spared l.root.key t.kind? kinds)
    (hu : u.kind? = update kinds e.path.key none) : s.mode.find (l.place name) u = .ok none := by
  have hs := l.isStem_place hname
  obtain ⟨file, old, found⟩ := Mode.find_eq_some (l.dir_place_ne_blank hroot name) hs hfind
  exact find_of_removed hname hroot hfind hspared.dir ((hsingle.only (root_suffix_dir l name) hs found).mono
    fun other n c _ hk => (hspared.file _ _ (root_suffix_file l name other)).mp hk) hu

/-! ### Moving a chunk -/

theorem entry_below (hname : name ≠ []) (hroot : l.root ≠ .blank)
    (hfind : s.mode.find (l.place name) t = .ok (some e)) : l.root.key <:+ e.path.key := by
  obtain ⟨file, old, found⟩ :=
    Mode.find_eq_some (l.dir_place_ne_blank hroot name) (l.isStem_place hname) hfind
  rw [found.key (l.isStem_place hname)]
  exact root_suffix_file l name file

/-- Of a chunk that is found no more only the counts are left. -/
theorem letGo_gone [FileSystem] {w v : Workspace} {r : Except StoreError FileStore}
    (hgone : s.mode.find (l.place name) w.tree = .ok none)
    (h : (s.letGo name (l.place name) e).run w = (r, v)) :
    r = .ok { s with tracker := s.tracker.remove e.size } ∧ w.After [] v := by
  have hrun := letGo_run s name (l.place name) e w
  rw [h] at hrun
  cases hrun with
  | gone hfind x hlast => exact ⟨rfl, hlast⟩
  | unreadable f hfind => rw [hgone] at hfind; cases hfind
  | kept e hfind => rw [hgone] at hfind; cases hfind
  | refused e hfind => rw [hgone] at hfind; cases hfind
  | dropped e hfind => rw [hgone] at hfind; cases hfind
  | removed e hfind => rw [hgone] at hfind; cases hfind

theorem letGo_error [FileSystem] (hname : name ≠ []) (hroot : l.root ≠ .blank) {e : Entry}
    {err : StoreError} {w v : Workspace}
    (h : (s.letGo name (l.place name) e).run w = (.error err, v)) : v = w := by
  have hrun := letGo_run s name (l.place name) e w
  rw [h] at hrun
  cases hrun with
  | unreadable => rfl
  | refused e hfind hmode err v hrelease => exact (release_error hname hroot hfind hrelease).2

/-- What handing a chunk over comes to. -/
inductive MoveToRun [FileSystem] {τ : Type} [Sink τ] (s : FileStore) (l : Layout) (name : Bytes) (sink : τ)
    (w : Workspace) : (Except StoreError FileStore × τ) × Workspace → Prop
  | missing (err : StoreError) (hrequire : (s.require name).run w = (.error err, w)) :
      MoveToRun s l name sink w ((.error err, sink), w)
  | refused (hname : name ≠ []) (e : Entry) (hfind : s.mode.find (l.place name) w.tree = .ok (some e))
      (sink' : τ) (v : Workspace)
      (hsink : Sink.storeFile sink name e.path (e.count ≤ 1) w = ((false, sink'), v)) :
      MoveToRun s l name sink w ((.error (.refused name), sink'), v)
  | taken (hname : name ≠ []) (e : Entry) (hfind : s.mode.find (l.place name) w.tree = .ok (some e))
      (sink' : τ) (v : Workspace)
      (hsink : Sink.storeFile sink name e.path (e.count ≤ 1) w = ((true, sink'), v))
      (r : Except StoreError FileStore) (x : Workspace)
      (hletGo : (s.letGo name (l.place name) e).run v = (r, x)) :
      MoveToRun s l name sink w ((r, sink'), x)

theorem moveTo_run [FileSystem] {τ : Type} [Sink τ] (hl : s.layout? = some l) (name : Bytes) (sink : τ)
    (w : Workspace) : MoveToRun s l name sink w (s.moveTo name sink w) := by
  unfold moveTo
  simp only [Action.bind_apply]
  have hrun := require_run hl name w
  rcases hrequire : (s.require name).run w with ⟨err | ⟨location, e⟩, v⟩
  · rw [hrequire] at hrun
    cases hrun <;> exact .missing _ hrequire
  · rw [hrequire] at hrun
    cases hrun with
    | present hname e hfind =>
      rcases hsink : Sink.storeFile sink name e.path (e.count ≤ 1) w with ⟨⟨_ | _, sink'⟩, x⟩
      · simp only [Action.bind_apply, hsink]
        exact .refused hname e hfind sink' x hsink
      · simp only [Action.bind_apply, hsink]
        exact .taken hname e hfind sink' x hsink _ _ rfl

end FileStore

end ContentStore
