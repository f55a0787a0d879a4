import ContentStore.Proofs.Files
import ContentStore.Proofs.Handover

/-!
# Failed operations do no harm

`failed_operation_harmless`: an operation that fails has changed no file and no count, whatever stands in
the file tree and whatever the file system refuses; after a refusal no directory is new either; and a move that
fails leaves the store that was to hand over its chunk with all its files.  There is one exception: a store in
memory that was to remove the file that it was given fails if it cannot, and has then stored the content.
-/

namespace ContentStore

open FileSystem (shut)

section

variable [FileSystem]

namespace FileStore

variable {s s' : FileStore} {l : Layout} {name : Bytes} {w v : Workspace} {err : StoreError}

/-! ### Operations that may fail -/

/-- An operation that gives a reason when it fails. -/
inductive Trial where
  | store (name content : Bytes)
  | storeFile (name : Bytes) (source : Path) (deleteSource : Bool)
  | delete (name : Bytes)
  | getToFile (name : Bytes) (target : Path)
  | get (name : Bytes)
  | validate (name : Bytes)

namespace Trial

/-- The store after an operation that may change it; after a failure it is the same as before. -/
def changing (s : FileStore) (a : Attempt FileStore) : Action (Except StoreError Unit × FileStore) := do
  match ← a.run with
  | .ok after => return (.ok (), after)
  | .error e => return (.error e, s)

/-- The store after an operation that leaves it as it is. -/
def asking {α : Type} (s : FileStore) (a : Attempt α) : Action (Except StoreError Unit × FileStore) := do
  match ← a.run with
  | .ok _ => return (.ok (), s)
  | .error e => return (.error e, s)

def run (s : FileStore) : Trial → Action (Except StoreError Unit × FileStore)
  | store name content => changing s (s.store name content)
  | storeFile name source deleteSource => changing s (s.storeFile name source deleteSource)
  | delete name => changing s (s.delete name)
  | getToFile name target => asking s (s.getToFile name target)
  | get name => asking s (s.get name)
  | validate name => asking s (s.validate name)

omit [FileSystem] in
theorem changing_error {a : Attempt FileStore} (h : changing s a w = ((.error err, s'), v)) :
    s' = s ∧ a.run w = (.error err, v) := by
  unfold changing at h
  simp only [Action.bind_apply] at h
  rcases hrun : a.run w with ⟨e | after, u⟩ <;> rw [hrun] at h <;> cases h
  exact ⟨rfl, rfl⟩

omit [FileSystem] in
theorem asking_error {α : Type} {a : Attempt α} (h : asking s a w = ((.error err, s'), v)) :
    s' = s ∧ a.run w = (.error err, v) := by
  unfold asking at h
  simp only [Action.bind_apply] at h
  rcases hrun : a.run w with ⟨e | x, u⟩ <;> rw [hrun] at h <;> cases h
  exact ⟨rfl, rfl⟩

end Trial

theorem Trial.run_uninitialized {op : Trial} (hl : s.layout? = none)
    (h : op.run s w = ((.error err, s'), v)) : s' = s ∧ v = w := by
  cases op with
  | store name content =>
    obtain ⟨hs', hrun⟩ := changing_error h
    rw [store_uninitialized hl] at hrun
    cases hrun
    exact ⟨hs', rfl⟩
  | storeFile name source deleteSource =>
    obtain ⟨hs', hrun⟩ := changing_error h
    rw [storeFile_uninitialized hl] at hrun
    cases hrun
    exact ⟨hs', rfl⟩
  | delete name =>
    obtain ⟨hs', hrun⟩ := changing_error h
    rw [delete_uninitialized hl] at hrun
    cases hrun
    exact ⟨hs', rfl⟩
  | getToFile name target =>
    obtain ⟨hs', hrun⟩ := asking_error h
    rw [getToFile_uninitialized hl] at hrun
    cases hrun
    exact ⟨hs', rfl⟩
  | get name =>
    obtain ⟨hs', hrun⟩ := asking_error h
    have hv := s.get_same name w
    rw [hrun] at hv
    exact ⟨hs', hv⟩
  | validate name =>
    obtain ⟨hs', hrun⟩ := asking_error h
    have hv := s.validate_same name w
    rw [hrun] at hv
    exact ⟨hs', hv⟩

/-- A trial that fails leaves the store as it is and does no harm to the tree. -/
theorem Trial.run_error (hs : s.Rooted) {op : Trial} (h : op.run s w = ((.error err, s'), v)) :
    s' = s ∧ ∃ p, Unharmed p err w v := by
  rcases hl : s.layout? with _ | l
  · obtain ⟨hs', rfl⟩ := Trial.run_uninitialized hl h
    exact ⟨hs', .here, .refl _ _ _⟩
  have hroot := hs l hl
  cases op with
  | store name content =>
    obtain ⟨hs', hrun⟩ := changing_error h
    exact ⟨hs', _, store_error hl hroot hrun⟩
  | storeFile name source deleteSource =>
    obtain ⟨hs', hrun⟩ := changing_error h
    exact ⟨hs', _, storeFile_error hl hroot hrun⟩
  | delete name =>
    obtain ⟨hs', hrun⟩ := changing_error h
    obtain rfl := delete_error hl hroot hrun
    exact ⟨hs', l.root, .refl _ _ _⟩
  | getToFile name target =>
    obtain ⟨hs', hrun⟩ := asking_error h
    exact ⟨hs', l.root, getToFile_error hl l.root hrun⟩
  | get name =>
    obtain ⟨hs', hrun⟩ := asking_error h
    have hv := s.get_same name w
    rw [hrun] at hv
    exact ⟨hs', l.root, hv ▸ .refl _ _ _⟩
  | validate name =>
    obtain ⟨hs', hrun⟩ := asking_error h
    have hv := s.validate_same name w
    rw [hrun] at hv
    exact ⟨hs', l.root, hv ▸ .refl _ _ _⟩

/-! ### Moves that fail -/

/-- A move that fails leaves all files below the root of the store that was to hand over. -/
theorem moveTo_error (hs : s.Rooted) (hl : s.layout? = some l) {sink sink' : AnyStore}
    (hsink : sink.ApartFrom l.root.key) (hsingle : s.mode.Single l.root.key w.tree.kind?)
    (h : s.moveTo name sink w = ((.error err, sink'), v)) {k : Key} (hk : l.root.key <:+ k) :
    v.tree.content? k = w.tree.content? k := by
  have hroot := hs l hl
  have hrun := moveTo_run hl name sink w
  rw [h] at hrun
  cases hrun with
  | missing => rfl
  | refused hname e hfind sink' v hrun =>
    rcases AnyStore.sink_spared hsink (entry_below hname hroot hfind) hrun with
      ⟨-, -, q, hgrown⟩ | ⟨hshut, content, kinds, -, hspared, hkinds⟩
    · exact hgrown.content? k
    · -- the content was taken, but the file could not be removed
      rw [(hshut.resolve_left Bool.false_ne_true).2, Bool.not_true, Bool.and_false,
        if_neg Bool.false_ne_true] at hkinds
      exact (hkinds ▸ hspared).content? hk
  | taken hname e hfind sink' u hrun r x hletGo =>
    rcases AnyStore.sink_spared hsink (entry_below hname hroot hfind) hrun with
      ⟨h, -⟩ | ⟨-, content, kinds, hstat, hspared, hkinds⟩
    · cases h
    · obtain rfl := letGo_error hname hroot hletGo
      split at hkinds
      · -- the file is gone, so there was nothing left to drop that could have failed
        have hgone := find_after_handover hname hroot hfind hsingle hspared hkinds
        cases (letGo_gone hgone hletGo).1
      · exact (hkinds ▸ hspared).content? hk

end FileStore

namespace AnyStore

variable {w v : Workspace} {err : StoreError}

theorem store_memory_error {m : MemoryStore} {s' : AnyStore} {name content : Bytes}
    (h : (AnyStore.memory m).store name content w = ((.error err, s'), v)) : s' = .memory m ∧ v = w := by
  rcases hstore : m.store name content with e | m'
  · rw [store_memory_of_error hstore] at h
    cases h
    exact ⟨rfl, rfl⟩
  · rw [store_memory_of_ok hstore] at h
    cases h

/-- A memory store that fails to store a file leaves it where it is.  It has not stored its content, unless the file
was to be removed from a directory that is shut. -/
theorem storeFile_memory_error {m : MemoryStore} {s' : AnyStore} {name : Bytes} {source : Path}
    {asked : Bool} (h : (AnyStore.memory m).storeFile name source asked w = ((.error err, s'), v)) :
    v = w ∧ (s' = .memory m ∨ err.isFault = true ∧ asked = true ∧ shut source.key.tail = true ∧
      ∃ content m', w.tree.stat source = .ok (.file content) ∧ m.store name content = .ok m' ∧
        s' = .memory m') := by
  rw [storeFile_memory] at h
  have hrun := MemoryStore.storeFile_run m name source asked w
  rcases hstored : m.storeFile name source asked w with ⟨⟨r, n⟩, x⟩
  rw [hstored] at hrun h
  cases h
  cases hrun with
  | unread | refused => exact ⟨rfl, Or.inl rfl⟩
  | kept content hstat _ hstore hasked hshut =>
    exact ⟨rfl, Or.inr ⟨rfl, hasked, hshut, content, n, hstat, hstore, rfl⟩⟩

theorem moveTo_file_error {s : FileStore} {s' sink sink' : AnyStore} {name : Bytes}
    (h : (AnyStore.file s).moveTo name sink w = ((.error err, s', sink'), v)) :
    s' = .file s ∧ s.moveTo name sink w = ((.error err, sink'), v) := by
  unfold moveTo at h
  simp only [Action.bind_apply] at h
  rcases hrun : s.moveTo name sink w with ⟨⟨e | after, k⟩, x⟩ <;> rw [hrun] at h <;> cases h
  exact ⟨rfl, rfl⟩

end AnyStore

/-- **Failures do no harm.**  For every file system, every file tree and every state of the store: an operation
of a file store that fails has changed neither the store nor any file, and after a refusal the tree is as it was;
storing into a memory store, when it fails, has changed nothing at all, unless the store was to remove a file and
its directory is shut; and if a move from a file store to a store apart from its root fails, the files below the
root and the store are as they were. -/
theorem failed_operation_harmless :
    (∀ (s s' : FileStore) (op : FileStore.Trial) (w v : Workspace) (e : StoreError), s.Rooted →
      op.run s w = ((.error e, s'), v) →
      s' = s ∧ (∀ k, v.tree.content? k = w.tree.content? k) ∧ (e.isFault = false → v.tree = w.tree)) ∧
    (∀ (m : MemoryStore) (s' : AnyStore) (name content : Bytes) (w v : Workspace) (e : StoreError),
      (AnyStore.memory m).store name content w = ((.error e, s'), v) → s' = .memory m ∧ v = w) ∧
    (∀ (m : MemoryStore) (s' : AnyStore) (name : Bytes) (source : Path) (deleteSource : Bool)
      (w v : Workspace) (e : StoreError),
      (AnyStore.memory m).storeFile name source deleteSource w = ((.error e, s'), v) →
      v = w ∧ (s' = .memory m ∨ e.isFault = true ∧ deleteSource = true ∧ shut source.key.tail = true ∧
        ∃ content m', w.tree.stat source = .ok (.file content) ∧ m.store name content = .ok m' ∧
          s' = .memory m')) ∧
    ∀ (s : FileStore) (l : Layout) (s' sink sink' : AnyStore) (name : Bytes) (w v : Workspace)
      (e : StoreError), s.Rooted → s.layout? = some l → sink.ApartFrom l.root.key →
      s.mode.Single l.root.key w.tree.kind? →
      (AnyStore.file s).moveTo name sink w = ((.error e, s', sink'), v) →
      s' = .file s ∧ ∀ k, l.root.key <:+ k → v.tree.content? k = w.tree.content? k := by
  refine ⟨?_, ?_, ?_, ?_⟩
  · intro s s' op w v e hs h
    obtain ⟨hs', p, hunharmed⟩ := FileStore.Trial.run_error hs h
    exact ⟨hs', hunharmed.grown.content?, hunharmed.refusal⟩
  · intro m s' name content w v e h
    exact AnyStore.store_memory_error h
  · intro m s' name source deleteSource w v e h
    exact AnyStore.storeFile_memory_error h
  · intro s l s' sink sink' name w v e hs hl hsink hsingle h
    obtain ⟨hs', hrun⟩ := AnyStore.moveTo_file_error h
    exact ⟨hs', fun k hk => FileStore.moveTo_error hs hl hsink hsingle hrun hk⟩

end

namespace Blocked

/-- A directory `r` in which a directory has the name that the chunk `61.2` would take next. -/
def tree : Tree where
  top := .dir [114] (.file [54, 49, 46, 50] [7] (.dir [54, 49, 46, 49] .nil .nil)) .nil
  distinct := by simp [Listing.Distinct, Listing.names]

def workspace : Workspace := ⟨tree, [], []⟩

def store : FileStore := ⟨.counted, .ofDigest id, some ⟨⟨[114]⟩, 0⟩, ⟨0, 1, 1⟩⟩

def memory : MemoryStore := .new false (.ofDigest id)

theorem rooted : store.Rooted := by
  intro l hl
  cases hl
  decide

theorem single : Mode.counted.Single [[114]] tree.kind? := by
  intro k stem f g i j x y hk hs hf hg hx hy
  have hfiles : ∀ r c, tree.kind? r = some (.file c) → r = [[54, 49, 46, 50], [114]] := by
    intro r c h
    have hmem : (r, c) ∈ tree.filesBelow [] := by
      rw [Tree.mem_filesBelow_iff rfl, List.append_nil]
      exact h
    have hlist : tree.filesBelow [] = [([[54, 49, 46, 50], [114]], [7])] := rfl
    rw [hlist, List.mem_singleton] at hmem
    exact congrArg Prod.fst hmem
  exact (List.cons.inj ((hfiles _ _ hx).trans (hfiles _ _ hy).symm)).1

/-- The directory `r` is shut. -/
scoped instance locked : FileSystem := .locking [[114]]

end Blocked

/-- A reference that cannot be dropped because a directory is in the way: neither a deletion nor a move
changes a file.  A content without a name and a source that is not there change nothing in memory. -/
theorem failed_operation_harmless_blocked :
    (((FileStore.Trial.delete [97]).run Blocked.store Blocked.workspace).1.1 =
        .error (.file .isADirectory) ∧
      ∀ k, ((FileStore.Trial.delete [97]).run Blocked.store Blocked.workspace).2.tree.content? k =
        Blocked.tree.content? k) ∧
    (((AnyStore.memory Blocked.memory).store [] [1] Blocked.workspace).1.1 = .error .emptyName ∧
      ((AnyStore.memory Blocked.memory).store [] [1] Blocked.workspace).2 = Blocked.workspace) ∧
    (((AnyStore.memory Blocked.memory).storeFile [97] ⟨[120]⟩ true Blocked.workspace).1.1 =
        .error (.sourceMissing ⟨[120]⟩) ∧
      ((AnyStore.memory Blocked.memory).storeFile [97] ⟨[120]⟩ true Blocked.workspace).2 =
        Blocked.workspace) ∧
    (((AnyStore.file Blocked.store).moveTo [97] (AnyStore.memory Blocked.memory) Blocked.workspace).1.1 =
        .error (.file .isADirectory) ∧
      ∀ k, [[114]] <:+ k →
        ((AnyStore.file Blocked.store).moveTo [97] (AnyStore.memory Blocked.memory)
          Blocked.workspace).2.tree.content? k = Blocked.tree.content? k) := by
  obtain ⟨htrial, hstore, hfile, hmove⟩ := failed_operation_harmless
  have hrun : ((AnyStore.file Blocked.store).moveTo [97] (AnyStore.memory Blocked.memory)
      Blocked.workspace).1.1 = .error (.file .isADirectory) := by decide +kernel
  have hdelete : ((FileStore.Trial.delete [97]).run Blocked.store Blocked.workspace).1.1 =
      .error (.file .isADirectory) := by decide +kernel
  exact ⟨⟨hdelete, (htrial Blocked.store _ (.delete [97]) Blocked.workspace _ _ Blocked.rooted
      (Prod.ext (Prod.ext hdelete rfl) rfl)).2.1⟩,
    ⟨rfl, (hstore Blocked.memory _ [] [1] Blocked.workspace _ _ rfl).2⟩,
    ⟨rfl, (hfile Blocked.memory _ [97] ⟨[120]⟩ true Blocked.workspace _ _ rfl).1⟩,
    ⟨hrun, (hmove Blocked.store ⟨⟨[114]⟩, 0⟩ _ (.memory Blocked.memory) _ [97] Blocked.workspace _ _
      Blocked.rooted rfl trivial Blocked.single (Prod.ext (Prod.ext hrun rfl) rfl)).2⟩⟩

open Blocked in
/-- A file that a memory store cannot remove: storing it fails, and its content is there and counted. -/
theorem failed_operation_counted_blocked :
    ((AnyStore.memory memory).storeFile [97] ⟨[114, 47, 54, 49, 46, 50]⟩ true workspace).1 =
      (.error (.file .permissionDenied), .memory ⟨.plain, .ofDigest id, [([97], ⟨[7], 1⟩)], ⟨0, 1, 1⟩⟩) := by
  rfl

end ContentStore
