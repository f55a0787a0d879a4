import ContentStore.Proofs.Effect
import ContentStore.Store.Any

/-!
# What a failed operation leaves behind

An operation that fails has changed no file, and one that is refused has changed nothing at all; only the
directories that were made for a chunk may stay when the file system gives up half way.
-/

namespace ContentStore

/-- No file has changed, and after a refusal nothing has; a fault may leave directories on the way of a
path. -/
structure Unharmed (p : Path) (e : StoreError) (w v : Workspace) : Prop where
  grown : Grown p w.tree v.tree
  refusal : e.isFault = false → v.tree = w.tree

namespace Unharmed

variable {p : Path} {e : StoreError} {v w : Workspace}

theorem refl (p : Path) (e : StoreError) (w : Workspace) : Unharmed p e w w := ⟨.refl _ _, fun _ => rfl⟩

theorem of_fault (h : e.isFault = true) (hgrown : Grown p w.tree v.tree) : Unharmed p e w v :=
  ⟨hgrown, fun h' => by rw [h] at h'; cases h'⟩

end Unharmed

namespace FileStore

variable {s s' : FileStore} {l : Layout} {name content : Bytes} {w v : Workspace} {err : StoreError}

/-- The root of a store is never the blank path, which `prepareRoot` refuses. -/
def Rooted (s : FileStore) : Prop := ∀ l, s.layout? = some l → l.root ≠ .blank

/-! ### Asking a store without a root -/

theorem run_uninitialized (hl : s.layout? = none) (w : Workspace) :
    (liftM s.layout : Attempt Layout).run w = (.error .notInitialized, w) := by
  rw [layout, hl]
  rfl

theorem find_uninitialized (hl : s.layout? = none) (name : Bytes) (w : Workspace) :
    (s.find name).run w = (.error .notInitialized, w) := by
  rw [find, Action.run_bind, run_uninitialized hl]

theorem require_uninitialized (hl : s.layout? = none) (name : Bytes) (w : Workspace) :
    (s.require name).run w = (.error .notInitialized, w) := by
  rw [require, Action.run_bind, find_uninitialized hl]

theorem get_uninitialized (hl : s.layout? = none) (name : Bytes) (w : Workspace) :
    (s.get name).run w = (.error .notInitialized, w) := by
  rw [get, Action.run_bind, require_uninitialized hl]

theorem validate_uninitialized (hl : s.layout? = none) (name : Bytes) (w : Workspace) :
    (s.validate name).run w = (.error .notInitialized, w) := by
  rw [validate, Action.run_bind, require_uninitialized hl]

theorem moveToSelf_uninitialized (hl : s.layout? = none) (name : Bytes) (w : Workspace) :
    (s.moveToSelf name).run w = (.error .notInitialized, w) := by
  rw [moveToSelf, Action.run_bind, require_uninitialized hl]

/-! ### Looking at a chunk changes nothing -/

theorem find_same (s : FileStore) (name : Bytes) (w : Workspace) : ((s.find name).run w).2 = w := by
  rcases hl : s.layout? with _ | l
  · rw [find, Action.run_bind, run_uninitialized hl]
  · rw [find_eq hl]
    split
    · rfl
    · rcases s.mode.find (l.place name) w.tree with f | e <;> rfl

theorem require_same (s : FileStore) (name : Bytes) (w : Workspace) : ((s.require name).run w).2 = w := by
  unfold require
  rw [Action.run_bind]
  have hfind := s.find_same name w
  rcases hrun : (s.find name).run w with ⟨e | ⟨location, _ | e⟩, v⟩ <;> rw [hrun] at hfind <;> exact hfind

theorem get_same (s : FileStore) (name : Bytes) (w : Workspace) : ((s.get name).run w).2 = w := by
  unfold get
  rw [Action.run_bind]
  have hrequire := s.require_same name w
  rcases hrun : (s.require name).run w with ⟨e | ⟨location, e⟩, v⟩
  · rwa [hrun] at hrequire
  · rw [hrun] at hrequire
    obtain rfl : v = w := hrequire
    dsimp only
    rw [Action.run_file, Action.run_ask]
    rcases v.tree.read e.path with f | content <;> rfl

theorem validate_same (s : FileStore) (name : Bytes) (w : Workspace) :
    ((s.validate name).run w).2 = w := by
  unfold validate
  rw [Action.run_bind]
  have hrequire := s.require_same name w
  rcases hrun : (s.require name).run w with ⟨e | ⟨location, e⟩, v⟩
  · rwa [hrun] at hrequire
  · rw [hrun] at hrequire
    obtain rfl : v = w := hrequire
    dsimp only
    rw [Action.run_bind, Action.run_file, Action.run_ask]
    rcases v.tree.read e.path with f | content <;> rfl

/-! ### Changing a store without a root -/

variable [FileSystem]

theorem store_uninitialized (hl : s.layout? = none) (name content : Bytes) (w : Workspace) :
    (s.store name content).run w = (.error .notInitialized, w) := by
  rw [store, Action.run_bind, run_uninitialized hl]

theorem storeFile_uninitialized (hl : s.layout? = none) (name : Bytes) (source : Path) (asked : Bool)
    (w : Workspace) : (s.storeFile name source asked).run w = (.error .notInitialized, w) := by
  rw [storeFile, Action.run_bind, run_uninitialized hl]

theorem delete_uninitialized (hl : s.layout? = none) (name : Bytes) (w : Workspace) :
    (s.delete name).run w = (.error .notInitialized, w) := by
  rw [delete, Action.run_bind, run_uninitialized hl]

theorem locate_uninitialized (hl : s.layout? = none) (name : Bytes) (create : Bool) (w : Workspace) :
    (s.locate name create).run w = (.error .notInitialized, w) := by
  rw [locate, Action.run_bind, run_uninitialized hl]

theorem clear_uninitialized (hl : s.layout? = none) (w : Workspace) :
    s.clear w = ((.error .notInitialized, s), w) := by
  unfold clear
  rw [hl]
  rfl

theorem getToFile_uninitialized (hl : s.layout? = none) (name : Bytes) (target : Path) (w : Workspace) :
    (s.getToFile name target).run w = (.error .notInitialized, w) := by
  rw [getToFile, Action.run_bind, require_uninitialized hl]

theorem moveTo_uninitialized {τ : Type} [Sink τ] (hl : s.layout? = none) (name : Bytes) (sink : τ)
    (w : Workspace) : s.moveTo name sink w = ((.error .notInitialized, sink), w) := by
  unfold moveTo
  simp only [Action.bind_apply]
  rw [require_uninitialized hl]
  rfl

/-! ### Stores with a root -/

theorem acquire_error (hname : name ≠ []) (hroot : l.root ≠ .blank) {e : Entry}
    (hfind : s.mode.find (l.place name) w.tree = .ok (some e))
    (h : (s.mode.acquire (l.place name) e).run w = (.error err, v)) : err.isFault = true ∧ v = w := by
  have hs := l.isStem_place hname
  obtain ⟨file, old, found⟩ := Mode.find_eq_some (l.dir_place_ne_blank hroot name) hs hfind
  have hrun := Mode.acquire_run (m := s.mode) (l := l.place name)
    (by rw [found.key hs]; exact found.kind)
  rw [h] at hrun
  cases hrun
  exact ⟨rfl, rfl⟩

theorem release_error (hname : name ≠ []) (hroot : l.root ≠ .blank) {e : Entry}
    (hfind : s.mode.find (l.place name) w.tree = .ok (some e))
    (h : (s.mode.release (l.place name) e).run w = (.error err, v)) : err.isFault = true ∧ v = w := by
  have hs := l.isStem_place hname
  obtain ⟨file, old, found⟩ := Mode.find_eq_some (l.dir_place_ne_blank hroot name) hs hfind
  have hrun := Mode.release_run (m := s.mode) (l := l.place name)
    (by rw [found.key hs]; exact found.kind)
  rw [h] at hrun
  cases hrun <;> exact ⟨rfl, rfl⟩

theorem store_error (hl : s.layout? = some l) (hroot : l.root ≠ .blank)
    (h : (s.store name content).run w = (.error err, v)) : Unharmed (l.place name).dir err w v := by
  have hrun := store_run hl name content w
  rw [h] at hrun
  cases hrun with
  | emptyName | emptyContent | unreadable | full => exact .refl _ _ _
  | unshared hname hcontent e hfind err v hacquire =>
    obtain ⟨-, rfl⟩ := acquire_error hname hroot hfind hacquire
    exact .refl _ _ _
  | noDir hname hcontent hfind hroom f v hdirs => exact .of_fault rfl (makeDirs_grown hdirs)
  | unwritten hname hcontent hfind hroom u hdirs err v hwrite =>
    have hblank := l.dir_place_ne_blank hroot name
    rcases Staging.write_spec hblank (s.mode.path (l.place name) 1) content u with
      ⟨e, cs, -, hfault, herr, hsame⟩ | ⟨hidden, hok, -⟩
    · rw [hwrite] at herr
      cases herr
      exact .of_fault hfault ((makeDirs_grown hdirs).trans (.of_eq _ hsame))
    · rw [hwrite] at hok
      cases hok

theorem storeFile_error (hl : s.layout? = some l) (hroot : l.root ≠ .blank) {source : Path} {asked : Bool}
    (h : (s.storeFile name source asked).run w = (.error err, v)) :
    Unharmed (l.place name).dir err w v := by
  have hrun := storeFile_run hl name source asked w
  rw [h] at hrun
  cases hrun with
  | emptyName | noSource | emptyContent | unreadable | full => exact .refl _ _ _
  | unshared hname content hsource hcontent e hfind err v hacquire =>
    obtain ⟨-, rfl⟩ := acquire_error hname hroot hfind hacquire
    exact .refl _ _ _
  | noDir hname content hsource hcontent hfind hroom f v hdirs =>
    exact .of_fault rfl (makeDirs_grown hdirs)
  | uncopied hname content hsource hcontent hfind hroom u hdirs hasked err v hcopy =>
    have hblank := l.dir_place_ne_blank hroot name
    rcases Staging.copy_spec hblank source (s.mode.path (l.place name) 1) u with
      ⟨e, cs, -, hfault, herr, hsame⟩ | ⟨c, hidden, -, hok, -⟩
    · rw [hcopy] at herr
      cases herr
      exact .of_fault hfault ((makeDirs_grown hdirs).trans (.of_eq _ hsame))
    · rw [hcopy] at hok
      cases hok

theorem delete_error (hl : s.layout? = some l) (hroot : l.root ≠ .blank)
    (h : (s.delete name).run w = (.error err, v)) : v = w := by
  have hrun := delete_run hl name w
  rw [h] at hrun
  cases hrun with
  | unreadable => rfl
  | refused hname e hfind err v hrelease => exact (release_error hname hroot hfind hrelease).2

/-! ### Reading into a file -/

theorem getToFile_error (hl : s.layout? = some l) {target : Path} (p : Path)
    (h : (s.getToFile name target).run w = (.error err, v)) : Unharmed p err w v := by
  have hrun := getToFile_run hl name target w
  rw [h] at hrun
  cases hrun with
  | missing err hrequire => exact .refl _ _ _
  | uncopied hname e hfind hsame err v hcopy =>
    rcases Staging.copy_spec (stagingDir_ne_blank target) e.path target w with
      ⟨e, cs, -, hfault, herr, hsame⟩ | ⟨c, hidden, -, hok, -⟩
    · rw [hcopy] at herr
      cases herr
      exact .of_fault hfault (.of_eq _ hsame)
    · rw [hcopy] at hok
      cases hok

end FileStore

end ContentStore
