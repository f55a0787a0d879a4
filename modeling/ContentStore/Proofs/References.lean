import ContentStore.Proofs.Found

/-!
# Taking and dropping references

A reference is taken or dropped by one change of the tree, which renames or removes the file of the chunk,
or nothing is changed: `acquire_run`, `release_run`.
-/

namespace ContentStore

/-- A file can be put at a path, and has come there from a key. -/
structure Moved (t : Tree) (old : Key) (target : Path) (content : Bytes) (u : Tree) : Prop where
  admits : t.Admits target
  kinds : u.kind? = Function.update (Function.update t.kind? old none) target.key (some (.file content))

variable [FileSystem]

open FileSystem (shut Moves)

namespace Mode

variable {m : Mode} {l : Location} {e : Entry} {w : Workspace} {file content : Bytes}

inductive AcquireRun (m : Mode) (l : Location) (e : Entry) (content : Bytes) (w : Workspace) :
    Except StoreError Nat × Workspace → Prop
  | plain (h : m = .plain) : AcquireRun m l e content w (.ok 1, w)
  | refused (h : m = .counted) (f : Fault)
      (hno : ¬ (w.tree.Admits e.path ∧ w.tree.Admits (m.path l (e.count + 1)) ∧
        Moves e.path.key (m.path l (e.count + 1)).key)) :
      AcquireRun m l e content w (.error (.file f), w)
  | renamed (h : m = .counted) (v : Workspace)
      (after : w.After [.rename e.path.key (m.path l (e.count + 1)).key] v) (hold : w.tree.Admits e.path)
      (moved : Moved w.tree e.path.key (m.path l (e.count + 1)) content v.tree) :
      AcquireRun m l e content w (.ok (e.count + 1), v)

theorem acquire_run (hfile : w.tree.kind? e.path.key = some (.file content)) :
    AcquireRun m l e content w ((m.acquire l e).run w) := by
  unfold acquire
  cases hm : m with
  | plain => exact .plain rfl
  | counted =>
    dsimp only
    rw [Action.run_bind, Action.run_file]
    rcases Request.rename_spec hfile (Mode.counted.path l (e.count + 1)) with
      ⟨f, hno, -, hrun⟩ | ⟨hold, hadmits, -, -, hrun, hkinds⟩
    · rw [hrun]
      exact .refused rfl f hno
    · rw [hrun]
      exact .renamed rfl _ (.report (.commits _ _) _) hold ⟨hadmits, hkinds⟩

inductive ReleaseRun (m : Mode) (l : Location) (e : Entry) (content : Bytes) (w : Workspace) :
    Except StoreError Nat × Workspace → Prop
  | refused (f : Fault) (h : m = .counted) (hcount : 1 < e.count)
      (hno : ¬ (w.tree.Admits e.path ∧ w.tree.Admits (m.path l (e.count - 1)) ∧
        Moves e.path.key (m.path l (e.count - 1)).key)) :
      ReleaseRun m l e content w (.error (.file f), w)
  | renamed (h : m = .counted) (hcount : 1 < e.count) (v : Workspace)
      (after : w.After [.rename e.path.key (m.path l (e.count - 1)).key] v) (hold : w.tree.Admits e.path)
      (moved : Moved w.tree e.path.key (m.path l (e.count - 1)) content v.tree) :
      ReleaseRun m l e content w (.ok (e.count - 1), v)
  | kept (f : Fault) (hcount : ¬ (m = .counted ∧ 1 < e.count))
      (hno : shut e.path.key.tail = false → w.tree.stat e.path ≠ .ok (.file content)) :
      ReleaseRun m l e content w (.error (.file f), w)
  | removed (hcount : ¬ (m = .counted ∧ 1 < e.count)) (v : Workspace)
      (after : w.After [.remove e.path.key] v) (hold : w.tree.Admits e.path)
      (kinds : v.tree.kind? = Function.update w.tree.kind? e.path.key none) :
      ReleaseRun m l e content w (.ok 0, v)

theorem release_run (hfile : w.tree.kind? e.path.key = some (.file content)) :
    ReleaseRun m l e content w ((m.release l e).run w) := by
  unfold release
  by_cases hcount : m = .counted ∧ 1 < e.count
  · rw [if_pos (by simpa [isCounted] using hcount)]
    rw [Action.run_bind, Action.run_file]
    rcases Request.rename_spec hfile (m.path l (e.count - 1)) with
      ⟨f, hno, -, hrun⟩ | ⟨hold, hadmits, -, -, hrun, hkinds⟩
    · rw [hrun]
      exact .refused f hcount.1 hcount.2 hno
    · rw [hrun]
      exact .renamed hcount.1 hcount.2 _ (.report (.commits _ _) _) hold ⟨hadmits, hkinds⟩
  · rw [if_neg (by simpa [isCounted] using hcount)]
    rw [Action.run_bind, Action.run_file]
    rcases Request.unlink_spec e.path w with ⟨f, hno, hrun⟩ | ⟨c, hold, -, -, hrun, hkinds⟩
    · rw [hrun]
      exact .kept f hcount fun hopen hstat => hno ⟨Tree.admits_of_stat hstat, ⟨content, hfile⟩, hopen⟩
    · rw [hrun]
      exact .removed hcount _ (.report (.commits _ _) _) hold hkinds

end Mode

end ContentStore
