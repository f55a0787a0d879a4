import ContentStore.Tree.Basic

/-!
# What the shape of a tree does not settle

A file that can be read need not go away when it is told to, and need not be written.  The file
system may have shut its directory, by the mode of the directory or because the volume can only be
read, and no rename leads from one volume to another.  This does not change while anything runs, so
it is no part of a tree: whatever makes, writes, renames or removes an entry works in a `FileSystem`,
and where none is given in one that refuses nothing.
That a file cannot be read, or a directory cannot be searched, is left out.
-/

namespace ContentStore

/-- What a file system refuses, whatever the shape of its tree. -/
class FileSystem where
  /-- Whether nothing can be made, renamed or removed in the directory with a key.  What it lists can
  still be read. -/
  shut : Key → Bool
  /-- Whether the files that the directory with a key lists can only be read. -/
  readOnly : Key → Bool
  /-- The volume that the directory with a key lies on. -/
  volume : Key → Nat

namespace FileSystem

/-- One volume, and no directory is shut. -/
instance (priority := low) lenient : FileSystem := ⟨fun _ => false, fun _ => false, fun _ => 0⟩

/-- One volume, on which a single directory is shut. -/
@[reducible] def locking (d : Key) : FileSystem := ⟨fun k => k == d, fun _ => false, fun _ => 0⟩

variable [FileSystem]

/-- Entries can be moved from one directory to another. -/
def Between (d e : Key) : Prop := shut d = false ∧ shut e = false ∧ volume d = volume e

/-- An entry can be moved from one key to another.  One that takes its own place is not moved. -/
def Moves (old new : Key) : Prop := old = new ∨ Between old.tail new.tail

/-- Below a directory nothing is shut, and no other volume begins. -/
def Free (d : Key) : Prop := ∀ k, d <:+ k → shut k = false ∧ volume k = volume d

omit [FileSystem] in
theorem free_lenient (d : Key) : @Free lenient d := fun _ _ => ⟨rfl, rfl⟩

theorem moves_within {d : Key} (hopen : shut d = false) (x y : Bytes) : Moves (x :: d) (y :: d) :=
  Or.inr ⟨hopen, hopen, rfl⟩

theorem moves_iff {old new : Key} (hopen : shut old.tail = false) :
    Moves old new ↔ Between old.tail new.tail := by
  constructor
  · rintro (rfl | h)
    · exact ⟨hopen, hopen, rfl⟩
    · exact h
  · exact Or.inr

theorem Free.below {d k : Key} (h : Free d) (hk : d <:+ k) : Free k := fun j hj =>
  ⟨(h j (hk.trans hj)).1, (h j (hk.trans hj)).2.trans (h k hk).2.symm⟩

end FileSystem

end ContentStore
