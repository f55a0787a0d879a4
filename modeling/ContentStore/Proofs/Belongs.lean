import ContentStore.Proofs.Effect
import ContentStore.Proofs.Handover

/-!
# Whose file a key is

A key below a root belongs to a chunk if a store on that root, of either mode and with any number of
levels, can have the file of the chunk there: `Belongs`.

* A key belongs to one chunk, and below one of several roots that lie apart: `Belongs.name_eq`,
  `Scattered.name_eq`.
* The file that a store finds for a chunk belongs to it: `Mode.Found.belongs`.
-/

namespace ContentStore

/-- A store with its root at a key can have the file of the chunk with that name at another. -/
def Belongs (root : Key) (name : Bytes) (k : Key) : Prop :=
  name ≠ [] ∧ ∃ (m : Mode) (l : Layout) (file : Bytes), l.root.key = root ∧
    m.Names (l.place name).stem file ∧ k = file :: (l.place name).dir.key

/-- Of any two keys neither lies below the other, unless they are the same. -/
def Scattered (R : Key → Prop) : Prop := ∀ d e, R d → R e → d = e ∨ d.Apart e

theorem Layout.belongs (l : Layout) {m : Mode} {name file : Bytes} (hname : name ≠ [])
    (hfile : m.Names (l.place name).stem file) :
    Belongs l.root.key name (file :: (l.place name).dir.key) :=
  ⟨hname, m, l, file, rfl, hfile, rfl⟩

namespace Belongs

variable {d e k : Key} {a b : Bytes}

theorem suffix (h : Belongs d a k) : d <:+ k := by
  obtain ⟨-, m, l, file, rfl, -, rfl⟩ := h
  exact FileStore.root_suffix_file l a file

theorem ne (h : Belongs d a k) : k ≠ d := by
  obtain ⟨-, m, l, file, rfl, -, rfl⟩ := h
  exact l.file_ne_root a file

/-- **A key belongs to one chunk**, whatever the modes and the numbers of levels. -/
theorem name_eq (h : Belongs d a k) (h' : Belongs d b k) : a = b := by
  obtain ⟨ha, m, l, file, rfl, hfile, rfl⟩ := h
  obtain ⟨hb, m', l', file', hroot, hfile', hk⟩ := h'
  obtain ⟨rfl, hdir⟩ := List.cons.inj hk
  rw [l.key_dir_place, l'.key_dir_place, hroot] at hdir
  exact Layout.place_injective (List.append_cancel_right hdir)
    (hfile.inj (l.isStem_place ha) (l'.isStem_place hb) hfile').2

end Belongs

theorem Scattered.name_eq {R : Key → Prop} (h : Scattered R) {d e k : Key} {a b : Bytes} (hd : R d)
    (he : R e) (ha : Belongs d a k) (hb : Belongs e b k) : a = b := by
  rcases h d e hd he with rfl | hapart
  · exact ha.name_eq hb
  · exact absurd hb.suffix (hapart.not_suffix ha.suffix)

/-- The file that a store finds for a chunk belongs to it. -/
theorem Mode.Found.belongs {m : Mode} {l : Layout} {name file content : Bytes} {t : Tree} {e : Entry}
    (h : m.Found (l.place name) t e file content) (hname : name ≠ []) :
    Belongs l.root.key name (file :: (l.place name).dir.key) :=
  l.belongs hname h.isFile.names

end ContentStore
