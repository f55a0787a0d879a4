import ContentStore.Proofs.Alone
import ContentStore.Proofs.Calls
import ContentStore.Proofs.Unharmed

/-!
# What a store answers

A file store answers each question about a chunk from the entry that it finds and from the file at its path:
`FileStore.has_entry` and so on, together `FileStore.answer_congr`.  What it finds is what is held under the name
(`FileStore.held_found`), so that it answers from what is held, as a memory store does: `FileStore.has_answer` and so
on, `MemoryStore.get_answer` and so on.  The content of a chunk can be read if the path that it is found by can be
opened (`FileStore.Legible`), as it can be if the store has its root for itself: `FileStore.Alone.legible`.
-/

namespace ContentStore

namespace Attempt

variable {α : Type}

theorem outcome_answer (op : Operation) (name : Bytes) (r : Except StoreError α) (w : Workspace) :
    (outcome op name r w).1 = r.toOption := by
  cases r <;> rfl

theorem reported_answer (op : Operation) (name : Bytes) (a : Attempt α) (w : Workspace) :
    (a.reported op name w).1 = (a.run w).1.toOption :=
  outcome_answer op name (a.run w).1 (a.run w).2

end Attempt

theorem FileStore.getToFile_answer [FileSystem] (s : FileStore) (name : Bytes) (target : Path) (w : Workspace) :
    (ChunkStore.getToFile s name target w).1 = ((s.getToFile name target).run w).1.toOption.isSome :=
  congrArg Option.isSome (Attempt.reported_answer .getToFile name (s.getToFile name target) w)

/-! ### What is found -/

namespace FileStore

variable {s : FileStore} {l : Layout} {name : Bytes} {e : Entry} {t : Tree} {w v : Workspace}

def found? (s : FileStore) (t : Tree) (name : Bytes) : Option Entry :=
  match s.layout? with
  | none => none
  | some l =>
    if name = [] then none
    else match s.mode.find (l.place name) t with
      | .ok (some e) => some e
      | _ => none

theorem found?_eq_some_iff (hl : s.layout? = some l) (hname : name ≠ []) :
    s.found? t name = some e ↔ s.mode.find (l.place name) t = .ok (some e) := by
  rw [found?, hl]
  dsimp only
  rw [if_neg hname]
  rcases s.mode.find (l.place name) t with f | _ | e' <;> simp

theorem find_entry (s : FileStore) (name : Bytes) (w : Workspace) :
    ((s.find name).run w).1.toOption.bind Prod.snd = s.found? w.tree name := by
  unfold found?
  rcases hl : s.layout? with _ | l
  · rw [find, Action.run_bind, run_uninitialized hl]
    rfl
  · rw [find_eq hl]
    by_cases hname : name = []
    · rw [if_pos hname]
      dsimp only
      rw [if_pos hname]
      rfl
    · rw [if_neg hname]
      dsimp only
      rw [if_neg hname]
      rcases s.mode.find (l.place name) w.tree with f | _ | e <;> rfl

theorem require_entry (s : FileStore) (name : Bytes) (w : Workspace) :
    ((s.require name).run w).1.toOption.map Prod.snd = s.found? w.tree name := by
  rw [← find_entry, require, Action.run_bind]
  rcases (s.find name).run w with ⟨f | ⟨place, _ | e⟩, v⟩ <;> rfl

/-- What can be read of the file that a store finds under a name. -/
def read? (s : FileStore) (t : Tree) (name : Bytes) : Option Bytes :=
  (s.found? t name).bind fun e => (t.read e.path).toOption

theorem get_entry (s : FileStore) (name : Bytes) (w : Workspace) :
    ((s.get name).run w).1.toOption = s.read? w.tree name := by
  rw [get, Action.run_bind, read?, ← require_entry]
  have hsame := s.require_same name w
  rcases hr : (s.require name).run w with ⟨f | ⟨place, e⟩, v⟩
  · rfl
  · obtain rfl : v = w := (congrArg Prod.snd hr).symm.trans hsame
    dsimp only
    rw [Action.run_file, Action.run_ask]
    show _ = (v.tree.read e.path).toOption
    rcases v.tree.read e.path with f | content <;> rfl

theorem validate_eq_get (s : FileStore) (name : Bytes) (w : Workspace) :
    ((s.validate name).run w).1.toOption =
      ((s.get name).run w).1.toOption.map fun content => decide (s.hasher.digestFile content = name) := by
  rw [validate, get, Action.run_bind, Action.run_bind]
  rcases (s.require name).run w with ⟨f | ⟨place, e⟩, v⟩
  · rfl
  · dsimp only
    rw [Action.run_bind, Action.run_file, Action.run_ask]
    rcases v.tree.read e.path with f | content <;> rfl

/-! ### What is answered -/

variable [FileSystem]

theorem has_found (s : FileStore) (name : Bytes) (w : Workspace) :
    (ChunkStore.has s name w).1 = (s.found? w.tree name).isSome := by
  have hanswer := Attempt.reported_answer .has name (s.find name) w
  simp only [ChunkStore.has, Action.bind_apply]
  rw [hanswer, ← find_entry]
  rcases ((s.find name).run w).1.toOption with _ | ⟨place, _ | e⟩ <;> rfl

theorem references_found (s : FileStore) (name : Bytes) (w : Workspace) :
    (ChunkStore.references s name w).1 = ((s.found? w.tree name).map Entry.count).getD 0 := by
  have hanswer := Attempt.reported_answer .refCount name (s.find name) w
  simp only [ChunkStore.references, Action.bind_apply]
  rw [hanswer, ← find_entry]
  rcases ((s.find name).run w).1.toOption with _ | ⟨place, _ | e⟩ <;> rfl

theorem chunkSize_found (s : FileStore) (name : Bytes) (w : Workspace) :
    (ChunkStore.chunkSize s name w).1 = ((s.found? w.tree name).map Entry.size).getD 0 := by
  have hanswer := Attempt.reported_answer .sizeOf name (s.require name) w
  simp only [ChunkStore.chunkSize, Action.bind_apply]
  rw [hanswer, ← require_entry]
  rcases ((s.require name).run w).1.toOption with _ | ⟨place, e⟩ <;> rfl

theorem get_read (s : FileStore) (name : Bytes) (w : Workspace) :
    (ChunkStore.get s name w).1 = (s.read? w.tree name).getD [] := by
  have hanswer := Attempt.reported_answer .get name (s.get name) w
  simp only [ChunkStore.get, Action.bind_apply]
  rw [hanswer, get_entry]
  rfl

theorem validate_read (s : FileStore) (name : Bytes) (w : Workspace) :
    (ChunkStore.validate s name w).1 =
      ((s.read? w.tree name).map fun content => decide (s.hasher.digestFile content = name)).getD false := by
  have hanswer := Attempt.reported_answer .validate name (s.validate name) w
  simp only [ChunkStore.validate, Action.bind_apply]
  rw [hanswer, validate_eq_get, get_entry]
  rfl

omit [FileSystem] in
/-- A chunk is found exactly if it is held, with its references and with the size of its content. -/
theorem held_found (hrooted : s.Rooted) (name : Bytes) (t : Tree) :
    (s.found? t name = none ∧ s.held? t name = none) ∨
    ∃ e content, s.found? t name = some e ∧ s.held? t name = some ⟨content, e.count⟩ ∧ e.size = content.length ∧
      t.kind? e.path.key = some (.file content) := by
  rcases hl : s.layout? with _ | l
  · exact Or.inl (by simp [found?, held?, hl])
  · by_cases hname : name = []
    · exact Or.inl (by simp [found?, held?, hl, hname])
    · rcases hfind : s.mode.find (l.place name) t with f | _ | e
      · exact Or.inl (by simp [found?, held?, hl, hname, hfind])
      · exact Or.inl (by simp [found?, held?, hl, hname, hfind])
      · obtain ⟨file, content, found⟩ :=
          Mode.find_eq_some (l.dir_place_ne_blank (hrooted l hl) name) (l.isStem_place hname) hfind
        exact Or.inr ⟨e, content, (found?_eq_some_iff hl hname).mpr hfind, held?_of_found hl hname hfind found,
          found.size, by rw [found.key (l.isStem_place hname), found.kind]⟩

theorem has_answer (hrooted : s.Rooted) (name : Bytes) (w : Workspace) :
    (ChunkStore.has s name w).1 = (s.held? w.tree name).isSome := by
  rw [has_found]
  rcases held_found hrooted name w.tree with ⟨hfound, hheld⟩ | ⟨e, content, hfound, hheld, -⟩ <;>
    rw [hfound, hheld] <;> rfl

theorem references_answer (hrooted : s.Rooted) (name : Bytes) (w : Workspace) :
    (ChunkStore.references s name w).1 = ((s.held? w.tree name).map Held.count).getD 0 := by
  rw [references_found]
  rcases held_found hrooted name w.tree with ⟨hfound, hheld⟩ | ⟨e, content, hfound, hheld, -⟩ <;>
    rw [hfound, hheld] <;> rfl

theorem chunkSize_answer (hrooted : s.Rooted) (name : Bytes) (w : Workspace) : (ChunkStore.chunkSize s name w).1 =
    ((s.held? w.tree name).map fun held => held.content.length).getD 0 := by
  rw [chunkSize_found]
  rcases held_found hrooted name w.tree with ⟨hfound, hheld⟩ | ⟨e, content, hfound, hheld, hsize, -⟩ <;>
    rw [hfound, hheld]
  · rfl
  · exact hsize

/-! ### What a chunk holds -/

/-- The file that the store finds for a chunk can be opened by the path that it is found by. -/
def Legible (s : FileStore) (t : Tree) (name : Bytes) : Prop :=
  ∀ l e, s.layout? = some l → name ≠ [] → s.mode.find (l.place name) t = .ok (some e) →
    ∃ content, t.stat e.path = .ok (.file content)

omit [FileSystem] in
theorem legible_plain (hrooted : s.Rooted) (hplain : s.mode = .plain) (name : Bytes) (t : Tree) :
    s.Legible t name := by
  intro l e hl hname hfind
  rw [hplain] at hfind
  obtain ⟨content, -, hstat⟩ :=
    Mode.find_plain_eq_some (l.dir_place_ne_blank (hrooted l hl) name) (l.isStem_place hname) hfind
  exact ⟨content, hstat⟩

omit [FileSystem] in
theorem Legible.read {content : Bytes} (h : s.Legible t name) (hfound : s.found? t name = some e)
    (hkind : t.kind? e.path.key = some (.file content)) : t.read e.path = .ok content := by
  rcases hl : s.layout? with _ | l
  · simp [found?, hl] at hfound
  · have hname : name ≠ [] := by
      rintro rfl
      simp [found?, hl] at hfound
    obtain ⟨old, hstat⟩ := h l e hl hname ((found?_eq_some_iff hl hname).mp hfound)
    rw [kind?_of_stat hstat] at hkind
    cases hkind
    exact Tree.read_eq_ok_iff.mpr hstat

section

variable (hrooted : s.Rooted) (hlegible : s.Legible w.tree name)
include hrooted hlegible

omit [FileSystem] in
theorem read?_legible : s.read? w.tree name = (s.held? w.tree name).map Held.content := by
  rcases held_found hrooted name w.tree with ⟨hfound, hheld⟩ | ⟨e, content, hfound, hheld, -, hkind⟩
  · rw [read?, hfound, hheld]
    rfl
  · rw [read?, hfound, hheld, Option.bind_some, hlegible.read hfound hkind]
    rfl

theorem get_answer :
    (ChunkStore.get s name w).1 = ((s.held? w.tree name).map Held.content).getD [] := by
  rw [get_read, read?_legible hrooted hlegible]

theorem validate_answer : (ChunkStore.validate s name w).1 =
    ((s.held? w.tree name).map fun held => decide (s.hasher.digestFile held.content = name)).getD false := by
  rw [validate_read, read?_legible hrooted hlegible, Option.map_map]
  rfl

end

/-! ### From what is found -/

section

variable {old : Bytes} (hl : s.layout? = some l) (hname : name ≠ [])
include hl hname

theorem absent_of_find (hfind : s.mode.find (l.place name) w.tree = .ok none) :
    (ChunkStore.references s name w).1 = 0 ∧ (ChunkStore.has s name w).1 = false := by
  have hfound : s.found? w.tree name = none := by simp [found?, hl, hname, hfind]
  rw [references_found, has_found, hfound]
  exact ⟨rfl, rfl⟩

variable (hfind : s.mode.find (l.place name) w.tree = .ok (some e))
include hfind

theorem chunkSize_of_find : (ChunkStore.chunkSize s name w).1 = e.size := by
  rw [chunkSize_found, (found?_eq_some_iff hl hname).mpr hfind]
  rfl

theorem references_of_find : (ChunkStore.references s name w).1 = e.count := by
  rw [references_found, (found?_eq_some_iff hl hname).mpr hfind]
  rfl

theorem get_of_stat (hstat : w.tree.stat e.path = .ok (.file old)) : (ChunkStore.get s name w).1 = old := by
  rw [get_read, read?, (found?_eq_some_iff hl hname).mpr hfind, Option.bind_some, Tree.read_eq_ok_iff.mpr hstat]
  rfl

end

end FileStore

variable [FileSystem]

/-! ### A store that has its root for itself -/

namespace FileStore.Alone

variable {s : FileStore} {l : Layout} {name : Bytes} {t : Tree}

theorem rooted (h : Alone s l t) : s.Rooted := by
  intro k hk
  rw [h.layout] at hk
  cases hk
  exact h.root_ne_blank

theorem legible (h : Alone s l t) (hspells : name ≠ [] → s.mode.Spells (l.place name)) :
    s.Legible t name := by
  intro k e hk hname hfind
  rw [h.layout] at hk
  cases hk
  rcases h.find hname (hspells hname) with ⟨-, hnone⟩ | ⟨e', file, content, -, hfind', -, hstat⟩
  · rw [hnone] at hfind
    cases hfind
  · rw [hfind'] at hfind
    cases hfind
    exact ⟨content, hstat⟩

end FileStore.Alone

namespace MemoryStore

variable (m : MemoryStore) (name : Bytes) (w : Workspace)

theorem has_answer : (ChunkStore.has m name w).1 = (m.find? name).isSome := rfl

theorem references_answer :
    (ChunkStore.references m name w).1 = ((m.find? name).map Held.count).getD 0 := by
  simp only [ChunkStore.references]
  cases m.find? name <;> rfl

theorem chunkSize_answer :
    (ChunkStore.chunkSize m name w).1 = ((m.find? name).map fun held => held.content.length).getD 0 := by
  simp only [ChunkStore.chunkSize]
  cases m.find? name <;> rfl

theorem get_answer : (ChunkStore.get m name w).1 = ((m.find? name).map Held.content).getD [] := by
  have hanswer := Attempt.outcome_answer .get name (m.get name) w
  simp only [ChunkStore.get, Action.bind_apply]
  rw [hanswer, get]
  cases m.find? name <;> rfl

theorem validate_answer : (ChunkStore.validate m name w).1 =
    ((m.find? name).map fun held => m.hasher.verify held.content name).getD false := by
  simp only [ChunkStore.validate]
  cases m.find? name <;> rfl

theorem getToFile_answer (target : Path) :
    (ChunkStore.getToFile m name target w).1 = ((m.getToFile name target).run w).1.toOption.isSome :=
  congrArg Option.isSome (Attempt.reported_answer .getToFile name (m.getToFile name target) w)

end MemoryStore

end ContentStore
