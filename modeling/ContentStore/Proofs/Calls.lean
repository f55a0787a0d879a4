import ContentStore.Proofs.Upkeep
import ContentStore.Store.Any

/-!
# What a call does

Whatever a store is asked, it stays in order and leaves the stores beside it in order: `call_worked`.  The
paths that a call is given have to lead outside the roots, and a reference that it takes has to be one that
can be counted.
-/

namespace ContentStore

open Decimal (wordLimit)

namespace Call

def paths : Call → List Path
  | getToFile _ target => [target]
  | storeFile _ source _ => [source]
  | _ => []

def name? : Call → Option Bytes
  | get name | getToFile name _ | store name _ | storeFile name _ _ | delete name | has name | validate name
  | chunkSize name | references name => some name
  | _ => none

def source? : Call → Option Path
  | storeFile _ source _ => some source
  | _ => none

/-- The paths of the files that a call may change. -/
def alters : Call → List Path
  | getToFile _ target => [target]
  | storeFile _ source asked => if asked then [source] else []
  | _ => []

def target? : Call → Option Path
  | getToFile _ target => some target
  | _ => none

/-- The name that a call takes a reference to. -/
def stored? : Call → Option Bytes
  | store name _ => some name
  | storeFile name _ _ => some name
  | _ => none

/-- What a call that needs a root is reported as if it fails, and the name of the chunk. -/
def reportedAs? : Call → Option (Operation × Bytes)
  | get name => some (.get, name)
  | getToFile name _ => some (.getToFile, name)
  | store name _ => some (.store, name)
  | storeFile name _ _ => some (.storeFile, name)
  | delete name => some (.delete, name)
  | has name => some (.has, name)
  | validate name => some (.validate, name)
  | chunkSize name => some (.sizeOf, name)
  | references name => some (.refCount, name)
  | clear => some (.clear, [])
  | size | count | capacity | isEmpty | setCapacity _ => none

def refusal : Call → Answer
  | get _ => .bytes []
  | chunkSize _ | references _ => .number 0
  | clear => .done
  | _ => .truth false

theorem source_mem_paths {c : Call} {p : Path} (h : p ∈ c.source?) : p ∈ c.paths := by
  cases c <;> cases h
  exact List.mem_cons_self

theorem target_mem_paths {c : Call} {p : Path} (h : p ∈ c.target?) : p ∈ c.paths := by
  cases c <;> cases h
  exact List.mem_cons_self

theorem alters_subset_paths {c : Call} {q : Path} (h : q ∈ c.alters) : q ∈ c.paths := by
  cases c with
  | storeFile name source asked =>
    cases asked with
    | false => cases h
    | true => exact h
  | getToFile => exact h
  | _ => cases h

theorem stored?_eq_or {c : Call} {name : Bytes} (h : name ∈ c.name?) :
    c.stored? = some name ∨ c.stored? = none := by
  cases c with
  | store | storeFile => exact Or.inl h
  | _ => exact Or.inr rfl

theorem run_file [FileSystem] (f : FileStore) (c : Call) (w : Workspace) :
    c.run (AnyStore.file f) w = (((c.run f w).1.1, .file (c.run f w).1.2), (c.run f w).2) := by
  cases c <;> rfl

theorem run_memory [FileSystem] (m : MemoryStore) (c : Call) (w : Workspace) :
    c.run (AnyStore.memory m) w = (((c.run m w).1.1, .memory (c.run m w).1.2), (c.run m w).2) := by
  cases c <;> rfl

theorem run_fixed [FileSystem] (f : FixedStore) (c : Call) (w : Workspace) :
    c.run (AnyStore.fixed f) w = (((c.run f w).1.1, .fixed (c.run f w).1.2), (c.run f w).2) := by
  cases c <;> rfl

end Call

variable [FileSystem]

/-! ### Calls of a file store -/

namespace FileStore

variable {s : FileStore} {l : Layout}

omit [FileSystem] in
theorem find_same_tree (s : FileStore) (op : Operation) (name : Bytes) (w : Workspace) :
    ((s.find name).reported op name w).2.tree = w.tree := by
  rw [Attempt.reported_tree, find_same]

theorem has_tree (s : FileStore) (name : Bytes) (w : Workspace) : (ChunkStore.has s name w).2.tree = w.tree := by
  have htree := s.find_same_tree .has name w
  simp only [ChunkStore.has, Action.bind_apply]
  rcases hr : (s.find name).reported .has name w with ⟨_ | ⟨location, _ | e⟩, v⟩ <;>
    rw [hr] at htree <;> exact htree

theorem references_tree (s : FileStore) (name : Bytes) (w : Workspace) :
    (ChunkStore.references s name w).2.tree = w.tree := by
  have htree := s.find_same_tree .refCount name w
  simp only [ChunkStore.references, Action.bind_apply]
  rcases hr : (s.find name).reported .refCount name w with ⟨_ | ⟨location, _ | e⟩, v⟩ <;>
    rw [hr] at htree <;> exact htree

theorem chunkSize_tree (s : FileStore) (name : Bytes) (w : Workspace) :
    (ChunkStore.chunkSize s name w).2.tree = w.tree := by
  have htree : ((s.require name).reported .sizeOf name w).2.tree = w.tree := by
    rw [Attempt.reported_tree, require_same]
  simp only [ChunkStore.chunkSize, Action.bind_apply]
  rcases hr : (s.require name).reported .sizeOf name w with ⟨_ | ⟨location, e⟩, v⟩ <;>
    rw [hr] at htree <;> exact htree

theorem get_tree (s : FileStore) (name : Bytes) (w : Workspace) : (ChunkStore.get s name w).2.tree = w.tree :=
  (Attempt.reported_tree .get name (s.get name) w).trans (by rw [get_same])

theorem validate_tree (s : FileStore) (name : Bytes) (w : Workspace) :
    (ChunkStore.validate s name w).2.tree = w.tree :=
  (Attempt.reported_tree .validate name (s.validate name) w).trans (by rw [validate_same])

theorem getToFile_tree (s : FileStore) (name : Bytes) (target : Path) (w : Workspace) :
    (ChunkStore.getToFile s name target w).2.tree = ((s.getToFile name target).run w).2.tree :=
  Attempt.reported_tree .getToFile name (s.getToFile name target) w

/-- What a call of a file store that has a root leaves behind. -/
theorem call_imprint {w : Workspace} (hl : s.layout? = some l) (hroot : l.root ≠ .blank)
    (c : Call) (hproper : c = .clear → Proper w.tree.kind?) (hout : ∀ q ∈ c.source?, ¬ l.root.key <:+ q.key) :
    Imprint s l c.paths c.name? c.stored? w.tree (c.run s w).1.2 (c.run s w).2.tree := by
  cases c with
  | get name => exact .idle (s.get_tree name w)
  | has name => exact .idle (s.has_tree name w)
  | validate name => exact .idle (s.validate_tree name w)
  | chunkSize name => exact .idle (s.chunkSize_tree name w)
  | references name => exact .idle (s.references_tree name w)
  | size | count | capacity | isEmpty => exact .idle rfl
  | setCapacity n => exact .aside rfl rfl rfl .same
  | getToFile name target =>
    show Imprint s l [target] (some name) none w.tree s (ChunkStore.getToFile s name target w).2.tree
    rw [getToFile_tree]
    exact getToFile_imprint hl name target w
  | store name content => exact store_imprint hl hroot rfl
  | storeFile name source asked => exact storeFile_imprint hl hroot (hout source rfl) rfl
  | delete name => exact delete_imprint hl hroot rfl
  | clear => exact clear_imprint hl (hproper rfl)

/-- A call that is about no chunk does nothing to the tree, but for clearing. -/
theorem call_unnamed {c : Call} (hnamed : c.name? = none) (hc : c ≠ .clear) (w : Workspace) :
    ((c.run s w).1.2.layout? = s.layout? ∧ (c.run s w).1.2.mode = s.mode) ∧ (c.run s w).2.tree = w.tree := by
  cases c with
  | size | count | capacity | isEmpty | setCapacity => exact ⟨⟨rfl, rfl⟩, rfl⟩
  | clear => exact absurd rfl hc
  | _ => cases hnamed

/-- **A store without a root refuses** every call that needs one, and does nothing but report it. -/
theorem call_refused (hl : s.layout? = none) {c : Call} {op : Operation} {name : Bytes}
    (hc : c.reportedAs? = some (op, name)) (w : Workspace) :
    c.run s w = ((c.refusal, s), (Action.report (.ofError op name .notInitialized) w).2) := by
  cases c with
  | get name =>
    cases hc
    have hrun := Attempt.reported_of_error .get name (get_uninitialized hl name w)
    simp only [Call.run, Call.asking, ChunkStore.get, Action.bind_apply, hrun]
    rfl
  | getToFile name target =>
    cases hc
    have hrun := Attempt.reported_of_error .getToFile name
      (getToFile_uninitialized hl name target w)
    simp only [Call.run, Call.asking, ChunkStore.getToFile, Action.bind_apply, hrun]
    rfl
  | store name content =>
    cases hc
    have hrun : Sink.store s name content w = _ :=
      Attempt.settled_of_error (store_uninitialized hl name content w)
    simp only [Call.run, Call.changing, Action.bind_apply, hrun]
    rfl
  | storeFile name source asked =>
    cases hc
    have hrun : Sink.storeFile s name source asked w = _ :=
      Attempt.settled_of_error (storeFile_uninitialized hl name source asked w)
    simp only [Call.run, Call.changing, Action.bind_apply, hrun]
    rfl
  | delete name =>
    cases hc
    have hrun : ChunkStore.delete s name w = _ := Attempt.settled_of_error (delete_uninitialized hl name w)
    simp only [Call.run, Call.changing, Action.bind_apply, hrun]
    rfl
  | has name =>
    cases hc
    have hrun := Attempt.reported_of_error .has name (find_uninitialized hl name w)
    simp only [Call.run, Call.asking, ChunkStore.has, Action.bind_apply, hrun]
    rfl
  | validate name =>
    cases hc
    have hrun := Attempt.reported_of_error .validate name (validate_uninitialized hl name w)
    simp only [Call.run, Call.asking, ChunkStore.validate, Action.bind_apply, hrun]
    rfl
  | chunkSize name =>
    cases hc
    have hrun := Attempt.reported_of_error .sizeOf name (require_uninitialized hl name w)
    simp only [Call.run, Call.asking, ChunkStore.chunkSize, Action.bind_apply, hrun]
    rfl
  | references name =>
    cases hc
    have hrun := Attempt.reported_of_error .refCount name (find_uninitialized hl name w)
    simp only [Call.run, Call.asking, ChunkStore.references, Action.bind_apply, hrun]
    rfl
  | clear =>
    cases hc
    simp only [Call.run, ChunkStore.clear, Action.bind_apply, clear_uninitialized hl]
    rfl
  | size | count | capacity | isEmpty | setCapacity => cases hc

theorem call_uninitialized (hl : s.layout? = none) (c : Call) (w : Workspace) :
    (c.run s w).1.2.layout? = none ∧ (c.run s w).2.tree = w.tree := by
  rcases hc : c.reportedAs? with _ | ⟨op, name⟩
  · cases c with
    | size | count | capacity | isEmpty | setCapacity => exact ⟨hl, rfl⟩
    | _ => cases hc
  · rw [call_refused hl hc]
    exact ⟨hl, rfl⟩

end FileStore

/-! ### Calls of the other stores -/

namespace MemoryStore

open AnyStore (Aside)

variable {m : MemoryStore}

theorem settled_store (m : MemoryStore) (name content : Bytes) (w : Workspace) :
    Sink.store m name content w = match m.store name content with
      | .ok after => ((true, after), w)
      | .error e => ((false, m), (Action.report (.ofError .store name e) w).2) := by
  have hrun : ((liftM (m.store name content) : Attempt MemoryStore)).run w = (m.store name content, w) :=
    Action.run_except _ w
  show Attempt.settled .store name m (liftM (m.store name content)) w = _
  rcases hs : m.store name content with e | after
  · rw [hs] at hrun
    exact Attempt.settled_of_error hrun
  · rw [hs] at hrun
    exact Attempt.settled_of_ok hrun

theorem storeFile_aside (m : MemoryStore) (name : Bytes) (source : Path) (asked : Bool) (w : Workspace) :
    Aside [source] w.tree.kind? (Sink.storeFile m name source asked w).2.tree.kind? := by
  rcases hrun : Sink.storeFile m name source asked w with ⟨⟨taken, m'⟩, v⟩
  rcases sink_memory hrun with ⟨-, rfl, htree, -⟩ | ⟨content, -, hstat, hstore, hkinds⟩
  · rw [htree]
    exact .same
  · rw [hkinds]
    split
    · refine .changed source List.mem_cons_self ?_ none (by simp) (by simp)
      rw [FileStore.kind?_of_stat hstat]
      simp
    · exact .same

theorem getToFile_tree (m : MemoryStore) (name : Bytes) (target : Path) (w : Workspace) :
    (ChunkStore.getToFile m name target w).2.tree = ((m.getToFile name target).run w).2.tree :=
  Attempt.reported_tree .getToFile name (m.getToFile name target) w

theorem getToFile_aside (m : MemoryStore) (name : Bytes) (target : Path) (w : Workspace) :
    Aside [target] w.tree.kind? (ChunkStore.getToFile m name target w).2.tree.kind? := by
  rw [getToFile_tree, getToFile, Action.run_bind, Action.run_except]
  rcases m.get name with e | content
  · exact .same
  · dsimp only
    rw [Action.run_file]
    rcases Request.write_spec target content w with ⟨f, -, hrun⟩ | ⟨cs, hrun, -, hplaced⟩
    · rw [hrun]
      exact .same
    · rw [hrun]
      show Aside [target] w.tree.kind? (w.commits cs).tree.kind?
      rw [hplaced.kinds]
      exact .changed target List.mem_cons_self hplaced.admits.noDir _ (by simp)
        fun _ _ => hplaced.admits.isName

/-- A call of a memory store changes nothing but files at the paths that it is given. -/
theorem call_aside (m : MemoryStore) (c : Call) (w : Workspace) :
    Aside c.paths w.tree.kind? (c.run m w).2.tree.kind? := by
  have hidle : ∀ v : Workspace, v.tree = w.tree → Aside c.paths w.tree.kind? v.tree.kind? :=
    fun v hv => by rw [hv]; exact .same
  cases c with
  | get name => exact hidle _ (Attempt.outcome_tree .get name (m.get name) w)
  | has | validate | chunkSize | references | size | count | capacity | isEmpty | setCapacity | delete |
    clear => exact .same
  | getToFile name target => exact m.getToFile_aside name target w
  | store name content =>
    refine hidle _ ?_
    show (Sink.store m name content w).2.tree = w.tree
    rw [settled_store]
    rcases m.store name content with e | after <;> rfl
  | storeFile name source asked => exact m.storeFile_aside name source asked w

theorem call_sound (h : m.Sound) (c : Call) (w : Workspace)
    (hbounded : (tally (c.run m w).1.2.chunks).size < wordLimit) : (c.run m w).1.2.Sound := by
  cases c with
  | get | has | validate | chunkSize | references | size | count | capacity | isEmpty | getToFile => exact h
  | setCapacity n => exact ⟨h.nodup, h.carries, h.totals⟩
  | store name content =>
    have hbounded : (tally (Sink.store m name content w).1.2.chunks).size < wordLimit := hbounded
    show (Sink.store m name content w).1.2.Sound
    rw [settled_store] at hbounded ⊢
    rcases hs : m.store name content with e | after
    · exact h
    · rw [hs] at hbounded
      obtain ⟨-, -, hstored⟩ := store_ok hs
      exact h.stored hstored hbounded
  | storeFile name source asked =>
    have hbounded : (tally (Sink.storeFile m name source asked w).1.2.chunks).size < wordLimit := hbounded
    show (Sink.storeFile m name source asked w).1.2.Sound
    rcases hrun : Sink.storeFile m name source asked w with ⟨⟨taken, m'⟩, v⟩
    rw [hrun] at hbounded
    rcases sink_memory hrun with ⟨-, rfl, -⟩ | ⟨content, -, -, hstore, -⟩
    · exact h
    · obtain ⟨-, -, hstored⟩ := store_ok hstore
      exact h.stored hstored hbounded
  | delete name => exact h.deleted (m.delete_spec name)
  | clear => exact ⟨List.nodup_nil, fun _ hc => absurd hc List.not_mem_nil, rfl⟩

end MemoryStore

omit [FileSystem] in
theorem FixedStore.call_idle (f : FixedStore) (c : Call) (w : Workspace) :
    (c.run f w).1.2 = f ∧ (c.run f w).2 = w := by
  cases c <;> exact ⟨rfl, rfl⟩

namespace AnyStore

/-- **A call.**  It leaves the store in order, and every file store beside it. -/
theorem call_worked {tidy : Prop} {a : AnyStore} {w : Workspace} (h : a.InOrder tidy w.tree)
    (hself : ∀ p, a.root? = some p → p.Avoids p.key) (hproper : Proper w.tree.kind?) (c : Call)
    (hout : ∀ p, a.root? = some p → ∀ q ∈ c.paths, ¬ p.key <:+ q.key)
    (hshare : ∀ name ∈ c.stored?, a.CanShare w.tree name) :
    Worked tidy c.paths a w.tree (c.run a w).1.2 (c.run a w).2.tree := by
  cases a with
  | file s =>
    rw [Call.run_file]
    rcases hl : s.layout? with _ | l
    · obtain ⟨hlayout, htree⟩ := FileStore.call_uninitialized hl c w
      rw [htree]
      refine .idle (FileStore.root_congr (hlayout.trans hl.symm)) fun l hl' => ?_
      rw [hlayout] at hl'
      cases hl'
    · have hroot := FileStore.root_eq hl
      exact (FileStore.call_imprint hl (Layout.root_ne_blank (h l hl).lead) c (fun _ => hproper)
        fun q hq => hout _ hroot q (Call.source_mem_paths hq)).worked
        (h l hl) hl (hself _ hroot) (hout _ hroot) hshare
  | memory m =>
    rw [Call.run_memory]
    exact .of_aside rfl (m.call_aside c w) (MemoryStore.call_sound h c w)
  | fixed f =>
    rw [Call.run_fixed]
    obtain ⟨-, htree⟩ := f.call_idle c w
    rw [htree]
    exact .idle rfl trivial

/-- **Clearing** removes what lies below one directory, or nothing. -/
theorem clear_pruned {w : Workspace} (a : AnyStore) (hproper : Proper w.tree.kind?) :
    ∃ d, Pruned d w.tree (Call.clear.run a w).2.tree := by
  cases a with
  | file s =>
    rcases hl : s.layout? with _ | l
    · have htree := (FileStore.call_uninitialized hl .clear w).2
      rw [Call.run_file, htree]
      exact ⟨[], .refl _ _⟩
    · obtain ⟨r, v, hr, hpruned⟩ := Request.emptyDir_pruned l.root hproper
      have htree : (Call.clear.run s w).2.tree = v.tree := (FileStore.clear_spec hl hr).2
      rw [Call.run_file, htree]
      exact ⟨_, hpruned⟩
  | memory m => exact ⟨[], .refl _ _⟩
  | fixed f => exact ⟨[], .refl _ _⟩

end AnyStore

end ContentStore
