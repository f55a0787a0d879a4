import ContentStore.Proofs.Mirror
import ContentStore.Proofs.Sessions

/-!
# A file store and a memory store cannot be told apart

A file store that takes an empty directory for its root, and a new memory store beside it, are given the same
calls.  As long as the paths outside keep clear of the root and no path that is built is too long
(`Call.AllFit`), both give the same answers and leave the same files outside, and storing fails on both for the
same reason:

* `Mirrors.call`: a call keeps the stores mirrors of each other, and both answer the same;
* `Mirrors.runAll`: so do any calls, one after the other;
* `stores_agree`: so do the two stores from their beginning.
-/

namespace ContentStore

open FileSystem (shut readOnly Free)

section

variable [FileSystem]

/-! ### Calls that fit -/

namespace Call

/-- The paths that a call is given keep outside the root, and the paths that it builds can be used.  A file that is
replaced can be written, and neither it nor one that is to be removed lies in a directory that is shut. -/
def Fits (l : Layout) (s : FileStore) (t : Tree) : Call → Prop
  | get name | delete name | has name | validate name | chunkSize name | references name =>
    name ≠ [] → s.mode.Spells (l.place name)
  | getToFile name target =>
    (name ≠ [] → s.mode.Spells (l.place name)) ∧ target.Outside l.root.key ∧
      (t.kind? target.key ≠ none → shut target.key.tail = false ∧ readOnly target.key.tail = false) ∧
      (s.held? t name ≠ none → (Staging.hiddenPath t (FileStore.stagingDir target)).isTooLong = false ∧
        (Staging.freeName (Staging.taken t (FileStore.stagingDir target))).length ≤ nameLimit)
  | store name content => name ≠ [] → content ≠ [] → s.Storable l t name
  | storeFile name source asked => source.Outside l.root.key ∧
    (asked = true → shut source.key.tail = false) ∧
    ∀ content ∈ (t.read source).toOption, name ≠ [] → content ≠ [] → s.Storable l t name
  | size | count | capacity | isEmpty | setCapacity _ | clear => True

/-- Every call fits the state in which it is made. -/
def AllFit (l : Layout) : FileStore → Workspace → List Call → Prop
  | _, _, [] => True
  | s, w, c :: calls => c.Fits l s w.tree ∧ AllFit l (c.run s w).1.2 (c.run s w).2 calls

instance (p : Path) (d : Key) : Decidable (p.Outside d) :=
  decidable_of_iff (¬ d <:+ p.key ∧ p.Avoids d) ⟨fun ⟨h, h'⟩ => ⟨h, h'⟩, fun ⟨h, h'⟩ => ⟨h, h'⟩⟩

instance (l : Layout) (s : FileStore) (t : Tree) : (c : Call) → Decidable (c.Fits l s t)
  | .get name | .delete name | .has name | .validate name | .chunkSize name | .references name =>
    inferInstanceAs (Decidable (name ≠ [] → s.mode.Spells (l.place name)))
  | .getToFile name target => inferInstanceAs (Decidable ((name ≠ [] → s.mode.Spells (l.place name)) ∧
      target.Outside l.root.key ∧
      (t.kind? target.key ≠ none → shut target.key.tail = false ∧ readOnly target.key.tail = false) ∧
      (s.held? t name ≠ none → (Staging.hiddenPath t (FileStore.stagingDir target)).isTooLong = false ∧
        (Staging.freeName (Staging.taken t (FileStore.stagingDir target))).length ≤ nameLimit)))
  | .store name content => inferInstanceAs (Decidable (name ≠ [] → content ≠ [] → s.Storable l t name))
  | .storeFile name source asked => inferInstanceAs (Decidable (source.Outside l.root.key ∧
      (asked = true → shut source.key.tail = false) ∧
      ∀ content ∈ (t.read source).toOption, name ≠ [] → content ≠ [] → s.Storable l t name))
  | .size | .count | .capacity | .isEmpty | .setCapacity _ | .clear => inferInstanceAs (Decidable True)

instance decidableAllFit (l : Layout) : (s : FileStore) → (w : Workspace) → (calls : List Call) →
    Decidable (AllFit l s w calls)
  | _, _, [] => inferInstanceAs (Decidable True)
  | s, w, c :: calls =>
    have := decidableAllFit l (c.run s w).1.2 (c.run s w).2 calls
    inferInstanceAs (Decidable (c.Fits l s w.tree ∧ AllFit l (c.run s w).1.2 (c.run s w).2 calls))

end Call

/-! ### Calls of both stores -/

namespace Mirrors

variable {s : FileStore} {l : Layout} {m : MemoryStore} {w v : Workspace}

theorem idle (h : Mirrors s l w.tree m v.tree) {w' v' : Workspace} (hw : w'.tree = w.tree)
    (hv : v'.tree = v.tree) : Mirrors s l w'.tree m v'.tree := by
  rw [hw, hv]
  exact h

/-- **A call.**  Both stores give the same answer and mirror each other afterwards. -/
theorem call (h : Mirrors s l w.tree m v.tree) (c : Call)
    (hfits : c.Fits l s w.tree) :
    (c.run s w).1.1 = (c.run m v).1.1 ∧
      Mirrors (c.run s w).1.2 l (c.run s w).2.tree (c.run m v).1.2 (c.run m v).2.tree := by
  cases c with
  | get name =>
    have hanswer : (ChunkStore.get s name w).1 = (ChunkStore.get m name v).1 := by
      rw [FileStore.get_answer h.alone.rooted (h.alone.legible hfits), m.get_answer, h.held]
    exact ⟨congrArg Answer.bytes hanswer, h.idle (s.get_tree name w)
      (Attempt.outcome_tree .get name (m.get name) v)⟩
  | has name =>
    have hanswer : (ChunkStore.has s name w).1 = (ChunkStore.has m name v).1 := by
      rw [FileStore.has_answer h.alone.rooted, m.has_answer, h.held]
    exact ⟨congrArg Answer.truth hanswer, h.idle (s.has_tree name w) rfl⟩
  | references name =>
    have hanswer : (ChunkStore.references s name w).1 = (ChunkStore.references m name v).1 := by
      rw [FileStore.references_answer h.alone.rooted, m.references_answer, h.held]
    exact ⟨congrArg Answer.number hanswer, h.idle (s.references_tree name w) rfl⟩
  | chunkSize name =>
    have hanswer : (ChunkStore.chunkSize s name w).1 = (ChunkStore.chunkSize m name v).1 := by
      rw [FileStore.chunkSize_answer h.alone.rooted, m.chunkSize_answer, h.held]
    exact ⟨congrArg Answer.number hanswer, h.idle (s.chunkSize_tree name w) rfl⟩
  | validate name =>
    have hanswer : (ChunkStore.validate s name w).1 = (ChunkStore.validate m name v).1 := by
      rw [FileStore.validate_answer h.alone.rooted (h.alone.legible hfits), m.validate_answer, h.held, h.hasher]
      simp only [Hasher.verify, h.lawful _]
    exact ⟨congrArg Answer.truth hanswer, h.idle (s.validate_tree name w) rfl⟩
  | size => exact ⟨congrArg (fun t : Tracker => Answer.number t.size) h.tracker.symm, h⟩
  | count => exact ⟨congrArg (fun t : Tracker => Answer.number t.count) h.tracker.symm, h⟩
  | capacity => exact ⟨congrArg (fun t : Tracker => Answer.number t.capacity) h.tracker.symm, h⟩
  | isEmpty => exact ⟨congrArg (fun t : Tracker => Answer.truth (t.count = 0)) h.tracker.symm, h⟩
  | setCapacity n =>
    have htracker : m.tracker.setCapacity n = s.tracker.setCapacity n := by rw [h.tracker]
    exact ⟨rfl, { h.alone with }, h.mode,
      h.hasher, h.lawful, htracker, h.held, h.alike⟩
  | clear => exact ⟨rfl, h.clear⟩
  | delete name =>
    obtain ⟨s', x, hrun, hafter⟩ := h.delete hfits
    have hs : ChunkStore.delete s name w = ((true, s'), x) := Attempt.settled_of_ok hrun
    show Answer.truth (ChunkStore.delete s name w).1.1 = Answer.truth true ∧
      Mirrors (ChunkStore.delete s name w).1.2 l (ChunkStore.delete s name w).2.tree (m.delete name) v.tree
    rw [hs]
    exact ⟨rfl, hafter⟩
  | store name content =>
    show Answer.truth (Sink.store s name content w).1.1 = Answer.truth (Sink.store m name content v).1.1 ∧
      Mirrors (Sink.store s name content w).1.2 l (Sink.store s name content w).2.tree
        (Sink.store m name content v).1.2 (Sink.store m name content v).2.tree
    rw [m.settled_store name content v]
    rcases h.store hfits with ⟨e, hrun, hm⟩ | ⟨s', x, m', hrun, hm, hafter⟩
    · have hs : Sink.store s name content w = _ := Attempt.settled_of_error hrun
      rw [hs, hm]
      exact ⟨rfl, h⟩
    · have hs : Sink.store s name content w = ((true, s'), x) := Attempt.settled_of_ok hrun
      rw [hs, hm]
      exact ⟨rfl, hafter⟩
  | storeFile name source asked =>
    obtain ⟨hout, hopen, hst⟩ := hfits
    have hread : name ≠ [] → ∀ content, content ≠ [] → w.tree.stat source = .ok (.file content) →
        s.Storable l w.tree name := by
      intro hname content hcontent hstat
      refine hst content ?_ hname hcontent
      rw [Tree.read_eq_ok_iff.mpr hstat]
      rfl
    show Answer.truth (Sink.storeFile s name source asked w).1.1 =
        Answer.truth (Sink.storeFile m name source asked v).1.1 ∧
      Mirrors (Sink.storeFile s name source asked w).1.2 l (Sink.storeFile s name source asked w).2.tree
        (Sink.storeFile m name source asked v).1.2 (Sink.storeFile m name source asked v).2.tree
    rcases h.storeFile hopen hout hread with ⟨e, e', hrun, hm⟩ | ⟨s', w', m', v', hrun, hm, hafter⟩
    · have hs : Sink.storeFile s name source asked w = _ := Attempt.settled_of_error hrun
      rw [hs, MemoryStore.sink_of_error hm]
      exact ⟨rfl, h⟩
    · have hs : Sink.storeFile s name source asked w = ((true, s'), w') := Attempt.settled_of_ok hrun
      rw [hs, MemoryStore.sink_of_ok hm]
      exact ⟨rfl, hafter⟩
  | getToFile name target =>
    obtain ⟨hspells, hout, hopen, hhidden⟩ := hfits
    obtain ⟨hresult, hafter⟩ := h.getToFile hspells hout hopen hhidden
    have hanswer : (ChunkStore.getToFile s name target w).1 = (ChunkStore.getToFile m name target v).1 := by
      rw [s.getToFile_answer, m.getToFile_answer, hresult]
    exact ⟨congrArg Answer.truth hanswer, hafter.idle (s.getToFile_tree name target w)
      (m.getToFile_tree name target v)⟩

/-- **Calls**, one after the other. -/
theorem runAll (h : Mirrors s l w.tree m v.tree) (calls : List Call) (hfits : Call.AllFit l s w calls) :
    (Call.runAll s calls w).1.1 = (Call.runAll m calls v).1.1 ∧
      Mirrors (Call.runAll s calls w).1.2 l (Call.runAll s calls w).2.tree (Call.runAll m calls v).1.2
        (Call.runAll m calls v).2.tree := by
  induction calls generalizing s m w v with
  | nil => exact ⟨rfl, h⟩
  | cons c calls ih =>
    obtain ⟨hfirst, hrest⟩ := hfits
    obtain ⟨hanswer, hafter⟩ := h.call c hfirst
    obtain ⟨hanswers, hlast⟩ := ih hafter hrest
    exact ⟨congrArg₂ List.cons hanswer hanswers, hlast⟩

/-- Storing fails on both stores for the same reasons. -/
theorem store_error_iff (h : Mirrors s l w.tree m v.tree) {name content : Bytes}
    (hst : name ≠ [] → content ≠ [] → s.Storable l w.tree name) (e : StoreError) :
    ((s.store name content).run w).1 = .error e ↔ m.store name content = .error e := by
  rcases h.store hst with ⟨e', hrun, hm⟩ | ⟨s', x, m', hrun, hm, -⟩
  · rw [hrun, hm]
    exact ⟨fun he => congrArg Except.error (Except.error.inj he), fun he => congrArg Except.error (Except.error.inj he)⟩
  · rw [hrun, hm]
    constructor <;> intro he <;> cases he

end Mirrors

/-! ### Both stores from their beginning -/

/-- A file store that has taken an empty directory for its root, below which nothing is shut, and a new memory
store mirror each other. -/
theorem mirrors_start {counting : Bool} {hasher : Hasher} (hlawful : hasher.Lawful) {capacity depth : Nat}
    {root : Path} (hfree : Free root.key) {w v : Workspace} {s : FileStore}
    (hstart : (ChunkStore.setCapacity (FileStore.new counting hasher) capacity).start root depth w =
      ((true, s), v))
    (hempty : ∀ k, root.key <:+ k → k ≠ root.key → v.tree.kind? k = none) :
    Mirrors s ⟨root, depth⟩ v.tree (ChunkStore.setCapacity (MemoryStore.new counting hasher) capacity) v.tree := by
  obtain ⟨x, -, hno | ⟨hrun, hlead⟩⟩ :=
    (ChunkStore.setCapacity (FileStore.new counting hasher) capacity).start_spec root depth w
  · rw [hstart] at hno
    cases hno
  · rw [hstart] at hrun
    cases hrun
    let started : FileStore := ⟨.ofCounting counting, hasher, some ⟨root, depth⟩,
      Tracker.reset ⟨capacity, 0, 0⟩ (Scan.count (.ofCounting counting) v.tree root)⟩
    obtain ⟨halone, hheld, hcount⟩ :=
      FileStore.alone_of_empty (s := started) (l := ⟨root, depth⟩) rfl hfree hlead hempty
    refine ⟨halone, rfl, rfl, hlawful, ?_, fun name => (hheld name).symm, fun k _ => rfl⟩
    exact congrArg (Tracker.reset ⟨capacity, 0, 0⟩) hcount.symm

/-- **The two stores agree.**  A file store takes an empty directory for its root, and a memory store of the same
mode, hasher and capacity is made beside it.  Whatever calls both are given from then on, as long as the calls
fit, they give the same answers, the files outside the root end up the same, and storing any content next fails
on both for the same reason or on neither. -/
theorem stores_agree {counting : Bool} {hasher : Hasher} (hlawful : hasher.Lawful) {capacity depth : Nat}
    {root : Path} (hfree : Free root.key) {w v : Workspace} {s : FileStore} {m : MemoryStore}
    (hstart : (ChunkStore.setCapacity (FileStore.new counting hasher) capacity).start root depth w =
      ((true, s), v))
    (hempty : ∀ k, root.key <:+ k → k ≠ root.key → v.tree.kind? k = none)
    (hm : m = ChunkStore.setCapacity (MemoryStore.new counting hasher) capacity)
    {calls : List Call} (hfits : Call.AllFit ⟨root, depth⟩ s v calls) :
    (Call.runAll s calls v).1.1 = (Call.runAll m calls v).1.1 ∧
    (∀ k, ¬ root.key <:+ k → (Call.runAll s calls v).2.tree.kind? k = (Call.runAll m calls v).2.tree.kind? k) ∧
    ∀ name content e, (name ≠ [] → content ≠ [] →
        (Call.runAll s calls v).1.2.Storable ⟨root, depth⟩ (Call.runAll s calls v).2.tree name) →
      ((((Call.runAll s calls v).1.2.store name content).run (Call.runAll s calls v).2).1 = .error e ↔
        (Call.runAll m calls v).1.2.store name content = .error e) := by
  have hmirrors : Mirrors s ⟨root, depth⟩ v.tree m v.tree := hm ▸ mirrors_start hlawful hfree hstart hempty
  obtain ⟨hanswers, hlast⟩ := hmirrors.runAll calls hfits
  exact ⟨hanswers, fun k hk => hlast.alike k fun hbelow => absurd hbelow hk,
    fun name content e hst => hlast.store_error_iff hst e⟩

end

/-! ### Two stores to try it on -/

/-- Whether a result is a failure can be decided where the results themselves cannot be compared. -/
theorem error_of_map {ε α : Type} {r : Except ε α} {e : ε} (h : (r.map fun _ => ()) = .error e) :
    r = .error e := by
  cases r with
  | error e' => exact congrArg Except.error (Except.error.inj h)
  | ok x => cases h

namespace Agreed

/-- A counted store that has taken the root `r` in a bare workspace. -/
def started : (Bool × FileStore) × Workspace :=
  (ChunkStore.setCapacity (FileStore.new true (.ofDigest id)) 3).start (Path.ofText "r") 1 .bare

def memory : MemoryStore := ChunkStore.setCapacity (MemoryStore.new true (.ofDigest id)) 3

/-- A chunk is stored twice and loses a reference; for another one there is no room. -/
def calls : List Call :=
  [.store [107] [97, 98], .store [107] [99], .store [108] [100, 101], .delete [107], .get [107],
    .references [107]]

theorem start_eq : (ChunkStore.setCapacity (FileStore.new true (.ofDigest id)) 3).start (Path.ofText "r") 1
    .bare = ((true, started.1.2), started.2) :=
  Prod.ext (Prod.ext (show started.1.1 = true by decide +kernel) rfl) rfl

theorem tree_eq : started.2.tree = Tree.bare.putDir [[114]] := by
  have htop : started.2.tree.top = (Tree.bare.putDir [[114]]).top := by decide +kernel
  rcases h : started.2.tree with ⟨top, distinct⟩
  rw [h] at htop
  cases htop
  rfl

theorem empty (k : Key) (hk : (Path.ofText "r").key <:+ k) (hne : k ≠ (Path.ofText "r").key) :
    started.2.tree.kind? k = none := by
  have hroot : (Path.ofText "r").key = [[114]] := by decide +kernel
  rw [hroot] at hk hne
  rw [tree_eq, Tree.kind?_putDir rfl rfl, Function.update_of_ne hne]
  cases k with
  | nil => simp at hk
  | cons n d => exact Tree.kind?_bare n d

/-- A file `s`, and one more in each of two directories `q` and `v`. -/
def outside : Tree where
  top := .dir [113] (.file [115] [3] .nil) (.dir [118] (.file [115] [3] .nil) (.file [115] [4] .nil))
  distinct := by simp [Listing.Distinct, Listing.names]

/-- The directory `q` is shut, and the file in `v` can only be read. -/
scoped instance locked : FileSystem := ⟨fun k => k == [[113]], fun k => k == [[118]], fun _ => 0⟩

/-- What a file store answers that has taken the root `r` beside those files, and what the memory store does. -/
def answers (calls : List Call) : List Answer × List Answer :=
  let started := (ChunkStore.setCapacity (FileStore.new true (.ofDigest id)) 3).start (Path.ofText "r") 1
    ⟨outside, [], []⟩
  ((Call.runAll started.1.2 calls started.2).1.1, (Call.runAll memory calls started.2).1.1)

end Agreed

/-- Both stores take a chunk twice and refuse one that does not fit; next both refuse it again. -/
theorem stores_agree_full :
    (Call.runAll Agreed.started.1.2 Agreed.calls Agreed.started.2).1.1 =
      [.truth true, .truth true, .truth false, .truth true, .bytes [97, 98], .number 1] ∧
    (Call.runAll Agreed.started.1.2 Agreed.calls Agreed.started.2).1.1 =
      (Call.runAll Agreed.memory Agreed.calls Agreed.started.2).1.1 ∧
    (Call.runAll Agreed.memory Agreed.calls Agreed.started.2).1.2.store [108] [100, 101] =
      .error (.capacityExceeded 2 1) := by
  have hfits : Call.AllFit ⟨Path.ofText "r", 1⟩ Agreed.started.1.2 Agreed.started.2 Agreed.calls := by
    decide +kernel
  obtain ⟨hanswers, -, herror⟩ := stores_agree (m := Agreed.memory) (Hasher.lawful_ofDigest id)
    (FileSystem.free_lenient _) Agreed.start_eq Agreed.empty rfl hfits
  refine ⟨by decide +kernel, hanswers, (herror [108] [100, 101] _ fun _ _ => by decide +kernel).mp ?_⟩
  exact error_of_map (by decide +kernel)

open Agreed in
/-- A path outside that leads through the root is there for the store that has made the directory on its way.  A file
that is to be removed from a directory that is shut has been stored for the one store, and not for the other.  And a
file is replaced by the one store and written by the other, so that each can do what the other cannot. -/
theorem stores_differ_outside :
    answers [.store [107] [97], .storeFile [110] (Path.ofText "r/6/../../s") true] =
      ([.truth true, .truth true], [.truth true, .truth false]) ∧
    answers [.storeFile [107] (Path.ofText "q/s") true, .count] =
      ([.truth true, .number 1], [.truth false, .number 1]) ∧
    answers [.store [107] [97], .getToFile [107] (Path.ofText "q/s"), .getToFile [107] (Path.ofText "v/s")] =
      ([.truth true, .truth false, .truth true], [.truth true, .truth true, .truth false]) := by
  decide +kernel

end ContentStore
