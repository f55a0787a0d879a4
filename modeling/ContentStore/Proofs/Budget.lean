import ContentStore.Proofs.Failure
import ContentStore.Proofs.Transfer

/-!
# The budget of bytes

A chunk for which there is no room is refused, whatever way it comes, and nothing else is refused for the
lack of room (`store_full_iff`, `storeFile_full_iff`).  Whatever is done in a session, a store that counts
more bytes after it than before keeps within its capacity: `Tracker.Within` is what each operation does to
the counts, and `Deed.within` says so of a whole session.
-/

namespace ContentStore

open Function (update)
open Decimal (wordLimit)

namespace Tracker

variable {t t' : Tracker} {n : Nat}

/-- What does not fit into the capacity is refused, and what is missing is said. -/
theorem ensureRoom_eq_error_iff (hword : t.capacity < wordLimit) {e : StoreError} :
    t.ensureRoom n = .error e ↔
      t.capacity ≠ 0 ∧ t.capacity < t.size + n ∧ e = .capacityExceeded n (t.capacity - t.size) := by
  have hroom : t.hasRoom n = true ↔ t.capacity = 0 ∨ t.size + n ≤ t.capacity := by
    simp only [hasRoom, Bool.or_eq_true, Bool.and_eq_true, decide_eq_true_eq]
    omega
  unfold ensureRoom
  by_cases h : t.hasRoom n = true
  · rw [if_pos h]
    have := hroom.mp h
    constructor
    · intro he
      cases he
    · rintro ⟨hzero, hlt, -⟩
      omega
  · rw [if_neg h]
    have hfull : ¬ (t.capacity = 0 ∨ t.size + n ≤ t.capacity) := fun h' => h (hroom.mpr h')
    constructor
    · intro he
      cases he
      exact ⟨by omega, by omega, rfl⟩
    · rintro ⟨-, -, rfl⟩
      rfl

theorem room_of_ensureRoom (h : t.ensureRoom n = .ok ()) : t.capacity = 0 ∨ t.size + n ≤ t.capacity := by
  unfold ensureRoom at h
  split at h
  · next hroom =>
    simp only [hasRoom, Bool.or_eq_true, Bool.and_eq_true, decide_eq_true_eq] at hroom
    omega
  · cases h

/-- More bytes are counted than before only if they are within the capacity. -/
def Within (t t' : Tracker) : Prop := t.size < t'.size → t'.capacity = 0 ∨ t'.size ≤ t'.capacity

theorem within_of_le (h : t'.size ≤ t.size) : t.Within t' := fun h' => absurd h' (Nat.not_lt.mpr h)

theorem within_add (h : t.ensureRoom n = .ok ()) : t.Within (t.add n) := by
  intro _
  rcases room_of_ensureRoom h with hzero | hle
  · exact Or.inl hzero
  · exact Or.inr ((Nat.min_le_left _ _).trans hle)

theorem within_remove (t : Tracker) (n : Nat) : t.Within (t.remove n) := within_of_le (Nat.sub_le t.size n)

end Tracker

/-! ### What an operation does to the counts -/

namespace FileStore

variable {tidy : Prop} {s s' : FileStore} {l : Layout} {name content : Bytes} {t u : Tree}
  {kinds : Key → Option Kind} {b b' : AnyStore} {taken : Bool} {w : Workspace}

theorem Took.within [FileSystem] (h : Took s l name content t s' kinds) : s.tracker.Within s'.tracker := by
  cases h with
  | kept | recounted => exact Tracker.within_of_le le_rfl
  | added hfind hroom => exact Tracker.within_add hroom

theorem Dropped.within (h : Dropped s l name t s' kinds) : s.tracker.Within s'.tracker := by
  cases h with
  | absent | recounted => exact Tracker.within_of_le le_rfl
  | removed => exact Tracker.within_remove _ _

theorem delete_within [FileSystem] (h : (AnyStore.file s).InOrder tidy w.tree) (name : Bytes) :
    s.tracker.Within (ChunkStore.delete s name w).1.2.tracker := by
  show s.tracker.Within (Attempt.settled .delete name s (s.delete name) w).1.2.tracker
  rcases hrun : (s.delete name).run w with ⟨e | s', v⟩
  · rw [Attempt.settled_of_error hrun]
    exact Tracker.within_of_le le_rfl
  · rw [Attempt.settled_of_ok hrun]
    rcases hl : s.layout? with _ | l
    · rw [delete_uninitialized hl] at hrun
      cases hrun
    · rcases delete_dropped hl (Layout.root_ne_blank (h l hl).lead) hrun with ⟨-, rfl, -⟩ | ⟨-, hdropped⟩
      · exact Tracker.within_of_le le_rfl
      · exact hdropped.within

/-- A root that has been emptied holds no more bytes than before. -/
theorem count_pruned (hlead : t.leadsToDir l.root = true) (hself : l.root.Avoids l.root.key)
    (hu : Pruned l.root.key t u) (m : Mode) :
    (Scan.count m u l.root).size ≤ (Scan.count m t l.root).size := by
  have hlead' := hu.leadsToDir hself hlead
  have ht := Tree.lists_filesBelow (Tree.leadsToDir_iff.mp hlead).2.2
  have hxs := Tree.lists_filesBelow (Tree.leadsToDir_iff.mp hlead').2.2
  rw [Scan.count_of_lists hlead m ht, Scan.count_of_lists hlead' m hxs]
  refine Scan.tally_size_le hxs.nodup fun f hf => (ht.mem f.1 f.2).mpr ?_
  have hf := (hxs.mem f.1 f.2).mp hf
  rcases hu (f.1 ++ l.root.key) with e | ⟨e, -⟩
  · rw [← e, hf]
  · rw [e] at hf
    cases hf

theorem clear_within [FileSystem] (h : (AnyStore.file s).InOrder tidy w.tree)
    (hself : ∀ p, (AnyStore.file s).root? = some p → p.Avoids p.key) (hproper : Proper w.tree.kind?) :
    s.tracker.Within (ChunkStore.clear s w).1.tracker := by
  rcases hl : s.layout? with _ | l
  · have hsame : (ChunkStore.clear s w).1 = s := by
      show (s.clear w).1.2 = s
      unfold clear
      rw [hl]
      rfl
    rw [hsame]
    exact Tracker.within_of_le le_rfl
  · have horder := h l hl
    have hself := hself _ (root_eq hl)
    obtain ⟨r, u, hr, hpruned⟩ := Request.emptyDir_pruned l.root hproper
    rw [(clear_spec hl hr).1]
    refine Tracker.within_of_le ?_
    have hcount : s.tracker.size = (Scan.count s.mode w.tree l.root).size :=
      congrArg Totals.size (horder.accounts.count horder.lead)
    rw [hcount]
    exact count_pruned horder.lead hself hpruned s.mode

end FileStore

namespace MemoryStore

variable {m m' : MemoryStore} {name content : Bytes}

theorem Stored.within (h : Stored m name content m') : m.tracker.Within m'.tracker := by
  cases h with
  | kept | shared => exact Tracker.within_of_le le_rfl
  | added hfind hroom => exact Tracker.within_add hroom

theorem Deleted.within (h : Deleted m name m') : m.tracker.Within m'.tracker := by
  cases h with
  | absent | shared => exact Tracker.within_of_le le_rfl
  | removed => exact Tracker.within_remove _ _

end MemoryStore

section

variable [FileSystem]

namespace AnyStore

variable {tidy : Prop} {a a' b b' : AnyStore} {name content : Bytes} {t u : Tree} {taken : Bool}
  {kinds : Key → Option Kind} {outside : List Path} {offer : Bytes → Prop}
  {rest : (Key → Option Kind) → Key → Option Kind} {w : Workspace}

def tracker : AnyStore → Tracker
  | .file s => s.tracker
  | .memory m => m.tracker
  | .fixed _ => .new 0

theorem size_eq (a : AnyStore) : ChunkStore.size a = a.tracker.size := by
  cases a <;> rfl

theorem capacity_eq (a : AnyStore) : ChunkStore.capacity a = a.tracker.capacity := by
  cases a <;> rfl

theorem Took.within (h : Took name content t a a' kinds) : a.tracker.Within a'.tracker := by
  cases h with
  | file hl h => exact h.within
  | memory h => exact h.within

theorem Offered.within (h : a.Offered name outside offer rest t taken a' u) :
    a.tracker.Within a'.tracker := by
  cases h with
  | idle | grown | fixed => exact Tracker.within_of_le le_rfl
  | withheld ha hname hoffer hstored => exact ha ▸ hstored.within
  | took hname hoffer h => exact h.within

/-- **A call** keeps the store within its capacity. -/
theorem call_within (h : a.InOrder tidy w.tree) (hself : ∀ p, a.root? = some p → p.Avoids p.key)
    (hproper : Proper w.tree.kind?) (c : Call)
    (hout : ∀ p, a.root? = some p → ∀ q ∈ c.paths, ¬ p.key <:+ q.key) :
    a.tracker.Within (c.run a w).1.2.tracker := by
  cases c with
  | store name content => exact (offered_store h.rooted rfl).within
  | storeFile name source asked =>
    exact (offered_storeFile h.rooted (fun p hp => hout p hp source List.mem_cons_self) rfl).within
  | delete name =>
    cases a with
    | file s => exact FileStore.delete_within h name
    | memory m => exact (m.delete_spec name).within
    | fixed f => exact Tracker.within_of_le le_rfl
  | clear =>
    cases a with
    | file s => exact FileStore.clear_within h hself hproper
    | memory m => exact Tracker.within_of_le (Nat.zero_le _)
    | fixed f => exact Tracker.within_of_le le_rfl
  | setCapacity n =>
    cases a with
    | file s => exact Tracker.within_of_le le_rfl
    | memory m => exact Tracker.within_of_le le_rfl
    | fixed f => exact Tracker.within_of_le le_rfl
  | _ => exact Tracker.within_of_le le_rfl

end AnyStore

/-- **A move out of a file store** keeps both stores within their capacities. -/
theorem FileStore.Handed.within {s s' : FileStore} {l : Layout} {name : Bytes} {b b' : AnyStore} {t u : Tree}
    {taken : Bool} (h : Handed s l name b t taken s' b' u) :
    s.tracker.Within s'.tracker ∧ b.tracker.Within b'.tracker := by
  cases h with
  | missing => exact ⟨Tracker.within_of_le le_rfl, Tracker.within_of_le le_rfl⟩
  | refused hname e hfind hoffers | stuck hname e hfind hoffers | kept hname e hfind hmode hleft hoffers =>
    exact ⟨Tracker.within_of_le le_rfl, hoffers.within⟩
  | emptied hname e file content hfind found hstat hlast hopen htook =>
    exact ⟨Tracker.within_remove _ _, htook.within⟩
  | dropped hname e hfind hoffers hsame hdropped => exact ⟨hdropped.within, hoffers.within⟩

/-- **A move out of a memory store** keeps both stores within their capacities. -/
theorem MemoryStore.Handed.within {m m' : MemoryStore} {name : Bytes} {b b' : AnyStore} {t u : Tree}
    {taken : Bool} (h : Handed m name b t taken m' b' u) :
    m.tracker.Within m'.tracker ∧ b.tracker.Within b'.tracker := by
  cases h with
  | missing => exact ⟨Tracker.within_of_le le_rfl, Tracker.within_of_le le_rfl⟩
  | refused chunk hfind hoffered => exact ⟨Tracker.within_of_le le_rfl, hoffered.within⟩
  | deleted chunk hfind hoffered => exact ⟨(m.delete_spec name).within, hoffered.within⟩

/-- **A move** keeps both stores within their capacities. -/
theorem AnyStore.moveTo_within {tidy : Prop} {a b : AnyStore} {w : Workspace} (ha : a.InOrder tidy w.tree)
    (hb : b.InOrder tidy w.tree) (hbeside : ∀ p q, a.root? = some p → b.root? = some q → q.Beside p)
    (name : Bytes) :
    a.tracker.Within (ChunkStore.moveTo a name b w).1.2.1.tracker ∧
      b.tracker.Within (ChunkStore.moveTo a name b w).1.2.2.tracker := by
  cases a with
  | file s =>
    rw [moveTo_file]
    rcases hl : s.layout? with _ | l
    · rw [FileStore.moveTo_apply, FileStore.moveTo_uninitialized hl]
      exact ⟨Tracker.within_of_le le_rfl, Tracker.within_of_le le_rfl⟩
    · have hroot := FileStore.root_eq hl
      exact (FileStore.moveTo_handed hl (ha l hl) hb
        (fun q hq => ⟨(hbeside _ q hroot hq).apart, (hbeside _ q hroot hq).avoids⟩) rfl).within
  | memory m =>
    rw [moveTo_memory]
    exact (MemoryStore.moveTo_handed hb.rooted rfl).within
  | fixed f => exact ⟨Tracker.within_of_le le_rfl, Tracker.within_of_le le_rfl⟩

/-! ### What is refused for the lack of room -/

namespace FileStore

variable {s : FileStore} {l : Layout} {name content : Bytes} {source : Path} {asked : Bool}
  {needed available : Nat} {w : Workspace}

omit [FileSystem] in
theorem ne_capacityExceeded {e : StoreError} (h : e.isFault = true) (needed available : Nat) :
    e ≠ .capacityExceeded needed available := by
  rintro rfl
  cases h

omit [FileSystem] in
theorem sourceSize_ne {e : StoreError} (h : (sourceSize source).run w = (.error e, w)) (needed available : Nat) :
    e ≠ .capacityExceeded needed available := by
  rintro rfl
  have h := congrArg Prod.fst h
  unfold sourceSize at h
  rw [Action.run_bind, Attempt.run_tree] at h
  dsimp only at h
  split at h <;> cases h

/-- **Storing a content** is refused for the lack of room if the chunk is not found and too large. -/
theorem store_full_iff (hl : s.layout? = some l) (hroot : l.root ≠ .blank) :
    ((s.store name content).run w).1 = .error (.capacityExceeded needed available) ↔
      name ≠ [] ∧ content ≠ [] ∧ s.mode.find (l.place name) w.tree = .ok none ∧
        s.tracker.ensureRoom content.length = .error (.capacityExceeded needed available) := by
  have hrun := store_run hl name content w
  generalize (s.store name content).run w = r at hrun
  cases hrun with
  | emptyName hname => simp [hname]
  | emptyContent hname hcontent => simp [hcontent]
  | unreadable hname hcontent f hfind => simp [hfind]
  | unshared hname hcontent e hfind err v hacquire =>
    have hne := ne_capacityExceeded (acquire_error hname hroot hfind hacquire).1 needed available
    simp [hfind, hne]
  | shared hname hcontent e hfind => simp [hfind]
  | full hname hcontent hfind err hroom => simp [hname, hcontent, hfind, hroom]
  | noDir hname hcontent hfind hroom => simp [hroom]
  | unwritten hname hcontent hfind hroom v hdirs err u hwrite =>
    rcases Staging.write_spec (l.dir_place_ne_blank hroot name) (s.mode.path (l.place name) 1) content v with
      ⟨e, cs, -, hfault, herr, -⟩ | ⟨hidden, hok, -⟩
    · rw [hwrite] at herr
      cases herr
      have hne := ne_capacityExceeded hfault needed available
      simp [hroom, hne]
    · rw [hwrite] at hok
      cases hok
  | stored hname hcontent hfind hroom => simp [hroom]

/-- **Storing a file** is refused for the lack of room if the chunk is not found and too large. -/
theorem storeFile_full_iff (hl : s.layout? = some l) (hroot : l.root ≠ .blank) :
    ((s.storeFile name source asked).run w).1 = .error (.capacityExceeded needed available) ↔
      name ≠ [] ∧ ∃ content, w.tree.stat source = .ok (.file content) ∧ content ≠ [] ∧
        s.mode.find (l.place name) w.tree = .ok none ∧
        s.tracker.ensureRoom content.length = .error (.capacityExceeded needed available) := by
  have hrun := storeFile_run hl name source asked w
  generalize (s.storeFile name source asked).run w = r at hrun
  cases hrun with
  | emptyName hname => simp [hname]
  | noSource err hno hsize =>
    simp [hno, sourceSize_ne hsize needed available]
  | emptyContent hsource => simp [hsource]
  | unreadable hname content hsource hcontent f hfind => simp [hfind]
  | unshared hname content hsource hcontent e hfind err v hacquire =>
    have hne := ne_capacityExceeded (acquire_error hname hroot hfind hacquire).1 needed available
    simp [hfind, hne]
  | shared hname content hsource hcontent e hfind => simp [hfind]
  | full hname content hsource hcontent hfind err hroom => simp [hname, hsource, hcontent, hfind, hroom]
  | noDir hname content hsource hcontent hfind hroom => simp [hsource, hroom]
  | renamed hname content hsource hcontent hfind hroom => simp [hsource, hroom]
  | uncopied hname content hsource hcontent hfind hroom v hdirs hasked err u hcopy =>
    rcases Staging.copy_spec (l.dir_place_ne_blank hroot name) source (s.mode.path (l.place name) 1) v with
      ⟨e, cs, -, hfault, herr, -⟩ | ⟨c, hidden, -, hok, -⟩
    · rw [hcopy] at herr
      cases herr
      have hne := ne_capacityExceeded hfault needed available
      simp [hsource, hroom, hne]
    · rw [hcopy] at hok
      cases hok
  | copied hname content hsource hcontent hfind hroom => simp [hsource, hroom]

end FileStore

namespace MemoryStore

variable {m : MemoryStore} {name content : Bytes} {source : Path} {asked : Bool} {needed available : Nat}
  {w : Workspace}

omit [FileSystem] in
theorem store_full_iff :
    m.store name content = .error (.capacityExceeded needed available) ↔
      name ≠ [] ∧ content ≠ [] ∧ m.find? name = none ∧
        m.tracker.ensureRoom content.length = .error (.capacityExceeded needed available) := by
  rcases m.store_spec name content with ⟨hname, he⟩ | ⟨hname, hcontent, he⟩ |
    ⟨hname, hcontent, hnone, e, hroom, he⟩ | ⟨hname, hcontent, m', hok, hstored⟩
  · rw [he]
    simp [hname]
  · rw [he]
    simp [hcontent]
  · simp [hname, hcontent, hnone, hroom, he]
  · rw [hok]
    cases hstored with
    | kept held hmode hfind | shared held hmode hfind => simp [hfind]
    | added hfind hroom => simp [hroom]

omit [FileSystem] in
theorem sourceContent_ne {e : StoreError} (h : (sourceContent source).run w = (.error e, w))
    (needed available : Nat) : e ≠ .capacityExceeded needed available := by
  rintro rfl
  have h := congrArg Prod.fst h
  unfold sourceContent at h
  rw [Action.run_bind, Attempt.run_tree] at h
  dsimp only at h
  split at h <;> cases h

theorem storeFile_full_iff :
    (m.storeFile name source asked w).1.1 = .error (.capacityExceeded needed available) ↔
      name ≠ [] ∧ ∃ content, w.tree.stat source = .ok (.file content) ∧ content ≠ [] ∧ m.find? name = none ∧
        m.tracker.ensureRoom content.length = .error (.capacityExceeded needed available) := by
  have hiff : ∀ content, m.store name content = .error (.capacityExceeded needed available) ↔ _ :=
    fun content => store_full_iff
  have hrun := m.storeFile_run name source asked w
  generalize m.storeFile name source asked w = r at hrun ⊢
  cases hrun with
  | unread e hno hread => simp [hno, sourceContent_ne hread needed available]
  | refused content hstat e hstore =>
    have hiff := hiff content
    rw [hstore] at hiff
    simp only [Except.error.injEq] at hiff ⊢
    rw [hiff]
    simp [hstat]
  | kept content hstat m' hstore | stored content hstat m' hstore =>
    have hiff := hiff content
    rw [hstore] at hiff
    simp only [hstat, Except.ok.injEq, Node.file.injEq, exists_eq_left', reduceCtorEq, false_iff,
      Except.error.injEq] at hiff ⊢
    exact hiff

end MemoryStore

namespace AnyStore

variable {tidy : Prop} {a b : AnyStore} {name content : Bytes} {source : Path} {asked : Bool}
  {needed available : Nat} {t : Tree} {w : Workspace}

/-- Looking for a chunk finds none under a name. -/
def Lacks (w : Workspace) (name : Bytes) : AnyStore → Prop
  | .file s => ∃ place, ((s.find name).run w).1 = .ok (place, none)
  | .memory m => m.find? name = none
  | .fixed _ => False

/-- The number of bytes of all chunks of a store: of the chunk files below its root, or of the contents in its
table. -/
def load (t : Tree) : AnyStore → Nat
  | .file s => match s.layout? with
    | none => 0
    | some l => (Scan.count s.mode t l.root).size
  | .memory m => (MemoryStore.tally m.chunks).size
  | .fixed _ => 0

/-- So many bytes more are too many, and so many would not be. -/
structure Exceeds (t : Tree) (size needed available : Nat) (a : AnyStore) : Prop where
  limited : ChunkStore.capacity a ≠ 0
  exceeded : ChunkStore.capacity a < a.load t + size
  needed : needed = size
  available : available = ChunkStore.capacity a - a.load t

omit [FileSystem] in
theorem InOrder.load_le (h : a.InOrder tidy t) : a.load t ≤ a.tracker.size := by
  cases a with
  | file s =>
    rcases hl : s.layout? with _ | l
    · simp only [load, hl]
      exact Nat.zero_le _
    · have horder := h l hl
      have hcount := congrArg Totals.size (horder.accounts.count horder.lead)
      simp only [load, hl]
      exact hcount.ge
  | memory m => exact (congrArg Totals.size (MemoryStore.Sound.totals h)).ge
  | fixed f => exact Nat.le_refl 0

omit [FileSystem] in
theorem InOrder.load_file {s : FileStore} {l : Layout} (h : (AnyStore.file s).InOrder tidy t)
    (hl : s.layout? = some l) : (AnyStore.file s).load t = s.tracker.size := by
  have horder := h l hl
  have hcount := congrArg Totals.size (horder.accounts.count horder.lead)
  simp only [load, hl]
  exact hcount.symm

omit [FileSystem] in
theorem lacks_file_iff {s : FileStore} :
    (AnyStore.file s).Lacks w name ↔
      ∃ l, s.layout? = some l ∧ name ≠ [] ∧ s.mode.find (l.place name) w.tree = .ok none := by
  show (∃ place, ((s.find name).run w).1 = .ok (place, none)) ↔ _
  rcases hl : s.layout? with _ | l
  · have hrun : (s.find name).run w = (.error .notInitialized, w) := by
      rw [FileStore.find, Action.run_bind, FileStore.run_uninitialized hl]
    rw [hrun]
    simp
  · rw [FileStore.find_eq hl]
    split
    · next hname => simp [hname]
    · next hname =>
      rcases hfind : s.mode.find (l.place name) w.tree with f | r
      · simp [hfind]
      · cases r <;> simp [hname, hfind]

theorem exceeds_iff (hword : ChunkStore.capacity a < wordLimit) (hload : a.load t = a.tracker.size) {n : Nat} :
    a.tracker.ensureRoom n = .error (.capacityExceeded needed available) ↔ a.Exceeds t n needed available := by
  rw [capacity_eq] at hword
  rw [Tracker.ensureRoom_eq_error_iff hword, StoreError.capacityExceeded.injEq]
  constructor
  · rintro ⟨hzero, hlt, rfl, rfl⟩
    exact ⟨by rwa [capacity_eq], by rwa [capacity_eq, hload], rfl, by rw [capacity_eq, hload]⟩
  · rintro ⟨hzero, hlt, rfl, rfl⟩
    rw [capacity_eq] at hzero hlt ⊢
    rw [hload] at hlt ⊢
    exact ⟨hzero, hlt, rfl, rfl⟩

/-! ### Stores of any kind -/

theorem store_file_error_iff {s : FileStore} {e : StoreError} :
    ((AnyStore.file s).store name content w).1.1 = .error e ↔ ((s.store name content).run w).1 = .error e := by
  rcases hrun : (s.store name content).run w with ⟨e' | s', v⟩
  · rw [store_file_error hrun]
    simp
  · rw [store_file_ok hrun]
    simp

theorem storeFile_file_error_iff {s : FileStore} {e : StoreError} :
    ((AnyStore.file s).storeFile name source asked w).1.1 = .error e ↔
      ((s.storeFile name source asked).run w).1 = .error e := by
  rcases hrun : (s.storeFile name source asked).run w with ⟨e' | s', v⟩
  · rw [storeFile_file_error hrun]
    simp
  · rw [storeFile_file_ok hrun]
    simp

theorem store_memory_error_iff {m : MemoryStore} {e : StoreError} :
    ((AnyStore.memory m).store name content w).1.1 = .error e ↔ m.store name content = .error e := by
  rcases hstore : m.store name content with e' | m'
  · rw [store_memory_of_error hstore]
    simp
  · rw [store_memory_of_ok hstore]
    simp

/-- **Storing a content** is refused for the lack of room exactly if the chunk is not found and too large. -/
theorem store_full_iff (ha : a.InOrder tidy w.tree) (hword : ChunkStore.capacity a < wordLimit) :
    (a.store name content w).1.1 = .error (.capacityExceeded needed available) ↔
      name ≠ [] ∧ content ≠ [] ∧ a.Lacks w name ∧ a.Exceeds w.tree content.length needed available := by
  cases a with
  | file s =>
    rw [store_file_error_iff, lacks_file_iff]
    rcases hl : s.layout? with _ | l
    · rw [FileStore.store_uninitialized hl]
      simp
    · rw [FileStore.store_full_iff hl (Layout.root_ne_blank (ha l hl).lead),
        ← exceeds_iff hword (InOrder.load_file ha hl)]
      simp only [Option.some.injEq, exists_eq_left', tracker]
      tauto
  | memory m =>
    have hload : (AnyStore.memory m).load w.tree = m.tracker.size :=
      (congrArg Totals.size (MemoryStore.Sound.totals ha)).symm
    rw [store_memory_error_iff, MemoryStore.store_full_iff, ← exceeds_iff hword hload]
    rfl
  | fixed f => exact ⟨fun h => (by cases h), fun ⟨_, _, h, _⟩ => h.elim⟩

/-- **Storing a file** is refused for the lack of room exactly if the chunk is not found and too large. -/
theorem storeFile_full_iff (ha : a.InOrder tidy w.tree) (hword : ChunkStore.capacity a < wordLimit) :
    (a.storeFile name source asked w).1.1 = .error (.capacityExceeded needed available) ↔
      name ≠ [] ∧ ∃ content, w.tree.stat source = .ok (.file content) ∧ content ≠ [] ∧ a.Lacks w name ∧
        a.Exceeds w.tree content.length needed available := by
  cases a with
  | file s =>
    rw [storeFile_file_error_iff, lacks_file_iff]
    rcases hl : s.layout? with _ | l
    · rw [FileStore.storeFile_uninitialized hl]
      simp
    · rw [FileStore.storeFile_full_iff hl (Layout.root_ne_blank (ha l hl).lead)]
      simp only [← exceeds_iff hword (InOrder.load_file ha hl), Option.some.injEq, exists_eq_left', tracker]
      refine and_congr_right fun hname => exists_congr fun c => ?_
      tauto
  | memory m =>
    have hload : (AnyStore.memory m).load w.tree = m.tracker.size :=
      (congrArg Totals.size (MemoryStore.Sound.totals ha)).symm
    simp only [← exceeds_iff hword hload]
    exact MemoryStore.storeFile_full_iff
  | fixed f => exact ⟨fun h => (by cases h), fun ⟨_, _, _, _, h, _⟩ => h.elim⟩

theorem store_refused (ha : a.InOrder tidy w.tree) {e : StoreError} (h : (a.store name content w).1.1 = .error e)
    (he : e.isFault = false) : ∃ v, a.store name content w = ((.error e, a), v) ∧ v.tree = w.tree := by
  cases a with
  | file s =>
    rcases hrun : (s.store name content).run w with ⟨e' | s', v⟩
    · rw [store_file_error hrun] at h ⊢
      cases h
      refine ⟨v, rfl, ?_⟩
      rcases hl : s.layout? with _ | l
      · rw [FileStore.store_uninitialized hl] at hrun
        cases hrun
        rfl
      · exact (FileStore.store_error hl (Layout.root_ne_blank (ha l hl).lead) hrun).refusal he
    · rw [store_file_ok hrun] at h
      cases h
  | memory m =>
    rcases hrun : (AnyStore.memory m).store name content w with ⟨⟨r, s'⟩, v⟩
    rw [hrun] at h
    cases h
    obtain ⟨rfl, rfl⟩ := store_memory_error hrun
    exact ⟨_, rfl, rfl⟩
  | fixed f =>
    cases h
    exact ⟨w, rfl, rfl⟩

theorem storeFile_refused (ha : a.InOrder tidy w.tree) {e : StoreError}
    (h : (a.storeFile name source asked w).1.1 = .error e) (he : e.isFault = false) :
    ∃ v, a.storeFile name source asked w = ((.error e, a), v) ∧ v.tree = w.tree := by
  cases a with
  | file s =>
    rcases hrun : (s.storeFile name source asked).run w with ⟨e' | s', v⟩
    · rw [storeFile_file_error hrun] at h ⊢
      cases h
      refine ⟨v, rfl, ?_⟩
      rcases hl : s.layout? with _ | l
      · rw [FileStore.storeFile_uninitialized hl] at hrun
        cases hrun
        rfl
      · exact (FileStore.storeFile_error hl (Layout.root_ne_blank (ha l hl).lead) hrun).refusal he
    · rw [storeFile_file_ok hrun] at h
      cases h
  | memory m =>
    rcases hrun : (AnyStore.memory m).storeFile name source asked w with ⟨⟨r, s'⟩, v⟩
    rw [hrun] at h
    cases h
    obtain ⟨rfl, rfl | ⟨hfault, -⟩⟩ := storeFile_memory_error hrun
    · exact ⟨_, rfl, rfl⟩
    · rw [he] at hfault
      cases hfault
  | fixed f =>
    cases h
    exact ⟨w, rfl, rfl⟩

theorem storeFile_missing (hm : a.mode? ≠ none) (hno : ∀ c, w.tree.stat source ≠ .ok (.file c)) :
    ∃ e v, a.storeFile name source asked w = ((.error e, a), v) ∧ v.tree = w.tree := by
  cases a with
  | file s =>
    rcases hl : s.layout? with _ | l
    · exact ⟨_, w, storeFile_file_error (FileStore.storeFile_uninitialized hl name source asked w), rfl⟩
    · have hrun := FileStore.storeFile_run hl name source asked w
      generalize hr : (s.storeFile name source asked).run w = r at hrun
      cases hrun with
      | emptyName => exact ⟨_, w, storeFile_file_error hr, rfl⟩
      | noSource => exact ⟨_, w, storeFile_file_error hr, rfl⟩
      | emptyContent hsource => exact absurd hsource (hno _)
      | unreadable hname c hsource | unshared hname c hsource | shared hname c hsource
      | full hname c hsource | noDir hname c hsource | renamed hname c hsource | uncopied hname c hsource
      | copied hname c hsource => exact absurd hsource (hno c)
  | memory m =>
    have hrun := m.storeFile_run name source asked w
    rw [storeFile_memory]
    generalize m.storeFile name source asked w = r at hrun ⊢
    cases hrun with
    | unread e => exact ⟨e, w, rfl, rfl⟩
    | refused c hstat | kept c hstat | stored c hstat => exact absurd hstat (hno c)
  | fixed f => exact absurd rfl hm

/-! ### Moves for which there is no room -/

/-- A store that fails to store a content does not take it from a move. -/
theorem sink_store_error (hm : a.mode? ≠ none) {e : StoreError} {v : Workspace}
    (h : a.store name content w = ((.error e, a), v)) :
    ∃ x, Sink.store a name content w = ((false, a), x) ∧ x.tree = v.tree := by
  refine ⟨(Action.report (.ofError .store name e) v).2, ?_, rfl⟩
  cases a with
  | file s =>
    show after .file (Attempt.settled .store name s (s.store name content)) w = _
    rcases hrun : (s.store name content).run w with ⟨e' | s', v'⟩
    · rw [store_file_error hrun] at h
      cases h
      unfold after
      rw [Action.bind_apply, Attempt.settled_of_error hrun]
      rfl
    · rw [store_file_ok hrun] at h
      cases h
  | memory m =>
    have herr := store_memory_error_iff.mp (congrArg (fun r => r.1.1) h)
    obtain ⟨-, rfl⟩ := store_memory_error h
    show after .memory (Sink.store m name content) v = _
    unfold after
    rw [Action.bind_apply, MemoryStore.settled_store, herr]
    rfl
  | fixed f => exact absurd rfl hm

/-- A store that fails to store a file does not take it from a move. -/
theorem sink_storeFile_error (hm : a.mode? ≠ none) {e : StoreError} {v : Workspace}
    (h : a.storeFile name source asked w = ((.error e, a), v)) :
    ∃ x, Sink.storeFile a name source asked w = ((false, a), x) ∧ x.tree = v.tree := by
  refine ⟨(Action.report (.ofError .storeFile name e) v).2, ?_, rfl⟩
  cases a with
  | file s =>
    show after .file (Attempt.settled .storeFile name s (s.storeFile name source asked)) w = _
    rcases hrun : (s.storeFile name source asked).run w with ⟨e' | s', v'⟩
    · rw [storeFile_file_error hrun] at h
      cases h
      unfold after
      rw [Action.bind_apply, Attempt.settled_of_error hrun]
      rfl
    · rw [storeFile_file_ok hrun] at h
      cases h
  | memory m =>
    rcases hrun : m.storeFile name source asked w with ⟨⟨r, m'⟩, v'⟩
    rw [storeFile_memory, hrun] at h
    cases h
    show after .memory (Sink.storeFile _ name source asked) w = _
    unfold after
    rw [Action.bind_apply, MemoryStore.sink_of_error hrun]
    rfl
  | fixed f => exact absurd rfl hm

end AnyStore

theorem FileStore.moveTo_refused {s : FileStore} {l : Layout} (hl : s.layout? = some l) {name : Bytes}
    {b : AnyStore} {w : Workspace}
    (h : ∀ e, name ≠ [] → s.mode.find (l.place name) w.tree = .ok (some e) →
      ∃ v, Sink.storeFile b name e.path (e.count ≤ 1) w = ((false, b), v) ∧ v.tree = w.tree) :
    ∃ v, ChunkStore.moveTo s name b w = ((false, s, b), v) ∧ v.tree = w.tree := by
  rw [moveTo_apply]
  have hrun := moveTo_run hl name b w
  generalize s.moveTo name b w = r at hrun
  cases hrun with
  | missing => exact ⟨_, rfl, rfl⟩
  | refused hname e hfind b' v hsink =>
    obtain ⟨x, hx, htree⟩ := h e hname hfind
    rw [hsink] at hx
    cases hx
    exact ⟨_, rfl, htree⟩
  | taken hname e hfind b' v hsink =>
    obtain ⟨x, hx, -⟩ := h e hname hfind
    rw [hsink] at hx
    cases hx

theorem MemoryStore.moveTo_refused {m : MemoryStore} {name : Bytes} {b : AnyStore} {w : Workspace}
    (h : ∀ chunk, m.find? name = some chunk →
      ∃ v, Sink.store b name chunk.content w = ((false, b), v) ∧ v.tree = w.tree) :
    ∃ v, ChunkStore.moveTo m name b w = ((false, m, b), v) ∧ v.tree = w.tree := by
  simp only [ChunkStore.moveTo, moveTo, get, Action.bind_apply]
  rcases hfind : m.find? name with _ | chunk
  · exact ⟨_, rfl, rfl⟩
  · obtain ⟨v, hsink, htree⟩ := h chunk hfind
    simp only [Action.bind_apply, hsink]
    exact ⟨_, rfl, htree⟩

/-- **A move** of a chunk that is too large for the sink changes nothing. -/
theorem AnyStore.moveTo_full {tidy : Prop} {a b : AnyStore} {name : Bytes} {chunk : Held} {w : Workspace}
    {needed available : Nat} (ha : a.InOrder tidy w.tree) (hword : ChunkStore.capacity a < wordLimit)
    (hname : name ≠ []) (hlacks : a.Lacks w name) (hheld : b.held? w.tree name = some chunk)
    (hcontent : chunk.content ≠ [])
    (hfull : a.Exceeds w.tree chunk.content.length needed available) :
    ∃ v, ChunkStore.moveTo b name a w = ((false, b, a), v) ∧ v.tree = w.tree := by
  have hm : a.mode? ≠ none := by
    cases a with
    | file | memory => exact fun h => by cases h
    | fixed => exact hlacks.elim
  cases b with
  | file s =>
    rw [moveTo_file]
    rcases hl : s.layout? with _ | l
    · have hnone : (AnyStore.file s).held? w.tree name = none := by
        show s.held? w.tree name = none
        rw [FileStore.held?, hl]
      rw [hnone] at hheld
      cases hheld
    · obtain ⟨v, hmove, htree⟩ : ∃ v, ChunkStore.moveTo s name a w = ((false, s, a), v) ∧ v.tree = w.tree := by
        refine FileStore.moveTo_refused hl fun e _ hfind => ?_
        have hkey : w.tree.kind? e.path.key = some (.file chunk.content) := by
          have hheld : s.held? w.tree name = some chunk := hheld
          simp only [FileStore.held?, hl, hname, if_false, hfind, Option.map_eq_some_iff] at hheld
          obtain ⟨c, hc, rfl⟩ := hheld
          exact Tree.content?_eq_some_iff.mp hc
        by_cases hstat : ∃ c, w.tree.stat e.path = .ok (.file c)
        · obtain ⟨c, hstat⟩ := hstat
          have hc := FileStore.kind?_of_stat hstat
          rw [hkey] at hc
          cases hc
          have herror : (a.storeFile name e.path (e.count ≤ 1) w).1.1 =
              .error (.capacityExceeded needed available) :=
            (storeFile_full_iff ha hword).mpr ⟨hname, _, hstat, hcontent, hlacks, hfull⟩
          obtain ⟨v, hrun, htree⟩ := storeFile_refused ha herror rfl
          obtain ⟨x, hsink, hx⟩ := sink_storeFile_error hm hrun
          exact ⟨x, hsink, hx.trans htree⟩
        · obtain ⟨err, v, hrun, htree⟩ := storeFile_missing hm fun c hc => hstat ⟨c, hc⟩
          obtain ⟨x, hsink, hx⟩ := sink_storeFile_error hm hrun
          exact ⟨x, hsink, hx.trans htree⟩
      exact ⟨v, by rw [hmove], htree⟩
  | memory m =>
    rw [moveTo_memory]
    obtain ⟨v, hmove, htree⟩ : ∃ v, ChunkStore.moveTo m name a w = ((false, m, a), v) ∧ v.tree = w.tree := by
      refine MemoryStore.moveTo_refused fun chunk' hfind => ?_
      have hfind' : m.find? name = some chunk := hheld
      rw [hfind'] at hfind
      cases hfind
      have herror := (store_full_iff ha hword).mpr ⟨hname, hcontent, hlacks, hfull⟩
      obtain ⟨v, hrun, htree⟩ := store_refused ha herror rfl
      obtain ⟨x, hsink, hx⟩ := sink_store_error hm hrun
      exact ⟨x, hsink, hx.trans htree⟩
    exact ⟨v, by rw [hmove], htree⟩
  | fixed f => cases hheld

/-! ### Sessions -/

namespace Session

/-- The budget of a store of a session is enforced. -/
structure Budgeted (s : Session) (id : String) (a : AnyStore) : Prop where
  /-- A content is refused for the lack of room if its chunk is not found and too large, and not otherwise. -/
  store : ∀ name content needed available,
    (a.store name content s.workspace).1.1 = .error (.capacityExceeded needed available) ↔
      name ≠ [] ∧ content ≠ [] ∧ a.Lacks s.workspace name ∧
        a.Exceeds s.workspace.tree content.length needed available
  /-- So is a file. -/
  storeFile : ∀ name source asked needed available,
    (a.storeFile name source asked s.workspace).1.1 = .error (.capacityExceeded needed available) ↔
      name ≠ [] ∧ ∃ content, s.workspace.tree.stat source = .ok (.file content) ∧ content ≠ [] ∧
        a.Lacks s.workspace name ∧ a.Exceeds s.workspace.tree content.length needed available
  /-- Then nothing has changed. -/
  same : ∀ name content needed available,
    (a.store name content s.workspace).1.1 = .error (.capacityExceeded needed available) →
      (a.store name content s.workspace).1.2 = a ∧
        (a.store name content s.workspace).2.tree = s.workspace.tree
  sameFile : ∀ name source asked needed available,
    (a.storeFile name source asked s.workspace).1.1 = .error (.capacityExceeded needed available) →
      (a.storeFile name source asked s.workspace).1.2 = a ∧
        (a.storeFile name source asked s.workspace).2.tree = s.workspace.tree
  /-- A move of a chunk that is not found and too large changes nothing either. -/
  moved : ∀ sourceId b name chunk needed available, sourceId ≠ id → s.store? sourceId = some b →
    name ≠ [] → b.held? s.workspace.tree name = some chunk → chunk.content ≠ [] →
    a.Lacks s.workspace name → a.Exceeds s.workspace.tree chunk.content.length needed available →
      (Session.moveTo sourceId name id s).1 = some false ∧
        (Session.moveTo sourceId name id s).2.workspace.tree = s.workspace.tree ∧
        ∀ other, (Session.moveTo sourceId name id s).2.store? other = s.store? other
  /-- Whatever is done but taking a root: if the store counts more bytes after it, it has no more than it may. -/
  within : ∀ d : Deed, d.Fits False s → (d.run s).Bounded → (∀ root depth, d ≠ .start id root depth) →
    ∀ a', (d.run s).store? id = some a' → ChunkStore.size a < ChunkStore.size a' →
      ChunkStore.capacity a' = 0 ∨ a'.load (d.run s).workspace.tree ≤ ChunkStore.capacity a'
  /-- Another capacity changes no chunk and no count. -/
  limited : ∀ capacity, ∃ a', (Deed.run s (.call id (.setCapacity capacity))).store? id = some a' ∧
    ChunkStore.capacity a' = capacity ∧ a'.totals = a.totals ∧
    (Deed.run s (.call id (.setCapacity capacity))).workspace.tree = s.workspace.tree ∧
    ∀ name, a'.held? s.workspace.tree name = a.held? s.workspace.tree name

variable {tidy : Prop} {s : Session} {id : String} {a a' : AnyStore}

/-- **One deed** keeps a store within its capacity, unless the store takes a root. -/
theorem Good.within (h : s.Good tidy) {d : Deed} (hfits : d.Fits tidy s)
    (hstart : ∀ root depth, d ≠ .start id root depth) (ha : s.store? id = some a)
    (ha' : (d.run s).store? id = some a') : a.tracker.Within a'.tracker := by
  cases Deed.became ha ha' with
  | same => exact Tracker.within_of_le le_rfl
  | started root depth => exact absurd rfl (hstart root depth)
  | called c =>
    exact AnyStore.call_within (h.inOrder id a ha) (fun p hp => h.clear_of ha hp) h.proper c
      fun p hp => hfits.1 id p ((root?_of_store? ha).trans hp)
  | gave name hne hb =>
    exact (AnyStore.moveTo_within (h.inOrder id a ha) (h.inOrder _ _ hb)
      (fun p q hp hq => h.beside_of (Ne.symm hne) hb ha hq hp) name).1
  | got name hne hb =>
    exact (AnyStore.moveTo_within (h.inOrder _ _ hb) (h.inOrder id a ha)
      (fun p q hp hq => h.beside_of (Ne.symm hne) ha hb hq hp) name).2

theorem setCapacity_held (hm : a.mode? ≠ none) (capacity : Nat) (t : Tree) :
    ChunkStore.capacity (ChunkStore.setCapacity a capacity) = capacity ∧
      (ChunkStore.setCapacity a capacity).totals = a.totals ∧
      ∀ name, (ChunkStore.setCapacity a capacity).held? t name = a.held? t name := by
  cases a with
  | file s => exact ⟨rfl, rfl, fun _ => rfl⟩
  | memory m => exact ⟨rfl, rfl, fun _ => rfl⟩
  | fixed f => exact absurd rfl hm

end Session

/-- **The budget.**  In every session that is reached, take a store that holds chunks, with any capacity that
is a word.  A content or a file is refused for the lack of room exactly if its chunk is not found and the
bytes of all chunks together with its own are more than the capacity; the store says how many bytes it would
have needed and how many it has left, and nothing has changed.  A move to the store is refused for the same
reason.  Whenever something else than taking a root makes the store count more bytes, all its chunks together
have no more bytes than the capacity.  Another capacity, however low, changes no chunk. -/
theorem budget_enforced {s : Session} (h : Session.Reach False s) {id : String} {a : AnyStore}
    (ha : s.store? id = some a) {m : Mode} (hm : a.mode? = some m) (hword : ChunkStore.capacity a < wordLimit) :
    s.Budgeted id a := by
  have hgood := h.good
  have horder := hgood.inOrder id a ha
  have hmode : a.mode? ≠ none := by
    rw [hm]
    exact Option.some_ne_none m
  refine ⟨fun _ _ _ _ => AnyStore.store_full_iff horder hword,
    fun _ _ _ _ _ => AnyStore.storeFile_full_iff horder hword, fun name content needed available hfull => ?_,
    fun name source asked needed available hfull => ?_, ?_, ?_, fun capacity => ?_⟩
  · obtain ⟨v, hrun, htree⟩ := AnyStore.store_refused horder hfull rfl
    rw [hrun]
    exact ⟨rfl, htree⟩
  · obtain ⟨v, hrun, htree⟩ := AnyStore.storeFile_refused horder hfull rfl
    rw [hrun]
    exact ⟨rfl, htree⟩
  · intro sourceId b name chunk needed available hne hb hname hheld hcontent hlacks hfull
    obtain ⟨v, hmove, htree⟩ := AnyStore.moveTo_full horder hword hname hlacks hheld hcontent hfull
    rw [Session.moveTo_apply name hne hb ha, hmove]
    refine ⟨rfl, htree, fun other => ?_⟩
    rw [Session.store?_put, Session.store?_put]
    split
    · next e => rw [e, ha]
    · split
      · next e => rw [e, hb]
      · rfl
  · intro d hfits hbounded hstart a' ha' hmore
    have horder' := (h.step d hfits hbounded).good.inOrder id a' ha'
    rw [AnyStore.size_eq, AnyStore.size_eq] at hmore
    rw [AnyStore.capacity_eq]
    exact (hgood.within hfits hstart ha ha' hmore).imp_right horder'.load_le.trans
  · have hrun := Deed.run_call (.setCapacity capacity) ha
    rw [hrun]
    obtain ⟨hcapacity, htotals, hheld⟩ := Session.setCapacity_held hmode capacity s.workspace.tree
    exact ⟨_, by rw [Session.store?_put, if_pos rfl]; rfl, hcapacity, htotals, rfl, hheld⟩

end

namespace Trial

/-- The file store of the session may hold one more byte. -/
def limited : Session := Deed.run session (.call "a" (.setCapacity 3))

theorem reach_limited (tidy : Prop) : Session.Reach tidy limited :=
  (reach tidy).step _ ⟨fun _ _ _ _ hp => absurd hp List.not_mem_nil, fun _ _ _ hn => by cases hn⟩
    (Session.bounded_of_forall (by decide +kernel))

end Trial

/-- A counted store with a chunk of two bytes has a capacity of three: another chunk of two bytes is refused. -/
theorem budget_enforced_limited :
    ∃ a, Trial.limited.store? "a" = some a ∧ ChunkStore.capacity a = 3 ∧
      (a.store [110] [99, 100] Trial.limited.workspace).1.1 = .error (.capacityExceeded 2 1) ∧
      Trial.limited.Budgeted "a" a := by
  obtain ⟨a, ha⟩ : ∃ a, Trial.limited.store? "a" = some a := Option.isSome_iff_exists.mp (by decide +kernel)
  have hm : (Trial.limited.store? "a").bind AnyStore.mode? = some .counted := by decide +kernel
  have hcapacity : (Trial.limited.store? "a").map ChunkStore.capacity = some 3 := by decide +kernel
  have hfull : (Trial.limited.store? "a").map (fun a => (a.store [110] [99, 100] Trial.limited.workspace).1.1) =
      some (.error (.capacityExceeded 2 1)) := by decide +kernel
  rw [ha] at hm hcapacity hfull
  have hcapacity := Option.some.inj hcapacity
  refine ⟨a, ha, hcapacity, Option.some.inj hfull, budget_enforced (Trial.reach_limited False) ha hm ?_⟩
  rw [hcapacity]
  decide

namespace Detour

/-- Two file stores.  The root of the first leads through that of the second, which is cleared; then the first
one is cleared, which fails. -/
def cleared : Session :=
  [.start "a" root 0, .call "a" (.setCapacity 5), .start "b" (Path.ofText "r2") 0,
    .call "a" (.store [107] [97, 98, 99]), .call "b" .clear, .call "a" .clear].foldl Deed.run
    ⟨[("a", .file (.new false (.ofDigest id))), ("b", .file (.new false (.ofDigest id)))], .bare⟩

/-- The first one stores another chunk. -/
def crowded : Session := Deed.run cleared (.call "a" (.store [110] [100, 101, 102, 103, 104]))

end Detour

/-- Two stores with roots of which neither lies in the other: the first one has five bytes for a capacity,
counts none, stores five, counts them, and has eight. -/
theorem budget_exceeded_detour :
    Detour.root.key.Apart (Path.ofText "r2").key ∧
    (Detour.cleared.store? "a").map AnyStore.totals = some ⟨0, 0⟩ ∧
    (Detour.crowded.store? "a").map ChunkStore.capacity = some 5 ∧
    (Detour.crowded.store? "a").map AnyStore.totals = some ⟨1, 5⟩ ∧
    (Detour.crowded.store? "a").map (AnyStore.load Detour.crowded.workspace.tree) = some 8 := by
  decide +kernel

end ContentStore
