import ContentStore.Proofs.Sessions

/-!
# Nothing depends on the past but by way of the tree

A workspace keeps every change that was made and every event that was reported.  No operation looks at
either: what it answers and what it makes of the tree follows from the tree it finds.
-/

namespace ContentStore

/-- What an action answers, and what it makes of the tree, follows from the tree. -/
def Action.Oblivious {α : Type} (a : Action α) : Prop :=
  ∀ w v : Workspace, w.tree = v.tree → (a w).1 = (a v).1 ∧ (a w).2.tree = (a v).2.tree

namespace Action.Oblivious

variable {ε α β : Type}

/-! ### The parts of an action -/

theorem pure (x : α) : Oblivious (Pure.pure x) := fun _ _ h => ⟨rfl, h⟩

theorem bind {a : Action α} {f : α → Action β} (ha : Oblivious a) (hf : ∀ x, Oblivious (f x)) :
    Oblivious (a >>= f) := by
  intro w v h
  obtain ⟨hx, htree⟩ := ha w v h
  rw [bind_apply, bind_apply, hx]
  exact hf _ _ _ htree

theorem commit (c : Change) : Oblivious (Action.commit c) :=
  fun _ _ h => ⟨rfl, congrArg (fun t => t.apply c) h⟩

theorem report (e : Event) : Oblivious (Action.report e) := fun _ _ h => ⟨rfl, h⟩

theorem tree : Oblivious Action.tree := fun _ _ h => ⟨h, h⟩

theorem forM {f : α → Action PUnit} (hf : ∀ x, Oblivious (f x)) (xs : List α) : Oblivious (xs.forM f) := by
  induction xs with
  | nil => exact pure _
  | cons x xs ih => exact bind (hf x) fun _ => ih

/-! ### Actions that may fail -/

theorem run_pure (x : α) : Oblivious (Pure.pure x : ExceptT ε Action α).run := fun _ _ h => ⟨rfl, h⟩

theorem run_throw (e : ε) : Oblivious (throw e : ExceptT ε Action α).run := fun _ _ h => ⟨rfl, h⟩

theorem throw_bind (e : ε) (f : α → ExceptT ε Action β) : Oblivious (throw e >>= f).run :=
  fun _ _ h => ⟨rfl, h⟩

theorem run_bind {a : ExceptT ε Action α} {f : α → ExceptT ε Action β} (ha : Oblivious a.run)
    (hf : ∀ x, Oblivious (f x).run) : Oblivious (a >>= f).run := by
  intro w v h
  obtain ⟨hx, htree⟩ := ha w v h
  rw [Action.run_bind, Action.run_bind]
  rcases hw : a.run w with ⟨r, w'⟩
  rcases hv : a.run v with ⟨r', v'⟩
  rw [hw, hv] at hx htree
  cases hx
  cases r with
  | error e => exact ⟨rfl, htree⟩
  | ok x => exact hf x w' v' htree

theorem run_lift {a : Action α} (ha : Oblivious a) : Oblivious (liftM a : ExceptT ε Action α).run := by
  intro w v h
  obtain ⟨hx, htree⟩ := ha w v h
  rw [Action.run_lift, Action.run_lift]
  exact ⟨congrArg Except.ok hx, htree⟩

theorem run_except (x : Except ε α) : Oblivious (liftM x : ExceptT ε Action α).run := by
  intro w v h
  rw [Action.run_except, Action.run_except]
  exact ⟨rfl, h⟩

theorem run_ask (f : Tree → Except Fault α) : Oblivious (Request.ask f).run := by
  intro w v h
  rw [Action.run_ask, Action.run_ask]
  exact ⟨congrArg f h, h⟩

theorem run_file {r : Request α} (hr : Oblivious r.run) : Oblivious (liftM r : Attempt α).run := by
  intro w v h
  obtain ⟨hx, htree⟩ := hr w v h
  rw [Action.run_file, Action.run_file]
  rcases hw : r.run w with ⟨x, w'⟩
  rcases hv : r.run v with ⟨x', v'⟩
  rw [hw, hv] at hx htree
  cases hx
  cases x <;> exact ⟨rfl, htree⟩

theorem run_forM {f : α → ExceptT ε Action PUnit} (hf : ∀ x, Oblivious (f x).run) (xs : List α) :
    Oblivious (xs.forM f).run := by
  induction xs with
  | nil => exact run_pure _
  | cons x xs ih => exact run_bind (hf x) fun _ => ih

/-! ### Scans -/

theorem scan (m : Mode) (root : Path) : Oblivious (Scan.run m root) := by
  unfold Scan.run
  refine bind tree fun t => ?_
  split
  · exact bind (report _) fun _ => pure _
  · exact bind (forM report _) fun _ => bind (report _) fun _ => pure _

/-! ### Attempts -/

theorem granted {r : Request Unit} (hr : Oblivious r.run) : Oblivious (Attempt.granted r) :=
  bind hr fun _ => pure _

theorem outcome (op : Operation) (name : Bytes) (r : Except StoreError α) :
    Oblivious (Attempt.outcome op name r) := by
  cases r with
  | ok x => exact pure _
  | error e => exact bind (report _) fun _ => pure _

theorem reported {a : Attempt α} (ha : Oblivious a.run) (op : Operation) (name : Bytes) :
    Oblivious (a.reported op name) :=
  bind ha fun r => outcome op name r

theorem settled {a : Attempt α} (ha : Oblivious a.run) (op : Operation) (name : Bytes) (before : α) :
    Oblivious (Attempt.settled op name before a) := by
  refine bind (reported ha op name) fun r => ?_
  cases r with
  | some after => exact pure _
  | none => exact pure _

/-! ### Requests -/

theorem perform (plan : Tree → Except Fault Change) : Oblivious (Request.perform plan).run :=
  run_bind (run_ask plan) fun c => run_lift (commit c)

theorem fill (k : Key) (content : Bytes) : Oblivious (Request.fill k content) :=
  forM (fun _ => commit _) _

theorem removeKeys (keys : List Key) : Oblivious (Request.removeKeys keys) := forM (fun _ => commit _) keys

variable [FileSystem]

theorem makeUnlessDir (p : Path) : Oblivious (Request.makeUnlessDir p).run := by
  unfold Request.makeUnlessDir
  refine run_bind (run_lift tree) fun t => ?_
  split
  · exact run_lift (commit _)
  · split
    · exact run_pure _
    · exact run_throw _

theorem makeDirFrom (p : Path) (parents : List Path) : Oblivious (Request.makeDirFrom p parents).run := by
  induction parents generalizing p with
  | nil =>
    unfold Request.makeDirFrom
    split
    · exact run_pure _
    · exact makeUnlessDir p
  | cons parent parents ih =>
    unfold Request.makeDirFrom
    refine run_bind (run_lift tree) fun t => ?_
    split
    · exact run_bind (ih parent) fun _ => makeUnlessDir p
    · exact makeUnlessDir p

theorem makeDirs (p : Path) : Oblivious (Request.makeDirs p).run := makeDirFrom p p.parents

theorem write (p : Path) (content : Bytes) : Oblivious (Request.write p content).run :=
  run_bind (run_ask _) fun k => run_bind (run_lift (commit _)) fun _ => run_lift (fill k content)

theorem unlink (p : Path) : Oblivious (Request.unlink p).run := perform _

theorem rename (old new : Path) : Oblivious (Request.rename old new).run := perform _

theorem removeAll (k : Key) (inner : Listing) : Oblivious (Request.removeAll k inner).run := by
  unfold Request.removeAll
  refine run_bind (run_lift (removeKeys _)) fun _ => ?_
  split
  · exact run_throw _
  · exact run_pure _

theorem removeDir (p : Path) : Oblivious (Request.removeDir p).run := by
  unfold Request.removeDir
  refine run_bind (run_ask _) fun s => ?_
  split
  · exact run_bind (removeAll _ _) fun _ => run_throw _
  · refine run_bind (run_lift tree) fun t => ?_
    split
    · exact run_bind (removeAll _ _) fun _ => run_throw _
    · exact run_throw _
  · refine run_bind (run_ask _) fun found => ?_
    split
    · exact run_throw _
    · exact run_throw _
    · exact removeAll _ _

theorem emptyDir (p : Path) : Oblivious (Request.emptyDir p).run := by
  unfold Request.emptyDir
  refine run_bind (run_ask _) fun inner => run_forM (fun e => ?_) inner.toList
  obtain ⟨name, node⟩ := e
  cases node with
  | dir inner => exact removeDir _
  | file content => exact unlink _

/-! ### Files that appear whole -/

theorem newHidden (dir : Path) : Oblivious (Staging.newHidden dir).run := by
  unfold Staging.newHidden
  refine run_bind (run_lift tree) fun t => ?_
  refine run_bind (run_ask _) fun key => ?_
  exact run_bind (run_lift (commit _)) fun _ => run_pure _

theorem finish (h : Staging.Hidden) (target : Path) : Oblivious (Staging.finish h target).run := by
  unfold Staging.finish
  refine run_bind (run_lift tree) fun t => ?_
  split
  · exact run_lift (commit _)
  · exact run_bind (run_lift (commit _)) fun _ => run_throw _

theorem stagingWrite (dir target : Path) (content : Bytes) :
    Oblivious (Staging.write dir target content).run :=
  run_bind (run_file (newHidden dir)) fun h =>
    run_bind (run_lift (fill h.key content)) fun _ => finish h target

theorem copy (dir source target : Path) : Oblivious (Staging.copy dir source target).run := by
  unfold Staging.copy
  refine run_bind (run_file (run_ask _)) fun node => run_bind (run_file (newHidden dir)) fun h => ?_
  cases node with
  | dir inner => exact run_bind (run_lift (commit _)) fun _ => run_throw _
  | file content =>
    exact run_bind (run_lift (fill _ _)) fun _ => run_bind (finish h target) fun _ => run_pure _

/-! ### References -/

theorem acquire (m : Mode) (l : Location) (e : Entry) : Oblivious (m.acquire l e).run := by
  cases m with
  | plain => exact run_pure _
  | counted =>
    exact run_bind (run_file (rename _ _)) fun _ => run_bind (run_lift (report _)) fun _ => run_pure _

theorem release (m : Mode) (l : Location) (e : Entry) : Oblivious (m.release l e).run := by
  unfold Mode.release
  split
  · exact run_bind (run_file (rename _ _)) fun _ => run_bind (run_lift (report _)) fun _ => run_pure _
  · exact run_bind (run_file (unlink _)) fun _ => run_bind (run_lift (report _)) fun _ => run_pure _

end Action.Oblivious

/-! ### File stores -/

open Action (Oblivious)

namespace FileStore

variable (s : FileStore) (name : Bytes)

theorem find_oblivious : Oblivious (s.find name).run :=
  .run_bind (.run_except _) fun _ => .run_bind (.run_except _) fun _ =>
    .run_bind (.run_file (.run_ask _)) fun _ => .run_pure _

theorem require_oblivious : Oblivious (s.require name).run := by
  refine .run_bind (s.find_oblivious name) fun ⟨place, e⟩ => ?_
  cases e with
  | none => exact .run_throw _
  | some e => exact .run_pure _

theorem get_oblivious : Oblivious (s.get name).run :=
  .run_bind (s.require_oblivious name) fun _ => .run_file (.run_ask _)

theorem validate_oblivious : Oblivious (s.validate name).run :=
  .run_bind (s.require_oblivious name) fun _ => .run_bind (.run_file (.run_ask _)) fun _ => .run_pure _

theorem sourceSize_oblivious (source : Path) : Oblivious (sourceSize source).run := by
  refine .run_bind (.run_lift .tree) fun t => ?_
  split
  · exact .run_pure _
  · exact .run_throw _
  · exact .run_throw _
  · exact .run_throw _

theorem moveToSelf_oblivious : Oblivious (s.moveToSelf name).run :=
  .run_bind (s.require_oblivious name) fun _ => .run_pure _

variable [FileSystem]

theorem prepareRoot_oblivious (root : Path) : Oblivious (prepareRoot root).run := by
  have hmake : Oblivious (do
      Request.makeDirs root
      if !(← Action.tree).leadsToDir root then throw (.invalidRoot root) : Attempt Unit).run := by
    refine .run_bind (.run_file (.makeDirs root)) fun _ => .run_bind (.run_lift .tree) fun t => ?_
    split
    · exact .run_throw _
    · exact .run_pure _
  unfold prepareRoot
  split
  · exact .run_throw _
  · exact hmake

theorem init_oblivious (root : Path) (depth : Nat) : Oblivious (s.init root depth) := by
  unfold init
  refine .bind (prepareRoot_oblivious root) fun r => ?_
  cases r with
  | error e => exact .pure _
  | ok _ => exact .bind (.scan _ root) fun found => .bind (.report _) fun _ => .pure _

theorem start_oblivious (root : Path) (depth : Nat) : Oblivious (s.start root depth) := by
  refine .bind (s.init_oblivious root depth) fun ⟨r, s'⟩ => ?_
  cases r with
  | error e => exact .bind (.report _) fun _ => .pure _
  | ok found => exact .pure _

theorem locate_oblivious (create : Bool) : Oblivious (s.locate name create).run := by
  have hask : ∀ place : Location, Oblivious (liftM (Request.ask (s.mode.find place)) : Attempt _).run :=
    fun _ => .run_file (.run_ask _)
  unfold locate
  refine .run_bind (.run_except _) fun l => .run_bind (.run_except _) fun place => ?_
  cases create with
  | true =>
    refine .run_bind (.run_file (.makeDirs _)) fun _ => .run_bind (hask place) fun e => ?_
    cases e with
    | none => exact .run_pure _
    | some e => exact .run_pure _
  | false =>
    refine .run_bind (hask place) fun e => ?_
    cases e with
    | none => exact .run_pure _
    | some e => exact .run_pure _

theorem getToFile_oblivious (target : Path) : Oblivious (s.getToFile name target).run := by
  refine .run_bind (s.require_oblivious name) fun ⟨place, e⟩ => .run_bind (.run_lift .tree) fun t => ?_
  split
  · exact .run_pure _
  · exact .run_bind (.copy _ _ _) fun _ => .run_pure _

theorem store_oblivious (content : Bytes) : Oblivious (s.store name content).run := by
  unfold store
  refine .run_bind (.run_except _) fun l => ?_
  dsimp only
  split
  · exact .throw_bind _ _
  split
  · exact .throw_bind _ _
  refine .run_bind (.run_except _) fun place => .run_bind (.run_file (.run_ask _)) fun e => ?_
  cases e with
  | some e => exact .run_bind (.acquire _ _ _) fun _ => .run_pure _
  | none =>
    exact .run_bind (.run_except _) fun _ => .run_bind (.run_file (.makeDirs _)) fun _ =>
      .run_bind (.stagingWrite _ _ _) fun _ => .run_bind (.run_lift (.report _)) fun _ => .run_pure _

theorem discard_oblivious (source : Path) : Oblivious (discard name source) := by
  refine .bind (.granted (.unlink source)) fun b => ?_
  split
  · exact .report _
  · exact .pure _

theorem storeFile_oblivious (source : Path) (asked : Bool) :
    Oblivious (s.storeFile name source asked).run := by
  unfold storeFile
  refine .run_bind (.run_except _) fun l => .run_bind (.run_except _) fun place =>
    .run_bind (sourceSize_oblivious source) fun size => ?_
  dsimp only
  split
  · exact .throw_bind _ _
  refine .run_bind (.run_file (.run_ask _)) fun e => ?_
  cases e with
  | some e =>
    refine .run_bind (.run_lift .tree) fun t => .run_bind (.acquire _ _ _) fun _ => ?_
    split
    · exact .run_bind (.run_lift (discard_oblivious name source)) fun _ => .run_pure _
    · exact .run_pure _
  | none =>
    refine .run_bind (.run_except _) fun _ => .run_bind (.run_file (.makeDirs _)) fun _ => ?_
    have hlast : ∀ (stored : Nat) (renamed : Bool), Oblivious (do
        Action.report (.storedFromFile name stored renamed)
        if asked && !renamed then discard name source
        return { s with tracker := s.tracker.add stored } : Attempt FileStore).run := by
      intro stored renamed
      refine .run_bind (.run_lift (.report _)) fun _ => ?_
      split
      · exact .run_bind (.run_lift (discard_oblivious name source)) fun _ => .run_pure _
      · exact .run_pure _
    have hstored : ∀ renamed : Bool, Oblivious (do
        let stored ← if renamed then Pure.pure size else Staging.copy place.dir source (s.mode.path place 1)
        Action.report (.storedFromFile name stored renamed)
        if asked && !renamed then discard name source
        return { s with tracker := s.tracker.add stored } : Attempt FileStore).run := by
      intro renamed
      cases renamed with
      | true => exact hlast size true
      | false => exact .run_bind (.copy _ _ _) fun stored => hlast stored false
    split
    · exact .run_bind (.run_lift (.granted (.rename _ _))) hstored
    · exact hstored false

theorem delete_oblivious : Oblivious (s.delete name).run := by
  unfold delete
  refine .run_bind (.run_except _) fun l => ?_
  split
  · exact .run_pure _
  refine .run_bind (.run_except _) fun place => .run_bind (.run_file (.run_ask _)) fun e => ?_
  cases e with
  | none => exact .run_pure _
  | some e =>
    refine .run_bind (.release _ _ _) fun n => ?_
    split
    · exact .run_bind (.run_lift (.report _)) fun _ => .run_pure _
    · exact .run_pure _

theorem letGo_oblivious (place : Location) (e : Entry) : Oblivious (s.letGo name place e).run := by
  have hlast : ∀ after : FileStore, Oblivious (do
      Action.report (.moved name (e.count ≤ 1))
      return after : Attempt FileStore).run :=
    fun after => .run_bind (.run_lift (.report _)) fun _ => .run_pure _
  unfold letGo
  refine .run_bind (.run_file (.run_ask _)) fun current => ?_
  cases current with
  | none => exact hlast _
  | some current =>
    dsimp only
    split
    · refine .run_bind (.release _ _ _) fun n => ?_
      split
      · exact hlast _
      · exact hlast _
    · exact hlast _

theorem moveTo_oblivious {τ : Type} [Sink τ] (sink : τ)
    (hsink : ∀ p asked, Oblivious (Sink.storeFile sink name p asked)) : Oblivious (s.moveTo name sink) := by
  refine .bind (s.require_oblivious name) fun r => ?_
  cases r with
  | error e => exact .pure _
  | ok r =>
    obtain ⟨place, e⟩ := r
    refine .bind (hsink _ _) fun ⟨taken, after⟩ => ?_
    dsimp only
    split
    · exact .bind (s.letGo_oblivious name place e) fun _ => .pure _
    · exact .pure _

theorem clear_oblivious : Oblivious s.clear := by
  unfold clear
  split
  · exact .pure _
  · refine .bind (.emptyDir _) fun r => .bind (.scan _ _) fun found => ?_
    cases r with
    | error f => exact .pure _
    | ok _ => exact .bind (.report _) fun _ => .pure _

/-! As a chunk store -/

theorem storeMoveTo_oblivious {τ : Type} [Sink τ] (sink : τ)
    (hsink : ∀ p asked, Oblivious (Sink.storeFile sink name p asked)) :
    Oblivious (ChunkStore.moveTo s name sink) := by
  refine .bind (s.moveTo_oblivious name sink hsink) fun ⟨r, after⟩ => .bind (.outcome _ _ _) fun x => ?_
  cases x with
  | none => exact .pure _
  | some after => exact .pure _

/-- **A call** of a file store. -/
theorem call_oblivious (c : Call) : Oblivious (c.run s) := by
  cases c with
  | get name => exact .bind (.bind (.reported (s.get_oblivious name) _ _) fun _ => .pure _) fun _ => .pure _
  | getToFile name target =>
    exact .bind (.bind (.reported (s.getToFile_oblivious name target) _ _) fun _ => .pure _) fun _ => .pure _
  | store name content =>
    exact .bind (.settled (s.store_oblivious name content) _ _ _) fun _ => .pure _
  | storeFile name source asked =>
    exact .bind (.settled (s.storeFile_oblivious name source asked) _ _ _) fun _ => .pure _
  | delete name => exact .bind (.settled (s.delete_oblivious name) _ _ _) fun _ => .pure _
  | has name =>
    refine .bind (.bind (.reported (s.find_oblivious name) _ _) fun x => ?_) fun _ => .pure _
    split
    · exact .pure _
    · exact .pure _
  | validate name =>
    exact .bind (.bind (.reported (s.validate_oblivious name) _ _) fun _ => .pure _) fun _ => .pure _
  | chunkSize name =>
    refine .bind (.bind (.reported (s.require_oblivious name) _ _) fun x => ?_) fun _ => .pure _
    split
    · exact .pure _
    · exact .pure _
  | references name =>
    refine .bind (.bind (.reported (s.find_oblivious name) _ _) fun x => ?_) fun _ => .pure _
    split
    · exact .pure _
    · exact .pure _
  | size | count | capacity | isEmpty | setCapacity => exact .pure _
  | clear => exact .bind (.bind s.clear_oblivious fun _ => .bind (.outcome _ _ _) fun _ => .pure _) fun _ => .pure _

end FileStore

namespace MemoryStore

variable (m : MemoryStore) (name : Bytes)

theorem sourceContent_oblivious (source : Path) : Oblivious (sourceContent source).run := by
  refine .run_bind (.run_lift .tree) fun t => ?_
  split
  · exact .run_pure _
  · exact .run_throw _
  · exact .run_throw _

theorem moveTo_oblivious {τ : Type} [Sink τ] (sink : τ)
    (hsink : ∀ content, Oblivious (Sink.store sink name content)) : Oblivious (m.moveTo name sink) := by
  unfold moveTo
  split
  · exact .pure _
  · refine .bind (hsink _) fun ⟨taken, after⟩ => ?_
    dsimp only
    split
    · exact .pure _
    · exact .pure _

variable [FileSystem]

theorem storeFile_oblivious (source : Path) (asked : Bool) : Oblivious (m.storeFile name source asked) := by
  have hstored : Oblivious (do m.store name (← sourceContent source) : Attempt MemoryStore).run :=
    .run_bind (sourceContent_oblivious source) fun _ => .run_except _
  refine .bind hstored fun r => ?_
  cases r with
  | error e => exact .pure _
  | ok after =>
    dsimp only
    split
    · refine .bind (.unlink source) fun r => ?_
      cases r with
      | error f => exact .pure _
      | ok _ => exact .pure _
    · exact .pure _

theorem getToFile_oblivious (target : Path) : Oblivious (m.getToFile name target).run :=
  .run_bind (.run_except _) fun _ => .run_file (.write _ _)

theorem storeMoveTo_oblivious {τ : Type} [Sink τ] (sink : τ)
    (hsink : ∀ content, Oblivious (Sink.store sink name content)) :
    Oblivious (ChunkStore.moveTo m name sink) := by
  refine .bind (m.moveTo_oblivious name sink hsink) fun ⟨r, after⟩ => .bind (.outcome _ _ _) fun x => ?_
  cases x with
  | none => exact .pure _
  | some after => exact .pure _

/-- **A call** of a memory store. -/
theorem call_oblivious (c : Call) : Oblivious (c.run m) := by
  cases c with
  | get name => exact .bind (.bind (.outcome _ _ _) fun _ => .pure _) fun _ => .pure _
  | getToFile name target =>
    exact .bind (.bind (.reported (m.getToFile_oblivious name target) _ _) fun _ => .pure _) fun _ => .pure _
  | store name content => exact .bind (.settled (.run_except _) _ _ _) fun _ => .pure _
  | storeFile name source asked =>
    exact .bind (.bind (m.storeFile_oblivious name source asked) fun _ => .bind (.outcome _ _ _) fun _ => .pure _)
      fun _ => .pure _
  | delete | has | validate | chunkSize | references | clear => exact .bind (.pure _) fun _ => .pure _
  | size | count | capacity | isEmpty | setCapacity => exact .pure _

end MemoryStore

/-! ### Stores of any kind -/

namespace AnyStore

variable (a : AnyStore) (name : Bytes)

theorem after_oblivious {α σ : Type} (kind : σ → AnyStore) {x : Action (α × σ)} (hx : Oblivious x) :
    Oblivious (after kind x) :=
  .bind hx fun _ => .pure _

variable [FileSystem]

theorem sinkStore_oblivious (content : Bytes) : Oblivious (Sink.store a name content) := by
  cases a with
  | file s => exact after_oblivious .file (.settled (s.store_oblivious name content) _ _ _)
  | memory m => exact after_oblivious .memory (.settled (.run_except _) _ _ _)
  | fixed f => exact .pure _

theorem sinkStoreFile_oblivious (source : Path) (asked : Bool) :
    Oblivious (Sink.storeFile a name source asked) := by
  cases a with
  | file s => exact after_oblivious .file (.settled (s.storeFile_oblivious name source asked) _ _ _)
  | memory m =>
    exact after_oblivious .memory (.bind (m.storeFile_oblivious name source asked) fun _ =>
      .bind (.outcome _ _ _) fun _ => .pure _)
  | fixed f => exact .pure _

/-- **A move.** -/
theorem moveTo_oblivious (b : AnyStore) : Oblivious (ChunkStore.moveTo a name b) := by
  intro w v h
  cases a with
  | file s =>
    obtain ⟨hx, htree⟩ := s.storeMoveTo_oblivious name b (b.sinkStoreFile_oblivious name) w v h
    rw [moveTo_file, moveTo_file, hx]
    exact ⟨rfl, htree⟩
  | memory m =>
    obtain ⟨hx, htree⟩ := m.storeMoveTo_oblivious name b (b.sinkStore_oblivious name) w v h
    rw [moveTo_memory, moveTo_memory, hx]
    exact ⟨rfl, htree⟩
  | fixed f => exact ⟨rfl, h⟩

theorem moveToSelf_oblivious : Oblivious (ChunkStore.moveToSelf a name) := by
  cases a with
  | file s => exact .bind (.reported (s.moveToSelf_oblivious name) _ _) fun _ => .pure _
  | memory m => exact .bind (.outcome _ _ _) fun _ => .pure _
  | fixed f => exact .pure _

theorem start_oblivious (root : Path) (depth : Nat) : Oblivious (start root depth a) := by
  cases a with
  | file s => exact after_oblivious .file (s.start_oblivious root depth)
  | memory m => exact .pure _
  | fixed f => exact .pure _

theorem chunkPath_oblivious (create : Bool) : Oblivious (chunkPath name create a) := by
  cases a with
  | file s => exact .bind (.reported (s.locate_oblivious name create) _ _) fun _ => .pure _
  | memory m => exact .pure _
  | fixed f => exact .pure _

/-- **A call.** -/
theorem call_oblivious (c : Call) : Oblivious (c.run a) := by
  intro w v h
  cases a with
  | file s =>
    obtain ⟨hx, htree⟩ := s.call_oblivious c w v h
    rw [Call.run_file, Call.run_file, hx]
    exact ⟨rfl, htree⟩
  | memory m =>
    obtain ⟨hx, htree⟩ := m.call_oblivious c w v h
    rw [Call.run_memory, Call.run_memory, hx]
    exact ⟨rfl, htree⟩
  | fixed f => cases c <;> exact ⟨rfl, h⟩

end AnyStore

end ContentStore
