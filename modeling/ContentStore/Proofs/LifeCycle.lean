import ContentStore.Proofs.Restart
import ContentStore.Proofs.Seats

/-!
# Stores with and without a root

A store that tries to take a root has that root afterwards, with the counts of a scan, or none at all; no file
changes either way (`FileStore.init_spec`).  A store without a root counts nothing (`Session.Arises.idle`), and
whatever it is asked is refused before anything is done (`Deed.refused`).  So nothing can be told later from
whether it was asked: `init_life_cycle`.
-/

namespace ContentStore

/-! ### What is refused -/

namespace FileStore

variable {s : FileStore} {w : Workspace}

theorem chunkPath_unrooted [FileSystem] (hl : s.layout? = none) (name : Bytes) (create : Bool) (w : Workspace) :
    s.chunkPath name create w = (none, (Action.report (.ofError .chunkPath name .notInitialized) w).2) :=
  Attempt.reported_of_error .chunkPath name (locate_uninitialized hl name create w)

theorem moveTo_unrooted [FileSystem] {τ : Type} [Sink τ] (hl : s.layout? = none) (name : Bytes) (sink : τ)
    (w : Workspace) :
    ChunkStore.moveTo s name sink w =
      ((false, s, sink), (Action.report (.ofError .moveTo name .notInitialized) w).2) := by
  rw [moveTo_apply, moveTo_uninitialized hl]

theorem moveToSelf_unrooted [FileSystem] (hl : s.layout? = none) (name : Bytes) (w : Workspace) :
    ChunkStore.moveToSelf s name w =
      (false, (Action.report (.ofError .moveTo name .notInitialized) w).2) := by
  have hrun := Attempt.reported_of_error .moveTo name (moveToSelf_uninitialized hl name w)
  simp only [ChunkStore.moveToSelf, Action.bind_apply, hrun]
  rfl

end FileStore

namespace AnyStore

variable {f : FileStore} {w : Workspace}

theorem sink_refuses [FileSystem] (hl : f.layout? = none) (name : Bytes) (w : Workspace) :
    (∀ content, ∃ v, Sink.store (AnyStore.file f) name content w = ((false, .file f), v) ∧ w.After [] v) ∧
      ∀ source asked, ∃ v, Sink.storeFile (AnyStore.file f) name source asked w = ((false, .file f), v) ∧
        w.After [] v := by
  refine ⟨fun content => ⟨_, ?_, .report (.refl w) (.ofError .store name .notInitialized)⟩,
    fun source asked => ⟨_, ?_, .report (.refl w) (.ofError .storeFile name .notInitialized)⟩⟩
  · have hrun : Sink.store f name content w = _ :=
      Attempt.settled_of_error (FileStore.store_uninitialized hl name content w)
    simp only [Sink.store, AnyStore.update, AnyStore.after, Action.bind_apply]
    exact congrArg (fun r => ((r.1.1, AnyStore.file r.1.2), r.2)) hrun
  · have hrun : Sink.storeFile f name source asked w = _ :=
      Attempt.settled_of_error (FileStore.storeFile_uninitialized hl name source asked w)
    simp only [Sink.storeFile, AnyStore.update, AnyStore.after, Action.bind_apply]
    exact congrArg (fun r => ((r.1.1, AnyStore.file r.1.2), r.2)) hrun

/-- A move to a store without a root is refused, and the source keeps what it has. -/
theorem moveTo_to_unrooted [FileSystem] {a : AnyStore} (ha : ∀ g, a ≠ .fixed g) (hl : f.layout? = none) (name : Bytes)
    (w : Workspace) :
    ∃ v, ChunkStore.moveTo a name (AnyStore.file f) w = ((false, a, .file f), v) ∧ w.After [] v := by
  cases a with
  | file g =>
    have hsame := g.require_same name w
    rw [moveTo_file, FileStore.moveTo_apply, FileStore.moveTo]
    simp only [Action.bind_apply]
    rcases hreq : (g.require name).run w with ⟨r, x⟩
    obtain rfl : w = x := hsame.symm.trans (congrArg Prod.snd hreq)
    rcases r with e | ⟨place, e⟩
    · exact ⟨_, rfl, .report (.refl w) _⟩
    · obtain ⟨v, hsink, hafter⟩ := (sink_refuses hl name w).2 e.path (e.count ≤ 1)
      simp only [Action.bind_apply, hsink]
      exact ⟨_, rfl, .report hafter _⟩
  | memory m =>
    rw [moveTo_memory]
    simp only [ChunkStore.moveTo, MemoryStore.moveTo, Action.bind_apply]
    rcases m.get name with e | content
    · exact ⟨_, rfl, .report (.refl w) _⟩
    · obtain ⟨v, hsink, hafter⟩ := (sink_refuses hl name w).1 content
      simp only [Action.bind_apply, hsink]
      exact ⟨_, rfl, .report hafter _⟩
  | fixed g => exact absurd rfl (ha g)

end AnyStore

/-! ### Deeds that are refused -/

namespace Session

variable {α : Type} {s : Session} {id sinkId : String} {a b : AnyStore} {v : Workspace} {x : α}

/-- A run of a session is answered, and leaves the stores and the tree as they were; not a change was made. -/
structure Idle (s : Session) (x : α) (r : Option α × Session) : Prop where
  answer : r.1 = some x
  after : s.workspace.After [] r.2.workspace
  alike : r.2.Alike s

/-- What is told of a run that leaves all as it was may be put in other words. -/
theorem Idle.map {β : Type} {r : Option α × Session} (g : α → β) (h : s.Idle x r) : s.Idle (g x) (r.1.map g, r.2) :=
  ⟨congrArg (Option.map g) h.answer, h.after, h.alike⟩

theorem alike_put {u : Session} (h : u.Alike s) (ha : s.store? id = some a) : (u.put id a).Alike s where
  store other := by
    rw [store?_put]
    split
    · next e => rw [e, ha]
    · exact h.store other
  tree := h.tree

theorem alike_of_after (h : s.workspace.After [] v) : ({ s with workspace := v } : Session).Alike s :=
  ⟨fun _ => rfl, h.tree.trans (congrArg Workspace.tree s.workspace.commits_nil)⟩

theorem runOn_idle {F : AnyStore → Action (α × AnyStore)} (ha : s.store? id = some a)
    (hrun : F a s.workspace = ((x, a), v)) (h : s.workspace.After [] v) : s.Idle x (runOn id F s) := by
  rw [runOn_apply F ha, hrun]
  exact ⟨rfl, h, alike_put (alike_of_after h) ha⟩

theorem moveTo_idle [FileSystem] {name : Bytes} {x : Bool} (hne : id ≠ sinkId) (ha : s.store? id = some a)
    (hb : s.store? sinkId = some b) (hrun : ChunkStore.moveTo a name b s.workspace = ((x, a, b), v))
    (h : s.workspace.After [] v) : s.Idle x (moveTo id name sinkId s) := by
  rw [moveTo_apply name hne ha hb, hrun]
  exact ⟨rfl, h, alike_put (alike_put (alike_of_after h) ha) hb⟩

end Session

section

variable [FileSystem]

namespace Deed

/-- Deeds that ask the store under an identifier for what only a store with a root can do.  The stores that
take part in a move with it are there, and the one that chunks are to come from is not fixed. -/
def Asks (s : Session) (id : String) : Deed → Prop
  | start .. => False
  | call other c => other = id ∧ c.reportedAs?.isSome
  | chunkPath other _ _ => other = id
  | moveTo source _ sink =>
    source = id ∧ (s.store? sink).isSome ∨
      sink = id ∧ ∃ a, s.store? source = some a ∧ ∀ g, a ≠ .fixed g

def refusal : Deed → Reply
  | call _ c => .answer c.refusal
  | chunkPath .. => .path none
  | start .. | moveTo .. => .truth false

variable {s u : Session} {id : String} {f : FileStore} {d : Deed}

omit [FileSystem] in
theorem Asks.congr (h : d.Asks s id) (hstore : ∀ id, u.store? id = s.store? id) : d.Asks u id := by
  cases d with
  | moveTo source name sink =>
    rw [Asks, hstore, hstore]
    exact h
  | _ => exact h

/-- **A store without a root refuses a deed**, and nothing is done to any store or to the tree. -/
theorem refused (hf : s.store? id = some (.file f)) (hl : f.layout? = none) (h : d.Asks s id) :
    s.Idle d.refusal (d.reply s, d.run s) := by
  -- a refusal is reported, and that is all
  have hreport : ∀ e, s.workspace.After [] (Action.report e s.workspace).2 := .report (.refl _)
  cases d with
  | start => exact h.elim
  | call other c =>
    obtain ⟨rfl, hc⟩ := h
    obtain ⟨⟨op, name⟩, hc⟩ := Option.isSome_iff_exists.mp hc
    have hrun : c.run (AnyStore.file f) s.workspace =
        ((c.refusal, .file f), (Action.report (.ofError op name .notInitialized) s.workspace).2) := by
      rw [Call.run_file, FileStore.call_refused hl hc]
    exact .map Reply.answer (Session.runOn_idle hf hrun (hreport _))
  | chunkPath other name create =>
    obtain rfl : other = id := h
    have hrun : AnyStore.chunkPath name create (.file f) s.workspace =
        ((none, .file f), (Action.report (.ofError .chunkPath name .notInitialized) s.workspace).2) := by
      simp only [AnyStore.chunkPath, Action.bind_apply, FileStore.chunkPath_unrooted hl]
      rfl
    exact .map Reply.path (Session.runOn_idle hf hrun (hreport _))
  | moveTo source name sink =>
    by_cases hne : source = sink
    · obtain rfl : source = id := h.elim And.left fun h => hne.trans h.1
      have hself : ChunkStore.moveToSelf (AnyStore.file f) name s.workspace =
          (false, (Action.report (.ofError .moveTo name .notInitialized) s.workspace).2) :=
        FileStore.moveToSelf_unrooted hl name s.workspace
      have hidle : s.Idle false (Session.moveTo source name source s) := by
        rw [Session.moveTo_self]
        refine Session.runOn_idle hf (v := (Action.report (.ofError .moveTo name .notInitialized) s.workspace).2)
          ?_ (hreport _)
        rw [Action.bind_apply, hself]
        rfl
      exact hne ▸ hidle.map Reply.truth
    · rcases h with ⟨rfl, hb⟩ | ⟨rfl, a, ha, hfixed⟩
      · obtain ⟨b, hb⟩ := Option.isSome_iff_exists.mp hb
        refine .map Reply.truth (Session.moveTo_idle hne hf hb ?_ (hreport (.ofError .moveTo name .notInitialized)))
        rw [AnyStore.moveTo_file, FileStore.moveTo_unrooted hl]
      · obtain ⟨v, hrun, hafter⟩ := AnyStore.moveTo_to_unrooted hfixed hl name s.workspace
        exact .map Reply.truth (Session.moveTo_idle hne ha hf hrun hafter)

/-- **Any number of such deeds** is refused one by one. -/
theorem refused_all (hf : s.store? id = some (.file f)) (hl : f.layout? = none) {ds : List Deed}
    (h : ∀ d ∈ ds, d.Asks s id) :
    Session.Step.trace s (ds.map .deed) = ds.map (fun d => (some d.refusal, s.workspace.tree)) ∧
      s.workspace.After [] (ds.foldl run s).workspace ∧ (ds.foldl run s).Alike s := by
  induction ds generalizing s with
  | nil => exact ⟨rfl, .refl _, .refl s⟩
  | cons d ds ih =>
    obtain ⟨hreply, hafter, halike⟩ := refused hf hl (h d List.mem_cons_self)
    obtain ⟨htrace, hafter', halike'⟩ := ih ((halike.store id).trans hf) fun d hd =>
      (h d (List.mem_cons_of_mem _ hd)).congr halike.store
    refine ⟨?_, hafter.trans hafter', halike'.trans halike⟩
    show (d.reply s, (d.run s).workspace.tree) :: _ = _
    rw [htrace, show d.reply s = some d.refusal from hreply, show (d.run s).workspace.tree = _ from halike.tree]
    rfl

end Deed

/-- **What follows** is the same in sessions that are alike. -/
theorem Session.Alike.trace {s u : Session} (h : u.Alike s) (ds : List Deed) :
    Step.trace u (ds.map .deed) = Step.trace s (ds.map .deed) ∧
      (ds.foldl Deed.run u).Alike (ds.foldl Deed.run s) := by
  induction ds generalizing s u with
  | nil => exact ⟨rfl, h⟩
  | cons d ds ih =>
    obtain ⟨hreply, hnext⟩ := d.oblivious h
    obtain ⟨htrace, hlast⟩ := ih hnext
    refine ⟨?_, hlast⟩
    show (d.reply u, (d.run u).workspace.tree) :: _ = (d.reply s, (d.run s).workspace.tree) :: _
    rw [hreply, hnext.tree, htrace]

/-! ### What a store without a root counts -/

/-- A store without a root counts nothing. -/
def AnyStore.Blank : AnyStore → Prop
  | .file f => f.layout? = none → f.tracker.totals = .zero
  | .memory _ | .fixed _ => True

namespace FileStore

variable {f : FileStore}

theorem blank_call (h : (AnyStore.file f).Blank) (c : Call) (w : Workspace) :
    (AnyStore.file (c.run f w).1.2).Blank := by
  intro hl
  have hl : f.layout? = none := by
    rw [f.call_settings c w] at hl
    exact hl
  rcases hc : c.reportedAs? with _ | ⟨op, name⟩
  · cases c with
    | size | count | capacity | isEmpty | setCapacity => exact h hl
    | _ => cases hc
  · rw [call_refused hl hc]
    exact h hl

theorem blank_start (f : FileStore) (root : Path) (depth : Nat) (w : Workspace) :
    (AnyStore.file (f.start root depth w).1.2).Blank := by
  obtain ⟨v, -, hstart | ⟨hstart, -⟩⟩ := f.start_spec root depth w <;> rw [hstart]
  · exact fun _ => rfl
  · exact fun hl => by cases hl

end FileStore

namespace AnyStore

variable {a b : AnyStore}

theorem blank_of_call (h : a.Blank) (c : Call) (w : Workspace) : (c.run a w).1.2.Blank := by
  cases a with
  | file f =>
    rw [Call.run_file]
    exact FileStore.blank_call h c w
  | memory m =>
    rw [Call.run_memory]
    trivial
  | fixed g =>
    rw [Call.run_fixed]
    trivial

theorem blank_of_moveTo (h : a.Blank) (name : Bytes) (b : AnyStore) (w : Workspace) :
    (ChunkStore.moveTo a name b w).1.2.1.Blank := by
  cases a with
  | file f =>
    rw [moveTo_file]
    intro hl
    have hl : f.layout? = none := by
      rw [f.moveTo_settings] at hl
      exact hl
    rw [FileStore.moveTo_unrooted hl]
    exact h hl
  | memory m =>
    rw [moveTo_memory]
    trivial
  | fixed g => exact trivial

/-- **One deed**, as far as stores without roots go. -/
theorem blank_of_became {s : Session} {id : String} {d : Deed} {a' : AnyStore} (h : a.Blank)
    (hd : Deed.Became s id a d a') : a'.Blank := by
  cases hd with
  | same => exact h
  | started root depth =>
    cases a with
    | file f => exact f.blank_start root depth s.workspace
    | memory m | fixed g => exact trivial
  | called c => exact blank_of_call h c _
  | gave name _ _ => exact blank_of_moveTo h name _ _
  | got name _ _ =>
    rcases moveTo_sink _ a name s.workspace with hsame | ⟨c, v, hc⟩
    · rw [hsame]
      exact h
    · rw [hc]
      exact blank_of_call h c v

end AnyStore

namespace Session

variable {s : Session}

/-- The sessions that stores come to from their making, whatever is done with them, while others may change the
tree as they like. -/
inductive Arises : Session → Prop
  | fresh {s : Session} (hfresh : ∀ id a, s.store? id = some a → a.Fresh) : Arises s
  | deed {s : Session} (h : Arises s) (d : Deed) : Arises (d.run s)
  | altered {s : Session} (h : Arises s) (t : Tree) : Arises { s with workspace.tree := t }

theorem Reach.arises {tidy : Prop} (h : Reach tidy s) : s.Arises := by
  induction h with
  | fresh hfresh _ => exact .fresh hfresh
  | step _ d _ _ ih => exact .deed ih d

/-- **A store without a root counts nothing**, however it came to have none. -/
theorem Arises.blank (h : s.Arises) {id : String} {a : AnyStore} (ha : s.store? id = some a) :
    a.Blank := by
  induction h generalizing a with
  | fresh hfresh =>
    have hnew := hfresh id a ha
    cases a with
    | file f =>
      obtain ⟨counting, hasher, rfl⟩ := hnew
      exact fun _ => rfl
    | memory m | fixed g => exact trivial
  | deed h d ih =>
    obtain ⟨b, hb, hbecame⟩ := Deed.exists_became ha
    exact AnyStore.blank_of_became (ih hb) hbecame
  | altered h t ih => exact ih ha

end Session

/-! ### Losing a root and taking it again -/

namespace FileStore

variable {f f' : FileStore} {l : Layout} {root : Path} {depth : Nat} {e : StoreError} {w v x : Workspace}

/-- A store that has lost its root finds all its chunks again when it takes it again. -/
theorem held_again (hl : f.layout? = some l) (hlead : w.tree.leadsToDir l.root = true)
    (hsingle : f.mode.Single l.root.key w.tree.kind?) (hlost : f.start root depth w = ((false, f'), v))
    (hx : x.tree = v.tree) :
    ∃ g y, f'.start l.root l.depth x = ((true, g), y) ∧ g.layout? = some l ∧
      ∀ name, g.held? y.tree name = f.held? w.tree name := by
  obtain ⟨u, hgrown, hstart | ⟨hstart, -⟩⟩ := f.start_spec root depth w <;> rw [hlost] at hstart <;> cases hstart
  have hlead' : x.tree.leadsToDir l.root = true := by
    rw [hx]
    exact Tree.leadsToDir_mono hlead fun k => hgrown.dir
  obtain ⟨y, hagain, htree⟩ := start_ok (s := { f with layout? := none, tracker := f.tracker.clear })
    (prepareRoot_of_dir hlead') l.depth
  refine ⟨_, y, hagain, rfl, fun name => ?_⟩
  have hfiles : ∀ k c, y.tree.kind? k = some (.file c) ↔ w.tree.kind? k = some (.file c) := by
    rw [htree, hx]
    exact hgrown.file_iff
  exact held?_congr hl rfl rfl hlead (by rwa [htree]) hsingle (hsingle.congr fun k c _ => hfiles k c)
    fun file n c _ => hfiles _ c

end FileStore

/-- A store that has lost its root holds the same chunks once it takes it again, whatever it was asked
meanwhile. -/
theorem Session.held_again {s u : Session} {id : String} {f : FileStore} {l : Layout} {root : Path} {depth : Nat}
    {ds : List Deed} (hf : s.store? id = some (.file f)) (hl : f.layout? = some l)
    (hlead : s.workspace.tree.leadsToDir l.root = true) (hsingle : f.mode.Single l.root.key s.workspace.tree.kind?)
    (hreply : (Deed.start id root depth).reply s = some (.truth false))
    (hds : ∀ d ∈ ds, d.Asks ((Deed.start id root depth).run s) id)
    (hu : u = ds.foldl Deed.run ((Deed.start id root depth).run s)) :
    (Deed.start id l.root l.depth).reply u = some (.truth true) ∧
      ∃ g, ((Deed.start id l.root l.depth).run u).store? id = some (.file g) ∧ g.layout? = some l ∧
        ∀ name, g.held? ((Deed.start id l.root l.depth).run u).workspace.tree name =
          f.held? s.workspace.tree name := by
  rcases hlost : f.start root depth s.workspace with ⟨⟨b, f'⟩, v⟩
  have hstart : AnyStore.start root depth (.file f) s.workspace = ((b, .file f'), v) := by
    rw [AnyStore.start_file, hlost]
  rw [Deed.reply, Session.runOn_apply _ hf, hstart] at hreply
  cases hreply
  have hrun := Deed.run_start root depth hf
  rw [hstart] at hrun
  have hf' : ((Deed.start id root depth).run s).store? id = some (.file f') := by
    rw [hrun, Session.store?_put, if_pos rfl]
  have hl' : f'.layout? = none := by
    obtain ⟨x, -, hx | ⟨hx, -⟩⟩ := f.start_spec root depth s.workspace <;> rw [hlost] at hx <;> cases hx
    rfl
  obtain ⟨-, -, halike⟩ := Deed.refused_all hf' hl' hds
  rw [← hu] at halike
  obtain ⟨g, y, hagain, hg, hheld⟩ :=
    FileStore.held_again hl hlead hsingle hlost (halike.tree.trans (congrArg (·.workspace.tree) hrun))
  have huf : u.store? id = some (.file f') := (halike.store id).trans hf'
  have hstart' : AnyStore.start l.root l.depth (.file f') u.workspace = ((true, .file g), y) := by
    rw [AnyStore.start_file, hagain]
  rw [Deed.reply, Session.runOn_apply _ huf, Deed.run_start l.root l.depth huf, hstart']
  exact ⟨rfl, g, by rw [Session.store?_put, if_pos rfl], hg, hheld⟩

/-- **Stores with and without a root.**  Take a file store in any session that stores come to.

When it tries to take a root, in whatever workspace, no file changes, and it keeps its mode and its capacity.  If
it succeeds, the root is a directory and the store counts what a scan of it counts; if it fails, the store has
no root and counts nothing.

As long as it has no root, it counts nothing, and any deeds that ask it for chunks, or give it chunks of other
stores, are refused one by one, its own calls for the want of a root.  Not a change is made, and all stores and the
tree are the same afterwards, so that whatever is done later is answered as if these deeds had not been.

If it has a root that is a directory, loses it, and takes it again after any such deeds, then all chunks are held
as before. -/
theorem init_life_cycle {s : Session} (h : s.Arises) {id : String} {f : FileStore}
    (hf : s.store? id = some (.file f)) :
    (∀ (root : Path) (depth : Nat) (w : Workspace) r f' v, f.init root depth w = ((r, f'), v) →
      (∀ k c, v.tree.kind? k = some (.file c) ↔ w.tree.kind? k = some (.file c)) ∧ f'.mode = f.mode ∧
      ChunkStore.capacity f' = ChunkStore.capacity f ∧
      match r with
      | .ok found => v.tree.leadsToDir root = true ∧ f'.layout? = some ⟨root, depth⟩ ∧
        (⟨ChunkStore.count f', ChunkStore.size f'⟩ : Totals) = found ∧ found = (f.scan root v).1
      | .error _ => f'.layout? = none ∧ ChunkStore.count f' = 0 ∧ ChunkStore.size f' = 0) ∧
    (f.layout? = none → ChunkStore.count f = 0 ∧ ChunkStore.size f = 0 ∧
      (∀ (c : Call) op name w, c.reportedAs? = some (op, name) →
        c.run f w = ((c.refusal, f), (Action.report (.ofError op name .notInitialized) w).2)) ∧
      ∀ ds : List Deed, (∀ d ∈ ds, d.Asks s id) →
        Session.Step.trace s (ds.map .deed) = ds.map (fun d => (some d.refusal, s.workspace.tree)) ∧
        s.workspace.After [] (ds.foldl Deed.run s).workspace ∧ (ds.foldl Deed.run s).Alike s ∧
        ∀ later : List Deed,
          Session.Step.trace (ds.foldl Deed.run s) (later.map .deed) = Session.Step.trace s (later.map .deed) ∧
          (later.foldl Deed.run (ds.foldl Deed.run s)).Alike (later.foldl Deed.run s)) ∧
    ∀ (l : Layout) (root : Path) (depth : Nat), f.layout? = some l →
      s.workspace.tree.leadsToDir l.root = true → f.mode.Single l.root.key s.workspace.tree.kind? →
      (Deed.start id root depth).reply s = some (.truth false) →
      ∀ ds : List Deed, (∀ d ∈ ds, d.Asks ((Deed.start id root depth).run s) id) →
        ∀ u, u = ds.foldl Deed.run ((Deed.start id root depth).run s) →
          (Deed.start id l.root l.depth).reply u = some (.truth true) ∧
          ∃ g, ((Deed.start id l.root l.depth).run u).store? id = some (.file g) ∧ g.layout? = some l ∧
            ∀ name, g.held? ((Deed.start id l.root l.depth).run u).workspace.tree name =
              f.held? s.workspace.tree name := by
  refine ⟨fun root depth w r f' v hinit => ?_, fun hl => ?_, ?_⟩
  · obtain ⟨u, hgrown, ⟨e, hrun⟩ | ⟨hrun, hlead⟩⟩ := f.init_spec root depth w <;> rw [hinit] at hrun <;>
      cases hrun
    · exact ⟨hgrown.file_iff, rfl, rfl, rfl, rfl, rfl⟩
    · exact ⟨hgrown.file_iff, rfl, rfl, hlead, rfl, rfl, (Scan.run_spec f.mode root v).1.symm⟩
  · have htotals : f.tracker.totals = .zero := h.blank hf hl
    refine ⟨congrArg Totals.count htotals, congrArg Totals.size htotals,
      fun c op name w hc => FileStore.call_refused hl hc w, fun ds hds => ?_⟩
    obtain ⟨htrace, hafter, halike⟩ := Deed.refused_all hf hl hds
    exact ⟨htrace, hafter, halike, fun later => halike.trace later⟩
  · intro l root depth hl hlead hsingle hreply ds hds u hu
    exact Session.held_again hf hl hlead hsingle hreply hds hu

end

namespace Trial

/-- The memory store beside the file store has a chunk. -/
def busy : Session := Deed.run session (.call "m" (.store [108] [99]))

/-- The file store has lost its root. -/
def lost : Session := Deed.run busy (.start "a" .blank 0)

/-- It is asked for a chunk that it had, for a path, and to take the chunk of the memory store. -/
def asking : List Deed :=
  [.call "a" (.get [107]), .call "a" (.storeFile [107] (Path.ofText "s") true), .chunkPath "a" [107] true,
    .moveTo "a" [107] "m", .moveTo "m" [108] "a", .call "a" .clear]

theorem asks : ∀ d ∈ asking, d.Asks lost "a" := by
  have hm : (lost.store? "m").bind AnyStore.mode? = some .plain := by decide +kernel
  obtain ⟨m, hm, hmode⟩ := Option.bind_eq_some_iff.mp hm
  have hfixed : ∀ g, m ≠ .fixed g := by
    rintro g rfl
    cases hmode
  simp only [asking, List.forall_mem_cons, List.not_mem_nil, false_implies, implies_true, and_true]
  exact ⟨⟨rfl, rfl⟩, ⟨rfl, rfl⟩, rfl, Or.inl ⟨rfl, by rw [hm]; rfl⟩, Or.inr ⟨rfl, m, hm, hfixed⟩, rfl, rfl⟩

end Trial

/-- A store that counts two references to a chunk loses its root, is asked in vain, and has them again with the
root. -/
theorem init_life_cycle_trial :
    Trial.busy.Arises ∧ Trial.lost.Arises ∧
    (Deed.start "a" .blank 0).reply Trial.busy = some (.truth false) ∧
    Session.Step.trace Trial.lost (Trial.asking.map .deed) =
      Trial.asking.map (fun d => (some d.refusal, Trial.lost.workspace.tree)) ∧
    (Trial.asking.foldl Deed.run Trial.lost).Alike Trial.lost ∧
    (Session.Step.trace (Trial.asking.foldl Deed.run Trial.lost)
      ([.start "a" (Path.ofText "r") 1, .call "a" (.references [107])].map .deed)).map Prod.fst =
        [some (.truth true), some (.answer (.number 2))] ∧
    ∃ f g, Trial.busy.store? "a" = some (.file f) ∧
      ((Deed.start "a" (Path.ofText "r") 1).run (Trial.asking.foldl Deed.run Trial.lost)).store? "a" =
        some (.file g) ∧
      g.held? ((Deed.start "a" (Path.ofText "r") 1).run
        (Trial.asking.foldl Deed.run Trial.lost)).workspace.tree [107] =
        f.held? Trial.busy.workspace.tree [107] := by
  have hreach : Session.Reach False Trial.busy :=
    (Trial.reach False).step _ (Session.fits_store False _ (by decide +kernel))
      (Session.bounded_of_forall (by decide +kernel))
  have hbusy := hreach.arises
  have hlost : Trial.lost.Arises := hbusy.deed _
  obtain ⟨f, hf, hl⟩ := Session.file_of_layout
    (show (Trial.busy.store? "a").bind AnyStore.layout? = some ⟨Path.ofText "r", 1⟩ by decide +kernel)
  have hg : Trial.lost.store? "a" = some (.file (f.start .blank 0 Trial.busy.workspace).1.2) := by
    rw [Trial.lost, Deed.run_start _ _ hf, Session.store?_put, if_pos rfl]
    rfl
  have hgl : (f.start .blank 0 Trial.busy.workspace).1.2.layout? = none := by
    have hnone : (Trial.lost.store? "a").bind AnyStore.layout? = none := by decide +kernel
    rw [hg] at hnone
    exact hnone
  have hreply : (Deed.start "a" .blank 0).reply Trial.busy = some (.truth false) := by decide +kernel
  obtain ⟨-, hbare, -⟩ := init_life_cycle hlost hg
  obtain ⟨-, -, -, hdeeds⟩ := hbare hgl
  obtain ⟨htrace, -, halike, hlater⟩ := hdeeds Trial.asking Trial.asks
  obtain ⟨-, -, hagain⟩ := init_life_cycle hbusy hf
  have hin := hreach.good.inOrder "a" _ hf _ hl
  obtain ⟨-, g, hg', -, hheld⟩ := hagain ⟨Path.ofText "r", 1⟩ .blank 0 hl hin.lead hin.accounts.single hreply
    Trial.asking Trial.asks _ rfl
  refine ⟨hbusy, hlost, hreply, htrace, halike, ?_, f, g, hf, hg', hheld [107]⟩
  rw [(hlater _).1]
  decide +kernel

end ContentStore
