import ContentStore.Proofs.Moves
import ContentStore.Session

/-!
# What holds of every run of a session

`Reach` is every session that stores come to from their making by taking roots, by calls, by moves between any
two of them and by asking for paths.  The paths that they are given keep clear of all roots, no root leads
through what lies below another one or below itself, and what has to be counted is a word.

* `Reach.good`: every store of a session that is reached is in order;
* `counts_match_scan`: so its counts are what a scan of its root counts.
-/

namespace ContentStore

open Decimal (wordLimit)
open FileSystem (Free)

/-! ### Taking a root -/

theorem Untouched.of_grown {p : Path} {d : Key} {t u : Tree} (h : Grown p t u) (hp : p.Avoids d) :
    Untouched d t.kind? u.kind? where
  dir _ := h.dir
  file k c _ := h.file_iff k c
  fresh k hk hne hdir := by
    rcases h k with e | ⟨-, -, hv, -⟩
    · rwa [e] at hdir
    · exact absurd (hp k hv hk) hne

theorem Grown.proper {p : Path} {t u : Tree} (h : Grown p t u) (ht : Proper t.kind?) : Proper u.kind? :=
  (Frame.of_grown h []).proper ht

namespace AnyStore

variable {tidy : Prop} {a a' b b' c : AnyStore} {t u : Tree} {outside : List Path}

def totals : AnyStore → Totals
  | .file s => s.tracker.totals
  | .memory s => s.tracker.totals
  | .fixed _ => .zero

theorem Worked.other (h : Worked tidy outside a t a' u) (hc : c.InOrder tidy t)
    (hbeside : ∀ p q, a.root? = some p → c.root? = some q → p.Beside q)
    (hout : ∀ q, c.root? = some q → ∀ p ∈ outside, ¬ q.key <:+ p.key) : c.InOrder tidy u := by
  cases c with
  | file s =>
    intro l hl
    have hroot := FileStore.root_eq hl
    exact h.others s l (fun p hp => hbeside p _ hp hroot) (hout _ hroot) (hc l hl)
  | memory m => exact hc
  | fixed f => trivial

theorem WorkedBoth.other (h : WorkedBoth tidy a b t a' b' u) (hc : c.InOrder tidy t)
    (ha : ∀ p q, a.root? = some p → c.root? = some q → p.Beside q)
    (hb : ∀ p q, b.root? = some p → c.root? = some q → p.Beside q) : c.InOrder tidy u :=
  hc.untouched fun q hq => h.others q.key (fun p hp => ⟨(ha p q hp hq).apart, (ha p q hp hq).avoids⟩)
    fun p hp => ⟨(hb p q hp hq).apart, (hb p q hp hq).avoids⟩

end AnyStore

namespace Session

variable {α : Type} {s : Session} {id : String} {a : AnyStore}

def root? (s : Session) (id : String) : Option Path := (s.store? id).bind AnyStore.root?

/-- The bytes of the chunks of each store are a number that fits into a word. -/
def Bounded (s : Session) : Prop := ∀ id a, s.store? id = some a → a.Bounded s.workspace.tree

theorem store?_put (s : Session) (id other : String) (a : AnyStore) :
    (s.put id a).store? other = if other = id then some a else s.store? other :=
  Table.lookup_put id other a s.stores

theorem bind_apply {β : Type} (f : StateM Session α) (g : α → StateM Session β) (s : Session) :
    (f >>= g) s = g (f s).1 (f s).2 := rfl

theorem get_apply (s : Session) : (get : StateM Session Session) s = (s, s) := rfl

theorem runOn_apply (f : AnyStore → Action (α × AnyStore)) (ha : s.store? id = some a) :
    runOn id f s = (some (f a s.workspace).1.1,
      ({ s with workspace := (f a s.workspace).2 } : Session).put id (f a s.workspace).1.2) := by
  unfold runOn
  rw [bind_apply, get_apply]
  dsimp only
  rw [ha]
  rfl

theorem runOn_none (f : AnyStore → Action (α × AnyStore)) (ha : s.store? id = none) :
    runOn id f s = (none, s) := by
  unfold runOn
  rw [bind_apply, get_apply]
  dsimp only
  rw [ha]
  rfl

theorem root?_of_store? (ha : s.store? id = some a) : s.root? id = a.root? := by
  rw [root?, ha]
  rfl

end Session

section

variable [FileSystem]

namespace FileStore

/-- Making the directory of a root comes to a directory, or to nothing but directories on the way. -/
theorem prepareRoot_spec (root : Path) (w : Workspace) :
    ∃ v, Grown root w.tree v.tree ∧ ((∃ e, (prepareRoot root).run w = (.error e, v)) ∨
      (prepareRoot root).run w = (.ok (), v) ∧ v.tree.leadsToDir root = true) := by
  unfold prepareRoot
  by_cases hblank : root = .blank
  · rw [if_pos hblank]
    exact ⟨w, .refl _ _, Or.inl ⟨_, rfl⟩⟩
  · rw [if_neg hblank]
    obtain ⟨r, cs, hrun, hgrown, -⟩ := Request.makeDirs_spec root w
    refine ⟨_, hgrown, ?_⟩
    dsimp only
    rw [Action.run_bind, Action.run_file, hrun]
    rcases r with f | u
    · exact Or.inl ⟨_, rfl⟩
    · dsimp only
      rw [Action.run_bind, Attempt.run_tree]
      cases hlead : (w.commits cs).tree.leadsToDir root with
      | false => exact Or.inl ⟨_, by simp only [hlead]; rfl⟩
      | true => exact Or.inr ⟨by simp only [hlead]; rfl, rfl⟩

theorem init_error {s : FileStore} {root : Path} {w x : Workspace} {e : StoreError}
    (h : (prepareRoot root).run w = (.error e, x)) (depth : Nat) :
    s.init root depth w = ((.error e, { s with layout? := none, tracker := s.tracker.clear }), x) := by
  unfold init
  simp only [Action.bind_apply]
  rw [h]
  rfl

theorem init_ok {s : FileStore} {root : Path} {w x : Workspace} (h : (prepareRoot root).run w = (.ok (), x))
    (depth : Nat) :
    ∃ y, s.init root depth w = ((.ok (Scan.count s.mode x.tree root), { s with
        layout? := some ⟨root, depth⟩
        tracker := s.tracker.reset (Scan.count s.mode x.tree root) }), y) ∧ y.tree = x.tree := by
  obtain ⟨hfound, htree⟩ := Scan.run_spec s.mode root x
  let event := Event.initialized root depth s.mode.isCounted (Scan.count s.mode x.tree root)
  refine ⟨(Action.report event (Scan.run s.mode root x).2).2, ?_, htree⟩
  unfold init
  simp only [Action.bind_apply]
  rw [h]
  simp only [Action.bind_apply, hfound]
  rfl

/-- **Taking a root.**  The store counts what is there, or has no root afterwards. -/
theorem init_spec (s : FileStore) (root : Path) (depth : Nat) (w : Workspace) :
    ∃ v, Grown root w.tree v.tree ∧
      ((∃ e, s.init root depth w = ((.error e, { s with layout? := none, tracker := s.tracker.clear }), v)) ∨
        s.init root depth w = ((.ok (Scan.count s.mode v.tree root), { s with
          layout? := some ⟨root, depth⟩
          tracker := s.tracker.reset (Scan.count s.mode v.tree root) }), v) ∧
        v.tree.leadsToDir root = true) := by
  obtain ⟨x, hgrown, ⟨e, hrun⟩ | ⟨hrun, hlead⟩⟩ := prepareRoot_spec root w
  · exact ⟨x, hgrown, Or.inl ⟨e, init_error hrun depth⟩⟩
  · obtain ⟨y, hinit, htree⟩ := init_ok (s := s) hrun depth
    exact ⟨y, by rwa [htree], Or.inr ⟨by rw [htree]; exact hinit, by rwa [htree]⟩⟩

theorem start_apply (s : FileStore) (root : Path) (depth : Nat) (w : Workspace) :
    s.start root depth w = match s.init root depth w with
      | ((.ok _, s'), v) => ((true, s'), v)
      | ((.error _, s'), v) => ((false, s'), (Action.report (.initFailed root) v).2) := by
  unfold start
  simp only [Action.bind_apply]
  rcases s.init root depth w with ⟨⟨_ | _, s'⟩, v⟩ <;> rfl

theorem start_error {s : FileStore} {root : Path} {w x : Workspace} {e : StoreError}
    (h : (prepareRoot root).run w = (.error e, x)) (depth : Nat) :
    ∃ y, s.start root depth w = ((false, { s with layout? := none, tracker := s.tracker.clear }), y) ∧
      y.tree = x.tree := by
  rw [start_apply, init_error h]
  exact ⟨_, rfl, rfl⟩

theorem start_ok {s : FileStore} {root : Path} {w x : Workspace} (h : (prepareRoot root).run w = (.ok (), x))
    (depth : Nat) :
    ∃ y, s.start root depth w = ((true, { s with
        layout? := some ⟨root, depth⟩
        tracker := s.tracker.reset (Scan.count s.mode x.tree root) }), y) ∧ y.tree = x.tree := by
  obtain ⟨y, hinit, htree⟩ := init_ok (s := s) h depth
  rw [start_apply, hinit]
  exact ⟨y, rfl, htree⟩

theorem start_spec (s : FileStore) (root : Path) (depth : Nat) (w : Workspace) :
    ∃ v, Grown root w.tree v.tree ∧
      (s.start root depth w = ((false, { s with layout? := none, tracker := s.tracker.clear }), v) ∨
        s.start root depth w = ((true, { s with
          layout? := some ⟨root, depth⟩
          tracker := s.tracker.reset (Scan.count s.mode v.tree root) }), v) ∧
        v.tree.leadsToDir root = true) := by
  obtain ⟨v, hgrown, ⟨e, hinit⟩ | ⟨hinit, hlead⟩⟩ := s.init_spec root depth w
  · exact ⟨(Action.report (.initFailed root) v).2, hgrown, Or.inl (by rw [start_apply, hinit])⟩
  · exact ⟨v, hgrown, Or.inr ⟨by rw [start_apply, hinit], hlead⟩⟩

theorem chunkPath_worked {tidy : Prop} {s : FileStore} {w : Workspace} (h : (AnyStore.file s).InOrder tidy w.tree)
    (hself : ∀ p, (AnyStore.file s).root? = some p → p.Avoids p.key) (name : Bytes) (create : Bool) :
    AnyStore.Worked tidy [] (.file s) w.tree (.file s) (s.chunkPath name create w).2.tree := by
  rcases hl : s.layout? with _ | l
  · rw [chunkPath_uninitialized hl]
    exact .idle rfl h
  · exact (chunkPath_imprint hl name create w).worked (h l hl) hl (hself _ (root_eq hl)) (by simp)
      fun _ hstored => by cases hstored

end FileStore

namespace AnyStore

variable {tidy : Prop} {a : AnyStore}

/-- Gives a file store a root; other stores take none. -/
def start (root : Path) (depth : Nat) : AnyStore → Action (Bool × AnyStore)
  | .file s => after .file (s.start root depth)
  | .memory m => return (false, .memory m)
  | .fixed f => return (false, .fixed f)

theorem start_file (f : FileStore) (root : Path) (depth : Nat) (w : Workspace) :
    start root depth (.file f) w =
      (((f.start root depth w).1.1, .file (f.start root depth w).1.2), (f.start root depth w).2) := rfl

/-- Asks a file store for the path of a chunk; other stores have none. -/
def chunkPath (name : Bytes) (create : Bool) : AnyStore → Action (Option Path × AnyStore)
  | .file s => return (← s.chunkPath name create, .file s)
  | .memory m => return (none, .memory m)
  | .fixed f => return (none, .fixed f)

theorem chunkPath_worked {w : Workspace} (ha : a.InOrder tidy w.tree)
    (hself : ∀ p, a.root? = some p → p.Avoids p.key) (name : Bytes) (create : Bool) :
    Worked tidy [] a w.tree (chunkPath name create a w).1.2 (chunkPath name create a w).2.tree := by
  cases a with
  | file s => exact FileStore.chunkPath_worked ha hself name create
  | memory m => exact .idle rfl ha
  | fixed f => exact .idle rfl ha

def Fresh : AnyStore → Prop
  | .file s => ∃ counting h, s = .new counting h
  | .memory m => ∃ counting h, m = .new counting h
  | .fixed _ => True

end AnyStore

namespace Session

variable {α : Type} {s : Session} {id : String} {a : AnyStore}

theorem moveTo_apply {sinkId : String} {b : AnyStore} (name : Bytes) (hne : id ≠ sinkId)
    (ha : s.store? id = some a) (hb : s.store? sinkId = some b) :
    moveTo id name sinkId s = (some (ChunkStore.moveTo a name b s.workspace).1.1,
      (({ s with workspace := (ChunkStore.moveTo a name b s.workspace).2 } : Session).put id
        (ChunkStore.moveTo a name b s.workspace).1.2.1).put sinkId
        (ChunkStore.moveTo a name b s.workspace).1.2.2) := by
  unfold moveTo runOnBoth
  rw [if_neg hne, bind_apply, get_apply, bind_apply, get_apply]
  dsimp only
  rw [ha, hb]
  rfl

theorem moveTo_none {sinkId : String} (name : Bytes) (hne : id ≠ sinkId)
    (h : s.store? id = none ∨ s.store? sinkId = none) : moveTo id name sinkId s = (none, s) := by
  unfold moveTo runOnBoth
  rw [if_neg hne, bind_apply, get_apply, bind_apply, get_apply]
  dsimp only
  rcases h with h | h
  · rw [h]
    rfl
  · rw [h]
    cases s.store? id <;> rfl

theorem moveTo_self (id : String) (name : Bytes) (s : Session) :
    moveTo id name id s =
      runOn id (fun store => do return (← ChunkStore.moveToSelf store name, store)) s := by
  unfold moveTo runOnBoth
  rw [if_pos rfl]

end Session

theorem AnyStore.moveToSelf_tree (a : AnyStore) (name : Bytes) (w : Workspace) :
    (ChunkStore.moveToSelf a name w).2.tree = w.tree := by
  cases a with
  | file s =>
    have htree : (ChunkStore.moveToSelf s name w).2.tree = ((s.moveToSelf name).run w).2.tree :=
      Attempt.reported_tree .moveTo name (s.moveToSelf name) w
    show (ChunkStore.moveToSelf s name w).2.tree = w.tree
    rw [htree, FileStore.moveToSelf, Action.run_bind]
    have hrequire := s.require_same name w
    rcases hrun : (s.require name).run w with ⟨e | x, v⟩ <;> rw [hrun] at hrequire <;>
      exact congrArg Workspace.tree hrequire
  | memory m => exact Attempt.outcome_tree .moveTo name (m.moveToSelf name) w
  | fixed f => rfl

/-! ### Runs -/

/-- What can be done in a session. -/
inductive Deed where
  | start (id : String) (root : Path) (depth : Nat)
  | call (id : String) (c : Call)
  | moveTo (id : String) (name : Bytes) (sinkId : String)
  | chunkPath (id : String) (name : Bytes) (create : Bool)

namespace Deed

def run (s : Session) : Deed → Session
  | start id root depth => (Session.runOn id (AnyStore.start root depth) s).2
  | call id c => (Session.call id c s).2
  | moveTo id name sinkId => (Session.moveTo id name sinkId s).2
  | chunkPath id name create => (Session.runOn id (AnyStore.chunkPath name create) s).2

/-- What a deed relies on.  A root keeps clear of itself and of the other roots, and no directory below it
holds two files of one chunk; where tidiness is asked for, only directories of digits are there, and none is shut
or lies on another volume.  Paths that a call is given lead outside all roots, and a reference that is taken can be
counted. -/
def Fits (tidy : Prop) (s : Session) : Deed → Prop
  | start id root _ =>
    root.Avoids root.key ∧ (∀ other q, other ≠ id → s.root? other = some q → root.Beside q) ∧
      (∀ f, s.store? id = some (.file f) → f.mode.Single root.key s.workspace.tree.kind?) ∧
      (tidy → Tidy root.key s.workspace.tree.kind? ∧ Free root.key)
  | call id c =>
    (∀ other q, s.root? other = some q → ∀ p ∈ c.paths, ¬ q.key <:+ p.key) ∧
      ∀ a, s.store? id = some a → ∀ name ∈ c.stored?, a.CanShare s.workspace.tree name
  | moveTo id name sinkId =>
    id ≠ sinkId → ∀ b, s.store? sinkId = some b → b.CanShare s.workspace.tree name
  | chunkPath .. => True

section

variable {s : Session} {id other sinkId : String} {a b : AnyStore}

theorem run_start (root : Path) (depth : Nat) (ha : s.store? id = some a) :
    run s (.start id root depth) =
      ({ s with workspace := (AnyStore.start root depth a s.workspace).2 } : Session).put id
        (AnyStore.start root depth a s.workspace).1.2 :=
  congrArg Prod.snd (Session.runOn_apply _ ha)

theorem run_call (c : Call) (ha : s.store? id = some a) :
    run s (.call id c) =
      ({ s with workspace := (c.run a s.workspace).2 } : Session).put id (c.run a s.workspace).1.2 :=
  congrArg Prod.snd (Session.runOn_apply _ ha)

theorem run_moveTo (name : Bytes) (hne : id ≠ sinkId) (ha : s.store? id = some a)
    (hb : s.store? sinkId = some b) :
    run s (.moveTo id name sinkId) =
      (({ s with workspace := (ChunkStore.moveTo a name b s.workspace).2 } : Session).put id
        (ChunkStore.moveTo a name b s.workspace).1.2.1).put sinkId
        (ChunkStore.moveTo a name b s.workspace).1.2.2 :=
  congrArg Prod.snd (Session.moveTo_apply name hne ha hb)

theorem run_moveTo_self (name : Bytes) (ha : s.store? id = some a) :
    run s (.moveTo id name id) =
      ({ s with workspace := (ChunkStore.moveToSelf a name s.workspace).2 } : Session).put id a := by
  have hrun : run s (.moveTo id name id) =
      (Session.runOn id (fun store => do return (← ChunkStore.moveToSelf store name, store)) s).2 :=
    congrArg Prod.snd (Session.moveTo_self id name s)
  rw [hrun, Session.runOn_apply _ ha]
  rfl

theorem run_chunkPath (name : Bytes) (create : Bool) (ha : s.store? id = some a) :
    run s (.chunkPath id name create) =
      ({ s with workspace := (AnyStore.chunkPath name create a s.workspace).2 } : Session).put id
        (AnyStore.chunkPath name create a s.workspace).1.2 :=
  congrArg Prod.snd (Session.runOn_apply _ ha)

theorem run_none {d : Deed} (h : match d with
      | start id .. | call id _ | chunkPath id .. => s.store? id = none
      | moveTo id _ sinkId => s.store? id = none ∨ s.store? sinkId = none) : run s d = s := by
  cases d with
  | start | call | chunkPath => exact congrArg Prod.snd (Session.runOn_none _ h)
  | moveTo id name sinkId =>
    by_cases hne : id = sinkId
    · subst hne
      have hrun : run s (.moveTo id name id) =
          (Session.runOn id (fun store => do return (← ChunkStore.moveToSelf store name, store)) s).2 :=
        congrArg Prod.snd (Session.moveTo_self id name s)
      rw [hrun, Session.runOn_none _ (h.elim (fun h => h) fun h => h)]
    · exact congrArg Prod.snd (Session.moveTo_none name hne h)

/-- What a deed comes to: nothing if a store is missing, else what its store does, or what its two stores do. -/
inductive Ran (s : Session) : Deed → Session → Prop
  | idle (d : Deed) : Ran s d s
  | start (id : String) (root : Path) (depth : Nat) (a : AnyStore) (ha : s.store? id = some a) :
      Ran s (.start id root depth)
        (({ s with workspace := (AnyStore.start root depth a s.workspace).2 } : Session).put id
          (AnyStore.start root depth a s.workspace).1.2)
  | call (id : String) (c : Call) (a : AnyStore) (ha : s.store? id = some a) :
      Ran s (.call id c)
        (({ s with workspace := (c.run a s.workspace).2 } : Session).put id (c.run a s.workspace).1.2)
  | moveTo (id : String) (name : Bytes) (sinkId : String) (a b : AnyStore) (hne : id ≠ sinkId)
      (ha : s.store? id = some a) (hb : s.store? sinkId = some b) :
      Ran s (.moveTo id name sinkId)
        ((({ s with workspace := (ChunkStore.moveTo a name b s.workspace).2 } : Session).put id
          (ChunkStore.moveTo a name b s.workspace).1.2.1).put sinkId
          (ChunkStore.moveTo a name b s.workspace).1.2.2)
  | moveToSelf (id : String) (name : Bytes) (a : AnyStore) (ha : s.store? id = some a) :
      Ran s (.moveTo id name id)
        (({ s with workspace := (ChunkStore.moveToSelf a name s.workspace).2 } : Session).put id a)
  | chunkPath (id : String) (name : Bytes) (create : Bool) (a : AnyStore) (ha : s.store? id = some a) :
      Ran s (.chunkPath id name create)
        (({ s with workspace := (AnyStore.chunkPath name create a s.workspace).2 } : Session).put id
          (AnyStore.chunkPath name create a s.workspace).1.2)

/-- **One deed**, case by case. -/
theorem ran (d : Deed) (s : Session) : Ran s d (d.run s) := by
  have hidle : ∀ {d : Deed}, d.run s = s → Ran s d (d.run s) := fun h => h.symm ▸ .idle _
  cases d with
  | start id root depth =>
    rcases ha : s.store? id with _ | a
    · exact hidle (run_none ha)
    · rw [run_start root depth ha]
      exact .start id root depth a ha
  | call id c =>
    rcases ha : s.store? id with _ | a
    · exact hidle (run_none ha)
    · rw [run_call c ha]
      exact .call id c a ha
  | moveTo id name sinkId =>
    rcases ha : s.store? id with _ | a
    · exact hidle (run_none (Or.inl ha))
    by_cases hne : id = sinkId
    · subst hne
      rw [run_moveTo_self name ha]
      exact .moveToSelf id name a ha
    rcases hb : s.store? sinkId with _ | b
    · exact hidle (run_none (Or.inr hb))
    · rw [run_moveTo name hne ha hb]
      exact .moveTo id name sinkId a b hne ha hb
  | chunkPath id name create =>
    rcases ha : s.store? id with _ | a
    · exact hidle (run_none ha)
    · rw [run_chunkPath name create ha]
      exact .chunkPath id name create a ha

inductive Became (s : Session) (id : String) (a : AnyStore) : Deed → AnyStore → Prop
  | same (d : Deed) : Became s id a d a
  | started (root : Path) (depth : Nat) :
      Became s id a (.start id root depth) (AnyStore.start root depth a s.workspace).1.2
  | called (c : Call) : Became s id a (.call id c) (c.run a s.workspace).1.2
  | gave {sinkId : String} {b : AnyStore} (name : Bytes) (hne : id ≠ sinkId) (hb : s.store? sinkId = some b) :
      Became s id a (.moveTo id name sinkId) (ChunkStore.moveTo a name b s.workspace).1.2.1
  | got {sourceId : String} {b : AnyStore} (name : Bytes) (hne : sourceId ≠ id)
      (hb : s.store? sourceId = some b) :
      Became s id a (.moveTo sourceId name id) (ChunkStore.moveTo b name a s.workspace).1.2.2

/-- A store is changed by what is done to it, and by the moves that it takes part in. -/
theorem became {d : Deed} {a' : AnyStore} (ha : s.store? id = some a) (ha' : (d.run s).store? id = some a') :
    Became s id a d a' := by
  -- a store that is put in the place of the one in question takes its place, and any other one leaves it
  have hput : ∀ {u : Session} {other : String} {b c : AnyStore}, u.stores = s.stores → s.store? other = some c →
      (u.put other b).store? id = some a' → (other = id ∧ c = a ∧ b = a') ∨ (other ≠ id ∧ a = a') := by
    intro u other b c hu hc h
    rw [Session.store?_put] at h
    split at h
    · next e =>
      subst e
      exact Or.inl ⟨rfl, Option.some.inj (hc.symm.trans ha), Option.some.inj h⟩
    · next e =>
      have hu : u.store? id = s.store? id := congrArg (List.lookup id) hu
      rw [hu, ha] at h
      exact Or.inr ⟨Ne.symm e, Option.some.inj h⟩
  have hran := d.ran s
  generalize d.run s = s' at hran ha'
  cases hran with
  | idle =>
    rw [ha] at ha'
    cases ha'
    exact .same d
  | start other root depth b hb =>
    obtain ⟨rfl, rfl, rfl⟩ | ⟨-, rfl⟩ := hput rfl hb ha'
    · exact .started root depth
    · exact .same _
  | call other c b hb =>
    obtain ⟨rfl, rfl, rfl⟩ | ⟨-, rfl⟩ := hput rfl hb ha'
    · exact .called c
    · exact .same _
  | moveTo sourceId name sinkId b c hne hb hc =>
    rw [Session.store?_put] at ha'
    split at ha'
    · next e =>
      subst e
      rw [hc] at ha
      cases ha
      cases ha'
      exact .got name hne hb
    · obtain ⟨rfl, rfl, rfl⟩ | ⟨-, rfl⟩ := hput rfl hb ha'
      · exact .gave name hne hc
      · exact .same _
  | moveToSelf other name b hb =>
    obtain ⟨rfl, rfl, rfl⟩ | ⟨-, rfl⟩ := hput rfl hb ha' <;> exact .same _
  | chunkPath other name create b hb =>
    obtain ⟨rfl, rfl, rfl⟩ | ⟨-, rfl⟩ := hput rfl hb ha'
    · cases b <;> exact .same _
    · exact .same _

end

end Deed

namespace Session

/-- The sessions that stores come to from their making, as long as their bytes can be counted. -/
inductive Reach (tidy : Prop) : Session → Prop
  | fresh {s : Session} (hfresh : ∀ id a, s.store? id = some a → a.Fresh)
      (hproper : Proper s.workspace.tree.kind?) : Reach tidy s
  | step {s : Session} (hs : Reach tidy s) (d : Deed) (hfits : d.Fits tidy s)
      (hbounded : (d.run s).Bounded) : Reach tidy (d.run s)

/-- No root leads through what lies below a root, and every store is in order. -/
structure Good (tidy : Prop) (s : Session) : Prop where
  proper : Proper s.workspace.tree.kind?
  clear : ∀ id p, s.root? id = some p → p.Avoids p.key
  free : tidy → ∀ id p, s.root? id = some p → Free p.key
  beside : ∀ i j p q, i ≠ j → s.root? i = some p → s.root? j = some q → p.Beside q
  inOrder : ∀ id a, s.store? id = some a → a.InOrder tidy s.workspace.tree

variable {tidy : Prop} {s : Session} {id sinkId : String} {a b : AnyStore} {p q : Path}

namespace Good

theorem of_roots (h : s.Good tidy) {u : Session} (hproper : Proper u.workspace.tree.kind?)
    (hroot : ∀ id, u.root? id = s.root? id)
    (hin : ∀ id a, u.store? id = some a → a.InOrder tidy u.workspace.tree) : u.Good tidy where
  proper := hproper
  clear id p hp := h.clear id p (hroot id ▸ hp)
  free ht id p hp := h.free ht id p (hroot id ▸ hp)
  beside i j p q hne hp hq := h.beside i j p q hne (hroot i ▸ hp) (hroot j ▸ hq)
  inOrder := hin

theorem clear_of (h : s.Good tidy) (ha : s.store? id = some a) (hp : a.root? = some p) : p.Avoids p.key :=
  h.clear id p ((root?_of_store? ha).trans hp)

theorem beside_of (h : s.Good tidy) (hne : id ≠ sinkId) (ha : s.store? id = some a)
    (hb : s.store? sinkId = some b) (hp : a.root? = some p) (hq : b.root? = some q) : p.Beside q :=
  h.beside id sinkId p q hne ((root?_of_store? ha).trans hp) ((root?_of_store? hb).trans hq)

theorem worked (h : s.Good tidy) (ha : s.store? id = some a) {outside : List Path} {b : AnyStore}
    {w : Workspace} (hw : AnyStore.Worked tidy outside a s.workspace.tree b w.tree)
    (hout : ∀ other q, s.root? other = some q → ∀ p ∈ outside, ¬ q.key <:+ p.key)
    (hbounded : (({ s with workspace := w } : Session).put id b).Bounded) :
    (({ s with workspace := w } : Session).put id b).Good tidy := by
  have hstore : ∀ other, (({ s with workspace := w } : Session).put id b).store? other =
      if other = id then some b else s.store? other := fun other => store?_put _ id other b
  refine h.of_roots (hw.proper h.proper) (fun other => ?_) fun other c hc => ?_
  · rw [root?, hstore, root?]
    split
    · next e =>
      rw [e, ha]
      exact hw.root
    · rfl
  · have hb := hbounded other c hc
    rw [hstore] at hc
    split at hc
    · cases hc
      exact hw.inOrder hb
    · next hne =>
      exact hw.other (h.inOrder other c hc) (fun p q hp hq => h.beside_of (Ne.symm hne) ha hc hp hq)
        fun q hq => hout other q ((root?_of_store? hc).trans hq)

theorem workedBoth (h : s.Good tidy) (ha : s.store? id = some a)
    (hb : s.store? sinkId = some b) {a' b' : AnyStore} {w : Workspace}
    (hw : AnyStore.WorkedBoth tidy a b s.workspace.tree a' b' w.tree)
    (hbounded : ((({ s with workspace := w } : Session).put id a').put sinkId b').Bounded) :
    ((({ s with workspace := w } : Session).put id a').put sinkId b').Good tidy := by
  have hstore : ∀ other, ((({ s with workspace := w } : Session).put id a').put sinkId b').store? other =
      if other = sinkId then some b' else if other = id then some a' else s.store? other := fun other => by
    rw [store?_put, store?_put]
    rfl
  refine h.of_roots (hw.proper h.proper) (fun other => ?_) fun other c hc => ?_
  · rw [root?, hstore, root?]
    split
    · next e =>
      rw [e, hb]
      exact hw.sinkRoot
    · split
      · next e =>
        rw [e, ha]
        exact hw.root
      · rfl
  · have hbound := hbounded other c hc
    rw [hstore] at hc
    split at hc
    · cases hc
      exact hw.sinkInOrder hbound
    · next hsink =>
      split at hc
      · cases hc
        exact hw.inOrder hbound
      · next hsource =>
        exact hw.other (h.inOrder other c hc)
          (fun p q hp hq => h.beside_of (Ne.symm hsource) ha hc hp hq)
          fun p q hp hq => h.beside_of (Ne.symm hsink) hb hc hp hq

theorem started (h : s.Good tidy) {g : FileStore} {w : Workspace} {root : Path}
    (hself : root.Avoids root.key) (hfree : tidy → Free root.key)
    (hbeside : ∀ other q, other ≠ id → s.root? other = some q → root.Beside q)
    (hgrown : Grown root s.workspace.tree w.tree)
    (hg : ∀ l, g.layout? = some l → l.root = root ∧ g.InOrder tidy l w.tree) :
    (({ s with workspace := w } : Session).put id (.file g)).Good tidy := by
  have hstore : ∀ other, (({ s with workspace := w } : Session).put id (.file g)).store? other =
      if other = id then some (.file g) else s.store? other := fun other => store?_put _ id other _
  have hroot : ∀ other, (({ s with workspace := w } : Session).put id (.file g)).root? other =
      if other = id then (AnyStore.file g).root? else s.root? other := fun other => by
    rw [root?, hstore]
    split
    · rfl
    · rfl
  have hgroot : ∀ p, (AnyStore.file g).root? = some p → p = root := by
    intro p hp
    rcases hl : g.layout? with _ | l
    · rw [AnyStore.root?, FileStore.root?, hl] at hp
      cases hp
    · rw [FileStore.root_eq hl] at hp
      cases hp
      exact (hg l hl).1
  refine ⟨hgrown.proper h.proper, fun other p hp => ?_, fun ht other p hp => ?_, fun i j p q hne hp hq => ?_,
    fun other c hc => ?_⟩
  · rw [hroot] at hp
    split at hp
    · rw [hgroot p hp]
      exact hself
    · exact h.clear other p hp
  · rw [hroot] at hp
    split at hp
    · rw [hgroot p hp]
      exact hfree ht
    · exact h.free ht other p hp
  · rw [hroot] at hp hq
    split at hp <;> split at hq
    · next hi hj => exact absurd (hi.trans hj.symm) hne
    · next hi hj =>
      rw [hgroot p hp]
      exact hbeside j q hj hq
    · next hi hj =>
      rw [hgroot q hq]
      obtain ⟨hapart, havoids, havoided⟩ := hbeside i p hi hp
      exact ⟨hapart.symm, havoided, havoids⟩
    · exact h.beside i j p q hne hp hq
  · rw [hstore] at hc
    split at hc
    · cases hc
      exact fun l hl => (hg l hl).2
    · next hne =>
      exact (h.inOrder other c hc).untouched fun q hq =>
        .of_grown hgrown (hbeside other q hne ((root?_of_store? hc).trans hq)).avoids

/-- **One deed** keeps all stores in order. -/
theorem step (h : s.Good tidy) (d : Deed) (hfits : d.Fits tidy s) (hbounded : (d.run s).Bounded) :
    (d.run s).Good tidy := by
  have hroot := fun {id a} (ha : s.store? id = some a) p hp => h.clear_of (p := p) ha hp
  have hidle : ∀ {id a}, s.store? id = some a → AnyStore.Worked tidy [] a s.workspace.tree a s.workspace.tree :=
    fun ha => .idle rfl (h.inOrder _ _ ha)
  have hnone : ∀ other q, s.root? other = some q → ∀ p ∈ ([] : List Path), ¬ q.key <:+ p.key :=
    fun _ _ _ _ hp => absurd hp List.not_mem_nil
  have hran := d.ran s
  generalize d.run s = s' at hran hbounded ⊢
  cases hran with
  | idle => exact h
  | start id root depth a ha =>
    obtain ⟨hself, hbeside, hsingle, htidy⟩ := hfits
    have hfree := fun ht => (htidy ht).2
    cases a with
    | file f =>
      obtain ⟨v, hgrown, hstart | ⟨hstart, hlead⟩⟩ := f.start_spec root depth s.workspace
      · rw [AnyStore.start_file, hstart]
        exact h.started hself hfree hbeside hgrown fun l hl => by cases hl
      · rw [AnyStore.start_file, hstart]
        refine h.started hself hfree hbeside hgrown fun l hl => ?_
        cases hl
        refine ⟨rfl, hlead, FileStore.accounts_of_count hlead ?_ rfl, fun ht => ?_⟩
        · exact (hsingle f ha).congr fun k c _ => hgrown.file_iff k c
        · exact (htidy ht).1.untouched (.of_grown hgrown hself)
    | memory m => exact h.worked ha (hidle ha) hnone hbounded
    | fixed f => exact h.worked ha (hidle ha) hnone hbounded
  | call id c a ha =>
    obtain ⟨hout, hshare⟩ := hfits
    exact h.worked ha (AnyStore.call_worked (h.inOrder id a ha) (hroot ha) h.proper c
      (fun p hp => hout id p ((root?_of_store? ha).trans hp)) (hshare a ha)) hout hbounded
  | moveTo id name sinkId a b hne ha hb =>
    exact h.workedBoth ha hb (AnyStore.moveTo_worked (h.inOrder id a ha) (hroot ha)
      (h.inOrder sinkId b hb) (hroot hb)
      (fun p q hp hq => h.beside_of (Ne.symm hne) hb ha hq hp) (hfits hne b hb)) hbounded
  | moveToSelf id name a ha =>
    refine h.worked ha ?_ hnone hbounded
    rw [a.moveToSelf_tree]
    exact hidle ha
  | chunkPath id name create a ha =>
    exact h.worked ha (AnyStore.chunkPath_worked (h.inOrder id a ha) (hroot ha) name create) hnone hbounded

end Good

omit [FileSystem] in
theorem root?_of_fresh (hfresh : ∀ id a, s.store? id = some a → a.Fresh) (id : String) : s.root? id = none := by
  rcases ha : s.store? id with _ | a
  · rw [root?, ha]
    rfl
  · rw [root?_of_store? ha]
    cases a with
    | file f =>
      obtain ⟨counting, h, rfl⟩ := hfresh id _ ha
      rfl
    | memory m => rfl
    | fixed f => rfl

theorem good_fresh (hfresh : ∀ id a, s.store? id = some a → a.Fresh)
    (hproper : Proper s.workspace.tree.kind?) : s.Good tidy := by
  have hroot := root?_of_fresh hfresh
  refine ⟨hproper, fun id p hp => ?_, fun _ id p hp => ?_, fun i j p q _ hp _ => ?_, fun id a ha => ?_⟩
  · rw [hroot] at hp
    cases hp
  · rw [hroot] at hp
    cases hp
  · rw [hroot] at hp
    cases hp
  · cases a with
    | file f =>
      obtain ⟨counting, h, rfl⟩ := hfresh id _ ha
      intro l hl
      cases hl
    | memory m =>
      obtain ⟨counting, h, rfl⟩ := hfresh id _ ha
      exact MemoryStore.sound_new counting h
    | fixed f => trivial

/-- **Every run** keeps all stores in order. -/
theorem Reach.good (h : Reach tidy s) : s.Good tidy := by
  induction h with
  | fresh hfresh hproper => exact good_fresh hfresh hproper
  | step hs d hfits hbounded ih => exact ih.step d hfits hbounded

end Session

end

/-! ### A session to try it on -/

instance (p : Path) (d : Key) : Decidable (p.Avoids d) :=
  inferInstanceAs (Decidable (∀ k ∈ p.visits, d <:+ k → k = d))

instance (k l : Key) : Decidable (k.Apart l) := inferInstanceAs (Decidable (¬ k <:+ l ∧ ¬ l <:+ k))

instance (p q : Path) : Decidable (p.Beside q) :=
  decidable_of_iff (p.key.Apart q.key ∧ p.Avoids q.key ∧ q.Avoids p.key)
    ⟨fun ⟨h, h', h''⟩ => ⟨h, h', h''⟩, fun ⟨h, h', h''⟩ => ⟨h, h', h''⟩⟩

instance (t : Tree) : (a : AnyStore) → Decidable (a.Bounded t)
  | .file s => inferInstanceAs (Decidable (∀ l ∈ s.layout?, (Scan.count s.mode t l.root).size < wordLimit))
  | .memory s => inferInstanceAs (Decidable ((MemoryStore.tally s.chunks).size < wordLimit))
  | .fixed _ => inferInstanceAs (Decidable True)

instance (t : Tree) (name : Bytes) (a : AnyStore) : Decidable (a.CanShare t name) :=
  inferInstanceAs (Decidable (∀ held ∈ a.held? t name, held.count + 1 < wordLimit))

namespace Session

variable {s : Session}

theorem bounded_of_forall (h : ∀ e ∈ s.stores, e.2.Bounded s.workspace.tree) : s.Bounded :=
  fun _ _ ha => h _ (Table.mem_of_lookup ha)

theorem fits_start [FileSystem] (tidy : Prop) {id : String} {root : Path} (depth : Nat) (hfree : Free root.key)
    (hself : root.Avoids root.key)
    (hothers : ∀ e ∈ s.stores, e.1 ≠ id → ∀ q ∈ e.2.root?, root.Beside q)
    (hvacant : s.workspace.tree.kind? root.key = none) : Deed.Fits tidy s (.start id root depth) := by
  have hnone : ∀ n k, root.key <:+ k → s.workspace.tree.kind? (n :: k) = none := by
    intro n k hk
    refine Tree.kind?_below_eq_none (hk.trans (List.suffix_cons n k)) (fun e => ?_) (by rw [hvacant]; simp)
    have := hk.length_le
    rw [e, List.length_cons] at this
    omega
  refine ⟨hself, fun other q hne hq => ?_, fun f _ k stem g i _ _ x y hk _ _ _ hx => ?_,
    fun _ => ⟨fun n k hk hn => ?_, hfree⟩⟩
  · obtain ⟨b, hb, hq⟩ := Option.bind_eq_some_iff.mp hq
    exact hothers _ (Table.mem_of_lookup hb) hne q hq
  · rw [hnone _ _ hk] at hx
    cases hx
  · rw [hnone _ _ hk] at hn
    cases hn

theorem fits_store [FileSystem] (tidy : Prop) {id : String} {name : Bytes} (content : Bytes)
    (h : ∀ a ∈ s.store? id, a.CanShare s.workspace.tree name) :
    Deed.Fits tidy s (.call id (.store name content)) :=
  ⟨fun _ _ _ _ hp => absurd hp List.not_mem_nil, fun a ha _ hname => Option.some.inj hname ▸ h a ha⟩

end Session

namespace Trial

/-- A file store that counts references, and a memory store that does not. -/
def stores : List (String × AnyStore) :=
  [("a", .file (.new true (.ofDigest id))), ("m", .memory (.new false (.ofDigest id)))]

/-- The file store has taken a root. -/
def rooted : Session := Deed.run ⟨stores, .bare⟩ (.start "a" (Path.ofText "r") 1)

/-- It has stored a chunk twice. -/
def session : Session :=
  Deed.run (Deed.run rooted (.call "a" (.store [107] [97, 98]))) (.call "a" (.store [107] [97, 98]))

theorem reach (tidy : Prop) : Session.Reach tidy session := by
  have hfresh : Session.Reach tidy ⟨stores, .bare⟩ := by
    refine .fresh (fun id a ha => ?_) fun n k hn => ?_
    · have hmem := Table.mem_of_lookup ha
      simp only [stores, List.mem_cons, List.not_mem_nil, or_false, Prod.mk.injEq] at hmem
      rcases hmem with ⟨-, rfl⟩ | ⟨-, rfl⟩
      · exact ⟨_, _, rfl⟩
      · exact ⟨_, _, rfl⟩
    · exact absurd (Tree.kind?_bare n k) hn
  have hroot : Session.Reach tidy rooted :=
    hfresh.step _ (Session.fits_start tidy 1 (FileSystem.free_lenient _) (by decide +kernel) (by decide +kernel)
      (by decide +kernel)) (Session.bounded_of_forall (by decide +kernel))
  have honce : Session.Reach tidy (Deed.run rooted (.call "a" (.store [107] [97, 98]))) :=
    hroot.step _ (Session.fits_store tidy _ (by decide +kernel)) (Session.bounded_of_forall (by decide +kernel))
  exact honce.step _ (Session.fits_store tidy _ (by decide +kernel))
    (Session.bounded_of_forall (by decide +kernel))

end Trial

/-! ### Counts -/

/-- **Counts.**  In every session that is reached, the counts of a file store are what a scan of its root
counts in its mode, and those of a memory store are the number of its chunks and of their bytes. -/
theorem counts_match_scan [FileSystem] {s : Session} (h : Session.Reach False s) :
    (∀ id f l, s.store? id = some (.file f) → f.layout? = some l →
      (⟨ChunkStore.count f, ChunkStore.size f⟩ : Totals) = (Scan.run f.mode l.root s.workspace).1) ∧
    (∀ id m, s.store? id = some (.memory m) →
      (⟨ChunkStore.count m, ChunkStore.size m⟩ : Totals) = MemoryStore.tally m.chunks) := by
  refine ⟨fun id f l hf hl => ?_, fun id m hm => ?_⟩
  · have horder := h.good.inOrder id _ hf l hl
    rw [(Scan.run_spec f.mode l.root s.workspace).1]
    exact horder.accounts.count horder.lead
  · exact MemoryStore.Sound.totals (h.good.inOrder id _ hm)

/-- A counted store has stored two bytes twice under one name: it counts one chunk of two bytes, and so does a scan.
The memory store beside it is empty. -/
theorem counts_match_scan_trial :
    (Trial.session.store? "a").map AnyStore.totals = some ⟨1, 2⟩ ∧
    (∀ id f l, Trial.session.store? id = some (.file f) → f.layout? = some l →
      (⟨ChunkStore.count f, ChunkStore.size f⟩ : Totals) = (Scan.run f.mode l.root Trial.session.workspace).1) ∧
    (∀ id m, Trial.session.store? id = some (.memory m) →
      (⟨ChunkStore.count m, ChunkStore.size m⟩ : Totals) = MemoryStore.tally m.chunks) :=
  ⟨by decide +kernel, counts_match_scan (Trial.reach False)⟩

/-! ### A root that leads through another one -/

namespace Detour

/-- This path leads to a directory of its own, but by way of one below the other root. -/
def root : Path := Path.ofText "r2/x/../../r1"

/-- Two file stores, of which one is cleared, and a memory store. -/
def session : Session :=
  [.start "a" root 0, .start "b" (Path.ofText "r2") 0, .call "a" (.store [107] [97, 98, 99]),
    .call "b" .clear, .call "m" (.store [110] [100, 101])].foldl Deed.run
    ⟨[("a", .file (.new false (.ofDigest id))), ("b", .file (.new false (.ofDigest id))),
      ("m", .memory (.new false (.ofDigest id)))], .bare⟩

end Detour

/-- Two stores with roots of which neither lies in the other: after the second one was cleared, the first one
cannot be scanned any more, and still counts its chunk. -/
theorem counts_miss_scan_detour :
    Detour.root.key.Apart (Path.ofText "r2").key ∧
    Detour.session.root? "a" = some Detour.root ∧ Detour.session.root? "b" = some (Path.ofText "r2") ∧
    (Detour.session.store? "a").bind AnyStore.mode? = some .plain ∧
    (Detour.session.store? "a").map AnyStore.totals = some ⟨1, 3⟩ ∧
    (Scan.run .plain Detour.root Detour.session.workspace).1 = ⟨0, 0⟩ := by
  decide +kernel

end ContentStore
