import ContentStore.Proofs.Oblivious

/-!
# A store can be restarted at any time

All that a file store knows is its settings and its counts, and the counts are those of the files below its
root.  So a store that takes its root once more, or is replaced by a new one with the same settings that takes
it, is what it was (`start_again`).  As nothing else depends on the past (`Deed.oblivious`), a run with restarts
at any places is answered as the run without them, and leaves the same tree: `restarts_unnoticed`.
-/

namespace ContentStore

open Action (Oblivious)

/-! ### Taking a root again -/

namespace FileStore

variable {tidy : Prop} {s f : FileStore} {l : Layout} {w : Workspace}

theorem prepareRoot_of_dir [FileSystem] (h : w.tree.leadsToDir l.root = true) :
    (prepareRoot l.root).run w = (.ok (), w) := by
  have hroot := Layout.root_ne_blank h
  unfold prepareRoot
  rw [if_neg hroot]
  dsimp only
  rw [Action.run_bind, Action.run_file, Request.makeDirs_of_dir h]
  dsimp only
  rw [Action.run_bind, Attempt.run_tree]
  simp only [h]
  rfl

/-- **Taking a root again.**  A store with the settings of one that is in order becomes that store. -/
theorem start_again [FileSystem] (h : f.InOrder tidy l w.tree) (hl : f.layout? = some l) (hmode : s.mode = f.mode)
    (hhasher : s.hasher = f.hasher) (hcapacity : s.tracker.capacity = f.tracker.capacity) :
    ∃ v, s.start l.root l.depth w = ((true, f), v) ∧ v.tree = w.tree := by
  obtain ⟨v, hrun, htree⟩ := start_ok (s := s) (prepareRoot_of_dir h.lead) l.depth
  refine ⟨v, ?_, htree⟩
  have hcount : Scan.count s.mode w.tree l.root = f.tracker.totals := by
    rw [hmode]
    exact (h.accounts.count h.lead).symm
  -- of the store that takes the root nothing stays but its settings
  have hbecomes : { s with layout? := some ⟨l.root, l.depth⟩, tracker := s.tracker.reset f.tracker.totals } = f := by
    cases s
    cases f
    cases hmode
    cases hhasher
    cases hl
    simp only [Tracker.reset, Tracker.totals] at hcapacity ⊢
    rw [hcapacity]
  rw [hrun, hcount, hbecomes]

end FileStore

/-! ### Restarts in a session -/

/-- Two sessions with the same stores and the same tree; what was changed and reported before may differ. -/
structure Session.Alike (s u : Session) : Prop where
  store : ∀ id, s.store? id = u.store? id
  tree : s.workspace.tree = u.workspace.tree

inductive Reply where
  | truth (b : Bool)
  | answer (x : Answer)
  | path (p : Option Path)
deriving Repr, DecidableEq

/-- What a deed is answered with, if its stores are there. -/
def Deed.reply [FileSystem] (s : Session) : Deed → Option Reply
  | start id root depth => (Session.runOn id (AnyStore.start root depth) s).1.map .truth
  | call id c => (Session.call id c s).1.map .answer
  | moveTo id name sinkId => (Session.moveTo id name sinkId s).1.map .truth
  | chunkPath id name create => (Session.runOn id (AnyStore.chunkPath name create) s).1.map .path

namespace Session

variable {α : Type} {s u : Session} {id : String}

theorem Alike.refl (s : Session) : s.Alike s := ⟨fun _ => rfl, rfl⟩

theorem Alike.trans {v : Session} (h : s.Alike u) (h' : u.Alike v) : s.Alike v :=
  ⟨fun id => (h.store id).trans (h'.store id), h.tree.trans h'.tree⟩

theorem Alike.put (h : s.Alike u) (id : String) (a : AnyStore) : (s.put id a).Alike (u.put id a) where
  store other := by
    rw [store?_put, store?_put]
    split
    · rfl
    · exact h.store other
  tree := h.tree

theorem Alike.moved (h : s.Alike u) {w v : Workspace} (htree : w.tree = v.tree) :
    ({ s with workspace := w } : Session).Alike { u with workspace := v } := ⟨h.store, htree⟩

theorem Alike.runOn (h : s.Alike u) {f : AnyStore → Action (α × AnyStore)} (hf : ∀ a, Oblivious (f a))
    (id : String) : (Session.runOn id f s).1 = (Session.runOn id f u).1 ∧
      (Session.runOn id f s).2.Alike (Session.runOn id f u).2 := by
  rcases ha : s.store? id with _ | a
  · have hu : u.store? id = none := (h.store id).symm.trans ha
    rw [runOn_none _ ha, runOn_none _ hu]
    exact ⟨rfl, h⟩
  · have hu : u.store? id = some a := (h.store id).symm.trans ha
    obtain ⟨hx, htree⟩ := hf a s.workspace u.workspace h.tree
    rw [runOn_apply _ ha, runOn_apply _ hu, hx]
    exact ⟨rfl, (h.moved htree).put id _⟩

theorem Alike.moveTo [FileSystem] (h : s.Alike u) (id : String) (name : Bytes) (sinkId : String) :
    (Session.moveTo id name sinkId s).1 = (Session.moveTo id name sinkId u).1 ∧
      (Session.moveTo id name sinkId s).2.Alike (Session.moveTo id name sinkId u).2 := by
  by_cases hne : id = sinkId
  · subst hne
    rw [moveTo_self, moveTo_self]
    exact h.runOn (fun a => .bind (a.moveToSelf_oblivious name) fun _ => .pure _) id
  rcases ha : s.store? id with _ | a
  · rw [moveTo_none name hne (Or.inl ha), moveTo_none name hne (Or.inl ((h.store id).symm.trans ha))]
    exact ⟨rfl, h⟩
  rcases hb : s.store? sinkId with _ | b
  · rw [moveTo_none name hne (Or.inr hb), moveTo_none name hne (Or.inr ((h.store sinkId).symm.trans hb))]
    exact ⟨rfl, h⟩
  obtain ⟨hx, htree⟩ := a.moveTo_oblivious name b s.workspace u.workspace h.tree
  rw [moveTo_apply name hne ha hb, moveTo_apply name hne ((h.store id).symm.trans ha)
    ((h.store sinkId).symm.trans hb), hx]
  exact ⟨rfl, ((h.moved htree).put id _).put sinkId _⟩

end Session

section

variable [FileSystem]

/-- **One deed** is answered the same in sessions that are alike, and leaves them alike. -/
theorem Deed.oblivious {s u : Session} (h : s.Alike u) (d : Deed) :
    d.reply s = d.reply u ∧ (d.run s).Alike (d.run u) := by
  cases d with
  | start id root depth =>
    obtain ⟨hx, halike⟩ := h.runOn (fun a => a.start_oblivious root depth) id
    exact ⟨congrArg (Option.map Reply.truth) hx, halike⟩
  | call id c =>
    obtain ⟨hx, halike⟩ := h.runOn (fun a => a.call_oblivious c) id
    exact ⟨congrArg (Option.map Reply.answer) hx, halike⟩
  | moveTo id name sinkId =>
    obtain ⟨hx, halike⟩ := h.moveTo id name sinkId
    exact ⟨congrArg (Option.map Reply.truth) hx, halike⟩
  | chunkPath id name create =>
    obtain ⟨hx, halike⟩ := h.runOn (fun a => a.chunkPath_oblivious name create) id
    exact ⟨congrArg (Option.map Reply.path) hx, halike⟩

namespace Session

/-- A file store takes the root that it has once more, or is replaced by a new one with the same settings and
the capacity that it has, which takes that root. -/
def restart (s : Session) (id : String) (replace : Bool) : Session :=
  match s.store? id with
  | some (.file f) =>
    match f.layout? with
    | some l =>
      let next := if replace then
          ChunkStore.setCapacity (FileStore.new f.mode.isCounted f.hasher) (ChunkStore.capacity f)
        else f
      Deed.run (s.put id (.file next)) (.start id l.root l.depth)
    | none => s
  | _ => s

/-- **A restart** is not noticed. -/
theorem Good.restart {tidy : Prop} {s : Session} (h : s.Good tidy) (id : String) (replace : Bool) :
    (s.restart id replace).Alike s := by
  unfold Session.restart
  rcases ha : s.store? id with _ | a
  · exact .refl s
  cases a with
  | memory | fixed => exact .refl s
  | file f =>
    dsimp only
    rcases hl : f.layout? with _ | l
    · exact .refl s
    dsimp only
    generalize hnext : (if replace then
        ChunkStore.setCapacity (FileStore.new f.mode.isCounted f.hasher) (ChunkStore.capacity f) else f) = next
    have hsettings : next.mode = f.mode ∧ next.hasher = f.hasher ∧ next.tracker.capacity = f.tracker.capacity := by
      rw [← hnext]
      cases replace with
      | false => exact ⟨rfl, rfl, rfl⟩
      | true => exact ⟨by cases hmode : f.mode <;> rfl, rfl, rfl⟩
    obtain ⟨hmode, hhasher, hcapacity⟩ := hsettings
    obtain ⟨v, hrun, htree⟩ := FileStore.start_again (h.inOrder id _ ha l hl) hl hmode hhasher hcapacity
    have hstore : (s.put id (.file next)).store? id = some (.file next) := by
      rw [store?_put, if_pos rfl]
    have hrun : next.start l.root l.depth (s.put id (.file next)).workspace = ((true, f), v) := hrun
    have hstart : AnyStore.start l.root l.depth (.file next) (s.put id (.file next)).workspace =
        ((true, .file f), v) := by
      rw [AnyStore.start_file, hrun]
    rw [Deed.run_start l.root l.depth hstore, hstart]
    refine ⟨fun other => ?_, htree⟩
    rw [store?_put]
    split
    · next e => rw [e, ha]
    · next hne =>
      show (s.put id (.file next)).store? other = s.store? other
      rw [store?_put, if_neg hne]

theorem Good.alike {tidy : Prop} {s u : Session} (h : s.Good tidy) (halike : u.Alike s) : u.Good tidy := by
  have hroot : ∀ id, u.root? id = s.root? id := fun id => by rw [root?, root?, halike.store]
  refine h.of_roots (by rw [halike.tree]; exact h.proper) hroot fun id a ha => ?_
  rw [halike.store] at ha
  rw [halike.tree]
  exact h.inOrder id a ha

/-! ### Runs with restarts -/

/-- A deed, or a restart of a file store between two deeds. -/
inductive Step where
  | deed (d : Deed)
  | restart (id : String) (replace : Bool)

namespace Step

def run (s : Session) : Step → Session
  | deed d => d.run s
  | restart id replace => s.restart id replace

def trace (s : Session) : List Step → List (Option Reply × Tree)
  | [] => []
  | deed d :: steps => (d.reply s, (d.run s).workspace.tree) :: trace (d.run s) steps
  | restart id replace :: steps => trace (s.restart id replace) steps

def deeds : List Step → List Deed
  | [] => []
  | deed d :: steps => d :: deeds steps
  | restart _ _ :: steps => deeds steps

end Step

/-- Deeds that can be done one after the other, with what each of them relies on. -/
def AllFit (tidy : Prop) (s : Session) : List Deed → Prop
  | [] => True
  | d :: ds => d.Fits tidy s ∧ (d.run s).Bounded ∧ AllFit tidy (d.run s) ds

/-- **Restarts are not noticed.** -/
theorem Good.steps {tidy : Prop} {s u : Session} (h : s.Good tidy) (halike : u.Alike s) (steps : List Step)
    (hfits : s.AllFit tidy (Step.deeds steps)) :
    Step.trace u steps = Step.trace s ((Step.deeds steps).map Step.deed) ∧
      (steps.foldl Step.run u).Alike ((Step.deeds steps).foldl Deed.run s) := by
  induction steps generalizing s u with
  | nil => exact ⟨rfl, halike⟩
  | cons step steps ih =>
    cases step with
    | deed d =>
      obtain ⟨hd, hbounded, hrest⟩ := hfits
      obtain ⟨hreply, hnext⟩ := d.oblivious halike
      obtain ⟨htrace, hlast⟩ := ih (h.step d hd hbounded) hnext hrest
      refine ⟨?_, hlast⟩
      show (d.reply u, (d.run u).workspace.tree) :: _ = (d.reply s, (d.run s).workspace.tree) :: _
      rw [hreply, hnext.tree, htrace]
    | restart id replace =>
      exact ih h (((h.alike halike).restart id replace).trans halike) hfits

end Session

/-- **Restarts.**  In every session that is reached, do any deeds, and between them let file stores take their
roots once more, or be replaced by new ones with the same settings and capacities that take them, at any
places.  Every deed is answered as in the run without the restarts, the tree after each deed is the same, and
so are all stores in the end. -/
theorem restarts_unnoticed {s : Session} (h : Session.Reach False s) (steps : List Session.Step)
    (hfits : s.AllFit False (Session.Step.deeds steps)) :
    Session.Step.trace s steps = Session.Step.trace s ((Session.Step.deeds steps).map Session.Step.deed) ∧
      (steps.foldl Session.Step.run s).Alike ((Session.Step.deeds steps).foldl Deed.run s) :=
  h.good.steps (.refl s) steps hfits

end

namespace Trial

/-- A store is replaced, counts one more reference, takes its root again, and gives a reference away. -/
def restarts : List Session.Step :=
  [.restart "a" true, .deed (.call "a" (.store [107] [99])), .restart "a" false,
    .deed (.call "a" (.references [107])), .deed (.moveTo "a" [107] "m")]

theorem restarts_fit : session.AllFit False (Session.Step.deeds restarts) := by
  refine ⟨Session.fits_store False _ (by decide +kernel), Session.bounded_of_forall (by decide +kernel),
    ⟨fun _ _ _ _ hp => absurd hp List.not_mem_nil, fun _ _ _ hn => by cases hn⟩,
    Session.bounded_of_forall (by decide +kernel), fun _ => ?_, Session.bounded_of_forall (by decide +kernel),
    trivial⟩
  decide +kernel

end Trial

/-- A counted store with two references to a chunk is replaced by a new one, stores the chunk once more, takes its
root again, is asked for the references, which are three, and gives one to a memory store. -/
theorem restarts_unnoticed_trial :
    (Session.Step.trace Trial.session Trial.restarts).map Prod.fst =
      [some (.answer (.truth true)), some (.answer (.number 3)), some (.truth true)] ∧
    Session.Step.trace Trial.session Trial.restarts =
      Session.Step.trace Trial.session ((Session.Step.deeds Trial.restarts).map Session.Step.deed) ∧
    (Trial.restarts.foldl Session.Step.run Trial.session).Alike
      ((Session.Step.deeds Trial.restarts).foldl Deed.run Trial.session) :=
  ⟨by decide +kernel, restarts_unnoticed (Trial.reach False) Trial.restarts Trial.restarts_fit⟩

namespace Detour

/-- A file, and a store whose root leads through a directory below itself, which is gone since the store was
cleared. -/
def inward : Session :=
  [.start "a" (Path.ofText "r/x/..") 0, .call "a" .clear].foldl Deed.run
    ⟨[("a", .file (.new false (.ofDigest id)))], ((Request.write (Path.ofText "s") [1]).run .bare).2⟩

/-- The file is stored from a path through that directory. -/
def entry : Deed := .call "a" (.storeFile [107] (Path.ofText "r/x/../../s") false)

end Detour

/-- A store whose root leads through a directory below itself makes that directory when it takes the root
again, and then a file outside the root can be stored that could not be before. -/
theorem restart_noticed_detour :
    ¬ (Path.ofText "r/x/..").key <:+ (Path.ofText "r/x/../../s").key ∧
    Detour.entry.reply Detour.inward = some (.answer (.truth false)) ∧
    Detour.entry.reply (Detour.inward.restart "a" false) = some (.answer (.truth true)) := by
  decide +kernel

end ContentStore
