import ContentStore.Proofs.Strangers

/-!
# Runs that are not disturbed

Some of the stores of a session are on one side, and others work beside them or change files by hand.  Two
sessions that have the same stores on that side may have trees that differ where these do not look (`Beside`), as
long as their roots are secluded (`Secluded`):

* a deed of the side that is clear of what differs is answered alike in both sessions, leaves them beside each
  other, and leaves the roots secluded (`Deed.beside`, `Deed.secluded`);
* so do the deeds of a run, whatever the others do between them at keys that are theirs (`Turn.undisturbed`), and
  nobody notices them (`Turn.unnoticed`).
-/

namespace ContentStore

open Action (Agrees)

namespace Session

variable {own : String → Prop} {F D : Key → Prop} {s u v : Session} {id sinkId : String} {a b : AnyStore}
  {α : Type}

/-- Two sessions that have the same stores on one side, in trees that differ where those do not look. -/
structure Beside (own : String → Prop) (F D : Key → Prop) (s u : Session) : Prop where
  store : ∀ id, own id → s.store? id = u.store? id
  veiled : Veiled F D s.workspace.tree.kind? u.workspace.tree.kind?

theorem Beside.refl (own : String → Prop) (F D : Key → Prop) (s : Session) : s.Beside own F D s :=
  ⟨fun _ _ => rfl, .refl F D _⟩

theorem Beside.trans (h : s.Beside own F D u) (h' : u.Beside own F D v) : s.Beside own F D v :=
  ⟨fun id hid => (h.store id hid).trans (h'.store id hid), h.veiled.trans h'.veiled⟩

/-- The roots of the stores on one side, each for the mode of its store. -/
def Seats (own : String → Prop) (s : Session) (m : Mode) (d : Key) : Prop :=
  ∃ id a l, own id ∧ s.store? id = some a ∧ a.seat? = some (m, l) ∧ l.root.key = d

/-- The roots of all stores on one side are secluded. -/
def Secluded (own : String → Prop) (F : Key → Prop) (s : Session) : Prop :=
  ∀ id a, own id → s.store? id = some a → a.Secluded F s.workspace.tree

namespace Secluded

theorem singles (h : s.Secluded own F) : Singles (s.Seats own) s.workspace.tree.kind? := by
  rintro m _ ⟨id, a, l, hid, ha, hl, rfl⟩
  exact (h id a hid ha m l hl).2.2

theorem among (h : s.Secluded own F) (hid : own id) (ha : s.store? id = some a) :
    AnyStore.Among (s.Seats own) s.workspace.tree a :=
  fun m l hl => ⟨⟨id, a, l, hid, ha, hl, rfl⟩, (h id a hid ha m l hl).1⟩

end Secluded

/-- What becomes of the roots of the stores on one side: each of them is the one that the store had, or one that it
has just taken; no directory has gone, and chunks that were single are single. -/
structure Settled (own : String → Prop) (taken : String → Mode → Layout → Prop) (s u : Session) : Prop where
  seat : ∀ id a m l, own id → u.store? id = some a → a.seat? = some (m, l) →
    (∃ b, s.store? id = some b ∧ b.seat? = some (m, l)) ∨
      taken id m l ∧ u.workspace.tree.leadsToDir l.root = true ∧ m.Single l.root.key u.workspace.tree.kind?
  dir : ∀ k, s.workspace.tree.kind? k = some .dir → u.workspace.tree.kind? k = some .dir
  singles : Singles (s.Seats own) u.workspace.tree.kind?

/-- The roots stay secluded if those that are taken are clear. -/
theorem Secluded.settled {taken : String → Mode → Layout → Prop} (h : s.Secluded own F) (hu : Settled own taken s u)
    (htaken : ∀ id m l, taken id m l → ∀ k, F k → m.Foreign l.root.key k) :
    u.Secluded own F := by
  intro id a hid ha m l hl
  rcases hu.seat id a m l hid ha hl with ⟨b, hb, hsame⟩ | ⟨hnew, hlead, hsingle⟩
  · obtain ⟨hlead, hforeign, -⟩ := h id b hid hb m l hsame
    exact ⟨Tree.leadsToDir_mono hlead hu.dir, hforeign, hu.singles m _ ⟨id, b, l, hid, hb, hsame, rfl⟩⟩
  · exact ⟨hlead, htaken id m l hnew, hsingle⟩

namespace Settled

variable {taken : String → Mode → Layout → Prop} {w : Workspace} {a' b' : AnyStore}

theorem idle (h : s.Secluded own F) : Settled own taken s s where
  seat _ a _ _ _ ha hl := Or.inl ⟨a, ha, hl⟩
  dir _ := id
  singles := h.singles

theorem worked (h : s.Secluded own F) (ha : s.store? id = some a)
    (hw : AnyStore.Orderly (s.Seats own) a s.workspace.tree a' w.tree) :
    Settled own taken s (({ s with workspace := w } : Session).put id a') where
  seat other c m l _ hc hl := by
    rw [store?_put] at hc
    split at hc
    · next e =>
      cases hc
      exact Or.inl ⟨a, e ▸ ha, hw.seat ▸ hl⟩
    · exact Or.inl ⟨c, hc, hl⟩
  dir := hw.dir
  singles := hw.singles h.singles

theorem workedBoth (h : s.Secluded own F) (ha : s.store? id = some a) (hb : s.store? sinkId = some b)
    (hw : AnyStore.Orderly (s.Seats own) a s.workspace.tree a' w.tree)
    (hw' : AnyStore.Orderly (s.Seats own) b s.workspace.tree b' w.tree) :
    Settled own taken s ((({ s with workspace := w } : Session).put id a').put sinkId b') where
  seat other c m l _ hc hl := by
    rw [store?_put, store?_put] at hc
    split at hc
    · next e =>
      cases hc
      exact Or.inl ⟨b, e ▸ hb, hw'.seat ▸ hl⟩
    · split at hc
      · next e =>
        cases hc
        exact Or.inl ⟨a, e ▸ ha, hw.seat ▸ hl⟩
      · exact Or.inl ⟨c, hc, hl⟩
  dir := hw.dir
  singles := hw.singles h.singles

theorem started [FileSystem] (h : s.Secluded own F) {f : FileStore} {root : Path} {depth : Nat}
    (htaken : taken id f.mode ⟨root, depth⟩)
    (hsingle : f.mode.Single root.key s.workspace.tree.kind?) :
    Settled own taken s (({ s with workspace := (f.start root depth s.workspace).2 } : Session).put id
      (.file (f.start root depth s.workspace).1.2)) := by
  obtain ⟨v, hgrown, hstart⟩ := f.start_spec root depth s.workspace
  have htree : (f.start root depth s.workspace).2 = v := by
    rcases hstart with hstart | ⟨hstart, -⟩ <;> rw [hstart]
  rw [htree]
  refine ⟨fun other a m l _ ha hl => ?_, fun _ => hgrown.dir, h.singles.grown hgrown⟩
  rw [store?_put] at ha
  split at ha
  · next e =>
    cases ha
    rcases hstart with hstart | ⟨hstart, hlead⟩ <;> rw [hstart] at hl
    · cases hl
    · cases hl
      exact Or.inr ⟨e ▸ htaken, hlead, FileStore.single_grown hsingle hgrown⟩
  · exact Or.inl ⟨a, ha, hl⟩

end Settled

theorem Beside.runOn (h : s.Beside own F D u) (hid : own id) {f : AnyStore → Action (α × AnyStore)}
    (hf : ∀ a, s.store? id = some a → Agrees F (f a) s.workspace u.workspace) :
    (Session.runOn id f s).1 = (Session.runOn id f u).1 ∧
      (Session.runOn id f s).2.Beside own F D (Session.runOn id f u).2 ∧
      InStep F s.workspace.tree.kind? u.workspace.tree.kind? (Session.runOn id f s).2.workspace.tree.kind?
        (Session.runOn id f u).2.workspace.tree.kind? := by
  rcases ha : s.store? id with _ | a
  · rw [runOn_none _ ha, runOn_none _ ((h.store id hid).symm.trans ha)]
    exact ⟨rfl, h, .refl _ _ _⟩
  · rw [runOn_apply _ ha, runOn_apply _ ((h.store id hid).symm.trans ha)]
    have hagrees := hf a ha
    refine ⟨by rw [hagrees.answer], ⟨fun other hother => ?_, hagrees.step.veiled h.veiled⟩, hagrees.step⟩
    rw [store?_put, store?_put, hagrees.answer]
    split
    · rfl
    · exact h.store other hother

theorem Beside.moveTo [FileSystem] (h : s.Beside own F D u) (hid : own id) (hsink : own sinkId)
    (hne : id ≠ sinkId) {name : Bytes}
    (hmove : ∀ a b, s.store? id = some a → s.store? sinkId = some b →
      Agrees F (ChunkStore.moveTo a name b) s.workspace u.workspace) :
    (Session.moveTo id name sinkId s).1 = (Session.moveTo id name sinkId u).1 ∧
      (Session.moveTo id name sinkId s).2.Beside own F D (Session.moveTo id name sinkId u).2 ∧
      InStep F s.workspace.tree.kind? u.workspace.tree.kind? (Session.moveTo id name sinkId s).2.workspace.tree.kind?
        (Session.moveTo id name sinkId u).2.workspace.tree.kind? := by
  have hstore := h.store id hid
  have hsinkStore := h.store sinkId hsink
  rcases ha : s.store? id with _ | a
  · rw [moveTo_none name hne (Or.inl ha), moveTo_none name hne (Or.inl (hstore ▸ ha))]
    exact ⟨rfl, h, .refl _ _ _⟩
  rcases hb : s.store? sinkId with _ | b
  · rw [moveTo_none name hne (Or.inr hb), moveTo_none name hne (Or.inr (hsinkStore ▸ hb))]
    exact ⟨rfl, h, .refl _ _ _⟩
  rw [moveTo_apply name hne ha hb, moveTo_apply name hne (hstore ▸ ha) (hsinkStore ▸ hb)]
  have hagrees := hmove a b ha hb
  refine ⟨by rw [hagrees.answer], ⟨fun other hother => ?_, hagrees.step.veiled h.veiled⟩, hagrees.step⟩
  rw [store?_put, store?_put, store?_put, store?_put, hagrees.answer]
  split
  · rfl
  · split
    · rfl
    · exact h.store other hother

end Session

variable [FileSystem]

/-! ### Deeds -/

namespace Deed

/-- What a deed of the stores on one side relies on, where others may have files at the keys of `F` and directories
at those of `D`.  The paths that are given and the root that is taken pass none of these, or only directories that are
there anyway, and no path that is needed for a chunk is one of them.  A root that is taken holds no files of others
that the store knows for chunks and no two files of one chunk, and no chunk is written to a file that a store on this
side knows for one.  A reference that is taken can be counted. -/
def Clear (own : String → Prop) (F D : Key → Prop) (s : Session) : Deed → Prop
  | start id root _ => own id ∧ root.Clear F D s.workspace.tree.kind? ∧ ∀ f, s.store? id = some (.file f) →
      (∀ k, F k → f.mode.Foreign root.key k) ∧ f.mode.Single root.key s.workspace.tree.kind?
  | call id c => own id ∧ c ≠ .clear ∧ (∀ q ∈ c.paths, q.Clear F D s.workspace.tree.kind? ∧ ¬ F q.key) ∧
      (∀ q ∈ c.target?, ∀ m d, s.Seats own m d → m.Foreign d q.key) ∧
      ∀ a, s.store? id = some a → (∀ name ∈ c.name?, a.Reserves F D name) ∧
        ∀ name ∈ c.stored?, a.CanShare s.workspace.tree name
  | moveTo id name sinkId => own id ∧ own sinkId ∧ (∀ a, s.store? id = some a → a.Reserves F D name) ∧
      (id ≠ sinkId → ∀ b, s.store? sinkId = some b → b.Reserves F D name ∧ b.CanShare s.workspace.tree name)
  | chunkPath id name _ => own id ∧ ∀ a, s.store? id = some a → a.Reserves F D name

variable {own : String → Prop} {F D : Key → Prop} {s u : Session}

/-- **One deed** is answered alike beside others, and does nothing to their files. -/
theorem beside (h : s.Beside own F D u) (hs : s.Secluded own F) {d : Deed} (hd : d.Clear own F D s)
    (hroom : Staging.Spacious s.workspace.tree.kind?) (hroom' : Staging.Spacious u.workspace.tree.kind?) :
    d.reply s = d.reply u ∧ (d.run s).Beside own F D (d.run u) ∧
      InStep F s.workspace.tree.kind? u.workspace.tree.kind? (d.run s).workspace.tree.kind?
        (d.run u).workspace.tree.kind? := by
  cases d with
  | start id root depth =>
    obtain ⟨hid, hroot, hfile⟩ := hd
    obtain ⟨hanswer, hbeside, hstep⟩ := h.runOn hid (f := AnyStore.start root depth) fun a ha =>
      AnyStore.start_agrees h.veiled hroot (fun f hf => (hfile f (hf ▸ ha)).1) depth
    exact ⟨congrArg (Option.map Reply.truth) hanswer, hbeside, hstep⟩
  | call id c =>
    obtain ⟨hid, hc, hpaths, -, hstore⟩ := hd
    obtain ⟨hanswer, hbeside, hstep⟩ := h.runOn hid (f := fun a => c.run a) fun a ha =>
      AnyStore.call_agrees hc (hs id a hid ha) h.veiled (hstore a ha).1
        (fun q hq => ⟨(hpaths q hq).1.alike h.veiled, (hpaths q hq).2⟩)
        (hstore a ha).2 hroom hroom'
    exact ⟨congrArg (Option.map Reply.answer) hanswer, hbeside, hstep⟩
  | moveTo id name sinkId =>
    obtain ⟨hid, hsink, hstore, hother⟩ := hd
    by_cases hne : id = sinkId
    · subst hne
      obtain ⟨hanswer, hbeside, hstep⟩ := h.runOn hid
        (f := fun a => do return (← ChunkStore.moveToSelf a name, a)) fun a ha =>
          .bind (AnyStore.moveToSelf_agrees (hs id a hid ha) (hstore a ha) h.veiled) (.pure _)
      rw [reply, reply, run, run, Session.moveTo_self, Session.moveTo_self]
      exact ⟨congrArg (Option.map Reply.truth) hanswer, hbeside, hstep⟩
    · obtain ⟨hanswer, hbeside, hstep⟩ := h.moveTo hid hsink hne fun a b ha hb =>
        AnyStore.moveTo_agrees (hs id a hid ha) (hs sinkId b hsink hb) (hstore a ha) (hother hne b hb).1
          (hs.among hsink hb) hs.singles (fun m l hl => ⟨id, a, l, hid, ha, hl, rfl⟩) h.veiled (hother hne b hb).2
          hroom hroom'
      exact ⟨congrArg (Option.map Reply.truth) hanswer, hbeside, hstep⟩
  | chunkPath id name create =>
    obtain ⟨hid, hstore⟩ := hd
    obtain ⟨hanswer, hbeside, hstep⟩ := h.runOn hid (f := AnyStore.chunkPath name create) fun a ha =>
      AnyStore.chunkPath_agrees (hs id a hid ha) (hstore a ha) h.veiled create hroom hroom'
    exact ⟨congrArg (Option.map Reply.path) hanswer, hbeside, hstep⟩

/-- The root that a deed lets a store take. -/
def Takes (s : Session) (id : String) (m : Mode) (l : Layout) : Deed → Prop
  | start other root depth => other = id ∧ l = ⟨root, depth⟩ ∧ ∃ f, s.store? id = some (.file f) ∧ f.mode = m
  | _ => False

/-- **One deed** changes no root but the one that it lets a store take. -/
theorem settled (hs : s.Secluded own F) {d : Deed} (hd : d.Clear own F D s) :
    Session.Settled own (fun id m l => d.Takes s id m l) s (d.run s) := by
  have hran := d.ran s
  generalize d.run s = s' at hran ⊢
  cases hran with
  | idle => exact .idle hs
  | start id root depth a ha =>
    obtain ⟨hid, hroot, hfile⟩ := hd
    cases a with
    | file f => exact .started hs ⟨rfl, rfl, f, ha, rfl⟩ (hfile f ha).2
    | memory m => exact .worked hs ha (.idle rfl rfl)
    | fixed f => exact .worked hs ha (.idle rfl rfl)
  | call id c a ha =>
    obtain ⟨hid, hc, -, htarget, hstore⟩ := hd
    exact .worked hs ha (AnyStore.call_orderly (hs.among hid ha) hc htarget (hstore a ha).2)
  | moveTo id name sinkId a b hne ha hb =>
    obtain ⟨hid, hsink, -, hother⟩ := hd
    obtain ⟨hw, hw'⟩ := AnyStore.moveTo_orderly (hs.among hid ha) (hs.among hsink hb) (hother hne b hb).2
    exact .workedBoth hs ha hb hw hw'
  | moveToSelf id name a ha => exact .worked hs ha (.idle rfl (a.moveToSelf_tree name s.workspace))
  | chunkPath id name create a ha =>
    obtain ⟨hid, hstore⟩ := hd
    exact .worked hs ha (AnyStore.chunkPath_orderly (hs.among hid ha) name create)

/-- **One deed** leaves the roots on its side secluded. -/
theorem secluded (hs : s.Secluded own F) {d : Deed} (hd : d.Clear own F D s) : (d.run s).Secluded own F := by
  refine hs.settled (settled hs hd) fun id m l htakes => ?_
  cases d with
  | start other root depth =>
    obtain ⟨rfl, rfl, f, hf, rfl⟩ := htakes
    exact (hd.2.2 f hf).1
  | call | moveTo | chunkPath => cases htakes

end Deed

/-! ### Runs -/

namespace Session

/-- The files that the file stores on one side know for chunks are the same in two sessions. -/
def SameChunks (own : String → Prop) (s u : Session) : Prop :=
  ∀ id f l, own id → s.store? id = some (.file f) → f.layout? = some l →
    ∀ n k c, l.root.key <:+ n :: k → f.mode.classify n ≠ none →
      (u.workspace.tree.kind? (n :: k) = some (.file c) ↔ s.workspace.tree.kind? (n :: k) = some (.file c))

omit [FileSystem] in
theorem Beside.sameChunks {own : String → Prop} {F D : Key → Prop} {s u : Session} (h : s.Beside own F D u)
    (hs : s.Secluded own F) : s.SameChunks own u := by
  intro id f l hid hf hl n k c hk hknown
  obtain ⟨-, hforeign, -⟩ := hs id _ hid hf _ _ (AnyStore.seat_file hl)
  exact h.veiled.file (n :: k) c fun hF => hknown (hforeign _ hF hk n rfl)

end Session

/-- What happens in a session: a deed of the stores on one side, or something that others do. -/
inductive Turn where
  | deed (d : Deed)
  | aside (g : Session → Session)

namespace Turn

def run (s : Session) : Turn → Session
  | deed d => d.run s
  | aside g => g s

def deeds : List Turn → List Deed
  | [] => []
  | deed d :: ts => d :: deeds ts
  | aside _ :: ts => deeds ts

def replies (s : Session) : List Turn → List (Option Reply)
  | [] => []
  | deed d :: ts => d.reply s :: replies (d.run s) ts
  | aside g :: ts => replies (g s) ts

/-- No deed among some turns changes, makes or removes a file at the keys of `F`. -/
def Spares (F : Key → Prop) (s : Session) : List Turn → Prop
  | [] => True
  | deed d :: ts => (∀ k c, F k → ((d.run s).workspace.tree.kind? k = some (.file c) ↔
      s.workspace.tree.kind? k = some (.file c))) ∧ Spares F (d.run s) ts
  | aside g :: ts => Spares F (g s) ts

/-- Some turns, with what each of them relies on: the deeds alone are done from the session `s` on, and all turns
from the session `u` on.  Others leave the stores on one side as they are; they have files at the keys of `F` and
make directories at those of `D`. -/
def Fit (own : String → Prop) (F D : Key → Prop) (s u : Session) : List Turn → Prop
  | [] => True
  | deed d :: ts => d.Clear own F D s ∧ Staging.Spacious s.workspace.tree.kind? ∧
      Staging.Spacious u.workspace.tree.kind? ∧ Fit own F D (d.run s) (d.run u) ts
  | aside g :: ts => u.Beside own F D (g u) ∧ Fit own F D s (g u) ts

/-- **Others are not noticed**, and their files are left alone. -/
theorem undisturbed {own : String → Prop} {F D : Key → Prop} {s u : Session} (h : s.Beside own F D u)
    (hs : s.Secluded own F) (ts : List Turn) (hfit : Fit own F D s u ts) :
    replies u ts = replies s ((deeds ts).map deed) ∧
      ((deeds ts).foldl Deed.run s).Beside own F D (ts.foldl run u) ∧ ((deeds ts).foldl Deed.run s).Secluded own F ∧
      Spares F u ts := by
  induction ts generalizing s u with
  | nil => exact ⟨rfl, h, hs, trivial⟩
  | cons turn ts ih =>
    cases turn with
    | deed d =>
      obtain ⟨hd, hroom, hroom', hrest⟩ := hfit
      obtain ⟨hreply, hbeside, hstep⟩ := d.beside h hs hd hroom hroom'
      obtain ⟨hreplies, hlast, hsecluded, hspares⟩ := ih hbeside (d.secluded hs hd) hrest
      refine ⟨?_, hlast, hsecluded, hstep.foreign, hspares⟩
      show d.reply u :: replies (d.run u) ts = d.reply s :: replies (d.run s) _
      rw [hreply, hreplies]
    | aside g =>
      obtain ⟨hg, hrest⟩ := hfit
      exact ih (h.trans hg) hs hrest

/-- Others are not noticed during some turns: the deeds among them, all done from the session `u` on, are answered
as they are without the others from the session `s` on, the stores on one side and the files of their chunks are the
same at the end, and no deed touches a file of the others. -/
structure Unnoticed (own : String → Prop) (F : Key → Prop) (s u : Session) (ts : List Turn) : Prop where
  replies : replies u ts = replies s ((deeds ts).map deed)
  store : ∀ id, own id → (ts.foldl run u).store? id = ((deeds ts).foldl Deed.run s).store? id
  chunks : ((deeds ts).foldl Deed.run s).SameChunks own (ts.foldl run u)
  spares : Spares F u ts

theorem unnoticed {own : String → Prop} {F D : Key → Prop} {s u : Session} (h : s.Beside own F D u)
    (hs : s.Secluded own F) {ts : List Turn} (hfit : Fit own F D s u ts) : Unnoticed own F s u ts := by
  obtain ⟨hreplies, hbeside, hsecluded, hspares⟩ := undisturbed h hs ts hfit
  exact ⟨hreplies, fun id hid => (hbeside.store id hid).symm, hbeside.sameChunks hsecluded, hspares⟩

end Turn

end ContentStore
