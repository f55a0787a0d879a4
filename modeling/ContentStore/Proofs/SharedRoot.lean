import ContentStore.Proofs.Answers
import ContentStore.Proofs.Passing
import ContentStore.Proofs.Sessions

/-!
# Stores that share a root

`Session.Sharing` is every session in which stores take a directory for their root, or one beside it, by paths that
pass nothing below a root.  The directory is empty at first; any number of stores, of both modes and with any
numbers of levels, may come to share it.

* `Sharing.shared`: what lies in the directory stays readable for all of them;
* `move_within_root`: a move between two of them never loses the chunk.
-/

namespace ContentStore

open Function (update)
open FileSystem (Free)

section

variable [FileSystem]

/-! ### Moves -/

namespace AnyStore

variable {a a' b b' : AnyStore} {name : Bytes} {d : Key} {t u : Tree} {taken : Bool} {w x : Workspace}

/-- A store works in a directory or beside it, and can reach its root. -/
def Sides (d : Key) (t : Tree) (a : AnyStore) : Prop :=
  ∀ p, a.root? = some p → p.Sides d ∧ t.leadsToDir p = true

omit [FileSystem] in
theorem Sides.rooted (h : a.Sides d t) : a.Rooted := fun p hp => Layout.root_ne_blank (h p hp).2

/-- What two stores that work in a directory or beside it leave there. -/
structure KeptBoth (d : Key) (a b : AnyStore) (t : Tree) (a' b' : AnyStore) (u : Tree) : Prop where
  root : a'.root? = a.root?
  sinkRoot : b'.root? = b.root?
  common : Common d u.kind?
  dir : ∀ k, t.kind? k = some .dir → u.kind? k = some .dir

/-- A move out of a file store to one with another root. -/
theorem moveTo_beside {s s' : FileStore} {l : Layout} (hl : s.layout? = some l) (h : Common d w.tree.kind?)
    (ha : Sides d w.tree (.file s)) (hb : b.Sides d w.tree)
    (hapart : ∀ p, b.root? = some p → l.root.key.Apart p.key)
    (hshare : b.CanShare w.tree name) (hrun : ChunkStore.moveTo s name b w = ((taken, s', b'), x)) :
    KeptBoth d (.file s) b w.tree (.file s') b' x.tree := by
  obtain ⟨hside, hlead⟩ := ha _ (FileStore.root_eq hl)
  have hroot := Layout.root_ne_blank hlead
  have hmove := FileStore.moveTo_run hl name b w
  rw [FileStore.moveTo_apply] at hrun
  have hoffers : ∀ e, name ≠ [] → s.mode.find (l.place name) w.tree = .ok (some e) → ∀ b' taken v,
      Sink.storeFile b name e.path (e.count ≤ 1) w = ((taken, b'), v) →
        KeptBoth d (.file s) b w.tree (.file s) b' v.tree := by
    intro e hname hfind b' taken v hsink
    have hoffered := offered_storeFile hb.rooted
      (fun p hp => (hapart p hp).not_suffix (FileStore.entry_below hname hroot hfind)) hsink
    refine ⟨rfl, hoffered.root, hoffered.common h hb hshare fun kinds hc => ?_, fun k => hoffered.dir⟩
    split
    · exact hc.remove _
    · exact hc
  rcases hm : s.moveTo name b w with ⟨⟨r, b''⟩, y⟩
  rw [hm] at hmove hrun
  cases hmove with
  | missing err =>
    cases hrun
    exact ⟨rfl, rfl, h, fun _ => id⟩
  | refused hname e hfind b'' y hsink =>
    have hkept := hoffers e hname hfind _ _ _ hsink
    cases hrun
    exact hkept
  | taken hname e hfind b'' v hsink r y hletGo =>
    have hkept := hoffers e hname hfind _ _ _ hsink
    have hsame : ∀ s'' : FileStore, s''.layout? = s.layout? → y.tree = v.tree →
        KeptBoth d (.file s) b w.tree (.file s'') b'' y.tree := fun s'' hs'' htree =>
      ⟨FileStore.root_congr hs'', hkept.sinkRoot, htree ▸ hkept.common, fun k hk => htree ▸ hkept.dir k hk⟩
    rcases FileStore.letGo_cases hname hroot hletGo with
      ⟨err, rfl, rfl⟩ | ⟨-, rfl, htree⟩ | ⟨-, rfl, htree⟩ | ⟨after, rfl, hdropped⟩ <;> cases hrun
    · exact hkept
    · exact hsame _ rfl htree
    · exact hsame _ rfl htree
    · exact ⟨FileStore.root_congr hdropped.same.1, hkept.sinkRoot, hdropped.common hkept.common hside hname,
        fun k hk => (hdropped.frame hname).dir k (hkept.dir k hk)⟩

/-- **A move** keeps what stores have in common. -/
theorem moveTo_kept (hfree : Free d) (h : Common d w.tree.kind?) (ha : a.Sides d w.tree) (hb : b.Sides d w.tree)
    (hab : ∀ p q, a.root? = some p → b.root? = some q → p.key = d ∧ q.key = d ∨ p.key.Apart q.key)
    (hshare : b.CanShare w.tree name) :
    KeptBoth d a b w.tree (ChunkStore.moveTo a name b w).1.2.1 (ChunkStore.moveTo a name b w).1.2.2
      (ChunkStore.moveTo a name b w).2.tree := by
  cases a with
  | file s =>
    rw [moveTo_file]
    rcases hl : s.layout? with _ | l
    · rw [FileStore.moveTo_apply, FileStore.moveTo_uninitialized hl]
      exact ⟨rfl, rfl, h, fun _ => id⟩
    have hroot := FileStore.root_eq hl
    by_cases hshares : ∃ q, b.root? = some q ∧ l.root.key = d ∧ q.key = d
    · obtain ⟨q, hq, hld, hqd⟩ := hshares
      cases b with
      | file f =>
        obtain ⟨m, hm, rfl⟩ := Option.map_eq_some_iff.mp hq
        have hs : s.WorksIn d l w.tree := ⟨hl, hld, (ha _ hroot).1.avoids, (ha _ hroot).2, hfree⟩
        have hf : f.WorksIn d m w.tree := ⟨hm, hqd, (hb _ hq).1.avoids, (hb _ hq).2, hfree⟩
        rcases hrun : ChunkStore.moveTo s name (AnyStore.file f) w with ⟨⟨taken, s', b'⟩, x⟩
        obtain ⟨f', rfl, hpassed⟩ := FileStore.moveTo_passed hs hf h hshare hrun
        obtain ⟨hlayout, hlayout'⟩ := hpassed.layout
        exact ⟨FileStore.root_congr hlayout, FileStore.root_congr hlayout', hpassed.common hs hf h hshare,
          fun k => hpassed.dir⟩
      | memory m => cases hq
      | fixed f => cases hq
    · refine moveTo_beside hl h ha hb (fun q hq => ?_) hshare rfl
      rcases hab _ q hroot hq with ⟨hld, hqd⟩ | hapart
      · exact absurd ⟨q, hq, hld, hqd⟩ hshares
      · exact hapart
  | memory m =>
    rw [moveTo_memory]
    have hkept : ∀ {chunk : Held} {taken b' u}, b.Offered name [] (· = chunk.content) id w.tree taken b' u →
        ∀ m', KeptBoth d (.memory m) b w.tree (.memory m') b' u := fun hoffered m' =>
      ⟨rfl, hoffered.root, hoffered.common h hb hshare fun _ => id, fun k => hoffered.dir⟩
    rcases hrun : ChunkStore.moveTo m name b w with ⟨⟨taken, m', b'⟩, x⟩
    have hhanded := MemoryStore.moveTo_handed hb.rooted hrun
    dsimp only
    generalize x.tree = u at hhanded ⊢
    cases hhanded with
    | missing hu =>
      subst hu
      exact ⟨rfl, rfl, h, fun _ => id⟩
    | refused chunk hfind hoffered => exact hkept hoffered _
    | deleted chunk hfind hoffered => exact hkept hoffered _
  | fixed f =>
    rw [moveTo_fixed]
    exact ⟨rfl, rfl, h, fun _ => id⟩

/-- What a store that works in a directory or beside it leaves there. -/
structure Kept (d : Key) (a : AnyStore) (t : Tree) (a' : AnyStore) (u : Tree) : Prop where
  root : a'.root? = a.root?
  common : Common d u.kind?
  lead : ∀ p, (∀ q, a.root? = some q → p.Avoids q.key) → t.leadsToDir p = true → u.leadsToDir p = true

omit [FileSystem] in
theorem Kept.idle (h : Common d t.kind?) (hroot : a'.root? = a.root?) : Kept d a t a' t :=
  ⟨hroot, h, fun _ _ => id⟩

theorem kept_of_imprint {s s' : FileStore} {l : Layout} {outside : List Path} {named stored : Option Bytes}
    (himprint : s.Imprint l outside named stored t s' u) (hl : s.layout? = some l) (h : Common d t.kind?)
    (ha : Sides d t (.file s)) (hout : ∀ q ∈ outside, ¬ d <:+ q.key)
    (hshare : ∀ name ∈ stored, (AnyStore.file s).CanShare t name) : Kept d (.file s) t (.file s') u := by
  have hroot := FileStore.root_eq hl
  obtain ⟨hside, hlead⟩ := ha _ hroot
  exact ⟨FileStore.root_congr himprint.layout, himprint.common h hl hside hlead hout hshare,
    fun p hp => himprint.lead (hp _ hroot)⟩

/-- **A call** keeps what stores have in common. -/
theorem call_kept (h : Common d w.tree.kind?) (ha : a.Sides d w.tree) (c : Call)
    (hout : ∀ q ∈ c.paths, ¬ d <:+ q.key ∧ ∀ p, a.root? = some p → ¬ p.key <:+ q.key)
    (hshare : ∀ name ∈ c.stored?, a.CanShare w.tree name) :
    Kept d a w.tree (c.run a w).1.2 (c.run a w).2.tree := by
  cases a with
  | file s =>
    rw [Call.run_file]
    rcases hl : s.layout? with _ | l
    · obtain ⟨hlayout, htree⟩ := FileStore.call_uninitialized hl c w
      rw [htree]
      exact .idle h (FileStore.root_congr (hlayout.trans hl.symm))
    · have hroot := FileStore.root_eq hl
      exact kept_of_imprint (FileStore.call_imprint hl (Layout.root_ne_blank (ha _ hroot).2) c
        (fun _ => h.proper) fun q hq => (hout q (Call.source_mem_paths hq)).2 _ hroot) hl h ha
        (fun q hq => (hout q hq).1) hshare
  | memory m =>
    rw [Call.run_memory]
    have haside := m.call_aside c w
    exact ⟨rfl, haside.common h fun q hq => (hout q hq).1,
      fun p _ hlead => Tree.leadsToDir_mono hlead fun _ => haside.dir⟩
  | fixed f =>
    rw [Call.run_fixed]
    obtain ⟨hsame, htree⟩ := f.call_idle c w
    rw [hsame, htree]
    exact .idle h rfl

theorem chunkPath_kept (h : Common d w.tree.kind?) (ha : a.Sides d w.tree) (name : Bytes) (create : Bool) :
    Kept d a w.tree (chunkPath name create a w).1.2 (chunkPath name create a w).2.tree := by
  cases a with
  | file s =>
    show Kept d (.file s) w.tree (.file s) (s.chunkPath name create w).2.tree
    rcases hl : s.layout? with _ | l
    · rw [FileStore.chunkPath_uninitialized hl]
      exact .idle h rfl
    · exact kept_of_imprint (FileStore.chunkPath_imprint hl name create w) hl h ha (by simp)
        fun _ hstored => by cases hstored
  | memory m => exact .idle h rfl
  | fixed f => exact .idle h rfl

end AnyStore

/-! ### Sessions -/

namespace Deed

/-- What a deed relies on where stores share a directory.  A root is that directory or lies beside it, and beside
all roots that are not the directory; paths that a call is given lead outside the directory and outside the root
of the store, and a reference that is taken can be counted. -/
def Shares (d : Key) (s : Session) : Deed → Prop
  | start id root _ => root.Sides d ∧ root.Avoids root.key ∧
      ∀ other q, other ≠ id → s.root? other = some q → root.key = d ∧ q.key = d ∨ root.Beside q
  | call id c =>
    (∀ p ∈ c.paths, ¬ d <:+ p.key ∧ ∀ q, s.root? id = some q → ¬ q.key <:+ p.key) ∧
      ∀ a, s.store? id = some a → ∀ name ∈ c.stored?, a.CanShare s.workspace.tree name
  | moveTo id name sinkId =>
    id ≠ sinkId → ∀ b, s.store? sinkId = some b → b.CanShare s.workspace.tree name
  | chunkPath .. => True

end Deed

namespace Session

/-- The sessions that stores come to from their making, where any of them may share a directory that is empty at
first and below which nothing is shut. -/
inductive Sharing (d : Key) : Session → Prop
  | fresh {s : Session} (hfresh : ∀ id a, s.store? id = some a → a.Fresh)
      (hproper : Proper s.workspace.tree.kind?)
      (hempty : ∀ k, d <:+ k → k ≠ d → s.workspace.tree.kind? k = none) (hfree : Free d) : Sharing d s
  | step {s : Session} (hs : Sharing d s) (deed : Deed) (hshares : deed.Shares d s) : Sharing d (deed.run s)

/-- Every store can reach its root, which is the directory or lies beside it, and no root leads through what lies
below another one. -/
structure Shared (d : Key) (s : Session) : Prop where
  free : Free d
  common : Common d s.workspace.tree.kind?
  sides : ∀ id a, s.store? id = some a → a.Sides d s.workspace.tree
  avoids : ∀ i j p q, s.root? i = some p → s.root? j = some q → p.Avoids q.key
  apart : ∀ i j p q, i ≠ j → s.root? i = some p → s.root? j = some q →
    p.key = d ∧ q.key = d ∨ p.key.Apart q.key

variable {d : Key} {s : Session} {id sinkId : String} {a b : AnyStore}

namespace Shared

theorem of_roots (h : s.Shared d) {u : Session} (hcommon : Common d u.workspace.tree.kind?)
    (hroot : ∀ id, u.root? id = s.root? id)
    (hlead : ∀ p, (∀ id q, s.root? id = some q → p.Avoids q.key) → s.workspace.tree.leadsToDir p = true →
      u.workspace.tree.leadsToDir p = true) : u.Shared d where
  free := h.free
  common := hcommon
  sides id a ha p hp := by
    have hs : s.root? id = some p := by rw [← hroot, root?_of_store? ha, hp]
    obtain ⟨c, hc, hp'⟩ := Option.bind_eq_some_iff.mp hs
    obtain ⟨hside, hl⟩ := h.sides id c hc p hp'
    exact ⟨hside, hlead p (fun other q hq => h.avoids id other p q hs hq) hl⟩
  avoids i j p q hp hq := h.avoids i j p q (hroot i ▸ hp) (hroot j ▸ hq)
  apart i j p q hne hp hq := h.apart i j p q hne (hroot i ▸ hp) (hroot j ▸ hq)

theorem worked (h : s.Shared d) (ha : s.store? id = some a) {w : Workspace}
    (hk : AnyStore.Kept d a s.workspace.tree b w.tree) :
    (({ s with workspace := w } : Session).put id b).Shared d := by
  refine h.of_roots hk.common (fun other => ?_) fun p hp =>
    hk.lead p fun q hq => hp id q ((root?_of_store? ha).trans hq)
  rw [root?, store?_put, root?]
  split
  · next e =>
    rw [e, ha]
    exact hk.root
  · rfl

theorem workedBoth (h : s.Shared d) (ha : s.store? id = some a) (hb : s.store? sinkId = some b)
    {a' b' : AnyStore} {w : Workspace} (hk : AnyStore.KeptBoth d a b s.workspace.tree a' b' w.tree) :
    ((({ s with workspace := w } : Session).put id a').put sinkId b').Shared d := by
  refine h.of_roots hk.common (fun other => ?_) fun p _ hlead => Tree.leadsToDir_mono hlead hk.dir
  rw [root?, store?_put, store?_put, root?]
  split
  · next e =>
    rw [e, hb]
    exact hk.sinkRoot
  · split
    · next e =>
      rw [e, ha]
      exact hk.root
    · rfl

theorem started (h : s.Shared d) {g : FileStore} {w : Workspace} {root : Path} (hside : root.Sides d)
    (hself : root.Avoids root.key)
    (hothers : ∀ other q, other ≠ id → s.root? other = some q → root.key = d ∧ q.key = d ∨ root.Beside q)
    (hgrown : Grown root s.workspace.tree w.tree)
    (hg : ∀ p, (AnyStore.file g).root? = some p → p = root ∧ w.tree.leadsToDir root = true) :
    (({ s with workspace := w } : Session).put id (.file g)).Shared d := by
  have hroot : ∀ other, (({ s with workspace := w } : Session).put id (.file g)).root? other =
      if other = id then (AnyStore.file g).root? else s.root? other := fun other => by
    rw [root?, store?_put]
    split
    · rfl
    · rfl
  have hcommon : Common d w.tree.kind? := by
    refine h.common.untouched (.of_grown hgrown hside.avoids) (hgrown.proper h.common.proper)
  -- every root of a store is the new one or was there before
  have hcases : ∀ {other p}, (({ s with workspace := w } : Session).put id (.file g)).root? other = some p →
      other = id ∧ p = root ∨ other ≠ id ∧ s.root? other = some p := by
    intro other p hp
    rw [hroot] at hp
    split at hp
    · next e => exact Or.inl ⟨e, (hg p hp).1⟩
    · next e => exact Or.inr ⟨e, hp⟩
  have havoids : ∀ {other q}, other ≠ id → s.root? other = some q → root.Avoids q.key ∧ q.Avoids root.key := by
    intro other q hne hq
    rcases hothers other q hne hq with ⟨hd, hqd⟩ | hbeside
    · obtain ⟨c, hc, hq'⟩ := Option.bind_eq_some_iff.mp hq
      exact ⟨hqd ▸ hside.avoids, hd ▸ (h.sides other c hc q hq').1.avoids⟩
    · exact ⟨hbeside.avoids, hbeside.avoided⟩
  refine ⟨h.free, hcommon, fun other c hc p hp => ?_, fun i j p q hp hq => ?_, fun i j p q hne hp hq => ?_⟩
  · rcases hcases ((root?_of_store? hc).trans hp) with ⟨rfl, rfl⟩ | ⟨hne, hold⟩
    · have hp' := (root?_of_store? hc).trans hp
      rw [hroot, if_pos rfl] at hp'
      exact ⟨hside, (hg _ hp').2⟩
    · obtain ⟨c', hc', hp'⟩ := Option.bind_eq_some_iff.mp hold
      obtain ⟨hp₁, hp₂⟩ := h.sides other c' hc' p hp'
      exact ⟨hp₁, Tree.leadsToDir_mono hp₂ fun _ => hgrown.dir⟩
  · rcases hcases hp with ⟨-, rfl⟩ | ⟨hi, hp⟩ <;> rcases hcases hq with ⟨-, rfl⟩ | ⟨hj, hq⟩
    · exact hself
    · exact (havoids hj hq).1
    · exact (havoids hi hp).2
    · exact h.avoids i j p q hp hq
  · rcases hcases hp with ⟨rfl, rfl⟩ | ⟨hi, hp'⟩ <;> rcases hcases hq with ⟨rfl, rfl⟩ | ⟨hj, hq'⟩
    · exact absurd rfl hne
    · exact (hothers j q hj hq').imp_right fun hbeside => hbeside.apart
    · exact (hothers i p hi hp').imp (fun e => ⟨e.2, e.1⟩) fun hbeside => hbeside.apart.symm
    · exact h.apart i j p q hne hp' hq'

/-- **One deed** keeps what stores have in common. -/
theorem step (h : s.Shared d) (deed : Deed) (hshares : deed.Shares d s) : (deed.run s).Shared d := by
  have hran := deed.ran s
  generalize deed.run s = s' at hran ⊢
  cases hran with
  | idle => exact h
  | start id root depth a ha =>
    obtain ⟨hside, hself, hothers⟩ := hshares
    cases a with
    | file f =>
      obtain ⟨v, hgrown, hstart | ⟨hstart, hlead⟩⟩ := f.start_spec root depth s.workspace
      · rw [AnyStore.start_file, hstart]
        exact h.started hside hself hothers hgrown fun p hp => by cases hp
      · rw [AnyStore.start_file, hstart]
        refine h.started hside hself hothers hgrown fun p hp => ?_
        cases hp
        exact ⟨rfl, hlead⟩
    | memory m => exact h.worked ha (.idle h.common rfl)
    | fixed f => exact h.worked ha (.idle h.common rfl)
  | call id c a ha =>
    obtain ⟨hout, hshare⟩ := hshares
    refine h.worked ha (AnyStore.call_kept h.common (h.sides id a ha) c (fun q hq => ⟨(hout q hq).1, ?_⟩)
      (hshare a ha))
    exact fun p hp => (hout q hq).2 p ((root?_of_store? ha).trans hp)
  | moveTo id name sinkId a b hne ha hb =>
    exact h.workedBoth ha hb (AnyStore.moveTo_kept h.free h.common (h.sides id a ha) (h.sides sinkId b hb)
      (fun p q hp hq => h.apart id sinkId p q hne ((root?_of_store? ha).trans hp)
        ((root?_of_store? hb).trans hq)) (hshares hne b hb))
  | moveToSelf id name a ha =>
    refine h.worked ha ?_
    rw [a.moveToSelf_tree]
    exact .idle h.common rfl
  | chunkPath id name create a ha =>
    exact h.worked ha (AnyStore.chunkPath_kept h.common (h.sides id a ha) name create)

end Shared

/-- **Every run** keeps what stores have in common. -/
theorem Sharing.shared (h : Sharing d s) : s.Shared d := by
  induction h with
  | fresh hfresh hproper hempty hfree =>
    have hroot := root?_of_fresh hfresh
    refine ⟨hfree, .of_empty hproper hempty, fun id a ha p hp => ?_, fun i j p q hp _ => ?_, fun i j p q _ hp _ => ?_⟩
    · rw [← root?_of_store? ha, hroot] at hp
      cases hp
    · rw [hroot] at hp
      cases hp
    · rw [hroot] at hp
      cases hp
  | step hs deed hshares ih => exact ih.step deed hshares

end Session

end

/-! ### Two stores to try it on -/

def AnyStore.layout? : AnyStore → Option Layout
  | .file f => f.layout?
  | .memory _ => none
  | .fixed _ => none

instance (d : Key) (p : Path) : Decidable (p.Sides d) :=
  decidable_of_iff (p.Avoids d ∧ (p.key = d ∨ p.key.Apart d)) ⟨fun ⟨h, h'⟩ => ⟨h, h'⟩, fun ⟨h, h'⟩ => ⟨h, h'⟩⟩

namespace Session

variable {d : Key} {s : Session} {id : String}

theorem file_of_layout {l : Layout} (h : (s.store? id).bind AnyStore.layout? = some l) :
    ∃ f, s.store? id = some (.file f) ∧ f.layout? = some l := by
  obtain ⟨a, ha, hl⟩ := Option.bind_eq_some_iff.mp h
  cases a with
  | file f => exact ⟨f, ha, hl⟩
  | memory m => cases hl
  | fixed f => cases hl

theorem shares_start {root : Path} (depth : Nat) (hside : root.Sides d) (hself : root.Avoids root.key)
    (hothers : ∀ e ∈ s.stores, e.1 ≠ id → ∀ q ∈ e.2.root?, root.key = d ∧ q.key = d ∨ root.Beside q) :
    Deed.Shares d s (.start id root depth) := by
  refine ⟨hside, hself, fun other q hne hq => ?_⟩
  obtain ⟨b, hb, hq⟩ := Option.bind_eq_some_iff.mp hq
  exact hothers _ (Table.mem_of_lookup hb) hne q hq

theorem shares_store {name : Bytes} (content : Bytes)
    (h : ∀ a ∈ s.store? id, a.CanShare s.workspace.tree name) :
    Deed.Shares d s (.call id (.store name content)) :=
  ⟨fun _ hp => absurd hp List.not_mem_nil, fun a ha _ hname => Option.some.inj hname ▸ h a ha⟩

end Session

namespace Trial

/-- A store that counts references, and one that does not. -/
def pair : Session :=
  ⟨[("a", .file (.new true (.ofDigest id))), ("b", .file (.new false (.ofDigest id)))], .bare⟩

/-- Both have taken one root, which they spell in different ways. -/
def paired : Session :=
  Deed.run (Deed.run pair (.start "a" (Path.ofText "r") 0)) (.start "b" (Path.ofText "r/.") 1)

/-- The first one has stored a chunk twice. -/
def shared : Session :=
  Deed.run (Deed.run paired (.call "a" (.store [107] [97, 98]))) (.call "a" (.store [107] [97, 98]))

theorem sharing : Session.Sharing (Path.ofText "r").key shared := by
  have hfresh : Session.Sharing (Path.ofText "r").key pair := by
    refine .fresh (fun id a ha => ?_) (fun n k hn => absurd (Tree.kind?_bare n k) hn) (fun k hk hne => ?_)
      (FileSystem.free_lenient _)
    · have hmem := Table.mem_of_lookup ha
      simp only [pair, List.mem_cons, List.not_mem_nil, or_false, Prod.mk.injEq] at hmem
      rcases hmem with ⟨-, rfl⟩ | ⟨-, rfl⟩
      · exact ⟨_, _, rfl⟩
      · exact ⟨_, _, rfl⟩
    · cases k with
      | nil => exact absurd (List.suffix_nil.mp hk) (by decide +kernel)
      | cons n k => exact Tree.kind?_bare n k
  have hpaired : Session.Sharing (Path.ofText "r").key paired :=
    (hfresh.step _ (Session.shares_start 0 (by decide +kernel) (by decide +kernel) (by decide +kernel))).step _
      (Session.shares_start 1 (by decide +kernel) (by decide +kernel) (by decide +kernel))
  exact (hpaired.step _ (Session.shares_store _ (by decide +kernel))).step _
    (Session.shares_store _ (by decide +kernel))

end Trial

section

variable [FileSystem]

/-- **Moves within one root.**  Take two different stores whose roots are one directory, in any modes and with
any numbers of levels, in a session in which that directory was empty at first.  A move from the one to the other
that is answered with yes never loses the chunk: the sink has it afterwards.  If both keep it in the same place,
neither the tree nor the stores have changed.  Otherwise the source has one reference less, or the chunk no more;
the sink has one reference more to the content that it had, or a first one to that of the source.  A move that is
answered with no changes no file, as long as the path with one reference more is not too long for the source. -/
theorem move_within_root {d : Key} {s : Session} (h : Session.Sharing d s) {id sinkId : String}
    (hne : id ≠ sinkId) {a b : FileStore} {l m : Layout} (ha : s.store? id = some (.file a))
    (hb : s.store? sinkId = some (.file b)) (hl : a.layout? = some l) (hm : b.layout? = some m)
    (hroot : l.root.key = d) (hsinkRoot : m.root.key = d) {name : Bytes}
    (hshare : (AnyStore.file b).CanShare s.workspace.tree name)
    (hshort : ∀ chunk, a.held? s.workspace.tree name = some chunk →
      a.mode.Short (l.place name) (chunk.count + 1)) {moved : Bool} {after : Session}
    (hrun : Session.moveTo id name sinkId s = (some moved, after)) :
    ∃ a' b', after.store? id = some (.file a') ∧ after.store? sinkId = some (.file b') ∧
      (moved = true → (ChunkStore.has b' name after.workspace).1 = true ∧
        ∃ chunk, a.held? s.workspace.tree name = some chunk ∧
          (FileStore.Together a l b m name → after.workspace.tree.kind? = s.workspace.tree.kind? ∧ a' = a ∧
            b' = b ∧ b.held? s.workspace.tree name = some chunk ∧
            b.held? after.workspace.tree name = some chunk) ∧
          (¬ FileStore.Together a l b m name →
            a'.held? after.workspace.tree name = a.mode.dropped chunk ∧
            b'.held? after.workspace.tree name =
              some (b.mode.taken chunk.content (b.held? s.workspace.tree name)))) ∧
      (moved = false → ∀ k c, after.workspace.tree.kind? k = some (.file c) ↔
        s.workspace.tree.kind? k = some (.file c)) := by
  have hshared := h.shared
  have hside := hshared.sides id _ ha _ (FileStore.root_eq hl)
  have hsinkSide := hshared.sides sinkId _ hb _ (FileStore.root_eq hm)
  have hworks : a.WorksIn d l s.workspace.tree := ⟨hl, hroot, hside.1.avoids, hside.2, hshared.free⟩
  have hsinkWorks : b.WorksIn d m s.workspace.tree := ⟨hm, hsinkRoot, hsinkSide.1.avoids, hsinkSide.2, hshared.free⟩
  rw [Session.moveTo_apply name hne ha hb, AnyStore.moveTo_file] at hrun
  rcases hmove : ChunkStore.moveTo a name (AnyStore.file b) s.workspace with ⟨⟨taken, a', b'⟩, x⟩
  rw [hmove] at hrun
  cases hrun
  obtain ⟨b', rfl, hpassed⟩ := FileStore.moveTo_passed hworks hsinkWorks hshared.common hshare hmove
  refine ⟨a', b', ?_, ?_, ?_, ?_⟩
  · rw [Session.store?_put, if_neg hne, Session.store?_put, if_pos rfl]
  · rw [Session.store?_put, if_pos rfl]
  · rintro rfl
    obtain ⟨chunk, hheld, htogether, hapart⟩ := hpassed.held hworks hsinkWorks hshared.common hshare
    have hrooted : b'.Rooted := by
      intro k hk
      rw [hpassed.layout.2, hm] at hk
      cases hk
      exact hsinkWorks.root_ne_blank
    refine ⟨?_, chunk, hheld, htogether, hapart⟩
    show (ChunkStore.has b' name x).1 = true
    rw [FileStore.has_answer hrooted]
    by_cases hplace : FileStore.Together a l b m name
    · obtain ⟨-, -, rfl, -, hafter⟩ := htogether hplace
      rw [hafter]
      rfl
    · rw [(hapart hplace).2]
      rfl
  · rintro rfl
    exact hpassed.file_iff_of_refused hworks hsinkWorks hshared.common hshare hshort

end

/-- A counted store without levels has two references to a chunk and moves one of them to a plain store with one
level, whose root is the same directory and which does not have the chunk. -/
theorem move_within_root_trial :
    (Session.moveTo "a" [107] "b" Trial.shared).1 = some true ∧
    ∃ a b a' b' : FileStore, ∃ chunk, Trial.shared.store? "a" = some (.file a) ∧
      Trial.shared.store? "b" = some (.file b) ∧
      (Session.moveTo "a" [107] "b" Trial.shared).2.store? "a" = some (.file a') ∧
      (Session.moveTo "a" [107] "b" Trial.shared).2.store? "b" = some (.file b') ∧
      a.held? Trial.shared.workspace.tree [107] = some chunk ∧
      a'.held? (Session.moveTo "a" [107] "b" Trial.shared).2.workspace.tree [107] = a.mode.dropped chunk ∧
      b'.held? (Session.moveTo "a" [107] "b" Trial.shared).2.workspace.tree [107] =
        some (b.mode.taken chunk.content (b.held? Trial.shared.workspace.tree [107])) := by
  have hmoved : (Session.moveTo "a" [107] "b" Trial.shared).1 = some true := by decide +kernel
  obtain ⟨a, ha, hl⟩ := Session.file_of_layout
    (show (Trial.shared.store? "a").bind AnyStore.layout? = some ⟨Path.ofText "r", 0⟩ by decide +kernel)
  obtain ⟨b, hb, hm⟩ := Session.file_of_layout
    (show (Trial.shared.store? "b").bind AnyStore.layout? = some ⟨Path.ofText "r/.", 1⟩ by decide +kernel)
  have hmodes : (Trial.shared.store? "a").bind AnyStore.mode? = some .counted ∧
      (Trial.shared.store? "b").bind AnyStore.mode? = some .plain := by decide +kernel
  have hshare : ∀ b ∈ Trial.shared.store? "b", b.CanShare Trial.shared.workspace.tree [107] := by decide +kernel
  have hshort : ∀ chunk ∈ (Trial.shared.store? "a").bind (AnyStore.held? Trial.shared.workspace.tree [107]),
      Mode.counted.Short ((⟨Path.ofText "r", 0⟩ : Layout).place [107]) (chunk.count + 1) := by decide +kernel
  rw [ha, hb] at hmodes
  rw [ha] at hshort
  have hmode : a.mode = .counted := Option.some.inj hmodes.1
  have hmode' : b.mode = .plain := Option.some.inj hmodes.2
  obtain ⟨a', b', ha', hb', hyes, -⟩ := move_within_root Trial.sharing (by decide) ha hb hl hm rfl
    (by decide +kernel) (hshare _ hb) (by rw [hmode]; exact hshort) (Prod.ext hmoved rfl)
  obtain ⟨-, chunk, hheld, -, hapart⟩ := hyes rfl
  have hplace : ¬ FileStore.Together a ⟨Path.ofText "r", 0⟩ b ⟨Path.ofText "r/.", 1⟩ [107] := by
    intro h
    rw [FileStore.Together, hmode, hmode'] at h
    cases h.1
  exact ⟨hmoved, a, b, a', b', chunk, ha, hb, ha', hb', hheld, hapart hplace⟩

namespace Detour

/-- Two stores with one root, which the second one spells by way of a directory below it; the first one was
cleared and has stored a chunk since. -/
def twofold : Session :=
  [.start "b" (Path.ofText "r/x/..") 0, .start "a" (Path.ofText "r") 0, .call "a" .clear,
    .call "a" (.store [107] [97, 98, 99])].foldl Deed.run
    ⟨[("a", .file (.new true (.ofDigest id))), ("b", .file (.new true (.ofDigest id)))], .bare⟩

end Detour

/-- A store whose root leads through a directory below it, which was cleared by another store, does not see the
file of a chunk that is handed over to it, and the chunk is lost. -/
theorem move_within_root_loses_detour :
    Detour.twofold.root? "a" = some (Path.ofText "r") ∧ Detour.twofold.root? "b" = some (Path.ofText "r/x/..") ∧
    (Path.ofText "r").key = (Path.ofText "r/x/..").key ∧
    (Detour.twofold.store? "a").bind (AnyStore.held? Detour.twofold.workspace.tree [107]) =
      some ⟨[97, 98, 99], 1⟩ ∧
    (Session.moveTo "a" [107] "b" Detour.twofold).1 = some true ∧
    (Session.call "b" (.has [107]) (Session.moveTo "a" [107] "b" Detour.twofold).2).1 = some (.truth false) ∧
    (Session.call "a" (.has [107]) (Session.moveTo "a" [107] "b" Detour.twofold).2).1 =
      some (.truth false) := by
  decide +kernel

end ContentStore
