import ContentStore.Proofs.Bystander
import ContentStore.Proofs.Table
import ContentStore.Store.Call

/-!
# Stores that are kept in order

A file store is in order if its root is a directory and its counts are those of the files below it; a memory
store if its table is.  `Worked` says what the work of one store may do: it leaves the store in order as long
as its bytes can be counted, and every file store beside it as it was.  Each call is such a work:
`call_worked`.
-/

namespace ContentStore

open Function (update)
open Decimal (wordLimit)

/-- Two paths lead to directories of which neither lies in the other, and neither passes below the other. -/
structure Path.Beside (p q : Path) : Prop where
  apart : p.key.Apart q.key
  avoids : p.Avoids q.key
  avoided : q.Avoids p.key

namespace FileStore

variable {tidy : Prop} {s s' : FileStore} {l : Layout} {name content : Bytes} {t u : Tree}
  {kinds : Key → Option Kind}

/-- The root is a directory, and the counts are those of the files below it; where tidiness is asked for,
only directories of digits are there. -/
structure InOrder (tidy : Prop) (s : FileStore) (l : Layout) (t : Tree) : Prop where
  lead : t.leadsToDir l.root = true
  accounts : Accounts s l t.kind?
  tidy : tidy → Tidy l.root.key t.kind?

/-- A store stays in order while others work elsewhere. -/
theorem InOrder.untouched (h : InOrder tidy s l t) (hu : Untouched l.root.key t.kind? u.kind?) :
    InOrder tidy s l u where
  lead := Tree.leadsToDir_mono h.lead hu.dir
  accounts := h.accounts.congr hu.file
  tidy ht := (h.tidy ht).untouched hu

/-- A store stays in order while a directory beside its root is emptied. -/
theorem InOrder.pruned {p : Path} (h : InOrder tidy s l t) (hp : p.Beside l.root)
    (hu : Pruned p.key t u) : InOrder tidy s l u where
  lead := hu.leadsToDir hp.avoided h.lead
  accounts := h.accounts.congr fun k c hk => by
    rw [hu.eq_of_outside fun hs => absurd hs (hp.apart.symm.not_suffix hk)]
  tidy ht := (h.tidy ht).pruned hu

theorem InOrder.took [FileSystem] (h : InOrder tidy s l t) (hself : l.root.Avoids l.root.key) (hname : name ≠ [])
    (htook : Took s l name content t s' kinds)
    (hcount : ∀ e, s.mode = .counted → s.mode.find (l.place name) t = .ok (some e) →
      e.count + 1 < wordLimit)
    (hu : Untouched l.root.key kinds u.kind?) (hsize : (Scan.count s.mode u l.root).size < wordLimit) :
    InOrder tidy s' l u := by
  have hframe := htook.frame hname
  have hlead := Tree.leadsToDir_mono h.lead fun k hk => hu.dir k (hframe.dir k hk)
  refine ⟨hlead, ?_, fun ht => (hframe.tidy hself (h.tidy ht)).untouched hu⟩
  refine (htook.accounts hname h.lead h.accounts hcount fun xs hxs => ?_).congr hu.file
  rw [← Scan.count_of_lists hlead _ (hxs.congr hu.file)]
  exact hsize

theorem InOrder.dropped (h : InOrder tidy s l t) (hself : l.root.Avoids l.root.key) (hname : name ≠ [])
    (hdropped : Dropped s l name t s' kinds) (hu : u.kind? = kinds) : InOrder tidy s' l u := by
  subst hu
  have hframe := hdropped.frame hname
  exact ⟨Tree.leadsToDir_mono h.lead hframe.dir, hdropped.accounts hname h.accounts,
    fun ht => hframe.tidy hself (h.tidy ht)⟩

theorem InOrder.grown (h : InOrder tidy s l t) (hself : l.root.Avoids l.root.key)
    (hu : Grown (l.place name).dir t u) : InOrder tidy s l u :=
  ⟨Tree.leadsToDir_mono h.lead fun _ => hu.dir, h.accounts.congr fun k c _ => hu.file_iff k c,
    fun ht => (Frame.of_grown hu _).tidy hself (h.tidy ht)⟩

end FileStore

namespace AnyStore

def root? : AnyStore → Option Path
  | .file s => s.root?
  | .memory _ => none
  | .fixed _ => none

def held? (t : Tree) (name : Bytes) : AnyStore → Option Held
  | .file s => s.held? t name
  | .memory s => s.find? name
  | .fixed _ => none

def InOrder (tidy : Prop) (t : Tree) : AnyStore → Prop
  | .file s => ∀ l, s.layout? = some l → s.InOrder tidy l t
  | .memory s => s.Sound
  | .fixed _ => True

/-- The bytes of all chunks of a store are a number that fits into a word. -/
def Bounded (t : Tree) : AnyStore → Prop
  | .file s => ∀ l, s.layout? = some l → (Scan.count s.mode t l.root).size < wordLimit
  | .memory s => (MemoryStore.tally s.chunks).size < wordLimit
  | .fixed _ => True

/-- One more reference to a chunk is a number that fits into a word. -/
def CanShare (t : Tree) (name : Bytes) (a : AnyStore) : Prop :=
  ∀ held, a.held? t name = some held → held.count + 1 < wordLimit

/-- A file at one of the given paths may have come, gone or changed. -/
inductive Aside (outside : List Path) (t : Key → Option Kind) : (Key → Option Kind) → Prop
  | same : Aside outside t t
  | changed (q : Path) (hq : q ∈ outside) (hdir : t q.key ≠ some .dir) (kind : Option Kind)
      (hkind : kind ≠ some .dir) (hname : kind ≠ none → ∀ n ∈ q.key.head?, Path.IsName n) :
      Aside outside t (Function.update t q.key kind)

theorem Aside.untouched {outside : List Path} {t u : Key → Option Kind} (h : Aside outside t u) {d : Key}
    (hout : ∀ q ∈ outside, ¬ d <:+ q.key) : Untouched d t u := by
  cases h with
  | same => exact .refl _ _
  | changed q hq hdir kind hkind => exact .update _ (hout q hq) hdir hkind

theorem Aside.proper {outside : List Path} {t u : Key → Option Kind} (h : Aside outside t u)
    (ht : Proper t) : Proper u := by
  cases h with
  | same => exact ht
  | changed q hq hdir kind hkind hname => exact ht.update hname

/-- The work of one store: it stays in order, and so does every file store beside it, if the given paths
lead elsewhere. -/
structure Worked (tidy : Prop) (outside : List Path) (a : AnyStore) (t : Tree) (b : AnyStore) (u : Tree) :
    Prop where
  root : b.root? = a.root?
  inOrder : b.Bounded u → b.InOrder tidy u
  others : ∀ (s : FileStore) (l : Layout), (∀ p, a.root? = some p → p.Beside l.root) →
    (∀ q ∈ outside, ¬ l.root.key <:+ q.key) → s.InOrder tidy l t → s.InOrder tidy l u
  proper : Proper t.kind? → Proper u.kind?

namespace Worked

variable {tidy : Prop} {outside : List Path} {a b : AnyStore} {t u : Tree}

theorem idle (hroot : b.root? = a.root?) (hb : b.InOrder tidy t) : Worked tidy outside a t b t :=
  ⟨hroot, fun _ => hb, fun _ _ _ _ h => h, id⟩

theorem of_aside (hroot : b.root? = a.root?) (haside : Aside outside t.kind? u.kind?)
    (hb : b.Bounded u → b.InOrder tidy u) : Worked tidy outside a t b u where
  root := hroot
  inOrder := hb
  others _ _ _ hout h := h.untouched (haside.untouched hout)
  proper := haside.proper

/-- A store has worked in its own directory, and to files elsewhere. -/
theorem of_frame {l : Layout} {name : Bytes} {kinds : Key → Option Kind} (hl : a.root? = some l.root)
    (hroot : b.root? = a.root?) (hframe : Frame l.root.key (l.place name).dir t.kind? kinds)
    (haside : Aside outside kinds u.kind?) (hb : b.Bounded u → b.InOrder tidy u) :
    Worked tidy outside a t b u where
  root := hroot
  inOrder := hb
  others s k hbeside hout h := by
    obtain ⟨hapart, havoids, -⟩ := hbeside l.root hl
    exact h.untouched ((hframe.untouched hapart (l.avoids_place havoids hapart name)).trans
      (haside.untouched hout))
  proper ht := haside.proper (hframe.proper ht)

end Worked

end AnyStore

namespace FileStore

open AnyStore (Aside Worked)

variable {tidy : Prop} {s s' : FileStore} {l : Layout} {name content : Bytes} {t u : Tree}
  {outside : List Path} {kinds : Key → Option Kind} {w v : Workspace}

theorem root_eq (hl : s.layout? = some l) : (AnyStore.file s).root? = some l.root := by
  show s.layout?.map Layout.root = _
  rw [hl]
  rfl

theorem Took.same [FileSystem] (h : Took s l name content t s' kinds) : s'.layout? = s.layout? ∧ s'.mode = s.mode := by
  cases h <;> exact ⟨rfl, rfl⟩

theorem Dropped.same (h : Dropped s l name t s' kinds) : s'.layout? = s.layout? ∧ s'.mode = s.mode := by
  cases h <;> exact ⟨rfl, rfl⟩

theorem root_congr (h : s'.layout? = s.layout?) : (AnyStore.file s').root? = (AnyStore.file s).root? :=
  congrArg (Option.map Layout.root) h

theorem inOrder_of (hl : s.layout? = some l) (h : s.InOrder tidy l t) :
    (AnyStore.file s).InOrder tidy t := by
  intro k hk
  rw [hl] at hk
  cases hk
  exact h

/-- The source of a file that was stored has gone, or is as it was. -/
theorem aside_source {source : Path} {asked : Bool} (hstat : t.stat source = .ok (.file content))
    (hframe : Frame l.root.key (l.place name).dir t.kind? kinds) (hout : ¬ l.root.key <:+ source.key)
    (hu : u.kind? = if asked then update kinds source.key none else kinds) :
    Aside [source] kinds u.kind? := by
  rw [hu]
  cases asked with
  | false => exact .same
  | true =>
    refine .changed source List.mem_cons_self ?_ none (by simp) (by simp)
    rw [(hframe.file _ _ hout).mpr (kind?_of_stat hstat)]
    simp

/-- What the work of a file store with a root leaves behind: the store after it, and the tree.  `named` is the
chunk that it was about, and `stored` the one that a reference may have been taken to. -/
inductive Imprint [FileSystem] (s : FileStore) (l : Layout) (outside : List Path) (named stored : Option Bytes)
    (t : Tree) :
    FileStore → Tree → Prop
  /-- At most the capacity has changed, and a file elsewhere. -/
  | aside {s' : FileStore} {u : Tree} (hlayout : s'.layout? = s.layout?) (hmode : s'.mode = s.mode)
      (htotals : s'.tracker.totals = s.tracker.totals) (haside : Aside outside t.kind? u.kind?) :
      Imprint s l outside named stored t s' u
  | grown {name : Bytes} {u : Tree} (hnamed : name ∈ named) (hu : Grown (l.place name).dir t u) :
      Imprint s l outside named stored t s u
  | took {name content : Bytes} {s' : FileStore} {kinds : Key → Option Kind} {u : Tree} (hname : name ≠ [])
      (hnamed : name ∈ named) (hstored : name ∈ stored) (htook : Took s l name content t s' kinds)
      (haside : Aside outside kinds u.kind?) : Imprint s l outside named stored t s' u
  | dropped {name : Bytes} {s' : FileStore} {u : Tree} (hname : name ≠ []) (hnamed : name ∈ named)
      (hdropped : Dropped s l name t s' u.kind?) : Imprint s l outside named stored t s' u
  | pruned {u : Tree} (hnamed : named = none) (hu : Pruned l.root.key t u) :
      Imprint s l outside named stored t { s with tracker := s.tracker.reset (Scan.count s.mode u l.root) } u

theorem Imprint.idle [FileSystem] {named stored : Option Bytes} (hu : u = t) : Imprint s l outside named stored t s u :=
  .aside rfl rfl rfl (hu ▸ .same)

theorem Imprint.layout [FileSystem] {named stored : Option Bytes} (h : Imprint s l outside named stored t s' u) :
    s'.layout? = s.layout? := by
  cases h with
  | aside hlayout => exact hlayout
  | grown | pruned => rfl
  | took _ _ _ htook => exact htook.same.1
  | dropped _ _ hdropped => exact hdropped.same.1

section Initialized

variable (h : s.InOrder tidy l w.tree) (hl : s.layout? = some l) (hself : l.root.Avoids l.root.key)
include h hl hself

theorem worked_grown (hu : Grown (l.place name).dir w.tree v.tree) :
    Worked tidy outside (.file s) w.tree (.file s) v.tree :=
  .of_frame (root_eq hl) rfl (.of_grown hu _) .same fun _ => inOrder_of hl (h.grown hself hu)

theorem worked_took [FileSystem] (hname : name ≠ []) (htook : Took s l name content w.tree s' kinds)
    (hshare : (AnyStore.file s).CanShare w.tree name) (haside : Aside outside kinds v.tree.kind?)
    (hout : ∀ q ∈ outside, ¬ l.root.key <:+ q.key) :
    Worked tidy outside (.file s) w.tree (.file s') v.tree := by
  obtain ⟨hlayout, hmode⟩ := htook.same
  refine .of_frame (root_eq hl) (root_congr hlayout) (htook.frame hname) haside fun hbounded => ?_
  have hl' := hlayout.trans hl
  refine inOrder_of hl' (h.took hself hname htook (fun e _ hfind => ?_) (haside.untouched hout) ?_)
  · obtain ⟨file, old, found⟩ := Mode.find_eq_some
      (l.dir_place_ne_blank (Layout.root_ne_blank h.lead) name) (l.isStem_place hname) hfind
    exact hshare _ (held?_of_found hl hname hfind found)
  · rw [← hmode]
    exact hbounded l hl'

theorem worked_dropped (hname : name ≠ []) (hdropped : Dropped s l name w.tree s' v.tree.kind?) :
    Worked tidy outside (.file s) w.tree (.file s') v.tree := by
  obtain ⟨hlayout, -⟩ := hdropped.same
  exact .of_frame (root_eq hl) (root_congr hlayout) (hdropped.frame hname) .same fun _ =>
    inOrder_of (hlayout.trans hl) (h.dropped hself hname hdropped rfl)

theorem worked_pruned (hu : Pruned l.root.key w.tree v.tree) :
    Worked tidy outside (.file s) w.tree
      (.file { s with tracker := s.tracker.reset (Scan.count s.mode v.tree l.root) }) v.tree := by
  have hlead := hu.leadsToDir hself h.lead
  refine ⟨rfl, fun _ => inOrder_of hl ⟨hlead, ?_, fun ht => (h.tidy ht).pruned hu⟩, ?_, hu.proper⟩
  · refine accounts_of_count hlead (h.accounts.single.mono fun k c _ hk => ?_) rfl
    rcases hu k with e | ⟨e, -⟩
    · rw [← e, hk]
    · rw [e] at hk
      cases hk
  · intro f k hbeside _ hf
    exact hf.pruned (hbeside l.root (root_eq hl)) hu

/-- Whatever a store does, it stays in order, and so do the stores beside it. -/
theorem Imprint.worked [FileSystem] {named stored : Option Bytes}
    (himprint : Imprint s l outside named stored w.tree s' v.tree)
    (hout : ∀ q ∈ outside, ¬ l.root.key <:+ q.key)
    (hshare : ∀ name ∈ stored, (AnyStore.file s).CanShare w.tree name) :
    Worked tidy outside (.file s) w.tree (.file s') v.tree := by
  generalize hu : v.tree = u at himprint
  cases himprint with
  | aside hlayout hmode htotals haside =>
    refine .of_aside (root_congr hlayout) haside fun _ => inOrder_of (hlayout.trans hl) ?_
    have hs' : s'.InOrder tidy l w.tree :=
      ⟨h.lead, ⟨by rw [hmode]; exact h.accounts.single, by rw [hmode, htotals]; exact h.accounts.tallied⟩, h.tidy⟩
    exact hs'.untouched (haside.untouched hout)
  | grown _ hgrown =>
    subst hu
    exact worked_grown h hl hself hgrown
  | took hname _ hstored htook haside =>
    subst hu
    exact worked_took h hl hself hname htook (hshare _ hstored) haside hout
  | dropped hname _ hdropped =>
    subst hu
    exact worked_dropped h hl hself hname hdropped
  | pruned _ hpruned =>
    subst hu
    exact worked_pruned h hl hself hpruned

end Initialized

/-! ### What each operation leaves behind -/

section Run

variable (hl : s.layout? = some l) (hroot : l.root ≠ .blank)
include hl hroot

theorem store_imprint [FileSystem] {taken : Bool} (hrun : Sink.store s name content w = ((taken, s'), v)) :
    Imprint s l [] (some name) (some name) w.tree s' v.tree := by
  have hrun : Attempt.settled .store name s (s.store name content) w = ((taken, s'), v) := hrun
  rcases hr : (s.store name content).run w with ⟨e | after, x⟩
  · rw [Attempt.settled_of_error hr] at hrun
    cases hrun
    exact .grown rfl (store_error hl hroot hr).grown
  · rw [Attempt.settled_of_ok hr] at hrun
    cases hrun
    obtain ⟨hname, -, htook⟩ := store_took hl hroot hr
    exact .took hname rfl rfl htook .same

theorem storeFile_imprint [FileSystem] {source : Path} {asked taken : Bool} (hout : ¬ l.root.key <:+ source.key)
    (hrun : Sink.storeFile s name source asked w = ((taken, s'), v)) :
    Imprint s l [source] (some name) (some name) w.tree s' v.tree := by
  rcases sink_file hl hroot hrun with ⟨-, rfl, hgrown⟩ | ⟨-, hr⟩
  · exact .grown rfl hgrown
  · obtain ⟨hname, content, kinds, -, hstat, htook, hkinds⟩ := storeFile_took hl hroot hout hr
    exact .took hname rfl rfl htook (aside_source hstat (htook.frame hname) hout hkinds)

theorem delete_imprint [FileSystem] {done : Bool} (hrun : ChunkStore.delete s name w = ((done, s'), v)) :
    Imprint s l [] (some name) none w.tree s' v.tree := by
  have hrun : Attempt.settled .delete name s (s.delete name) w = ((done, s'), v) := hrun
  rcases hr : (s.delete name).run w with ⟨e | after, x⟩
  · rw [Attempt.settled_of_error hr] at hrun
    cases hrun
    obtain rfl := delete_error hl hroot hr
    exact .idle rfl
  · rw [Attempt.settled_of_ok hr] at hrun
    cases hrun
    rcases delete_dropped hl hroot hr with ⟨-, rfl, rfl⟩ | ⟨hname, hdropped⟩
    · exact .idle rfl
    · exact .dropped hname rfl hdropped

omit hroot in
theorem getToFile_imprint [FileSystem] (name : Bytes) (target : Path) (w : Workspace) :
    Imprint s l [target] (some name) none w.tree s ((s.getToFile name target).run w).2.tree := by
  have hrun := getToFile_run hl name target w
  rcases hr : (s.getToFile name target).run w with ⟨e | x, v⟩
  · exact .grown rfl (getToFile_error hl (l.place name).dir hr).grown
  · rw [hr] at hrun
    cases hrun with
    | same => exact .idle rfl
    | copied hname e hfind hsame n v hcopy =>
      rcases Staging.copy_spec (stagingDir_ne_blank target) e.path target w with
        ⟨err, cs, -, -, herr, -⟩ | ⟨c, hidden, -, hok, -, hplaced⟩
      · rw [hcopy] at herr
        cases herr
      · rw [hcopy] at hok
        cases hok
        refine .aside rfl rfl rfl ?_
        show Aside [target] w.tree.kind? (w.commits (Staging.stages hidden c target.key)).tree.kind?
        rw [hplaced.kinds]
        exact .changed target List.mem_cons_self hplaced.admits.noDir _ (by simp)
          fun _ _ => hplaced.admits.isName

omit hroot in
theorem locate_grown [FileSystem] (name : Bytes) (create : Bool) (w : Workspace) :
    Grown (l.place name).dir w.tree ((s.locate name create).run w).2.tree := by
  unfold locate
  rw [Action.run_bind, run_layout hl]
  dsimp only
  rw [Action.run_bind, Action.run_except]
  by_cases hname : name = []
  · rw [Layout.locate, if_pos hname]
    exact .refl _ _
  · rw [locate_eq hname]
    dsimp only
    cases create with
    | false =>
      rw [if_neg Bool.false_ne_true, Action.run_bind, Action.run_file, Action.run_ask]
      rcases s.mode.find (l.place name) w.tree with f | _ | e <;> exact .refl _ _
    | true =>
      rw [if_pos rfl, Action.run_bind, Action.run_file]
      obtain ⟨r, cs, hrun, hgrown, -⟩ := Request.makeDirs_spec (l.place name).dir w
      rw [hrun]
      rcases r with f | u
      · exact hgrown
      · dsimp only
        rw [Action.run_bind, Action.run_file, Action.run_ask]
        rcases s.mode.find (l.place name) (w.commits cs).tree with f | _ | e <;> exact hgrown

end Run

end FileStore

/-! ### Scans and emptied roots -/

theorem Action.forM_report_tree (es : List Event) (w : Workspace) :
    ((es.forM Action.report) w).2.tree = w.tree := by
  induction es generalizing w with
  | nil => rfl
  | cons e es ih => exact ih _

/-- A scan answers what it counts and changes nothing. -/
theorem Scan.run_spec (m : Mode) (root : Path) (w : Workspace) :
    (Scan.run m root w).1 = Scan.count m w.tree root ∧ (Scan.run m root w).2.tree = w.tree := by
  unfold Scan.run
  simp only [Action.bind_apply]
  rcases Scan.sightings? m (Action.tree w).1 root with _ | sightings
  · exact ⟨rfl, rfl⟩
  · exact ⟨rfl, Action.forM_report_tree _ w⟩

namespace Attempt

theorem outcome_tree {α : Type} (op : Operation) (name : Bytes) (r : Except StoreError α) (w : Workspace) :
    (outcome op name r w).2.tree = w.tree := by
  cases r <;> rfl

theorem reported_tree {α : Type} (op : Operation) (name : Bytes) (a : Attempt α) (w : Workspace) :
    (a.reported op name w).2.tree = (a.run w).2.tree := by
  unfold reported
  rw [Action.bind_apply]
  exact outcome_tree op name _ _

end Attempt

variable [FileSystem]

namespace FileStore

variable {s : FileStore} {l : Layout}

theorem chunkPath_uninitialized (hl : s.layout? = none) (name : Bytes) (create : Bool) (w : Workspace) :
    (s.chunkPath name create w).2.tree = w.tree := by
  rw [chunkPath, Attempt.reported_tree, locate_uninitialized hl]

theorem chunkPath_imprint (hl : s.layout? = some l) (name : Bytes) (create : Bool) (w : Workspace) :
    Imprint s l [] (some name) none w.tree s (s.chunkPath name create w).2.tree := by
  rw [chunkPath, Attempt.reported_tree]
  exact .grown rfl (locate_grown hl name create w)

/-- Clearing empties the root and takes the counts from what is left. -/
theorem clear_spec (hl : s.layout? = some l) {w u : Workspace} {r : Except Fault Unit}
    (hr : (Request.emptyDir l.root).run w = (r, u)) :
    (ChunkStore.clear s w).1 =
      { s with tracker := s.tracker.reset (Scan.count s.mode u.tree l.root) } ∧
    (ChunkStore.clear s w).2.tree = u.tree := by
  obtain ⟨mode, hasher, layout?, tracker⟩ := s
  cases hl
  obtain ⟨hfound, htree⟩ := Scan.run_spec mode l.root u
  have hclear : ∃ e v, FileStore.clear ⟨mode, hasher, some l, tracker⟩ w =
      ((e, ⟨mode, hasher, some l, tracker.reset (Scan.count mode u.tree l.root)⟩), v) ∧
        v.tree = u.tree := by
    unfold clear
    simp only [Action.bind_apply]
    rw [hr]
    rcases r with f | x
    · exact ⟨.error (.file f), _, by simp only [hfound]; rfl, htree⟩
    · refine ⟨.ok (), (Action.report (.cleared l.root) (Scan.run mode l.root u).2).2, ?_, htree⟩
      simp only [hfound]
      rfl
  obtain ⟨e, v, hrun, hv⟩ := hclear
  have happly : ∀ s : FileStore, ChunkStore.clear s w =
      ((s.clear w).1.2, (Attempt.outcome .clear [] (s.clear w).1.1 (s.clear w).2).2) := fun _ => rfl
  rw [happly, Attempt.outcome_tree, hrun]
  exact ⟨rfl, hv⟩

theorem clear_imprint (hl : s.layout? = some l) {w : Workspace} (hproper : Proper w.tree.kind?) :
    Imprint s l [] none none w.tree (ChunkStore.clear s w).1 (ChunkStore.clear s w).2.tree := by
  obtain ⟨r, u, hr, hpruned⟩ := Request.emptyDir_pruned l.root hproper
  obtain ⟨hstore, htree⟩ := clear_spec hl hr
  rw [hstore, htree]
  exact .pruned rfl hpruned

end FileStore

end ContentStore
