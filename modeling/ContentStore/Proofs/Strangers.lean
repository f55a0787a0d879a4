import ContentStore.Proofs.Restart
import ContentStore.Proofs.Unseen

/-!
# Strangers in the tree

Files that a store does not know for chunks, and directories that it does not need, may come to stand below its
root.  A store of any kind whose root is secluded (`AnyStore.Secluded`) and that has what it needs for a chunk kept
free (`AnyStore.Reserves`) is asked the same with them and without them: it answers alike and does the same to both
trees, in calls (`call_agrees`), in moves (`moveTo_agrees`) and when it takes its root (`start_agrees`).  Only
clearing is left out, which removes the strangers too.
-/

namespace ContentStore

open Action (Agrees)
open Attempt (Concurs)

namespace Action.Agrees

variable {F : Key → Prop} {α β : Type} {a : Action α} {b : Action β} {g : α → β} {w v : Workspace}

theorem map (h : Agrees F a w v) (hb : ∀ x, b x = (g (a x).1, (a x).2)) : Agrees F b w v :=
  ⟨by rw [hb, hb, h.answer], by rw [hb, hb]; exact h.step⟩

theorem of_map (h : Agrees F b w v) (hg : Function.Injective g) (hb : ∀ x, b x = (g (a x).1, (a x).2)) :
    Agrees F a w v := by
  have hanswer := h.answer
  have hstep := h.step
  rw [hb, hb] at hanswer hstep
  exact ⟨hg hanswer, hstep⟩

theorem of_eq {b : Action α} (hw : a w = b w) (hv : a v = b v) (h : Agrees F b w v) : Agrees F a w v :=
  ⟨by rw [hw, hv, h.answer], by rw [hw, hv]; exact h.step⟩

end Action.Agrees

variable [FileSystem]

/-! ### Calls -/

namespace FileStore

variable {F D : Key → Prop} {s : FileStore} {name : Bytes} {w v : Workspace}

theorem call_agrees {c : Call} (hc : c ≠ .clear)
    (h : ∀ name ∈ c.name?, ∀ l, s.layout? = some l → Blind F D s l name w.tree v.tree)
    (hpaths : ∀ q ∈ c.paths, q.Alike w.tree.kind? v.tree.kind? ∧ ¬ F q.key)
    (hshare : ∀ name ∈ c.stored?, (AnyStore.file s).CanShare w.tree name) (hw : Staging.Spacious w.tree.kind?)
    (hv : Staging.Spacious v.tree.kind?) : Agrees F (c.run s) w v := by
  cases c with
  | get name =>
    refine Agrees.bind (((get_concurs (h name rfl)).reported .get name).bind ?_) (.pure _)
    exact .pure _
  | getToFile name target =>
    obtain ⟨halike, hkey⟩ := hpaths target List.mem_cons_self
    refine Agrees.bind (((getToFile_concurs (h name rfl) halike hkey hw hv).reported .getToFile name).bind ?_)
      (.pure _)
    exact .pure _
  | store name content =>
    exact ((store_concurs (h name rfl) (hshare name rfl) hw hv).settled .store name s).bind (.pure _)
  | storeFile name source asked =>
    obtain ⟨halike, hkey⟩ := hpaths source List.mem_cons_self
    exact ((storeFile_concurs halike (h name rfl) hkey asked (hshare name rfl) hw hv).settled .storeFile name s).bind
      (.pure _)
  | delete name => exact ((delete_concurs (h name rfl)).settled .delete name s).bind (.pure _)
  | has name =>
    refine Agrees.bind (((find_concurs (h name rfl)).reported .has name).bind ?_) (.pure _)
    split <;> exact .pure _
  | validate name =>
    refine Agrees.bind (((validate_concurs (h name rfl)).reported .validate name).bind ?_) (.pure _)
    exact .pure _
  | chunkSize name =>
    refine Agrees.bind (((require_concurs (h name rfl)).reported .sizeOf name).bind ?_) (.pure _)
    split <;> exact .pure _
  | references name =>
    refine Agrees.bind (((find_concurs (h name rfl)).reported .refCount name).bind ?_) (.pure _)
    split <;> exact .pure _
  | size | count | capacity | isEmpty | setCapacity => exact .pure _
  | clear => exact absurd rfl hc

end FileStore

namespace MemoryStore

variable {F : Key → Prop} {m : MemoryStore} {name : Bytes} {w v : Workspace}

theorem storeFile_agrees {source : Path} (h : source.Alike w.tree.kind? v.tree.kind?) (hkey : ¬ F source.key)
    (asked : Bool) : Agrees F (Sink.storeFile m name source asked) w v := by
  rcases hrun : Sink.storeFile m name source asked w with ⟨⟨taken, m'⟩, x⟩
  rcases hrun' : Sink.storeFile m name source asked v with ⟨⟨taken', m''⟩, y⟩
  rcases sink_memory hrun with ⟨rfl, rfl, htree, hno⟩ | ⟨c, rfl, hstat, hstore, hkinds⟩ <;>
    rcases sink_memory hrun' with ⟨rfl, rfl, htree', hno'⟩ | ⟨c', rfl, hstat', hstore', hkinds'⟩
  · exact .idle (by rw [hrun, hrun']) (by rw [hrun, htree]) (by rw [hrun', htree'])
  · exact absurd hstore' (hno _ _ (h.symm.stat_file hstat'))
  · exact absurd hstore (hno' _ _ (h.stat_file hstat))
  · rw [h.stat_file hstat] at hstat'
    cases hstat'
    rw [hstore] at hstore'
    cases hstore'
    refine ⟨by rw [hrun, hrun'], ?_⟩
    rw [hrun, hrun', hkinds, hkinds']
    split
    · exact .update hkey (by rw [FileStore.kind?_of_stat hstat]; simp)
        (by rw [← h.key, FileStore.kind?_of_stat hstat]; simp) none
    · exact .refl _ _ _

theorem call_agrees {c : Call} (hpaths : ∀ q ∈ c.paths, q.Alike w.tree.kind? v.tree.kind? ∧ ¬ F q.key) :
    Agrees F (c.run m) w v := by
  cases c with
  | get name =>
    refine Agrees.bind (Agrees.bind (Concurs.reported (.except (m.get name)) .get name) ?_) (.pure _)
    exact .pure _
  | getToFile name target =>
    obtain ⟨halike, hkey⟩ := hpaths target List.mem_cons_self
    have hrun : Concurs F (m.getToFile name target) w v :=
      .except_bind fun _ _ => .file (Request.write_concurs halike hkey)
    refine Agrees.bind ((hrun.reported .getToFile name).bind ?_) (.pure _)
    exact .pure _
  | store name content => exact (Concurs.settled (.except (m.store name content)) .store name m).bind (.pure _)
  | storeFile name source asked =>
    obtain ⟨halike, hkey⟩ := hpaths source List.mem_cons_self
    exact (storeFile_agrees halike hkey asked).bind (.pure _)
  | _ => exact .pure _

end MemoryStore

omit [FileSystem] in
theorem FixedStore.call_agrees {F : Key → Prop} (f : FixedStore) (c : Call) (w v : Workspace) :
    Agrees F (c.run f) w v := by
  cases c <;> exact .pure _

namespace AnyStore

variable {F D : Key → Prop} {a b : AnyStore} {name content : Bytes} {t u : Tree} {w v : Workspace}

/-- What a store needs for a chunk is kept free. -/
def Reserves (F D : Key → Prop) (a : AnyStore) (name : Bytes) : Prop :=
  ∀ s l, a = .file s → s.layout? = some l → name ≠ [] → s.mode.Reserves F D l name

/-- The root of a store, if it has one, is a directory in which nothing differs that the store knows for a chunk; no
directory there holds two files of one chunk. -/
def Secluded (F : Key → Prop) (t : Tree) (a : AnyStore) : Prop :=
  ∀ m l, a.seat? = some (m, l) → t.leadsToDir l.root = true ∧
    (∀ k, F k → m.Foreign l.root.key k) ∧ m.Single l.root.key t.kind?

theorem Secluded.blind {s : FileStore} {l : Layout} (h : Secluded F t (.file s)) (hv : Veiled F D t.kind? u.kind?)
    (hr : Reserves F D (.file s) name) (hl : s.layout? = some l) : FileStore.Blind F D s l name t u where
  layout := hl
  lead := (h _ _ (seat_file hl)).1
  single := (h _ _ (seat_file hl)).2.2
  veiled := hv
  reserves := hr s l rfl hl

/-- **Any call** but for clearing is answered alike. -/
theorem call_agrees {c : Call} (hc : c ≠ .clear) (ha : Secluded F w.tree a) (hv : Veiled F D w.tree.kind? v.tree.kind?)
    (hr : ∀ name ∈ c.name?, a.Reserves F D name)
    (hpaths : ∀ q ∈ c.paths, q.Alike w.tree.kind? v.tree.kind? ∧ ¬ F q.key)
    (hshare : ∀ name ∈ c.stored?, a.CanShare w.tree name) (hroom : Staging.Spacious w.tree.kind?)
    (hroom' : Staging.Spacious v.tree.kind?) : Agrees F (c.run a) w v := by
  cases a with
  | file s =>
    exact (FileStore.call_agrees hc (fun name hname l hl => ha.blind hv (hr name hname) hl) hpaths hshare hroom
      hroom').map (g := fun y => (y.1, .file y.2)) (Call.run_file s c)
  | memory m => exact (MemoryStore.call_agrees hpaths).map (g := fun y => (y.1, .memory y.2)) (Call.run_memory m c)
  | fixed f => exact (FixedStore.call_agrees f c w v).map (g := fun y => (y.1, .fixed y.2)) (Call.run_fixed f c)

omit [FileSystem] in
theorem changing_injective {σ : Type} :
    Function.Injective fun y : Bool × σ => (Answer.truth y.1, y.2) := by
  rintro ⟨b, s⟩ ⟨b', s'⟩ h
  cases h
  rfl

section

variable (ha : Secluded F w.tree a) (hv : Veiled F D w.tree.kind? v.tree.kind?) (hr : a.Reserves F D name)
  (hshare : a.CanShare w.tree name) (hroom : Staging.Spacious w.tree.kind?)
  (hroom' : Staging.Spacious v.tree.kind?)
include ha hv hr hshare hroom hroom'

theorem sink_store_agrees (content : Bytes) : Agrees F (Sink.store a name content) w v := by
  have hcall : Agrees F ((Call.store name content).run a) w v :=
    call_agrees (by simp) ha hv (fun n hn => Option.some.inj hn ▸ hr) (by simp [Call.paths])
      (fun n hn => Option.some.inj hn ▸ hshare) hroom hroom'
  exact hcall.of_map changing_injective fun _ => rfl

theorem sink_storeFile_agrees {source : Path} (h : source.Alike w.tree.kind? v.tree.kind?) (hkey : ¬ F source.key)
    (asked : Bool) : Agrees F (Sink.storeFile a name source asked) w v := by
  have hcall : Agrees F ((Call.storeFile name source asked).run a) w v :=
    call_agrees (by simp) ha hv (fun n hn => Option.some.inj hn ▸ hr)
      (fun q hq => List.mem_singleton.mp hq ▸ ⟨h, hkey⟩) (fun n hn => Option.some.inj hn ▸ hshare) hroom hroom'
  exact hcall.of_map changing_injective fun _ => rfl

end

end AnyStore

/-! ### Moves -/

namespace FileStore

variable {F D : Key → Prop} {s : FileStore} {name : Bytes} {b : AnyStore} {w v : Workspace}

omit [FileSystem] in
theorem require_of_find {l : Layout} {e : Entry} (hl : s.layout? = some l) (hname : name ≠ [])
    (hfind : s.mode.find (l.place name) w.tree = .ok (some e)) :
    (s.require name).run w = (.ok (l.place name, e), w) := by
  have hrun := require_run hl name w
  rcases hr : (s.require name).run w with ⟨r, x⟩
  rw [hr] at hrun
  cases hrun with
  | emptyName hno => exact absurd hno hname
  | unreadable _ f hno | absent _ hno =>
    rw [hfind] at hno
    cases hno
  | present _ e' hfind' =>
    rw [hfind] at hfind'
    cases hfind'
    rfl

theorem handOver_agrees {l : Layout} {e : Entry} (h : Blind F D s l name w.tree v.tree) (hname : name ≠ [])
    (hsink : Agrees F (Sink.storeFile b name e.path (e.count ≤ 1)) w v)
    (hsingle : s.mode.Single l.root.key (Sink.storeFile b name e.path (e.count ≤ 1) w).2.tree.kind?) :
    Agrees F (s.handOver name (l.place name) e b) w v := by
  refine .bind hsink ?_
  split
  split
  · have hletGo := letGo_concurs (h.step hsink.step hsingle) hname e
    refine .bind (hletGo.reported .moveTo name) ?_
    split <;> exact .pure _
  · exact .bind (.report _) (.pure _)

/-- **A move out of a file store.** -/
theorem moveTo_agrees (h : ∀ l, s.layout? = some l → Blind F D s l name w.tree v.tree)
    (hsink : ∀ (p : Path) (asked : Bool), p.Alike w.tree.kind? v.tree.kind? → ¬ F p.key →
      Agrees F (Sink.storeFile b name p asked) w v)
    (hsingle : ∀ l, s.layout? = some l → ∀ (p : Path) (asked : Bool),
      s.mode.Single l.root.key (Sink.storeFile b name p asked w).2.tree.kind?) :
    Agrees F (ChunkStore.moveTo s name b) w v := by
  have hrequire := require_concurs h
  rw [moveTo_eq]
  rcases hl : s.layout? with _ | l
  · refine .bind (hrequire.reported .moveTo name) ?_
    rw [Attempt.reported_answer, require_uninitialized hl]
    exact .pure _
  have h := h l hl
  have hrun := require_run hl name w
  rcases hr : (s.require name).run w with ⟨err | ⟨place, e⟩, x⟩
  · refine .bind (hrequire.reported .moveTo name) ?_
    rw [Attempt.reported_answer, hr]
    exact .pure _
  rw [hr] at hrun
  cases hrun with
  | present hname e hfind =>
    obtain ⟨file, old, found⟩ := h.found hname hfind
    refine .of_eq (b := s.handOver name (l.place name) e b) ?_ ?_ (handOver_agrees h hname
      (hsink e.path _ ((h.reserves hname).entry_alike h.veiled hname found) ((h.reserves hname).entry_key hname found))
      (hsingle l hl e.path _))
    · rw [Action.bind_apply, Attempt.reported_of_ok (require_of_find hl hname hfind)]
    · rw [Action.bind_apply, Attempt.reported_of_ok (require_of_find hl hname (h.find_eq hname ▸ hfind))]

end FileStore

namespace MemoryStore

variable {F : Key → Prop} {m : MemoryStore} {name : Bytes} {b : AnyStore} {w v : Workspace}

/-- **A move out of a memory store.** -/
theorem moveTo_agrees (hsink : ∀ content, Agrees F (Sink.store b name content) w v) :
    Agrees F (ChunkStore.moveTo m name b) w v := by
  rcases hget : m.get name with e | content
  · have heq : ChunkStore.moveTo m name b = (do
        Action.report (.ofError .moveTo name e)
        return (false, m, b)) := by
      funext w
      simp only [ChunkStore.moveTo, MemoryStore.moveTo, Action.bind_apply, hget]
      rfl
    rw [heq]
    exact .bind (.report _) (.pure _)
  · have heq : ChunkStore.moveTo m name b = (do
        let offer ← Sink.store b name content
        if offer.1 then return (true, m.delete name, offer.2)
        else
          Action.report (.ofError .moveTo name (.refused name))
          return (false, m, offer.2)) := by
      funext w
      simp only [ChunkStore.moveTo, MemoryStore.moveTo, Action.bind_apply, hget]
      rcases Sink.store b name content w with ⟨⟨_ | _, b'⟩, x⟩ <;> rfl
    rw [heq]
    refine .bind (hsink _) ?_
    split
    · exact .pure _
    · exact .bind (.report _) (.pure _)

end MemoryStore

namespace AnyStore

variable {F D : Key → Prop} {R : Mode → Key → Prop} {a b : AnyStore} {name : Bytes} {w v : Workspace}

/-- **Any move** is answered alike. -/
theorem moveTo_agrees (ha : Secluded F w.tree a) (hb : Secluded F w.tree b) (hra : a.Reserves F D name)
    (hrb : b.Reserves F D name) (hamong : Among R w.tree b) (hsingles : Singles R w.tree.kind?)
    (hR : ∀ m l, a.seat? = some (m, l) → R m l.root.key) (hv : Veiled F D w.tree.kind? v.tree.kind?)
    (hshare : b.CanShare w.tree name) (hroom : Staging.Spacious w.tree.kind?)
    (hroom' : Staging.Spacious v.tree.kind?) : Agrees F (ChunkStore.moveTo a name b) w v := by
  cases a with
  | file s =>
    have hmove : Agrees F (ChunkStore.moveTo s name b) w v := by
      refine FileStore.moveTo_agrees (fun l hl => ha.blind hv hra hl) (fun p asked hp hkey =>
        sink_storeFile_agrees hb hv hrb hshare hroom hroom' hp hkey asked) fun l hl p asked => ?_
      exact (sink_storeFile_orderly hamong hshare rfl).singles hsingles _ _ (hR _ _ (seat_file hl))
    exact hmove.map (g := fun y => (y.1, .file y.2.1, y.2.2)) (moveTo_file s name b)
  | memory m =>
    exact (MemoryStore.moveTo_agrees fun content => sink_store_agrees hb hv hrb hshare hroom hroom' content).map
      (g := fun y => (y.1, .memory y.2.1, y.2.2)) (moveTo_memory m name b)
  | fixed f => exact .pure _

theorem moveToSelf_agrees (ha : Secluded F w.tree a) (hr : a.Reserves F D name)
    (hv : Veiled F D w.tree.kind? v.tree.kind?) : Agrees F (ChunkStore.moveToSelf a name) w v := by
  cases a with
  | file s =>
    have hrequire := FileStore.require_concurs fun l hl => ha.blind hv hr hl
    have hmove : Concurs F (s.moveToSelf name) w v := hrequire.bind fun _ _ _ => .pure ()
    show Agrees F (do return (← (s.moveToSelf name).reported .moveTo name).isSome) w v
    exact (hmove.reported .moveTo name).bind (.pure _)
  | memory m =>
    show Agrees F (do return (← Attempt.outcome .moveTo name (m.moveToSelf name)).isSome) w v
    have hmove : Concurs F (liftM (m.moveToSelf name) : Attempt Unit) w v := .except _
    exact (hmove.reported .moveTo name).bind (.pure _)
  | fixed f => exact .pure _

theorem chunkPath_agrees (ha : Secluded F w.tree a) (hr : a.Reserves F D name)
    (hv : Veiled F D w.tree.kind? v.tree.kind?) (create : Bool) (hroom : Staging.Spacious w.tree.kind?)
    (hroom' : Staging.Spacious v.tree.kind?) : Agrees F (chunkPath name create a) w v := by
  cases a with
  | file s =>
    exact .bind ((FileStore.locate_concurs (fun l hl => ha.blind hv hr hl) create hroom hroom').reported
      .chunkPath name) (.pure _)
  | memory m => exact .pure _
  | fixed f => exact .pure _

/-- **Taking a root.** -/
theorem start_agrees {root : Path} (hv : Veiled F D w.tree.kind? v.tree.kind?)
    (hroot : root.Clear F D w.tree.kind?)
    (hforeign : ∀ f, a = .file f → ∀ k, F k → f.mode.Foreign root.key k) (depth : Nat) :
    Agrees F (start root depth a) w v := by
  cases a with
  | file f =>
    exact (FileStore.start_agrees hv hroot (hforeign f rfl) depth).map (g := fun y => (y.1, .file y.2))
      (start_file f root depth)
  | memory m => exact .pure _
  | fixed f => exact .pure _

end AnyStore

end ContentStore
