import ContentStore.Proofs.SharedRoot

/-!
# Chunks stay single

Stores may work in one tree below roots of which one may lie in another.  As long as none of them finds two files
of one chunk below its root (`Singles`), none ever does, for a file of a chunk comes only where the chunk has no
other one.

* `Took.singles`, `Dropped.singles`: one reference more or less;
* `call_orderly`: any call;
* `sink_storeFile_orderly`, `moveTo_orderly`: any chunk that is handed over, also one whose file the sink takes.
-/

namespace ContentStore

open Function (update)

/-- No directory below one that is given for a mode holds two files of one chunk. -/
def Singles (R : Mode → Key → Prop) (kinds : Key → Option Kind) : Prop := ∀ m d, R m d → m.Single d kinds

/-- What stands at a key is no chunk for a store with a mode and a root. -/
def Mode.Foreign (m : Mode) (d k : Key) : Prop := d <:+ k → ∀ n ∈ k.head?, m.classify n = none

theorem Mode.Foreign.ne {m : Mode} {d j k : Key} {stem file : Bytes} {count : Nat} (h : m.Foreign d k)
    (hj : d <:+ j) (hs : isStem stem = true) (hfile : m.IsFile stem count file) : file :: j ≠ k := by
  rintro rfl
  have hnone := h (hj.trans (List.suffix_cons _ _)) file rfl
  rw [Mode.classify_eq_some_iff.mpr ⟨stem, hs, hfile⟩] at hnone
  cases hnone

namespace Singles

variable {R : Mode → Key → Prop} {t u : Key → Option Kind} {k : Key} {outside : List Path}

theorem fewer (h : Singles R t) (hsub : ∀ k c, u k = some (.file c) → t k = some (.file c)) : Singles R u :=
  fun m d hmd => (h m d hmd).mono fun k c _ => hsub k c

theorem remove (h : Singles R t) (k : Key) : Singles R (update t k none) := fun m d hmd => (h m d hmd).remove k

theorem grown {p : Path} {t u : Tree} (h : Singles R t.kind?) (hu : Grown p t u) : Singles R u.kind? :=
  h.fewer fun k c => (hu.file_iff k c).mp

theorem pruned {d : Key} {t u : Tree} (h : Singles R t.kind?) (hu : Pruned d t u) : Singles R u.kind? := by
  refine h.fewer fun k c hk => ?_
  rcases hu k with same | ⟨hnone, -⟩
  · rw [← same, hk]
  · rw [hnone] at hk
    cases hk

theorem foreign (h : Singles R t) (hk : ∀ m d, R m d → m.Foreign d k) (x : Option Kind) :
    Singles R (update t k x) := by
  intro m d hmd j stem f g i n a b hj hs hf hg hfa hgb
  rw [Function.update_of_ne ((hk m d hmd).ne hj hs hf)] at hfa
  rw [Function.update_of_ne ((hk m d hmd).ne hj hs hg)] at hgb
  exact h m d hmd j stem f g i n a b hj hs hf hg hfa hgb

theorem aside (h : Singles R t) (haside : AnyStore.Aside outside t u)
    (hout : ∀ q ∈ outside, ∀ m d, R m d → m.Foreign d q.key) : Singles R u := by
  cases haside with
  | same => exact h
  | changed q hq _ x => exact h.foreign (hout q hq) x

end Singles

section

variable [FileSystem]

/-! ### File stores -/

namespace FileStore

variable {R : Mode → Key → Prop} {s s' : FileStore} {l : Layout} {name content : Bytes} {t u : Tree}
  {kinds : Key → Option Kind} {outside : List Path} {named stored : Option Bytes}

section

variable (h : Singles R t.kind?) (hR : R s.mode l.root.key)
include h hR

/-- **Taking a chunk in.** -/
theorem Took.singles (hl : s.layout? = some l) (hlead : t.leadsToDir l.root = true) (hname : name ≠ [])
    (hshare : (AnyStore.file s).CanShare t name) (htook : Took s l name content t s' kinds) : Singles R kinds := by
  have hs := l.isStem_place hname
  have hown := h _ _ hR
  cases htook with
  | kept => exact h
  | recounted e file old hmode hfind found hold admits =>
    have hcarries : s.mode.Carries (e.count + 1) := by
      rw [hmode]
      exact ⟨Nat.succ_pos _, countable_of_canShare hl (Layout.root_ne_blank hlead) hname hshare e hmode hfind⟩
    exact fun m d hmd => ((h m d hmd).remove _).put_any hs (Mode.isFile_fileName _ hcarries)
      (lacks_of_remove hname hown found.isFile found.kind) old
  | added hfind hroom w v htree hdirs grown admits =>
    refine fun m d hmd => (h.grown grown m d hmd).put_any hs (Mode.isFile_fileName _ s.mode.carries_one)
      (fun other i c hother hk => ?_) content
    exact Layout.lacks_of_find hlead hname hfind other i c hother ((grown.file_iff _ _).mp hk)

omit [FileSystem] in
/-- **Dropping a reference.** -/
theorem Dropped.singles (hname : name ≠ []) (hdropped : Dropped s l name t s' kinds) : Singles R kinds := by
  cases hdropped with
  | absent => exact h
  | recounted e file old hmode hgt hfind found =>
    exact fun m d hmd => ((h m d hmd).remove _).put_any (l.isStem_place hname)
      (Mode.isFile_fileName _ (found.isFile.carries_fewer hmode hgt))
      (lacks_of_remove hname (h _ _ hR) found.isFile found.kind) old
  | removed => exact h.remove _

/-- Any work of a store, if what it does elsewhere is no chunk for another one. -/
theorem Imprint.singles (himprint : Imprint s l outside named stored t s' u) (hl : s.layout? = some l)
    (hlead : t.leadsToDir l.root = true) (hout : ∀ q ∈ outside, ∀ m d, R m d → m.Foreign d q.key)
    (hshare : ∀ name ∈ stored, (AnyStore.file s).CanShare t name) : Singles R u.kind? := by
  cases himprint with
  | aside _ _ _ haside => exact h.aside haside hout
  | grown _ hu => exact h.grown hu
  | took hname _ hstored htook haside =>
    exact (htook.singles h hR hl hlead hname (hshare _ hstored)).aside haside hout
  | dropped hname _ hdropped => exact hdropped.singles h hR hname
  | pruned _ hu => exact h.pruned hu

end

theorem Imprint.dir (himprint : Imprint s l outside named stored t s' u) (hnamed : named ≠ none) {k : Key}
    (hk : t.kind? k = some .dir) : u.kind? k = some .dir := by
  cases himprint with
  | aside _ _ _ haside => exact haside.dir hk
  | grown _ hu => exact hu.dir hk
  | took hname _ _ htook haside => exact haside.dir ((htook.frame hname).dir k hk)
  | dropped hname _ hdropped => exact (hdropped.frame hname).dir k hk
  | pruned hnone => exact absurd hnone hnamed

theorem Imprint.mode (h : Imprint s l outside named stored t s' u) : s'.mode = s.mode := by
  cases h with
  | aside _ hmode => exact hmode
  | grown | pruned => rfl
  | took _ _ _ htook => exact htook.same.2
  | dropped _ _ hdropped => exact hdropped.same.2

end FileStore

end

/-! ### Stores of any kind -/

namespace AnyStore

variable {R : Mode → Key → Prop} {a a' b b' : AnyStore} {name content : Bytes} {t u v : Tree} {taken : Bool}
  {w x : Workspace} {outside : List Path} {offer : Bytes → Prop}
  {rest : (Key → Option Kind) → Key → Option Kind}

/-- Where a store keeps chunks in files, and how they are named. -/
def seat? : AnyStore → Option (Mode × Layout)
  | .file s => s.layout?.map fun l => (s.mode, l)
  | .memory _ => none
  | .fixed _ => none

theorem seat_file {s : FileStore} {l : Layout} (hl : s.layout? = some l) :
    (AnyStore.file s).seat? = some (s.mode, l) := by
  rw [seat?, hl]
  rfl

theorem seat_congr {s s' : FileStore} (hlayout : s'.layout? = s.layout?) (hmode : s'.mode = s.mode) :
    (AnyStore.file s').seat? = (AnyStore.file s).seat? := by
  rw [seat?, seat?, hlayout, hmode]

theorem file_of_seat {m : Mode} {l : Layout} (h : a.seat? = some (m, l)) :
    ∃ s : FileStore, a = .file s ∧ s.mode = m ∧ s.layout? = some l := by
  cases a with
  | file s =>
    obtain ⟨l', hl', heq⟩ := Option.map_eq_some_iff.mp h
    cases heq
    exact ⟨s, rfl, rfl, hl'⟩
  | memory | fixed => cases h

/-- The roots of stores are given for their modes and lead to directories. -/
def Among (R : Mode → Key → Prop) (t : Tree) (a : AnyStore) : Prop :=
  ∀ m l, a.seat? = some (m, l) → R m l.root.key ∧ t.leadsToDir l.root = true

theorem Among.file {s : FileStore} {l : Layout} (h : Among R t (.file s)) (hl : s.layout? = some l) :
    R s.mode l.root.key ∧ t.leadsToDir l.root = true :=
  h _ _ (seat_file hl)

theorem Among.rooted (h : Among R t a) : a.Rooted := by
  intro p hp
  cases a with
  | file s =>
    obtain ⟨l, hl, rfl⟩ := Option.map_eq_some_iff.mp hp
    exact Layout.root_ne_blank (h.file hl).2
  | memory | fixed => cases hp

/-- A store has worked: it has its mode, its root and its levels as before, no directory has gone, and chunks that
were single are single. -/
structure Orderly (R : Mode → Key → Prop) (a : AnyStore) (t : Tree) (a' : AnyStore) (u : Tree) : Prop where
  seat : a'.seat? = a.seat?
  dir : ∀ k, t.kind? k = some .dir → u.kind? k = some .dir
  singles : Singles R t.kind? → Singles R u.kind?

namespace Orderly

theorem idle (hseat : a'.seat? = a.seat?) (hu : u = t) : Orderly R a t a' u :=
  ⟨hseat, fun _ h => hu ▸ h, fun h => hu ▸ h⟩

theorem of_imprint [FileSystem] {s s' : FileStore} {l : Layout} {named stored : Option Bytes} (ha : Among R t (.file s))
    (hl : s.layout? = some l) (h : s.Imprint l outside named stored t s' u) (hnamed : named ≠ none)
    (hout : ∀ q ∈ outside, ∀ m d, R m d → m.Foreign d q.key)
    (hshare : ∀ name ∈ stored, (AnyStore.file s).CanShare t name) : Orderly R (.file s) t (.file s') u where
  seat := seat_congr h.layout h.mode
  dir _ := h.dir hnamed
  singles hsingles := h.singles hsingles (ha.file hl).1 hl (ha.file hl).2 hout hshare

end Orderly

/-- A chunk that is offered is taken in or refused. -/
theorem Offered.orderly [FileSystem] (h : a.Offered name outside offer rest t taken a' u) (ha : Among R t a)
    (hshare : a.CanShare t name) (hrest : ∀ kinds, Singles R kinds → Singles R (rest kinds)) :
    Orderly R a t a' u where
  seat := by
    cases h with
    | idle | grown | fixed => rfl
    | withheld ha => rw [ha]; rfl
    | took _ _ htook =>
      cases htook with
      | file _ htook => exact seat_congr htook.same.1 htook.same.2
      | memory => rfl
  dir _ := h.dir
  singles hsingles := by
    cases h with
    | idle hu | fixed _ hu => exact hu ▸ hsingles
    | grown _ _ hu => exact hsingles.grown hu
    | withheld _ _ _ _ _ hu => exact hu ▸ hsingles
    | took hname _ htook hu =>
      rw [hu]
      refine hrest _ ?_
      cases htook with
      | file hl htook => exact htook.singles hsingles (ha.file hl).1 hl (ha.file hl).2 hname hshare
      | memory => exact hsingles

/-- **A file** that a store is given, be it one of its own. -/
theorem sink_storeFile_orderly [FileSystem] {source : Path} {asked : Bool} (ha : Among R w.tree a)
    (hshare : a.CanShare w.tree name) (hrun : Sink.storeFile a name source asked w = ((taken, a'), x)) :
    Orderly R a w.tree a' x.tree := by
  cases a with
  | file s =>
    obtain ⟨s', rfl, hsink⟩ := sink_file_inv hrun
    rcases hl : s.layout? with _ | l
    · obtain ⟨-, rfl, htree⟩ := FileStore.sink_uninitialized hl hsink
      exact .idle rfl htree
    · obtain ⟨hR, hlead⟩ := ha.file hl
      rcases FileStore.sink_file hl (Layout.root_ne_blank hlead) hsink with ⟨-, rfl, hgrown⟩ | ⟨-, hr⟩
      · exact ⟨rfl, fun _ => hgrown.dir, fun h => h.grown hgrown⟩
      · obtain ⟨hname, c, kinds, -, htook, hthinned, hdir⟩ :=
          FileStore.storeFile_fewer hl (Layout.root_ne_blank hlead) hr
        refine ⟨seat_congr htook.same.1 htook.same.2, hdir,
          fun h => (htook.singles h hR hl hlead hname hshare).fewer fun k c hk => ?_⟩
        rcases hthinned k with e | e
        · exact e ▸ hk
        · rw [e] at hk
          cases hk
  | memory m =>
    obtain ⟨m', rfl, hsink⟩ := sink_memory_inv hrun
    rcases MemoryStore.sink_memory hsink with ⟨-, rfl, htree, -⟩ | ⟨c, -, hstat, -, hkinds⟩
    · exact .idle rfl htree
    · have haside : Aside [source] w.tree.kind? x.tree.kind? := by
        rw [hkinds]
        exact aside_offered (FileStore.kind?_of_stat hstat)
      refine ⟨rfl, fun _ => haside.dir, fun h => ?_⟩
      rw [hkinds]
      split
      · exact h.remove _
      · exact h
  | fixed f =>
    cases hrun
    exact .idle rfl rfl

/-- **Any call**, if it writes no chunk to a file that another store knows for one. -/
theorem call_orderly [FileSystem] (ha : Among R w.tree a) {c : Call} (hc : c ≠ .clear)
    (htarget : ∀ q ∈ c.target?, ∀ m d, R m d → m.Foreign d q.key)
    (hshare : ∀ name ∈ c.stored?, a.CanShare w.tree name) :
    Orderly R a w.tree (c.run a w).1.2 (c.run a w).2.tree := by
  by_cases hfile : ∃ name source asked, c = .storeFile name source asked
  · obtain ⟨name, source, asked, rfl⟩ := hfile
    exact sink_storeFile_orderly ha (hshare name rfl) rfl
  have hnosource : c.source? = none := by
    cases c with
    | storeFile name source asked => exact absurd ⟨_, _, _, rfl⟩ hfile
    | _ => rfl
  have hout : ∀ q ∈ c.paths, ∀ m d, R m d → m.Foreign d q.key := by
    intro q hq
    refine htarget q ?_
    cases c with
    | getToFile name target => exact congrArg some (List.mem_singleton.mp hq).symm
    | storeFile => cases hnosource
    | _ => cases hq
  cases a with
  | file s =>
    rw [Call.run_file]
    rcases hl : s.layout? with _ | l
    · obtain ⟨hlayout, htree⟩ := FileStore.call_uninitialized hl c w
      refine .idle ?_ htree
      rw [seat?, seat?, hlayout, hl]
      rfl
    by_cases hnamed : c.name? = none
    · obtain ⟨⟨hlayout, hmode⟩, htree⟩ := FileStore.call_unnamed hnamed hc w
      exact .idle (seat_congr hlayout hmode) htree
    · refine .of_imprint ha hl (FileStore.call_imprint hl (Layout.root_ne_blank (ha.file hl).2) c
        (fun h => absurd h hc) fun q hq => ?_) hnamed hout hshare
      rw [hnosource] at hq
      cases hq
  | memory m =>
    rw [Call.run_memory]
    exact ⟨rfl, fun _ => (m.call_aside c w).dir, fun h => h.aside (m.call_aside c w) hout⟩
  | fixed f =>
    rw [Call.run_fixed]
    obtain ⟨hsame, htree⟩ := f.call_idle c w
    exact .idle (by rw [hsame]) (congrArg Workspace.tree htree)

theorem chunkPath_orderly [FileSystem] (ha : Among R w.tree a) (name : Bytes) (create : Bool) :
    Orderly R a w.tree (chunkPath name create a w).1.2 (chunkPath name create a w).2.tree := by
  cases a with
  | file s =>
    rcases hl : s.layout? with _ | l
    · exact .idle rfl (FileStore.chunkPath_uninitialized hl name create w)
    · exact .of_imprint ha hl (FileStore.chunkPath_imprint hl name create w) (by simp) (by simp)
        fun _ h => by cases h
  | memory m => exact .idle rfl rfl
  | fixed f => exact .idle rfl rfl

theorem Orderly.trans {a'' : AnyStore} (h : Orderly R a t a' u) (h' : Orderly R a' u a'' v) : Orderly R a t a'' v :=
  ⟨h'.seat.trans h.seat, fun k hk => h'.dir k (h.dir k hk), h'.singles ∘ h.singles⟩

theorem Among.dir (h : Among R t a) (hdir : ∀ k, t.kind? k = some .dir → u.kind? k = some .dir) : Among R u a :=
  fun m p hp => ⟨(h m p hp).1, Tree.leadsToDir_mono (h m p hp).2 hdir⟩

/-- **Letting go** of a chunk. -/
theorem letGo_orderly [FileSystem] {s s' : FileStore} {l : Layout} {e : Entry} (ha : Among R w.tree (.file s))
    (hl : s.layout? = some l) (hname : name ≠ []) (hrun : (s.letGo name (l.place name) e).run w = (.ok s', x)) :
    Orderly R (.file s) w.tree (.file s') x.tree := by
  rcases FileStore.letGo_cases hname (Layout.root_ne_blank (ha.file hl).2) hrun with
    ⟨err, hr, -⟩ | ⟨-, hr, htree⟩ | ⟨-, hr, htree⟩ | ⟨after, hr, hdropped⟩ <;> cases hr
  · exact .idle rfl htree
  · exact .idle rfl htree
  · exact ⟨seat_congr hdropped.same.1 hdropped.same.2, (hdropped.frame hname).dir, fun h =>
      hdropped.singles h (ha.file hl).1 hname⟩

/-- **A move out of a file store.** -/
theorem moveTo_file_orderly [FileSystem] {s : FileStore} (ha : Among R w.tree (.file s)) (hb : Among R w.tree b)
    (hshare : b.CanShare w.tree name) :
    Orderly R (.file s) w.tree (.file (ChunkStore.moveTo s name b w).1.2.1) (ChunkStore.moveTo s name b w).2.tree ∧
      Orderly R b w.tree (ChunkStore.moveTo s name b w).1.2.2 (ChunkStore.moveTo s name b w).2.tree := by
  rw [FileStore.moveTo_apply]
  rcases hl : s.layout? with _ | l
  · rw [FileStore.moveTo_uninitialized hl]
    exact ⟨.idle rfl rfl, .idle rfl rfl⟩
  have hmove := FileStore.moveTo_run hl name b w
  rcases hm : s.moveTo name b w with ⟨⟨r, b'⟩, x⟩
  rw [hm] at hmove
  cases hmove with
  | missing err => exact ⟨.idle rfl rfl, .idle rfl rfl⟩
  | refused hname e hfind b' x hsink =>
    have hsinks := sink_storeFile_orderly hb hshare hsink
    exact ⟨⟨rfl, hsinks.dir, hsinks.singles⟩, hsinks⟩
  | taken hname e hfind b' v hsink r x hletGo =>
    have hsinks := sink_storeFile_orderly hb hshare hsink
    have hsource : Orderly R (.file s) w.tree (.file s) v.tree := ⟨rfl, hsinks.dir, hsinks.singles⟩
    rcases r with err | after
    · obtain rfl := FileStore.letGo_error hname (Layout.root_ne_blank (ha.file hl).2) hletGo
      exact ⟨hsource, hsinks⟩
    · have hlast := letGo_orderly (ha.dir hsinks.dir) hl hname hletGo
      exact ⟨hsource.trans hlast, hsinks.seat, fun k hk => hlast.dir k (hsinks.dir k hk),
        hlast.singles ∘ hsinks.singles⟩

/-- **A move.** -/
theorem moveTo_orderly [FileSystem] (ha : Among R w.tree a) (hb : Among R w.tree b) (hshare : b.CanShare w.tree name) :
    Orderly R a w.tree (ChunkStore.moveTo a name b w).1.2.1 (ChunkStore.moveTo a name b w).2.tree ∧
      Orderly R b w.tree (ChunkStore.moveTo a name b w).1.2.2 (ChunkStore.moveTo a name b w).2.tree := by
  cases a with
  | file s =>
    rw [moveTo_file]
    exact moveTo_file_orderly ha hb hshare
  | memory m =>
    rw [moveTo_memory]
    rcases hrun : ChunkStore.moveTo m name b w with ⟨⟨taken, m', b'⟩, x⟩
    have hhanded := MemoryStore.moveTo_handed hb.rooted hrun
    dsimp only
    generalize x.tree = u at hhanded ⊢
    cases hhanded with
    | missing hu => exact ⟨.idle rfl hu, .idle rfl hu⟩
    | refused chunk hfind hoffered | deleted chunk hfind hoffered =>
      have hsinks := hoffered.orderly hb hshare fun _ => id
      exact ⟨⟨rfl, hsinks.dir, hsinks.singles⟩, hsinks⟩
  | fixed f =>
    rw [moveTo_fixed]
    exact ⟨.idle rfl rfl, .idle rfl rfl⟩

end AnyStore

end ContentStore
