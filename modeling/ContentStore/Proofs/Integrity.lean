import ContentStore.Proofs.Answers
import ContentStore.Proofs.Belongs
import ContentStore.Proofs.Mirror
import ContentStore.Proofs.Seats

/-!
# Contents have their names for digests

A store files a content under the name that it is given and asks nothing.  If every content that is
given has its name for a digest, so has every content that is filed later, wherever it has been moved:

* `Filed`: what is filed below some roots has its name for a digest; taking a chunk in
  (`FileStore.Took.truthful`) and dropping one (`FileStore.Dropped.truthful`) keep it so;
* `Session.Signed.truthful`: so does every deed, hence every session;
* `contents_match_names`: what is read back has its name for a digest, and validating says so.
-/

namespace ContentStore

open Function (update)

/-! ### Trees -/

/-- The files of chunks below the roots hold contents that have their names for digests. -/
def Filed (digest : Bytes → Bytes) (R : Key → Prop) (kinds : Key → Option Kind) : Prop :=
  ∀ d name k c, R d → Belongs d name k → kinds k = some (.file c) → digest c = name

/-- A tree of proper names whose files of chunks hold what their names say. -/
structure Truthful (digest : Bytes → Bytes) (R : Key → Prop) (kinds : Key → Option Kind) : Prop where
  proper : Proper kinds
  filed : Filed digest R kinds

section Trees

variable {digest : Bytes → Bytes} {R : Key → Prop} {t u : Key → Option Kind} {d k : Key} {name c : Bytes}

namespace Filed

theorem fewer (h : Filed digest R t) (hsub : ∀ k c, u k = some (.file c) → t k = some (.file c)) :
    Filed digest R u :=
  fun d name k c hd hk hfile => h d name k c hd hk (hsub k c hfile)

theorem remove (h : Filed digest R t) (k : Key) : Filed digest R (update t k none) := by
  refine h.fewer fun j c hj => ?_
  rw [Function.update_apply] at hj
  split at hj
  · cases hj
  · exact hj

theorem put (h : Filed digest R t) (hR : Scattered R) (hd : R d) (hk : Belongs d name k)
    (hc : digest c = name) : Filed digest R (update t k (some (.file c))) := by
  intro e other j x he hj hfile
  rw [Function.update_apply] at hfile
  split at hfile
  · next hjk =>
    cases hfile
    rw [hc]
    exact hR.name_eq hd he hk (hjk ▸ hj)
  · exact h e other j x he hj hfile

end Filed

namespace Truthful

theorem thinned (h : Truthful digest R t) (hu : ∀ k, u k = t k ∨ u k = none) : Truthful digest R u where
  proper n d hne := by
    rcases hu (n :: d) with e | e
    · exact h.proper n d (e ▸ hne)
    · exact absurd e hne
  filed := h.filed.fewer fun k c hk => by
    rcases hu k with e | e
    · exact e ▸ hk
    · rw [e] at hk
      cases hk

theorem grown {p : Path} {t u : Tree} (h : Truthful digest R t.kind?) (hu : Grown p t u) :
    Truthful digest R u.kind? where
  proper := hu.proper h.proper
  filed := h.filed.fewer fun k c => (hu.file_iff k c).mp

theorem aside {outside : List Path} (h : Truthful digest R t) (hu : AnyStore.Aside outside t u)
    (hout : ∀ q ∈ outside, ∀ d, R d → ¬ d <:+ q.key) : Truthful digest R u where
  proper := hu.proper h.proper
  filed := by
    cases hu with
    | same => exact h.filed
    | changed q hq =>
      intro d name k c hd hk hfile
      have hne : k ≠ q.key := by
        rintro rfl
        exact hout q hq d hd hk.suffix
      rw [Function.update_of_ne hne] at hfile
      exact h.filed d name k c hd hk hfile

end Truthful

end Trees

/-! ### What a file store does -/

namespace FileStore

variable {digest : Bytes → Bytes} {R : Key → Prop} {s s' : FileStore} {l : Layout} {name content : Bytes}
  {t : Tree} {kinds : Key → Option Kind} {e : Entry} {file old : Bytes}

section

variable (h : Truthful digest R t.kind?) (hd : R l.root.key) (hname : name ≠ [])
include h hd hname

theorem digest_of_found (found : s.mode.Found (l.place name) t e file old) : digest old = name :=
  h.filed _ name _ old hd (found.belongs hname) found.kind

theorem filed_recount (hR : Scattered R) (found : s.mode.Found (l.place name) t e file old) (n : Nat) :
    Filed digest R (update (update t.kind? (file :: (l.place name).dir.key) none)
      (s.mode.fileName (l.place name).stem n :: (l.place name).dir.key) (some (.file old))) :=
  (h.filed.remove _).put hR hd (l.belongs hname (s.mode.names_fileName _ n))
    (digest_of_found h hd hname found)

/-- **A chunk is taken in.** -/
theorem Took.truthful [FileSystem] (hR : Scattered R) (hcontent : digest content = name)
    (htook : Took s l name content t s' kinds) : Truthful digest R kinds := by
  refine ⟨(htook.frame hname).proper h.proper, ?_⟩
  cases htook with
  | kept => exact h.filed
  | recounted e file old _ _ found => exact filed_recount h hd hname hR found (e.count + 1)
  | added hfind hroom w v htree hdirs hgrown =>
    have hbelongs := l.belongs hname (s.mode.names_fileName (l.place name).stem 1)
    exact (h.filed.fewer fun k c => (hgrown.file_iff k c).mp).put hR hd hbelongs hcontent

/-- **A reference is dropped.** -/
theorem Dropped.truthful (hR : Scattered R) (hdropped : Dropped s l name t s' kinds) :
    Truthful digest R kinds := by
  refine ⟨(hdropped.frame hname).proper h.proper, ?_⟩
  cases hdropped with
  | absent => exact h.filed
  | recounted e file old _ _ _ found => exact filed_recount h hd hname hR found (e.count - 1)
  | removed => exact h.filed.remove _

end

theorem Took.hasher [FileSystem] (h : Took s l name content t s' kinds) : s'.hasher = s.hasher := by
  cases h <;> rfl

theorem Dropped.hasher (h : Dropped s l name t s' kinds) : s'.hasher = s.hasher := by
  cases h <;> rfl

/-- **An operation that stores nothing**, with paths outside the roots. -/
theorem Imprint.truthful [FileSystem] {outside : List Path} {named : Option Bytes} {u : Tree}
    (himprint : Imprint s l outside named none t s' u) (h : Truthful digest R t.kind?) (hR : Scattered R)
    (hd : R l.root.key) (hout : ∀ q ∈ outside, ∀ d, R d → ¬ d <:+ q.key) : Truthful digest R u.kind? := by
  cases himprint with
  | aside _ _ _ haside => exact h.aside haside hout
  | grown _ hu => exact h.grown hu
  | took _ _ hstored => cases hstored
  | dropped hname _ hdropped => exact hdropped.truthful h hd hname hR
  | pruned _ hu =>
    refine h.thinned fun k => ?_
    rcases hu k with e | ⟨e, -⟩
    · exact Or.inl e
    · exact Or.inr e

end FileStore

theorem Mode.content_taken (m : Mode) (content : Bytes) (held : Held) :
    (m.taken content (some held)).content = held.content := by
  simp only [Mode.taken]
  split <;> rfl

theorem Mode.content_of_dropped {m : Mode} {held after : Held} (h : m.dropped held = some after) :
    after.content = held.content := by
  unfold Mode.dropped at h
  split at h
  · cases h
    rfl
  · cases h

/-- What a call has to keep to: a content that is stored has its name for a digest, and no chunk is written to a
file below a root. -/
def Call.Signed (h : Hasher) (R : Key → Prop) (t : Tree) : Call → Prop
  | store name content => h.digest content = name
  | storeFile name source _ => ∀ content, t.stat source = .ok (.file content) → h.digest content = name
  | getToFile _ target => ∀ d, R d → ¬ d <:+ target.key
  | _ => True

theorem Call.Signed.outside {h : Hasher} {R : Key → Prop} {t : Tree} {c : Call} (hc : c.Signed h R t)
    (hstored : c.stored? = none) : ∀ q ∈ c.paths, ∀ d, R d → ¬ d <:+ q.key := by
  intro q hq
  cases c with
  | getToFile name target =>
    obtain rfl := List.mem_singleton.mp hq
    exact hc
  | storeFile => cases hstored
  | _ => cases hq

/-! ### Stores of any kind -/

namespace AnyStore

/-- A store names contents by the hasher, has its root at one of the roots, and its table holds what
the names say. -/
def Signs (h : Hasher) (R : Key → Prop) : AnyStore → Prop
  | .file f => f.hasher = h ∧ ∀ l, f.layout? = some l → l.root ≠ .blank ∧ R l.root.key
  | .memory m => m.hasher = h ∧ ∀ name chunk, m.find? name = some chunk → h.digest chunk.content = name
  | .fixed _ => False

variable {h : Hasher} {R : Key → Prop} {a a' b b' : AnyStore} {s s' : FileStore} {l : Layout}
  {m m' : MemoryStore} {name content : Bytes} {w v : Workspace} {taken : Bool}

theorem Signs.of_file (hs : Signs h R (.file s)) (hlayout : s'.layout? = s.layout?)
    (hhasher : s'.hasher = s.hasher) : Signs h R (.file s') := by
  refine ⟨hhasher.trans hs.1, fun l hl => ?_⟩
  rw [hlayout] at hl
  exact hs.2 l hl

theorem Signs.rooted (hs : a.Signs h R) : a.Rooted := by
  intro p hp
  cases a with
  | file s =>
    obtain ⟨l, hl, rfl⟩ := Option.map_eq_some_iff.mp hp
    exact (hs.2 l hl).1
  | memory m => cases hp
  | fixed f => cases hp

theorem Signs.stored (hs : Signs h R (.memory m)) (hcontent : h.digest content = name)
    (hstored : m.Stored name content m') : Signs h R (.memory m') := by
  refine ⟨hstored.store.2.1.trans hs.1, fun other chunk hfind => ?_⟩
  obtain ⟨-, hself, hothers⟩ := hstored.held
  by_cases hne : other = name
  · subst hne
    rw [hself] at hfind
    cases hfind
    rcases hold : m.find? other with _ | held
    · exact hcontent
    · rw [Mode.content_taken]
      exact hs.2 other held hold
  · rw [hothers other hne] at hfind
    exact hs.2 other chunk hfind

theorem Signs.deleted (hs : Signs h R (.memory m)) (hdeleted : m.Deleted name m') :
    Signs h R (.memory m') := by
  refine ⟨hdeleted.store.2.1.trans hs.1, fun other chunk hfind => ?_⟩
  obtain ⟨-, hself, hothers⟩ := hdeleted.held
  by_cases hne : other = name
  · subst hne
    rw [hself] at hfind
    obtain ⟨held, hold, hdropped⟩ := Option.bind_eq_some_iff.mp hfind
    rw [Mode.content_of_dropped hdropped]
    exact hs.2 other held hold
  · rw [hothers other hne] at hfind
    exact hs.2 other chunk hfind

/-- A file store or a memory store that has just been made with the hasher. -/
def Made (h : Hasher) : AnyStore → Prop
  | .file s => ∃ counting, s = .new counting h
  | .memory m => ∃ counting, m = .new counting h
  | .fixed _ => False

theorem Made.signs (ha : a.Made h) : a.Signs h R := by
  cases a with
  | file s =>
    obtain ⟨counting, rfl⟩ := ha
    exact ⟨rfl, fun l hl => by cases hl⟩
  | memory m =>
    obtain ⟨counting, rfl⟩ := ha
    exact ⟨rfl, fun name chunk hfind => by cases hfind⟩
  | fixed f => exact absurd ha id

variable [FileSystem]

/-! ### What stores are given -/

section

variable (ht : Truthful h.digest R w.tree.kind?) (ha : a.Signs h R) (hR : Scattered R)
include ht ha hR

/-- What has been offered has its name for a digest. -/
theorem Offered.truthful {offer : Bytes → Prop} {x : Tree}
    (hoffered : a.Offered name [] offer id w.tree taken a' x)
    (hcontent : ∀ c, offer c → h.digest c = name) : Truthful h.digest R x.kind? ∧ a'.Signs h R := by
  cases hoffered with
  | idle hv | fixed _ hv => exact ⟨hv ▸ ht, ha⟩
  | grown _ _ hv => exact ⟨ht.grown hv, ha⟩
  | withheld hmemory _ hoffer hstored _ hv =>
    subst hmemory
    exact ⟨hv ▸ ht, ha.stored (hcontent _ hoffer) hstored⟩
  | took hname hoffer htook hv =>
    rw [hv]
    cases htook with
    | file hl htook =>
      exact ⟨htook.truthful ht (ha.2 _ hl).2 hname hR (hcontent _ hoffer),
        ha.of_file htook.same.1 htook.hasher⟩
    | memory hstored => exact ⟨ht, ha.stored (hcontent _ hoffer) hstored⟩

/-- **A file** is offered under the digest of its content, wherever it lies. -/
theorem sink_storeFile_truthful {source : Path} {asked : Bool}
    (hcontent : ∀ c, w.tree.stat source = .ok (.file c) → h.digest c = name)
    (hrun : Sink.storeFile a name source asked w = ((taken, a'), v)) :
    Truthful h.digest R v.tree.kind? ∧ a'.Signs h R := by
  cases a with
  | file s =>
    obtain ⟨s', rfl, hsink⟩ := sink_file_inv hrun
    rcases hl : s.layout? with _ | l
    · obtain ⟨-, rfl, hv⟩ := FileStore.sink_uninitialized hl hsink
      exact ⟨hv ▸ ht, ha⟩
    · obtain ⟨hroot, hd⟩ := ha.2 l hl
      rcases FileStore.sink_file hl hroot hsink with ⟨-, rfl, hgrown⟩ | ⟨-, hr⟩
      · exact ⟨ht.grown hgrown, ha⟩
      · obtain ⟨hname, c, kinds, hstat, htook, hthinned, -⟩ := FileStore.storeFile_fewer hl hroot hr
        have htaken := htook.truthful ht hd hname hR (hcontent c hstat)
        exact ⟨htaken.thinned hthinned, ha.of_file htook.same.1 htook.hasher⟩
  | memory m =>
    obtain ⟨m', rfl, hsink⟩ := sink_memory_inv hrun
    rcases MemoryStore.sink_memory hsink with ⟨-, rfl, hv, -⟩ | ⟨c, -, hstat, hstore, hkinds⟩
    · exact ⟨hv ▸ ht, ha⟩
    · refine ⟨ht.thinned fun k => ?_, ha.stored (hcontent c hstat) (MemoryStore.store_ok hstore).2.2⟩
      rw [hkinds]
      split
      · rw [Function.update_apply]
        split
        · exact Or.inr rfl
        · exact Or.inl rfl
      · exact Or.inl rfl
  | fixed f => exact absurd ha id

end

/-! ### What stores do -/

section

variable (ht : Truthful h.digest R w.tree.kind?) (hR : Scattered R)
include ht hR

/-- **A call of a file store** that stores nothing. -/
theorem call_file_truthful (ha : Signs h R (.file s)) {c : Call} (hstored : c.stored? = none)
    (hpaths : ∀ q ∈ c.paths, ∀ d, R d → ¬ d <:+ q.key) :
    Truthful h.digest R (c.run s w).2.tree.kind? ∧ Signs h R (.file (c.run s w).1.2) := by
  rcases hl : s.layout? with _ | l
  · obtain ⟨hlayout, htree⟩ := FileStore.call_uninitialized hl c w
    rw [htree]
    exact ⟨ht, ha.of_file (hlayout.trans hl.symm) (s.call_hasher c w)⟩
  · obtain ⟨hroot, hd⟩ := ha.2 l hl
    have himprint := FileStore.call_imprint hl hroot c (fun _ => ht.proper) fun q hq =>
      hpaths q (Call.source_mem_paths hq) _ hd
    rw [hstored] at himprint
    exact ⟨himprint.truthful ht hR hd hpaths, ha.of_file himprint.layout (s.call_hasher c w)⟩

omit hR in
/-- **A call of a memory store** that stores nothing. -/
theorem call_memory_truthful (ha : Signs h R (.memory m)) {c : Call} (hstored : c.stored? = none)
    (hpaths : ∀ q ∈ c.paths, ∀ d, R d → ¬ d <:+ q.key) :
    Truthful h.digest R (c.run m w).2.tree.kind? ∧ Signs h R (.memory (c.run m w).1.2) := by
  refine ⟨ht.aside (m.call_aside c w) hpaths, ?_⟩
  cases c with
  | store | storeFile => cases hstored
  | delete name => exact ha.deleted (m.delete_spec name)
  | clear => exact ⟨ha.1, fun name chunk hfind => by cases hfind⟩
  | _ => exact ha

/-- **Handing over** a chunk of a file store. -/
theorem moveTo_file_truthful (ha : Signs h R (.file s)) (hb : b.Signs h R)
    (hrun : ChunkStore.moveTo s name b w = ((taken, s', b'), v)) :
    Truthful h.digest R v.tree.kind? ∧ Signs h R (.file s') ∧ b'.Signs h R := by
  rw [FileStore.moveTo_apply] at hrun
  rcases hl : s.layout? with _ | l
  · rw [FileStore.moveTo_uninitialized hl] at hrun
    cases hrun
    exact ⟨ht, ha, hb⟩
  · obtain ⟨hroot, hd⟩ := ha.2 l hl
    have hmove := FileStore.moveTo_run hl name b w
    rcases hm : s.moveTo name b w with ⟨⟨r, b''⟩, y⟩
    -- the file that is handed over holds what its name says
    have hsink : ∀ e asked b'' y given, name ≠ [] → s.mode.find (l.place name) w.tree = .ok (some e) →
        Sink.storeFile b name e.path asked w = ((given, b''), y) →
        Truthful h.digest R y.tree.kind? ∧ b''.Signs h R := by
      intro e asked b'' y given hname hfind hgiven
      obtain ⟨file, old, found⟩ :=
        Mode.find_eq_some (l.dir_place_ne_blank hroot name) (l.isStem_place hname) hfind
      refine sink_storeFile_truthful ht hb hR (fun c hstat => ?_) hgiven
      have hkind := FileStore.kind?_of_stat hstat
      rw [found.key (l.isStem_place hname), found.kind] at hkind
      cases hkind
      exact FileStore.digest_of_found ht hd hname found
    rw [hm] at hmove hrun
    cases hmove with
    | missing err hrequire =>
      cases hrun
      exact ⟨ht, ha, hb⟩
    | refused hname e hfind b'' y hgiven =>
      obtain ⟨hty, hb''⟩ := hsink e _ _ _ _ hname hfind hgiven
      cases hrun
      exact ⟨hty, ha, hb''⟩
    | taken hname e hfind b'' y hgiven r x hletGo =>
      obtain ⟨hty, hb''⟩ := hsink e _ _ _ _ hname hfind hgiven
      rcases FileStore.letGo_cases hname hroot hletGo with ⟨err, rfl, rfl⟩ | ⟨-, rfl, hx⟩ | ⟨-, rfl, hx⟩ |
        ⟨after, rfl, hdropped⟩
      · cases hrun
        exact ⟨hty, ha, hb''⟩
      · cases hrun
        exact ⟨hx ▸ hty, ha.of_file rfl rfl, hb''⟩
      · cases hrun
        exact ⟨hx ▸ hty, ha, hb''⟩
      · cases hrun
        exact ⟨hdropped.truthful hty hd hname hR, ha.of_file hdropped.same.1 hdropped.hasher, hb''⟩

/-- **Handing over** a chunk of a memory store. -/
theorem moveTo_memory_truthful (ha : Signs h R (.memory m)) (hb : b.Signs h R)
    (hrun : ChunkStore.moveTo m name b w = ((taken, m', b'), v)) :
    Truthful h.digest R v.tree.kind? ∧ Signs h R (.memory m') ∧ b'.Signs h R := by
  have hoffered : ∀ chunk given x, m.find? name = some chunk →
      b.Offered name [] (· = chunk.content) id w.tree given b' x →
      Truthful h.digest R x.kind? ∧ b'.Signs h R := fun chunk given x hfind hgiven =>
    hgiven.truthful ht hb hR fun c hc => hc ▸ ha.2 name chunk hfind
  cases MemoryStore.moveTo_handed hb.rooted hrun with
  | missing hv => exact ⟨hv ▸ ht, ha, hb⟩
  | refused chunk hfind hgiven =>
    obtain ⟨htv, hb'⟩ := hoffered chunk _ _ hfind hgiven
    exact ⟨htv, ha, hb'⟩
  | deleted chunk hfind hgiven =>
    obtain ⟨htv, hb'⟩ := hoffered chunk _ _ hfind hgiven
    exact ⟨htv, ha.deleted (m.delete_spec name), hb'⟩

/-- **Handing over** a chunk of any store. -/
theorem moveTo_truthful (ha : a.Signs h R) (hb : b.Signs h R) (name : Bytes) :
    Truthful h.digest R (ChunkStore.moveTo a name b w).2.tree.kind? ∧
      (ChunkStore.moveTo a name b w).1.2.1.Signs h R ∧ (ChunkStore.moveTo a name b w).1.2.2.Signs h R := by
  cases a with
  | file s =>
    rw [moveTo_file]
    exact moveTo_file_truthful ht hR ha hb rfl
  | memory m =>
    rw [moveTo_memory]
    exact moveTo_memory_truthful ht hR ha hb rfl
  | fixed f => exact absurd ha id

omit hR in
/-- **Taking a root.** -/
theorem start_truthful (ha : a.Signs h R) {root : Path} (hroot : R root.key) (depth : Nat) :
    Truthful h.digest R (start root depth a w).2.tree.kind? ∧ (start root depth a w).1.2.Signs h R := by
  cases a with
  | file s =>
    rw [start_file]
    obtain ⟨v, hgrown, hrun | ⟨hrun, hlead⟩⟩ := s.start_spec root depth w
    · rw [hrun]
      exact ⟨ht.grown hgrown, ha.1, fun l hl => by cases hl⟩
    · rw [hrun]
      refine ⟨ht.grown hgrown, ha.1, fun l hl => ?_⟩
      cases hl
      exact ⟨Layout.root_ne_blank hlead, hroot⟩
  | memory m => exact ⟨ht, ha⟩
  | fixed f => exact absurd ha id

theorem chunkPath_truthful (ha : a.Signs h R) (name : Bytes) (create : Bool) :
    Truthful h.digest R (chunkPath name create a w).2.tree.kind? ∧
      (chunkPath name create a w).1.2.Signs h R := by
  cases a with
  | file s =>
    refine ⟨?_, ha⟩
    show Truthful h.digest R (s.chunkPath name create w).2.tree.kind?
    rcases hl : s.layout? with _ | l
    · rwa [FileStore.chunkPath_uninitialized hl]
    · exact (FileStore.chunkPath_imprint hl name create w).truthful ht hR (ha.2 l hl).2 (by simp)
  | memory m => exact ⟨ht, ha⟩
  | fixed f => exact absurd ha id

/-- **Any call.** -/
theorem call_truthful (ha : a.Signs h R) {c : Call} (hc : c.Signed h R w.tree) :
    Truthful h.digest R (c.run a w).2.tree.kind? ∧ (c.run a w).1.2.Signs h R := by
  cases hstored : c.stored? with
  | none =>
    cases a with
    | file s =>
      rw [Call.run_file]
      exact call_file_truthful ht hR ha hstored (hc.outside hstored)
    | memory m =>
      rw [Call.run_memory]
      exact call_memory_truthful ht ha hstored (hc.outside hstored)
    | fixed f => exact absurd ha id
  | some stored =>
    cases c with
    | store name content =>
      exact (offered_store ha.rooted rfl).truthful ht ha hR fun _ hoffer => hoffer ▸ hc
    | storeFile name source asked => exact sink_storeFile_truthful ht ha hR hc rfl
    | _ => cases hstored

end

end AnyStore

section

variable [FileSystem]

/-! ### Sessions -/

/-- What a deed has to keep to: a root is one of the roots, and a call keeps to what calls have to. -/
def Deed.Signed (h : Hasher) (R : Key → Prop) (s : Session) : Deed → Prop
  | start _ root _ => R root.key
  | call _ c => c.Signed h R s.workspace.tree
  | moveTo .. => True
  | chunkPath .. => True

namespace Session

/-- The sessions that begin with new stores of one hasher and nothing below the roots, and in which every
content that is stored has its name for a digest. -/
inductive Signed (h : Hasher) (R : Key → Prop) : Session → Prop
  | fresh {s : Session} (hmade : ∀ id a, s.store? id = some a → a.Made h)
      (hproper : Proper s.workspace.tree.kind?)
      (hempty : ∀ d k, R d → d <:+ k → k ≠ d → s.workspace.tree.kind? k = none) : Signed h R s
  | step {s : Session} (hs : Signed h R s) (deed : Deed) (hsigned : deed.Signed h R s) :
      Signed h R (deed.run s)

theorem Signed.bare {h : Hasher} {R : Key → Prop} {stores : List (String × AnyStore)}
    (hmade : ∀ e ∈ stores, e.2.Made h) : Signed h R ⟨stores, .bare⟩ := by
  refine .fresh (fun id a ha => hmade _ (Table.mem_of_lookup ha))
    (fun n k hn => absurd (Tree.kind?_bare n k) hn) fun d k hd hk hne => ?_
  cases k with
  | nil => exact absurd (List.suffix_nil.mp hk).symm hne
  | cons n k => exact Tree.kind?_bare n k

/-- The tree and the stores of a session hold what names say. -/
structure Truthful (h : Hasher) (R : Key → Prop) (s : Session) : Prop where
  tree : ContentStore.Truthful h.digest R s.workspace.tree.kind?
  signs : ∀ id a, s.store? id = some a → a.Signs h R

variable {h : Hasher} {R : Key → Prop} {s : Session} {id : String} {b : AnyStore} {w : Workspace}

omit [FileSystem] in
theorem Truthful.put (hs : s.Truthful h R) (hw : ContentStore.Truthful h.digest R w.tree.kind?)
    (hb : b.Signs h R) : (({ s with workspace := w } : Session).put id b).Truthful h R where
  tree := hw
  signs other a ha := by
    rw [store?_put] at ha
    split at ha
    · cases ha
      exact hb
    · exact hs.signs other a ha

/-- **Any deed.** -/
theorem Truthful.step (hs : s.Truthful h R) (hR : Scattered R) (deed : Deed) (hsigned : deed.Signed h R s) :
    (deed.run s).Truthful h R := by
  have hran := deed.ran s
  generalize deed.run s = s' at hran ⊢
  cases hran with
  | idle => exact hs
  | start id root depth a ha =>
    obtain ⟨htree, hb⟩ := AnyStore.start_truthful hs.tree (hs.signs id a ha) hsigned depth
    exact hs.put htree hb
  | call id c a ha =>
    obtain ⟨htree, hb⟩ := AnyStore.call_truthful hs.tree hR (hs.signs id a ha) hsigned
    exact hs.put htree hb
  | moveTo id name sinkId a b hne ha hb =>
    obtain ⟨htree, ha', hb'⟩ := AnyStore.moveTo_truthful hs.tree hR (hs.signs id a ha) (hs.signs sinkId b hb) name
    exact (hs.put htree ha').put htree hb'
  | moveToSelf id name a ha =>
    refine hs.put ?_ (hs.signs id a ha)
    rw [AnyStore.moveToSelf_tree]
    exact hs.tree
  | chunkPath id name create a ha =>
    obtain ⟨htree, hb⟩ := AnyStore.chunkPath_truthful hs.tree hR (hs.signs id a ha) name create
    exact hs.put htree hb

/-- **Any session.** -/
theorem Signed.truthful (hR : Scattered R) (hs : Signed h R s) : s.Truthful h R := by
  induction hs with
  | fresh hmade hproper hempty =>
    refine ⟨⟨hproper, fun d name k c hd hk hfile => ?_⟩, fun id a ha => (hmade id a ha).signs⟩
    rw [hempty d k hd hk.suffix hk.ne] at hfile
    cases hfile
  | step hs deed hsigned ih => exact ih.step hR deed hsigned

end Session

/-! ### What is read back -/

/-- The path by which a store finds the file of a chunk is within the limits, and so is the name of the file. -/
def FileStore.InLimits (s : FileStore) (t : Tree) (name : Bytes) : Prop :=
  ∀ l e, s.layout? = some l → s.mode.find (l.place name) t = .ok (some e) →
    e.path.isTooLong = false ∧ ∀ file ∈ e.path.key.head?, file.length ≤ nameLimit

instance (s : FileStore) (t : Tree) (name : Bytes) : Decidable (s.InLimits t name) :=
  decidable_of_iff (∀ l ∈ s.layout?, ∀ o ∈ (s.mode.find (l.place name) t).toOption, ∀ e ∈ o,
      e.path.isTooLong = false ∧ ∀ file ∈ e.path.key.head?, file.length ≤ nameLimit) <| by
    constructor
    · intro h l e hl hfind
      exact h l hl (some e) (by rw [hfind]; rfl) e rfl
    · intro h l hl o ho e he
      cases he
      rcases hfind : s.mode.find (l.place name) t with f | o'
      · rw [hfind] at ho
        cases ho
      · rw [hfind] at ho
        cases ho
        exact h l e hl hfind

omit [FileSystem] in
theorem FileStore.InLimits.legible {s : FileStore} {t : Tree} {name : Bytes} (h : s.InLimits t name)
    (hrooted : s.Rooted) : s.Legible t name := by
  intro l e hl hname hfind
  have hs := l.isStem_place hname
  obtain ⟨file, content, found⟩ := Mode.find_eq_some (l.dir_place_ne_blank (hrooted l hl) name) hs hfind
  obtain ⟨hshort, hlength⟩ := h l e hl hfind
  rw [found.key hs] at hlength
  rw [found.path] at hshort ⊢
  obtain ⟨hfile, hzero⟩ := found.isFile.isName hs
  have hdirZero := Path.zero_notMem_of_check (Tree.leadsToDir_iff.mp found.dir).1
  exact ⟨content, Tree.stat_join hfile (Path.check_join hfile hdirZero hzero hshort) (hlength file rfl)
    found.dir found.kind⟩

namespace AnyStore

def hasher? : AnyStore → Option Hasher
  | .file s => some s.hasher
  | .memory m => some m.hasher
  | .fixed _ => none

def InLimits (t : Tree) (name : Bytes) : AnyStore → Prop
  | .file s => s.InLimits t name
  | .memory _ => True
  | .fixed _ => True

instance (t : Tree) (name : Bytes) : (a : AnyStore) → Decidable (a.InLimits t name)
  | .file s => inferInstanceAs (Decidable (s.InLimits t name))
  | .memory _ | .fixed _ => inferInstanceAs (Decidable True)

variable {h : Hasher} {R : Key → Prop} {a : AnyStore} {w : Workspace} {name : Bytes}

omit [FileSystem] in
theorem Signs.hasher (ha : a.Signs h R) : a.hasher? = some h := by
  cases a with
  | file s => exact congrArg some ha.1
  | memory m => exact congrArg some ha.1
  | fixed f => exact absurd ha id

section

variable (hhasher : a.hasher? = some h) (hrooted : a.Rooted)
include hhasher hrooted

theorem has_held : (ChunkStore.has a name w).1 = (a.held? w.tree name).isSome := by
  cases a with
  | file s => exact FileStore.has_answer (fun l hl => hrooted.file hl) name w
  | memory m => exact m.has_answer name w
  | fixed f => cases hhasher

variable (hlimits : a.InLimits w.tree name)
include hlimits

theorem get_held : (ChunkStore.get a name w).1 = ((a.held? w.tree name).map Held.content).getD [] := by
  cases a with
  | file s =>
    have hr : s.Rooted := fun l hl => hrooted.file hl
    exact FileStore.get_answer hr (FileStore.InLimits.legible hlimits hr)
  | memory m => exact m.get_answer name w
  | fixed f => cases hhasher

theorem validate_held (hlawful : h.Lawful) : (ChunkStore.validate a name w).1 =
    ((a.held? w.tree name).map fun chunk => decide (h.digest chunk.content = name)).getD false := by
  cases a with
  | file s =>
    have hr : s.Rooted := fun l hl => hrooted.file hl
    obtain rfl := Option.some.inj hhasher
    have hanswer := FileStore.validate_answer hr (FileStore.InLimits.legible hlimits hr)
    simp only [hlawful _] at hanswer
    exact hanswer
  | memory m =>
    obtain rfl := Option.some.inj hhasher
    exact m.validate_answer name w
  | fixed f => cases hhasher

end

omit [FileSystem] in
theorem digest_of_held (ht : Truthful h.digest R w.tree.kind?) (ha : a.Signs h R) {chunk : Held}
    (hheld : a.held? w.tree name = some chunk) : h.digest chunk.content = name := by
  cases a with
  | file s =>
    have hheld : s.held? w.tree name = some chunk := hheld
    rcases hl : s.layout? with _ | l
    · simp [FileStore.held?, hl] at hheld
    obtain ⟨hroot, hd⟩ := ha.2 l hl
    by_cases hname : name = []
    · rw [hname, FileStore.held?_blank] at hheld
      cases hheld
    rcases hfind : s.mode.find (l.place name) w.tree with f | _ | e
    · simp [FileStore.held?, hl, hname, hfind] at hheld
    · rw [FileStore.held?_of_find hl hname hfind] at hheld
      cases hheld
    · obtain ⟨file, old, found⟩ :=
        Mode.find_eq_some (l.dir_place_ne_blank hroot name) (l.isStem_place hname) hfind
      rw [FileStore.held?_of_found hl hname hfind found] at hheld
      cases hheld
      exact FileStore.digest_of_found ht hd hname found
  | memory m => exact ha.2 name chunk hheld
  | fixed f => exact absurd ha id

end AnyStore

/-- **Contents have their names for digests.**  Take new stores of one hasher, file stores with any roots that are
the same or lie apart and memory stores.  If every content that is stored comes with its digest for a name, then
in every session a chunk that is there is read back with its name for a digest, and validating it succeeds, as long
as the path of its file is within the limits.  Whatever has been done to the tree, validating answers whether there
is a chunk whose content has its name for a digest. -/
theorem contents_match_names {h : Hasher} (hlawful : h.Lawful) :
    (∀ (R : Key → Prop) (s : Session), Scattered R → Session.Signed h R s → ∀ (id : String) (a : AnyStore)
      (name : Bytes), s.store? id = some a → a.InLimits s.workspace.tree name →
        (ChunkStore.has a name s.workspace).1 = true →
          h.digest (ChunkStore.get a name s.workspace).1 = name ∧
            (ChunkStore.validate a name s.workspace).1 = true) ∧
    ∀ (a : AnyStore) (w : Workspace) (name : Bytes), a.hasher? = some h → a.Rooted → a.InLimits w.tree name →
      (ChunkStore.has a name w).1 = (a.held? w.tree name).isSome ∧
      (ChunkStore.get a name w).1 = ((a.held? w.tree name).map Held.content).getD [] ∧
      ((ChunkStore.validate a name w).1 = true ↔
        ∃ chunk, a.held? w.tree name = some chunk ∧ h.digest chunk.content = name) := by
  constructor
  · intro R s hR hs id a name ha hlimits hhas
    have ht := hs.truthful hR
    have hsigns := ht.signs id a ha
    rw [AnyStore.has_held hsigns.hasher hsigns.rooted] at hhas
    obtain ⟨chunk, hheld⟩ := Option.isSome_iff_exists.mp hhas
    have hdigest := AnyStore.digest_of_held ht.tree hsigns hheld
    rw [AnyStore.get_held hsigns.hasher hsigns.rooted hlimits,
      AnyStore.validate_held hsigns.hasher hsigns.rooted hlimits hlawful, hheld]
    exact ⟨hdigest, decide_eq_true hdigest⟩
  · intro a w name hhasher hrooted hlimits
    refine ⟨AnyStore.has_held hhasher hrooted, AnyStore.get_held hhasher hrooted hlimits, ?_⟩
    rw [AnyStore.validate_held hhasher hrooted hlimits hlawful]
    rcases a.held? w.tree name with _ | chunk
    · simp
    · simp

end

namespace Trial

/-- The one root of the file store. -/
def roots (k : Key) : Prop := k = (Path.ofText "r").key

/-- The file store has stored a chunk twice and has handed one reference over. -/
def signed : Session :=
  [.call "a" (.store [97, 98] [97, 98]), .call "a" (.store [97, 98] [97, 98]), .moveTo "a" [97, 98] "m"].foldl
    Deed.run rooted

/-- The file of its chunk has been overwritten. -/
def overwritten : Workspace := ((Request.write (Path.ofText "r/6/162.1") [1]).run signed.workspace).2

theorem scattered_roots : Scattered roots := fun _ _ hd he => Or.inl (hd.trans he.symm)

theorem signed_reached : Session.Signed (.ofDigest id) roots signed := by
  have hmade : Session.Signed (.ofDigest id) roots ⟨stores, .bare⟩ := by
    refine .bare fun e he => ?_
    simp only [stores, List.mem_cons, List.not_mem_nil, or_false] at he
    rcases he with rfl | rfl
    · exact ⟨_, rfl⟩
    · exact ⟨_, rfl⟩
  have hrooted : Session.Signed (.ofDigest id) roots rooted := hmade.step (.start "a" (Path.ofText "r") 1) rfl
  have hstored := hrooted.step (.call "a" (.store [97, 98] [97, 98])) rfl
  exact (hstored.step (.call "a" (.store [97, 98] [97, 98])) rfl).step (.moveTo "a" [97, 98] "m") trivial

end Trial

/-- With a hasher whose digest is the content itself, a counted store has stored two bytes twice under their digest
and has handed one reference to a memory store.  Both have the bytes, until the file of the first one is overwritten:
the chunk is still there, and is not valid. -/
theorem contents_match_names_trial : ∃ a b, Trial.signed.store? "a" = some a ∧ Trial.signed.store? "m" = some b ∧
    ((ChunkStore.get a [97, 98] Trial.signed.workspace).1 = [97, 98] ∧
      (ChunkStore.validate a [97, 98] Trial.signed.workspace).1 = true) ∧
    ((ChunkStore.get b [97, 98] Trial.signed.workspace).1 = [97, 98] ∧
      (ChunkStore.validate b [97, 98] Trial.signed.workspace).1 = true) ∧
    (ChunkStore.has a [97, 98] Trial.overwritten).1 = true ∧
    (ChunkStore.validate a [97, 98] Trial.overwritten).1 = false ∧
    ((ChunkStore.validate a [97, 98] Trial.overwritten).1 = true ↔
      ∃ chunk, a.held? Trial.overwritten.tree [97, 98] = some chunk ∧ chunk.content = [97, 98]) := by
  obtain ⟨a, ha⟩ : ∃ a, Trial.signed.store? "a" = some a := Option.isSome_iff_exists.mp (by decide +kernel)
  obtain ⟨b, hb⟩ : ∃ b, Trial.signed.store? "m" = some b := Option.isSome_iff_exists.mp (by decide +kernel)
  have hlimits : ∀ a ∈ Trial.signed.store? "a", a.InLimits Trial.signed.workspace.tree [97, 98] ∧
      a.InLimits Trial.overwritten.tree [97, 98] := by decide +kernel
  have hhas : ∀ a ∈ Trial.signed.store? "a", (ChunkStore.has a [97, 98] Trial.signed.workspace).1 = true ∧
      (ChunkStore.has a [97, 98] Trial.overwritten).1 = true ∧
      (ChunkStore.validate a [97, 98] Trial.overwritten).1 = false := by decide +kernel
  have hhas' : ∀ b ∈ Trial.signed.store? "m", b.InLimits Trial.signed.workspace.tree [97, 98] ∧
      (ChunkStore.has b [97, 98] Trial.signed.workspace).1 = true := by decide +kernel
  have hlawful := Hasher.lawful_ofDigest id
  have hsigns := (Trial.signed_reached.truthful Trial.scattered_roots).signs "a" a ha
  exact ⟨a, b, ha, hb,
    (contents_match_names hlawful).1 _ _ Trial.scattered_roots Trial.signed_reached "a" a [97, 98] ha
      (hlimits a ha).1 (hhas a ha).1,
    (contents_match_names hlawful).1 _ _ Trial.scattered_roots Trial.signed_reached "m" b [97, 98] hb
      (hhas' b hb).1 (hhas' b hb).2,
    (hhas a ha).2.1, (hhas a ha).2.2,
    ((contents_match_names hlawful).2 a Trial.overwritten [97, 98] hsigns.hasher hsigns.rooted
      (hlimits a ha).2).2.2⟩

/-! ### A root with a long path -/

namespace Longwinded

/-- This path leads to the directory `r`, and has room for three bytes more. -/
def root : Path := ⟨114 :: (List.replicate 2045 [47, 46]).flatten⟩

/-- A store has stored a chunk below `r` and has taken the same root by the long path. -/
def session : Session :=
  [.start "a" (Path.ofText "r") 0, .call "a" (.store [107] [107]), .start "a" root 0].foldl Deed.run
    ⟨[("a", .file (.new true (.ofDigest id)))], .bare⟩

theorem key_root : root.key = (Path.ofText "r").key := by decide +kernel

theorem signed : Session.Signed (.ofDigest id) Trial.roots session := by
  have hmade : Session.Signed (.ofDigest id) Trial.roots ⟨[("a", .file (.new true (.ofDigest id)))], .bare⟩ := by
    refine .bare fun e he => ?_
    obtain rfl := List.mem_singleton.mp he
    exact ⟨_, rfl⟩
  exact ((hmade.step (.start "a" (Path.ofText "r") 0) rfl).step (.call "a" (.store [107] [107])) rfl).step
    (.start "a" root 0) key_root

end Longwinded

/-- The chunk is there for a store that has taken its root by a long path, but the path of the file is too long to
open it: nothing is read, and validating fails. -/
theorem contents_unread_longwinded :
    (Hasher.ofDigest id).Lawful ∧ Scattered Trial.roots ∧
    Session.Signed (.ofDigest id) Trial.roots Longwinded.session ∧
    (Session.call "a" (.has [107]) Longwinded.session).1 = some (.truth true) ∧
    (Session.call "a" (.get [107]) Longwinded.session).1 = some (.bytes []) ∧
    (Hasher.ofDigest id).digest [] ≠ [107] ∧
    (Session.call "a" (.validate [107]) Longwinded.session).1 = some (.truth false) :=
  ⟨Hasher.lawful_ofDigest id, Trial.scattered_roots, Longwinded.signed, by decide +kernel, by decide +kernel,
    by decide, by decide +kernel⟩

end ContentStore
