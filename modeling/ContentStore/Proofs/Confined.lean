import ContentStore.Proofs.Singles
import ContentStore.Proofs.Veil

/-!
# What a store does stays where its chunks are

A store changes and removes files of its own chunks and files that it is given, and makes directories on the way to
its root and to its chunks (`Mode.Keeps`).  So whoever looks elsewhere sees no difference: the tree before a call
and the tree after it are `Veiled` from each other by these files and directories.

* `Took.veiled`, `Dropped.veiled`: one reference more or less;
* `sink_storeFile_veiled`, `call_veiled`, `moveTo_veiled`: what a store is asked;
* `Deed.veiled`: what is done in a session.
-/

namespace ContentStore

open Function (update)

namespace Veiled

variable {F D : Key → Prop} {t u v : Key → Option Kind} {k : Key}

theorem of_grown {p : Path} {t u : Tree} (hu : Grown p t u) (hp : ∀ k ∈ p.visits, t.kind? k = some .dir ∨ D k) :
    Veiled F D t.kind? u.kind? where
  file k c _ := hu.file_iff k c
  dir _ := hu.dir
  fresh k hk := by
    rcases hu k with heq | ⟨-, -, hvisit, -⟩
    · exact Or.inl (heq ▸ hk)
    · exact hp k hvisit

theorem of_aside {outside : List Path} (h : AnyStore.Aside outside t u) (hout : ∀ q ∈ outside, F q.key) :
    Veiled F D t u := by
  cases h with
  | same => exact .refl F D t
  | changed q hq hdir x hx => exact .update (hout q hq) hdir hx

end Veiled

/-- What a store does for a chunk, it does at keys of `F` and `D`. -/
structure Mode.Keeps (F D : Key → Prop) (m : Mode) (l : Layout) (name : Bytes) : Prop where
  file : ∀ file, m.Names (l.place name).stem file → F (file :: (l.place name).dir.key)
  shard : ∀ k, k <:+ l.shards name → k = [] ∨ D (k ++ l.root.key)

namespace FileStore

variable {F D : Key → Prop} {s s' : FileStore} {l : Layout} {name content : Bytes} {t u : Tree}
  {kinds : Key → Option Kind} {outside : List Path} {named stored : Option Bytes} {w v : Workspace}

/-- The directories on the way to a chunk are there, or at keys of `D`. -/
theorem dir_visits (h : s.mode.Keeps F D l name) (hlead : t.leadsToDir l.root = true) {k : Key}
    (hk : k ∈ (l.place name).dir.visits) : t.kind? k = some .dir ∨ D k := by
  rw [l.dir_place, Path.mem_visits_below fun x hx => (l.isName_of_mem_shards hx).1] at hk
  rcases hk with hk | ⟨j, hj, -, rfl⟩
  · exact Or.inl (Tree.isDir_of_leadsToDir hlead hk)
  · rcases h.shard j hj with rfl | hD
    · exact Or.inl (Tree.leadsToDir_iff.mp hlead).2.2
    · exact Or.inr hD

section

variable (h : s.mode.Keeps F D l name) (hlead : t.leadsToDir l.root = true)
include h hlead

theorem grown_veiled (hu : Grown (l.place name).dir t u) : Veiled F D t.kind? u.kind? :=
  .of_grown hu fun _ => dir_visits h hlead

omit hlead in
theorem recount_veiled (hname : name ≠ []) {file old : Bytes} {e : Entry} {n : Nat}
    (found : s.mode.Found (l.place name) t e file old) (admits : t.Admits (s.mode.path (l.place name) n)) :
    Veiled F D t.kind? (update (update t.kind? (file :: (l.place name).dir.key) none)
      (s.mode.fileName (l.place name).stem n :: (l.place name).dir.key) (some (.file old))) := by
  have hold : t.kind? (file :: (l.place name).dir.key) ≠ some .dir := by
    rw [found.kind]
    simp
  have hnew := admits.noDir
  rw [l.key_path s.mode hname] at hnew
  refine (Veiled.update (h.file _ found.isFile.names) hold (by simp)).trans
    (.update (h.file _ (s.mode.names_fileName _ n)) ?_ (by simp))
  rw [Function.update_apply]
  split
  · simp
  · exact hnew

omit hlead in
theorem Dropped.veiled (hname : name ≠ []) (hdropped : Dropped s l name t s' kinds) : Veiled F D t.kind? kinds := by
  cases hdropped with
  | absent => exact .refl F D _
  | recounted e file old hmode hgt hfind found hold admits => exact recount_veiled h hname found admits
  | removed e file old hcount hfind found =>
    refine .update (h.file _ found.isFile.names) ?_ (by simp)
    rw [found.kind]
    simp

theorem Took.veiled [FileSystem] (hname : name ≠ []) (htook : Took s l name content t s' kinds) :
    Veiled F D t.kind? kinds := by
  cases htook with
  | kept => exact .refl F D _
  | recounted e file old hmode hfind found hold admits => exact recount_veiled h hname found admits
  | added hfind hroom w v htree hdirs grown admits =>
    have hnew := admits.noDir
    rw [l.key_path s.mode hname] at hnew
    exact (grown_veiled h hlead grown).trans (.update (h.file _ (s.mode.names_fileName _ 1)) hnew (by simp))

end

variable [FileSystem]

/-- Any work of a store on one chunk. -/
theorem Imprint.veiled (himprint : Imprint s l outside named stored t s' u) (hnamed : named ≠ none)
    (h : ∀ name ∈ named, s.mode.Keeps F D l name) (hlead : t.leadsToDir l.root = true)
    (hout : ∀ q ∈ outside, F q.key) : Veiled F D t.kind? u.kind? := by
  cases himprint with
  | aside _ _ _ haside => exact .of_aside haside hout
  | grown hn hu => exact grown_veiled (h _ hn) hlead hu
  | took hname hn _ htook haside => exact (htook.veiled (h _ hn) hlead hname).trans (.of_aside haside hout)
  | dropped hname hn hdropped => exact hdropped.veiled (h _ hn) hname
  | pruned hnone => exact absurd hnone hnamed

/-- **Storing any file.** -/
theorem storeFile_veiled (h : s.mode.Keeps F D l name) (hl : s.layout? = some l)
    (hlead : w.tree.leadsToDir l.root = true) {source : Path} {asked : Bool} (hsource : asked = true → F source.key)
    (hrun : (s.storeFile name source asked).run w = (.ok s', v)) : Veiled F D w.tree.kind? v.tree.kind? := by
  obtain ⟨hname, content, kinds, -, hstat, htook, ⟨hasked, -, hkinds, hfile⟩ | ⟨u, gone, rfl, hlast, hgone⟩⟩ :=
    storeFile_taken hl (Layout.root_ne_blank hlead) hrun
  · -- the source has been renamed to the file of the chunk
    have hsource := hsource hasked
    have htaken := htook.veiled h hlead hname
    have hnew := h.file _ (s.mode.names_fileName (l.place name).stem 1)
    generalize s.mode.fileName (l.place name).stem 1 :: (l.place name).dir.key = new at hkinds hfile hnew
    have hat : v.tree.kind? new = some (.file content) := by rw [hkinds, Function.update_self]
    have helse : ∀ k, k ≠ source.key → k ≠ new → v.tree.kind? k = kinds k := fun k hsrc hk => by
      rw [hkinds, Function.update_of_ne hk, Function.update_of_ne hsrc]
    have hgone : v.tree.kind? source.key ≠ some .dir := by
      rw [hkinds, Function.update_apply]
      split
      · simp
      · rw [Function.update_self]
        simp
    refine ⟨fun k c hk => ?_, fun k hk => ?_, fun k hk => ?_⟩
    · rw [helse k (fun e => hk (e ▸ hsource)) (fun e => hk (e ▸ hnew))]
      exact htaken.file k c hk
    · have hdir := htaken.dir k hk
      rw [helse k, hdir]
      · rintro rfl
        rw [kind?_of_stat hstat] at hk
        cases hk
      · rintro rfl
        rw [hfile] at hdir
        cases hdir
    · refine htaken.fresh k ?_
      rw [← hk, helse k]
      · rintro rfl
        exact hgone hk
      · rintro rfl
        rw [hat] at hk
        cases hk
  · refine (htook.veiled h hlead hname).trans ?_
    cases hlast with
    | unasked => exact .refl F D _
    | kept _ _ x after =>
      rw [after.tree, Workspace.commits_nil]
      exact .refl F D _
    | gone htrue _ c hfile x _ hkinds =>
      have hasked : asked = true := by
        rcases hgone with rfl | ⟨hfalse, -⟩
        · exact htrue
        · rw [htrue] at hfalse
          cases hfalse
      rw [hkinds]
      exact .update (hsource hasked) (by rw [hfile]; simp) (by simp)

/-- **Letting go** of a chunk that was handed over. -/
theorem letGo_veiled {e : Entry} (h : s.mode.Keeps F D l name) (hname : name ≠ []) (hroot : l.root ≠ .blank)
    {r : Except StoreError FileStore} (hrun : (s.letGo name (l.place name) e).run w = (r, v)) :
    Veiled F D w.tree.kind? v.tree.kind? := by
  rcases letGo_cases hname hroot hrun with ⟨err, -, rfl⟩ | ⟨-, -, htree⟩ | ⟨-, -, htree⟩ | ⟨after, -, hdropped⟩
  · exact .refl F D _
  · rw [htree]
    exact .refl F D _
  · rw [htree]
    exact .refl F D _
  · exact hdropped.veiled h hname

end FileStore

/-! ### Stores of any kind -/

namespace AnyStore

variable {F D : Key → Prop} {a a' b b' : AnyStore} {name content : Bytes} {t u : Tree} {taken : Bool}
  {w x : Workspace}

/-- The root of a store, if it has one, is a directory, and what it does for a chunk, it does at keys of `F` and
`D`. -/
def Keeps (F D : Key → Prop) (t : Tree) (a : AnyStore) (name : Bytes) : Prop :=
  ∀ m l, a.seat? = some (m, l) → t.leadsToDir l.root = true ∧ m.Keeps F D l name

theorem Keeps.file {s : FileStore} {l : Layout} (h : Keeps F D t (.file s) name) (hl : s.layout? = some l) :
    t.leadsToDir l.root = true ∧ s.mode.Keeps F D l name :=
  h _ _ (seat_file hl)

theorem Keeps.rooted (h : Keeps F D t a name) : a.Rooted :=
  Among.rooted (R := fun _ _ => True) fun m l hl => ⟨trivial, (h m l hl).1⟩

variable [FileSystem]

theorem Offered.veiled {outside : List Path} {offer : Bytes → Prop} (h : a.Offered name outside offer id t taken a' u)
    (ha : Keeps F D t a name) : Veiled F D t.kind? u.kind? := by
  cases h with
  | idle hu | fixed _ hu =>
    rw [hu]
    exact .refl F D _
  | grown hfile hl hu =>
    subst hfile
    exact FileStore.grown_veiled (ha.file hl).2 (ha.file hl).1 hu
  | withheld _ _ _ _ _ hu =>
    rw [hu]
    exact .refl F D _
  | took hname _ htook hu =>
    rw [hu]
    cases htook with
    | file hl htook => exact htook.veiled (ha.file hl).2 (ha.file hl).1 hname
    | memory => exact .refl F D _

/-- **A file** that a store is given. -/
theorem sink_storeFile_veiled {source : Path} {asked : Bool} (h : Keeps F D w.tree a name)
    (hsource : asked = true → F source.key)
    (hrun : Sink.storeFile a name source asked w = ((taken, a'), x)) : Veiled F D w.tree.kind? x.tree.kind? := by
  cases a with
  | file s =>
    obtain ⟨s', rfl, hsink⟩ := sink_file_inv hrun
    rcases hl : s.layout? with _ | l
    · obtain ⟨-, rfl, htree⟩ := FileStore.sink_uninitialized hl hsink
      rw [htree]
      exact .refl F D _
    · obtain ⟨hlead, hkeeps⟩ := h.file hl
      rcases FileStore.sink_file hl (Layout.root_ne_blank hlead) hsink with ⟨-, rfl, hgrown⟩ | ⟨-, hr⟩
      · exact FileStore.grown_veiled hkeeps hlead hgrown
      · exact FileStore.storeFile_veiled hkeeps hl hlead hsource hr
  | memory m =>
    obtain ⟨m', rfl, hsink⟩ := sink_memory_inv hrun
    rcases MemoryStore.sink_memory hsink with ⟨-, rfl, htree, -⟩ | ⟨c, -, hstat, -, hkinds⟩
    · rw [htree]
      exact .refl F D _
    · rw [hkinds]
      split
      · next hgone =>
        rw [Bool.and_eq_true] at hgone
        exact .update (hsource hgone.1) (by rw [FileStore.kind?_of_stat hstat]; simp) (by simp)
      · exact .refl F D _
  | fixed f =>
    cases hrun
    exact .refl F D _

/-- **Any call** but for clearing, where the files that it may change are at keys of `F`. -/
theorem call_veiled {c : Call} (hc : c ≠ .clear) (h : ∀ name ∈ c.name?, Keeps F D w.tree a name)
    (halters : ∀ q ∈ c.alters, F q.key) : Veiled F D w.tree.kind? (c.run a w).2.tree.kind? := by
  by_cases hfile : ∃ name source asked, c = .storeFile name source asked
  · obtain ⟨name, source, asked, rfl⟩ := hfile
    refine sink_storeFile_veiled (h name rfl) (fun hasked => halters source ?_) rfl
    rw [Call.alters, if_pos hasked]
    exact List.mem_cons_self
  have hpaths : ∀ q ∈ c.paths, F q.key := by
    cases c with
    | storeFile name source asked => exact absurd ⟨_, _, _, rfl⟩ hfile
    | _ => exact halters
  cases a with
  | file s =>
    rw [Call.run_file]
    rcases hl : s.layout? with _ | l
    · rw [(FileStore.call_uninitialized hl c w).2]
      exact .refl F D _
    by_cases hnamed : c.name? = none
    · rw [(FileStore.call_unnamed hnamed hc w).2]
      exact .refl F D _
    · obtain ⟨name, hname⟩ := Option.ne_none_iff_exists'.mp hnamed
      have hlead := ((h name hname).file hl).1
      refine (FileStore.call_imprint hl (Layout.root_ne_blank hlead) c (fun h => absurd h hc) fun q hq => ?_).veiled
        hnamed (fun name hname => ((h name hname).file hl).2) hlead hpaths
      cases c with
      | storeFile name source asked => exact absurd ⟨_, _, _, rfl⟩ hfile
      | _ => cases hq
  | memory m =>
    rw [Call.run_memory]
    exact .of_aside (m.call_aside c w) hpaths
  | fixed f =>
    rw [Call.run_fixed, (f.call_idle c w).2]
    exact .refl F D _

/-- **A move.** -/
theorem moveTo_veiled (ha : Keeps F D w.tree a name) (hb : Keeps F D w.tree b name) :
    Veiled F D w.tree.kind? (ChunkStore.moveTo a name b w).2.tree.kind? := by
  cases a with
  | file s =>
    rw [moveTo_file, FileStore.moveTo_apply]
    rcases hl : s.layout? with _ | l
    · rw [FileStore.moveTo_uninitialized hl]
      exact .refl F D _
    obtain ⟨hlead, hkeeps⟩ := ha.file hl
    have hroot := Layout.root_ne_blank hlead
    have hmove := FileStore.moveTo_run hl name b w
    rcases hm : s.moveTo name b w with ⟨⟨r, b'⟩, x⟩
    rw [hm] at hmove
    have hsource : ∀ e, name ≠ [] → s.mode.find (l.place name) w.tree = .ok (some e) → F e.path.key := by
      intro e hname hfind
      obtain ⟨file, content, found⟩ := Mode.find_eq_some (l.dir_place_ne_blank hroot name) (l.isStem_place hname) hfind
      rw [found.key (l.isStem_place hname)]
      exact hkeeps.file _ found.isFile.names
    cases hmove with
    | missing err => exact .refl F D _
    | refused hname e hfind b' x hsink =>
      have hsinks := sink_storeFile_veiled hb (fun _ => hsource e hname hfind) hsink
      exact hsinks
    | taken hname e hfind b' v hsink r x hletGo =>
      have hsinks := sink_storeFile_veiled hb (fun _ => hsource e hname hfind) hsink
      have hlast := hsinks.trans (FileStore.letGo_veiled hkeeps hname hroot hletGo)
      cases r with
      | error err => exact hlast
      | ok after => exact hlast
  | memory m =>
    rw [moveTo_memory]
    rcases hrun : ChunkStore.moveTo m name b w with ⟨⟨taken, m', b'⟩, x⟩
    have hhanded := MemoryStore.moveTo_handed hb.rooted hrun
    dsimp only
    generalize x.tree = u at hhanded ⊢
    cases hhanded with
    | missing hu =>
      rw [hu]
      exact .refl F D _
    | refused chunk hfind hoffered | deleted chunk hfind hoffered => exact hoffered.veiled hb
  | fixed f =>
    rw [moveTo_fixed]
    exact .refl F D _

theorem chunkPath_veiled (h : Keeps F D w.tree a name) (create : Bool) :
    Veiled F D w.tree.kind? (chunkPath name create a w).2.tree.kind? := by
  cases a with
  | file s =>
    show Veiled F D w.tree.kind? (s.chunkPath name create w).2.tree.kind?
    rcases hl : s.layout? with _ | l
    · rw [FileStore.chunkPath_uninitialized hl]
      exact .refl F D _
    · exact (FileStore.chunkPath_imprint hl name create w).veiled (by simp) (by simpa using (h.file hl).2) (h.file hl).1
        (by simp)
  | memory m => exact .refl F D _
  | fixed f => exact .refl F D _

/-- **Taking a root** that is there, or that can be made. -/
theorem start_veiled {root : Path} (h : ∀ k ∈ root.visits, w.tree.kind? k = some .dir ∨ D k) (depth : Nat) :
    Veiled F D w.tree.kind? (start root depth a w).2.tree.kind? := by
  cases a with
  | file s =>
    obtain ⟨v, hgrown, hstart⟩ := s.start_spec root depth w
    have htree : (start root depth (.file s) w).2 = v := by
      show (s.start root depth w).2 = v
      rcases hstart with hstart | ⟨hstart, -⟩ <;> rw [hstart]
    rw [htree]
    exact .of_grown hgrown h
  | memory m => exact .refl F D _
  | fixed f => exact .refl F D _

end AnyStore

/-! ### Deeds -/

namespace Deed

variable {F D : Key → Prop} {s : Session}

/-- What a deed does, it does at keys of `F` and `D`: the files that it is given and may change are at such keys, a
root is there or can be made there, and the stores keep their chunks there. -/
def Within (F D : Key → Prop) (s : Session) : Deed → Prop
  | start _ root _ => ∀ k ∈ root.visits, s.workspace.tree.kind? k = some .dir ∨ D k
  | call id c => c ≠ .clear ∧ (∀ q ∈ c.alters, F q.key) ∧
      ∀ a, s.store? id = some a → ∀ name ∈ c.name?, a.Keeps F D s.workspace.tree name
  | moveTo id name sinkId => ∀ other a, other = id ∨ other = sinkId → s.store? other = some a →
      a.Keeps F D s.workspace.tree name
  | chunkPath id name _ => ∀ a, s.store? id = some a → a.Keeps F D s.workspace.tree name

/-- **One deed** changes files at keys of `F` and makes directories at keys of `D`. -/
theorem veiled [FileSystem] {d : Deed} (h : d.Within F D s) :
    Veiled F D s.workspace.tree.kind? (d.run s).workspace.tree.kind? := by
  have hran := d.ran s
  generalize d.run s = s' at hran ⊢
  cases hran with
  | idle => exact .refl F D _
  | start id root depth a ha => exact AnyStore.start_veiled h depth
  | call id c a ha =>
    obtain ⟨hc, halters, hstore⟩ := h
    exact AnyStore.call_veiled hc (hstore a ha) halters
  | moveTo id name sinkId a b hne ha hb =>
    exact AnyStore.moveTo_veiled (h id a (Or.inl rfl) ha) (h sinkId b (Or.inr rfl) hb)
  | moveToSelf id name a ha =>
    show Veiled F D _ (ChunkStore.moveToSelf a name s.workspace).2.tree.kind?
    rw [a.moveToSelf_tree name s.workspace]
    exact .refl F D _
  | chunkPath id name create a ha => exact AnyStore.chunkPath_veiled (h a ha) create

end Deed

end ContentStore
