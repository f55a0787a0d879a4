import ContentStore.Proofs.Fewer
import ContentStore.Proofs.Outside
import ContentStore.Proofs.Shelf
import ContentStore.Proofs.Upkeep

/-!
# A store that has its root for itself

Such a store keeps its root so: `Alone.took`, `Alone.dropped`, `Alone.kept`.  As long as no path is too long
and nothing below the root is shut the file system refuses it nothing, so an operation fails for the reasons of
the store only: `Alone.find`, `Alone.store_ok`, `Alone.storeFile_ok`, `Alone.delete_ok`, `Alone.getToFile`,
`Alone.cleared`.
-/

namespace ContentStore

open Function (update)
open Decimal (wordLimit)
open FileSystem (shut Between Free Moves)

/-! ### Counts after an operation -/

namespace Tracker

/-- The counts after a content was taken in under a name. -/
def taken (t : Tracker) (content : Bytes) : Option Held → Tracker
  | none => t.add content.length
  | some _ => t

def dropped (t : Tracker) (m : Mode) : Option Held → Tracker
  | none => t
  | some held => if m.isCounted ∧ 1 < held.count then t else t.remove held.content.length

end Tracker

def Mode.next (m : Mode) : Option Held → Nat
  | none => 1
  | some held => if m.isCounted then held.count + 1 else 1

theorem Mode.carries_next {m : Mode} {held : Option Held} (h : m.next held < wordLimit) :
    m.Carries (m.next held) := by
  cases m with
  | plain => cases held <;> rfl
  | counted =>
    refine ⟨?_, h⟩
    cases held
    · exact Nat.one_pos
    · exact Nat.succ_pos _

namespace FileStore

variable {s s' : FileStore} {l : Layout} {name content : Bytes} {t u : Tree} {kinds : Key → Option Kind}
  {w : Workspace}

theorem Took.store [FileSystem] (hl : s.layout? = some l) (hname : name ≠ []) (h : Took s l name content t s' kinds) :
    s' = { s with tracker := s.tracker.taken content (s.held? t name) } := by
  cases h with
  | kept e old hmode hfind found => rw [held?_of_found hl hname hfind found, Tracker.taken]
  | recounted e file old hmode hfind found => rw [held?_of_found hl hname hfind found, Tracker.taken]
  | added hfind => rw [held?_of_find hl hname hfind, Tracker.taken]

theorem Dropped.store (hl : s.layout? = some l) (hname : name ≠ []) (h : Dropped s l name t s' kinds) :
    s' = { s with tracker := s.tracker.dropped s.mode (s.held? t name) } := by
  cases h with
  | absent hfind => rw [held?_of_find hl hname hfind, Tracker.dropped]
  | recounted e file old hmode hcount hfind found =>
    rw [held?_of_found hl hname hfind found, Tracker.dropped, if_pos ⟨by rw [hmode]; rfl, hcount⟩]
  | removed e file old hcount hfind found =>
    rw [held?_of_found hl hname hfind found, Tracker.dropped, if_neg (by simp [hcount])]

end FileStore

/-- A tree is as something left it, but for files outside a directory. -/
structure Keeps (d : Key) (kinds : Key → Option Kind) (u : Tree) : Prop where
  dir : ∀ k, kinds k = some .dir → u.kind? k = some .dir
  below : ∀ k, d <:+ k → u.kind? k = kinds k

namespace Keeps

variable {d k : Key} {kinds : Key → Option Kind} {u : Tree} {l : Layout}

theorem of_eq (h : u.kind? = kinds) : Keeps d kinds u := by
  subst h
  exact ⟨fun _ hk => hk, fun _ _ => rfl⟩

theorem of_update (hk : ¬ d <:+ k) (hdir : kinds k ≠ some .dir) {kind : Option Kind}
    (h : u.kind? = update kinds k kind) : Keeps d kinds u where
  dir j hj := by
    have hne : j ≠ k := by
      rintro rfl
      exact hdir hj
    rw [h, Function.update_of_ne hne, hj]
  below j hj := by
    have hne : j ≠ k := by
      rintro rfl
      exact hk hj
    rw [h, Function.update_of_ne hne]

theorem file (h : Keeps d kinds u) (k : Key) (c : Bytes) (hk : d <:+ k) :
    u.kind? k = some (.file c) ↔ kinds k = some (.file c) := by
  rw [h.below k hk]

theorem shelf {m : Mode} (h : Keeps l.root.key kinds u) (hlead : u.leadsToDir l.root = true)
    (hshelf : Shelf m l kinds) : Shelf m l u.kind? :=
  hshelf.congr (fun k hk _ => h.below k hk) (Tree.leadsToDir_iff.mp hlead).2.2

end Keeps

theorem Frame.outside {l : Layout} {name : Bytes} {t : Tree} {kinds : Key → Option Kind}
    (h : Frame l.root.key (l.place name).dir t.kind? kinds) (hlead : t.leadsToDir l.root = true) {k : Key}
    (hk : l.root.key <:+ k → k = l.root.key) : kinds k = t.kind? k := by
  obtain ⟨-, hwalk, hroot⟩ := Tree.leadsToDir_iff.mp hlead
  by_cases hroot' : k = l.root.key
  · rw [hroot', hroot]
    exact h.dir _ hroot
  have hout : ¬ l.root.key <:+ k := fun hs => hroot' (hk hs)
  rcases ht : t.kind? k with _ | _ | c
  · rcases hkinds : kinds k with _ | _ | c
    · rfl
    · exfalso
      rcases h.fresh k hkinds with hdir | hv
      · rw [ht] at hdir
        cases hdir
      · rw [l.dir_place, Path.mem_visits_below fun x hx => (Layout.isName_of_mem_shards hx).1] at hv
        rcases hv with hv | ⟨j, -, -, rfl⟩
        · rcases Tree.isDir_of_mem_visits hwalk hv with e | hdir
          · exact hroot' e
          · rw [ht] at hdir
            cases hdir
        · exact hout ⟨j, rfl⟩
    · rw [(h.file k c hout).mp hkinds] at ht
      cases ht
  · exact h.dir k ht
  · exact (h.file k c hout).mpr ht

variable [FileSystem]

namespace FileStore

variable {s s' : FileStore} {l : Layout} {name content : Bytes} {t u : Tree} {kinds : Key → Option Kind}
  {w : Workspace}

/-! ### A store and its root -/

/-- An initialized store, below whose root nobody else works and nothing is shut. -/
structure Alone (s : FileStore) (l : Layout) (t : Tree) : Prop where
  layout : s.layout? = some l
  lead : t.leadsToDir l.root = true
  clear : l.root.Avoids l.root.key
  single : s.mode.Single l.root.key t.kind?
  shelf : Shelf s.mode l t.kind?
  free : Free l.root.key

/-- A store whose root is an empty directory has it for itself, holds nothing, and a scan counts nothing.  No
path leads through what lies below an empty directory. -/
theorem alone_of_empty (hl : s.layout? = some l) (hfree : Free l.root.key) (hlead : t.leadsToDir l.root = true)
    (hnone : ∀ k, l.root.key <:+ k → k ≠ l.root.key → t.kind? k = none) :
    Alone s l t ∧ (∀ name, s.held? t name = none) ∧ Scan.count s.mode t l.root = .zero := by
  obtain ⟨-, hwalk, hroot⟩ := Tree.leadsToDir_iff.mp hlead
  have hclear : l.root.Avoids l.root.key := by
    intro k hk hbelow
    by_contra hne
    have hdir := (Tree.isDir_of_mem_visits hwalk hk).resolve_left hne
    rw [hnone k hbelow hne] at hdir
    cases hdir
  have hfile : ∀ k c, l.root.key <:+ k → t.kind? k ≠ some (.file c) := by
    intro k c hk
    by_cases hne : k = l.root.key
    · rw [hne, hroot]
      simp
    · rw [hnone k hk hne]
      simp
  have hsingle : s.mode.Single l.root.key t.kind? :=
    fun k stem f g i j x y hk hs hf hg hx hy => absurd hx (hfile _ x (hk.trans (List.suffix_cons f k)))
  refine ⟨⟨hl, hlead, hclear, hsingle, ?_, hfree⟩, fun name => ?_, ?_⟩
  · refine ⟨fun r hr hk => ?_, fun r c hk => absurd hk (hfile _ c ⟨r, rfl⟩)⟩
    rw [hnone _ ⟨r, rfl⟩ (by simpa using hr)] at hk
    cases hk
  · by_cases hname : name = []
    · rw [hname, held?_blank]
    · by_contra hheld
      obtain ⟨chunk, hchunk⟩ := Option.ne_none_iff_exists'.mp hheld
      obtain ⟨-, file, -, hk⟩ := (held?_eq_some_iff hl hname hlead hsingle).mp hchunk
      exact hfile _ _ (root_suffix_file l name file) hk
  · have hlists : Lists t.kind? l.root.key [] :=
      ⟨List.nodup_nil, fun r c => by simpa using hfile _ c ⟨r, rfl⟩⟩
    exact Scan.count_of_lists hlead s.mode hlists

/-- The next reference to a chunk can be counted, and the paths that storing it builds can be used. -/
structure Storable (s : FileStore) (l : Layout) (t : Tree) (name : Bytes) : Prop where
  count : s.mode.next (s.held? t name) < wordLimit
  usable : s.mode.Usable l name (s.mode.fileName (l.place name).stem (s.mode.next (s.held? t name)))
  hidden : ((l.place name).dir.join (Staging.hiddenName 0)).isTooLong = false

instance (s : FileStore) (l : Layout) (t : Tree) (name : Bytes) : Decidable (s.Storable l t name) :=
  decidable_of_iff (s.mode.next (s.held? t name) < wordLimit ∧
      s.mode.Usable l name (s.mode.fileName (l.place name).stem (s.mode.next (s.held? t name))) ∧
      ((l.place name).dir.join (Staging.hiddenName 0)).isTooLong = false)
    ⟨fun ⟨h, h', h''⟩ => ⟨h, h', h''⟩, fun ⟨h, h', h''⟩ => ⟨h, h', h''⟩⟩

namespace Storable

omit [FileSystem] in
theorem carries (h : Storable s l t name) : s.mode.Carries (s.mode.next (s.held? t name)) :=
  Mode.carries_next h.count

omit [FileSystem] in
theorem spells (h : Storable s l t name) : s.mode.Spells (l.place name) :=
  h.usable.spells (Mode.isFile_fileName _ h.carries)

end Storable

/-- Nothing is in the way of a content of that size: one more reference can be taken to the chunk if it is there, and
otherwise there is room for it and its file can be put in its directory. -/
structure Accepts (s : FileStore) (l : Layout) (w : Workspace) (name : Bytes) (size : Nat) : Prop where
  looks : ∃ o, s.mode.find (l.place name) w.tree = .ok o
  shares : ∀ e, s.mode.find (l.place name) w.tree = .ok (some e) →
    ∃ n v, (s.mode.acquire (l.place name) e).run w = (.ok n, v)
  room : s.mode.find (l.place name) w.tree = .ok none → s.tracker.ensureRoom size = .ok ()
  place : s.mode.find (l.place name) w.tree = .ok none →
    ∃ x, (Request.makeDirs (l.place name).dir).run w = (.ok (), x) ∧
      x.tree.Admits (Staging.hiddenPath x.tree (l.place name).dir) ∧ x.tree.Admits (s.mode.path (l.place name) 1) ∧
      Between (l.place name).dir.key (s.mode.path (l.place name) 1).key.tail

theorem Accepts.of_none (hname : name ≠ []) (hopen : shut (l.place name).dir.key = false)
    (hfind : s.mode.find (l.place name) w.tree = .ok none) {size : Nat}
    (hroom : s.tracker.ensureRoom size = .ok ()) {x : Workspace}
    (hmade : (Request.makeDirs (l.place name).dir).run w = (.ok (), x))
    (hhidden : x.tree.Admits (Staging.hiddenPath x.tree (l.place name).dir))
    (htarget : x.tree.Admits (s.mode.path (l.place name) 1)) : s.Accepts l w name size where
  looks := ⟨none, hfind⟩
  shares e he := by
    rw [hfind] at he
    cases he
  room _ := hroom
  place _ := ⟨x, hmade, hhidden, htarget, between_place hname hopen s.mode 1⟩

theorem Accepts.of_some {e : Entry} (hfind : s.mode.find (l.place name) w.tree = .ok (some e)) {size : Nat}
    (hacquire : ∃ n v, (s.mode.acquire (l.place name) e).run w = (.ok n, v)) : s.Accepts l w name size where
  looks := ⟨some e, hfind⟩
  shares e' he' := by
    rw [hfind] at he'
    cases he'
    exact hacquire
  room h0 := by simp [hfind] at h0
  place h0 := by simp [hfind] at h0

/-- A content is stored if nothing is in the way. -/
theorem Accepts.store (h : s.Accepts l w name content.length) (hl : s.layout? = some l) (hroot : l.root ≠ .blank)
    (hname : name ≠ []) (hcontent : content ≠ []) :
    ∃ s' v, (s.store name content).run w = (.ok s', v) := by
  have hrun := store_run hl name content w
  rcases hstore : (s.store name content).run w with ⟨r, v⟩
  rw [hstore] at hrun
  cases hrun with
  | emptyName h0 => exact absurd h0 hname
  | emptyContent _ h0 => exact absurd h0 hcontent
  | unreadable _ _ f hfind =>
    obtain ⟨o, ho⟩ := h.looks
    rw [hfind] at ho
    cases ho
  | unshared _ _ e hfind err v hacquire =>
    obtain ⟨n, x, hok⟩ := h.shares e hfind
    rw [hacquire] at hok
    cases hok
  | full _ _ hfind err hroom => simp [h.room hfind] at hroom
  | noDir _ _ hfind _ f u hdirs =>
    obtain ⟨x, hmade, -⟩ := h.place hfind
    rw [hdirs] at hmade
    cases hmade
  | unwritten _ _ hfind _ u hdirs err v hwrite =>
    obtain ⟨x, hmade, hadmits⟩ := h.place hfind
    rw [hdirs] at hmade
    cases hmade
    rcases Staging.write_spec (l.dir_place_ne_blank hroot name) (s.mode.path (l.place name) 1) content u with
      ⟨_, _, hno, -⟩ | ⟨hidden, hok, -⟩
    · exact absurd hadmits hno
    · rw [hwrite] at hok
      cases hok
  | shared => exact ⟨_, _, rfl⟩
  | stored => exact ⟨_, _, rfl⟩

theorem Accepts.storeFile (h : s.Accepts l w name content.length) (hl : s.layout? = some l)
    (hroot : l.root ≠ .blank) (hname : name ≠ []) {source : Path} (asked : Bool)
    (hsource : w.tree.stat source = .ok (.file content)) (hcontent : content ≠ []) :
    ∃ s' v, (s.storeFile name source asked).run w = (.ok s', v) := by
  have hsame : ∀ c, w.tree.stat source = .ok (.file c) → c = content := by
    intro c hc
    simpa [hsource] using hc.symm
  have hrun := storeFile_run hl name source asked w
  rcases hstore : (s.storeFile name source asked).run w with ⟨r, v⟩
  rw [hstore] at hrun
  cases hrun with
  | emptyName h0 => exact absurd h0 hname
  | noSource err h0 => exact absurd hsource (h0 content)
  | emptyContent h0 => exact absurd (hsame [] h0).symm hcontent
  | unreadable _ _ _ _ f hfind =>
    obtain ⟨o, ho⟩ := h.looks
    rw [hfind] at ho
    cases ho
  | unshared _ _ _ _ e hfind err v hacquire =>
    obtain ⟨n, x, hok⟩ := h.shares e hfind
    rw [hacquire] at hok
    cases hok
  | full _ c hc _ hfind err hroom =>
    rw [hsame c hc] at hroom
    simp [h.room hfind] at hroom
  | noDir _ _ _ _ hfind _ f u hdirs =>
    obtain ⟨x, hmade, -⟩ := h.place hfind
    rw [hdirs] at hmade
    cases hmade
  | uncopied _ _ _ _ hfind _ u hdirs _ err v hcopy =>
    obtain ⟨x, hmade, hadmits⟩ := h.place hfind
    rw [hdirs] at hmade
    cases hmade
    -- the source is still there after directories have been made
    have hgrown := makeDirs_grown hdirs
    have hkind := Tree.kind?_of_node? (Tree.stat_eq_ok_iff.mp hsource).2.2
    have hsource' : u.tree.stat source = .ok (.file content) :=
      Tree.stat_mono hsource (fun k => hgrown.dir) ((hgrown.file_iff _ _).mpr hkind)
    rcases Staging.copy_spec (l.dir_place_ne_blank hroot name) source (s.mode.path (l.place name) 1) u with
      ⟨_, _, hno, -⟩ | ⟨c, hidden, -, hok, -⟩
    · exact absurd ⟨⟨content, hsource'⟩, hadmits⟩ hno
    · rw [hcopy] at hok
      cases hok
  | shared => exact ⟨_, _, rfl⟩
  | renamed => exact ⟨_, _, rfl⟩
  | copied => exact ⟨_, _, rfl⟩

namespace Alone

theorem root_ne_blank (h : Alone s l t) : l.root ≠ .blank := Layout.root_ne_blank h.lead

/-- A chunk is found if it is held and not found otherwise, and the content of its file can be read. -/
theorem find (h : Alone s l t) (hname : name ≠ []) (hspells : s.mode.Spells (l.place name)) :
    (s.held? t name = none ∧ s.mode.find (l.place name) t = .ok none) ∨
    ∃ e file content, s.held? t name = some ⟨content, e.count⟩ ∧
      s.mode.find (l.place name) t = .ok (some e) ∧ s.mode.Found (l.place name) t e file content ∧
      t.stat e.path = .ok (.file content) :=
  h.shelf.find h.layout h.lead h.single hname hspells

/-- The next reference can be counted if the paths it builds can be used. -/
theorem countable (h : Alone s l t) (hname : name ≠ []) (hst : Storable s l t name) (e : Entry)
    (hmode : s.mode = .counted) (hfind : s.mode.find (l.place name) t = .ok (some e)) :
    e.count + 1 < wordLimit := by
  obtain ⟨file, old, found⟩ := Mode.find_eq_some (l.dir_place_ne_blank h.root_ne_blank name)
    (l.isStem_place hname) hfind
  have hlt := hst.count
  rw [held?_of_found h.layout hname hfind found, Mode.next, if_pos (by rw [hmode]; rfl)] at hlt
  exact hlt

/-! ### What keeps a store alone -/

theorem took (h : Alone s l t) (hname : name ≠ []) (hst : Storable s l t name)
    (htook : Took s l name content t s' kinds) (hu : Keeps l.root.key kinds u) : Alone s' l u := by
  have hs := htook.store h.layout hname
  have hlead := Tree.leadsToDir_mono h.lead fun k hk => hu.dir k ((htook.frame hname).dir k hk)
  have hsingle := htook.single hname h.lead h.single (h.countable hname hst)
  have hshelf := htook.shelf h.shelf h.clear hname hst.usable.deep (h.countable hname hst)
  rw [hs]
  exact ⟨h.layout, hlead, h.clear, hsingle.congr hu.file, hu.shelf hlead hshelf, h.free⟩

theorem dropped (h : Alone s l t) (hname : name ≠ []) (hdropped : Dropped s l name t s' kinds)
    (hu : Keeps l.root.key kinds u) : Alone s' l u := by
  have hs := hdropped.store h.layout hname
  have hlead := Tree.leadsToDir_mono h.lead fun k hk => hu.dir k ((hdropped.frame hname).dir k hk)
  have hsingle := hdropped.single hname h.single
  have hshelf := hdropped.shelf h.shelf
  rw [hs]
  exact ⟨h.layout, hlead, h.clear, hsingle.congr hu.file, hu.shelf hlead hshelf, h.free⟩

/-- What happens to files outside the root does not concern the store. -/
theorem kept (h : Alone s l t) (hu : Keeps l.root.key t.kind? u) :
    Alone s l u ∧ ∀ name, s.held? u name = s.held? t name := by
  have hlead := Tree.leadsToDir_mono h.lead hu.dir
  have hsingle := h.single.congr hu.file
  refine ⟨⟨h.layout, hlead, h.clear, hsingle, hu.shelf hlead h.shelf, h.free⟩, fun name => ?_⟩
  by_cases hname : name = []
  · rw [hname, held?_blank, held?_blank]
  · exact held?_congr h.layout h.layout rfl h.lead hlead h.single hsingle fun file n c _ =>
      hu.file _ c (root_suffix_file l name file)

/-! ### What succeeds -/

theorem acquire (h : Alone s l w.tree) (hst : Storable s l w.tree name) {e : Entry} {file old : Bytes}
    (hheld : s.held? w.tree name = some ⟨old, e.count⟩)
    (found : s.mode.Found (l.place name) w.tree e file old) (hstat : w.tree.stat e.path = .ok (.file old)) :
    ∃ n v, (s.mode.acquire (l.place name) e).run w = (.ok n, v) := by
  have hs := l.isStem_place hst.usable.ne_nil
  have hfile : w.tree.kind? e.path.key = some (.file old) := by
    rw [found.key hs]
    exact found.kind
  have hrun := Mode.acquire_run (m := s.mode) (l := l.place name) hfile
  rcases hacquire : (s.mode.acquire (l.place name) e).run w with ⟨r, v⟩
  rw [hacquire] at hrun
  cases hrun with
  | plain => exact ⟨_, _, rfl⟩
  | renamed => exact ⟨_, _, rfl⟩
  | refused hmode f hno =>
    have hnext : s.mode.next (s.held? w.tree name) = e.count + 1 := by
      rw [hheld, Mode.next, if_pos (by rw [hmode]; rfl)]
    have hadmits := h.shelf.admits found.dir hst.usable hst.carries
    rw [hnext] at hadmits
    have hmoves : Moves e.path.key (s.mode.path (l.place name) (e.count + 1)).key := by
      rw [found.key hs, l.key_path s.mode hst.usable.ne_nil]
      exact FileSystem.moves_within (h.free.shut_dir name) _ _
    exact absurd ⟨Tree.admits_of_stat hstat, hadmits, hmoves⟩ hno

/-- The directory of a chunk can be made, and a hidden file and then the chunk can be put in there. -/
theorem room (h : Alone s l w.tree) (hst : Storable s l w.tree name) (hheld : s.held? w.tree name = none) :
    ∃ v, (Request.makeDirs (l.place name).dir).run w = (.ok (), v) ∧
      v.tree.Admits (Staging.hiddenPath v.tree (l.place name).dir) ∧
      v.tree.Admits (s.mode.path (l.place name) 1) := by
  have husable := hst.usable
  rw [hheld, Mode.next] at husable
  have hlong := husable.dir_short (Mode.isFile_fileName _ s.mode.carries_one)
  obtain ⟨v, hrun, hdir⟩ := h.shelf.makeDirs h.free h.lead hlong
  have hshelf := h.shelf.grown h.clear hlong (makeDirs_grown hrun)
  exact ⟨v, hrun, hshelf.admits_hidden hdir hst.hidden, hshelf.admits hdir husable s.mode.carries_one⟩

/-- A content is accepted if the chunk is held already or there is room for it. -/
theorem accepts (h : Alone s l w.tree) (hname : name ≠ []) (hst : Storable s l w.tree name) {size : Nat}
    (hroom : s.held? w.tree name = none → s.tracker.ensureRoom size = .ok ()) : s.Accepts l w name size := by
  rcases h.find hname hst.spells with ⟨hheld, hfind⟩ | ⟨e, file, old, hheld, hfind, found, hstat⟩
  · obtain ⟨x, hmade, hhidden, htarget⟩ := h.room hst hheld
    exact .of_none hname (h.free.shut_dir name) hfind (hroom hheld) hmade hhidden htarget
  · exact .of_some hfind (h.acquire hst hheld found hstat)

theorem store_ok (h : Alone s l w.tree) (hname : name ≠ []) (hcontent : content ≠ [])
    (hst : Storable s l w.tree name)
    (hroom : s.held? w.tree name = none → s.tracker.ensureRoom content.length = .ok ()) :
    ∃ s' v, (s.store name content).run w = (.ok s', v) :=
  (h.accepts hname hst hroom).store h.layout h.root_ne_blank hname hcontent

theorem storeFile_ok (h : Alone s l w.tree) (hname : name ≠ []) {source : Path} (asked : Bool)
    (hsource : w.tree.stat source = .ok (.file content)) (hcontent : content ≠ [])
    (hst : Storable s l w.tree name)
    (hroom : s.held? w.tree name = none → s.tracker.ensureRoom content.length = .ok ()) :
    ∃ s' v, (s.storeFile name source asked).run w = (.ok s', v) :=
  (h.accepts hname hst hroom).storeFile h.layout h.root_ne_blank hname asked hsource hcontent

theorem delete_ok (h : Alone s l w.tree) (hspells : name ≠ [] → s.mode.Spells (l.place name)) :
    ∃ s' v, (s.delete name).run w = (.ok s', v) := by
  have hrun := delete_run h.layout name w
  rcases hdelete : (s.delete name).run w with ⟨r, v⟩
  rw [hdelete] at hrun
  cases hrun with
  | unreadable hname f h0 =>
    rcases h.find hname (hspells hname) with ⟨-, hfind⟩ | ⟨_, _, _, -, hfind, -⟩ <;> simp [hfind] at h0
  | refused hname e h0 err v hrelease =>
    exfalso
    rcases h.find hname (hspells hname) with ⟨-, hfind⟩ | ⟨g, file, old, -, hfind, found, hstat⟩
    · simp [hfind] at h0
    rw [hfind] at h0
    cases h0
    have hs := l.isStem_place hname
    by_cases hshared : s.mode = .counted ∧ 1 < e.count
    · have hno := h.shelf.tidy.not_counted hname (e.count - 1)
      rw [← hshared.1] at hno
      obtain ⟨u, hok⟩ := Mode.release_shared (h.free.shut_dir name) (l.dir_place_ne_blank h.root_ne_blank name) hs found
        (Tree.admits_of_stat hstat) hshared.2 hno
      rw [hok] at hrelease
      cases hrelease
    · have hfile : w.tree.kind? e.path.key = some (.file old) := by
        rw [found.key hs]
        exact found.kind
      have hspec := Mode.release_run (m := s.mode) (l := l.place name) hfile
      rw [hrelease] at hspec
      cases hspec with
      | refused f hmode hcount => exact hshared ⟨hmode, hcount⟩
      | kept f hcount hno => exact hno (found.unshut hname h.free) hstat
  | emptyName | absent | dropped | removed => exact ⟨_, _, rfl⟩

/-! ### What the store refuses -/

theorem store_full (h : Alone s l w.tree) (hname : name ≠ []) (hcontent : content ≠ [])
    (hspells : s.mode.Spells (l.place name)) (hheld : s.held? w.tree name = none) {err : StoreError}
    (hroom : s.tracker.ensureRoom content.length = .error err) :
    (s.store name content).run w = (.error err, w) := by
  have hfind : s.mode.find (l.place name) w.tree = .ok none := by
    rcases h.find hname hspells with ⟨-, hfind⟩ | ⟨_, _, _, hsome, -⟩
    · exact hfind
    · rw [hheld] at hsome
      cases hsome
  have hrun := store_run h.layout name content w
  rcases hstore : (s.store name content).run w with ⟨r, v⟩
  rw [hstore] at hrun
  cases hrun <;> simp_all

/-- A file is refused if it is not there or if its content would be. -/
theorem storeFile_refused (h : Alone s l w.tree) {source : Path} (asked : Bool)
    (hrefused : ∀ c, w.tree.stat source = .ok (.file c) → name = [] ∨ c = [] ∨
      s.mode.Spells (l.place name) ∧ s.held? w.tree name = none ∧ s.tracker.ensureRoom c.length ≠ .ok ()) :
    ∃ e, (s.storeFile name source asked).run w = (.error e, w) := by
  have hrun := storeFile_run h.layout name source asked w
  rcases hstore : (s.storeFile name source asked).run w with ⟨r, v⟩
  rw [hstore] at hrun
  have hfull : ∀ c, name ≠ [] → c ≠ [] → w.tree.stat source = .ok (.file c) →
      s.mode.find (l.place name) w.tree = .ok none ∧ s.tracker.ensureRoom c.length ≠ .ok () := by
    intro c hname hcontent hc
    rcases hrefused c hc with h0 | h0 | ⟨hspells, hheld, hroom⟩
    · exact absurd h0 hname
    · exact absurd h0 hcontent
    · rcases h.find hname hspells with ⟨-, hfind⟩ | ⟨_, _, _, hsome, -⟩
      · exact ⟨hfind, hroom⟩
      · rw [hheld] at hsome
        cases hsome
  cases hrun with
  | emptyName | noSource | emptyContent | unreadable | full => exact ⟨_, rfl⟩
  | unshared hname c hc hcontent e h0 => simp [(hfull c hname hcontent hc).1] at h0
  | shared hname c hc hcontent e h0 => simp [(hfull c hname hcontent hc).1] at h0
  | noDir hname c hc hcontent _ h0 => exact absurd h0 (hfull c hname hcontent hc).2
  | renamed hname c hc hcontent _ h0 => exact absurd h0 (hfull c hname hcontent hc).2
  | uncopied hname c hc hcontent _ h0 => exact absurd h0 (hfull c hname hcontent hc).2
  | copied hname c hc hcontent _ h0 => exact absurd h0 (hfull c hname hcontent hc).2

/-- The content of a chunk can be written to a file outside if a file can be put there and its directory is not
shut; otherwise all files stay as they are. -/
theorem getToFile (h : Alone s l w.tree) (hspells : name ≠ [] → s.mode.Spells (l.place name)) {target : Path}
    (hout : ¬ l.root.key <:+ target.key)
    (hhidden : s.held? w.tree name ≠ none →
      (Staging.hiddenPath w.tree (stagingDir target)).isTooLong = false ∧
        (Staging.freeName (Staging.taken w.tree (stagingDir target))).length ≤ nameLimit) :
    (s.held? w.tree name = none ∧ ∃ e, (s.getToFile name target).run w = (.error e, w)) ∨
    ∃ held v, s.held? w.tree name = some held ∧
      ((¬ (w.tree.Admits target ∧ shut target.key.tail = false) ∧ v.tree.kind? = w.tree.kind? ∧
          ∃ e, (s.getToFile name target).run w = (.error e, v)) ∨
        ((w.tree.Admits target ∧ shut target.key.tail = false) ∧
          v.tree.kind? = update w.tree.kind? target.key (some (.file held.content)) ∧
          (s.getToFile name target).run w = (.ok (), v))) := by
  have hrun := getToFile_run h.layout name target w
  rcases hget : (s.getToFile name target).run w with ⟨r, v⟩
  rw [hget] at hrun
  by_cases hname : name = []
  · subst hname
    cases hrun with
    | missing err => exact Or.inl ⟨held?_blank s w.tree, err, rfl⟩
    | same h0 | uncopied h0 | copied h0 => exact absurd rfl h0
  have hrequire := require_run h.layout name w
  rcases h.find hname (hspells hname) with ⟨hheld, hfind⟩ | ⟨e, file, old, hheld, hfind, found, hstat⟩
  · cases hrun with
    | missing err => exact Or.inl ⟨hheld, err, rfl⟩
    | same _ e h0 => simp [hfind] at h0
    | uncopied _ e h0 => simp [hfind] at h0
    | copied _ e h0 => simp [hfind] at h0
  · right
    have hkey := found.key (l.isStem_place hname)
    have hkind : w.tree.kind? e.path.key = some (.file old) := by
      rw [hkey]
      exact found.kind
    obtain ⟨hlong, hlen⟩ := hhidden (by simp [hheld])
    have hadmits : w.tree.Admits target ∧ shut target.key.tail = false →
        w.tree.Admits (Staging.hiddenPath w.tree (stagingDir target)) ∧
        w.tree.Admits target ∧ Between (stagingDir target).key target.key.tail := by
      intro ⟨ht, hopen⟩
      obtain ⟨hlead, hstaging⟩ := ht.stagingDir
      exact ⟨Staging.admits_hiddenPath hlead hlong hlen, ht, hstaging ▸ hopen, hopen, by rw [hstaging]⟩
    have hcopy := Staging.copy_spec (stagingDir_ne_blank target) e.path target w
    cases hrun with
    | missing err h0 =>
      rw [h0] at hrequire
      cases hrequire with
      | emptyName h1 => exact absurd h1 hname
      | unreadable _ f h1 => simp [hfind] at h1
      | absent _ h1 => simp [hfind] at h1
    | same _ g h0 hsame =>
      -- the file of the chunk lies below the root
      rw [hfind] at h0
      cases h0
      rw [← Tree.key_eq_of_sameFile hsame, hkey] at hout
      exact absurd (root_suffix_file l name file) hout
    | uncopied _ g h0 hsame err v h1 =>
      rw [hfind] at h0
      cases h0
      rw [h1] at hcopy
      rcases hcopy with ⟨_, cs, hno, -, hrun, hkinds⟩ | ⟨c, hidden, -, hrun, -⟩
      · cases hrun
        exact ⟨_, _, hheld, Or.inl ⟨fun ht => hno ⟨⟨old, hstat⟩, hadmits ht⟩, hkinds, err, rfl⟩⟩
      · cases hrun
    | copied _ g h0 hsame n v h1 =>
      rw [hfind] at h0
      cases h0
      rw [h1] at hcopy
      rcases hcopy with ⟨_, cs, -, -, hrun, -⟩ | ⟨c, hidden, hc, hrun, ⟨-, hopen, -⟩, hplaced⟩
      · cases hrun
      · cases hrun
        obtain rfl : c = old := by simpa [hstat] using hc.symm
        exact ⟨_, _, hheld, Or.inr ⟨⟨hplaced.admits, hopen⟩, hplaced.kinds, rfl⟩⟩

/-- A store that is cleared holds nothing and counts nothing, and nothing else has changed. -/
theorem cleared (h : Alone s l w.tree) :
    ∃ v : Workspace, (ChunkStore.clear s w).2.tree = v.tree ∧
      (ChunkStore.clear s w).1 = { s with tracker := s.tracker.clear } ∧
      Alone { s with tracker := s.tracker.clear } l v.tree ∧ (∀ name, s.held? v.tree name = none) ∧
      Pruned l.root.key w.tree v.tree := by
  obtain ⟨hc, -, hroot⟩ := Tree.leadsToDir_iff.mp h.lead
  have hzero := Path.zero_notMem_of_check hc
  have hentry : ∀ x, w.tree.kind? (x :: l.root.key) ≠ none →
      Path.IsName x ∧ (l.root.join x).check = .ok () ∧ x.length ≤ nameLimit := by
    intro x hx
    rcases hk : w.tree.kind? (x :: l.root.key) with _ | _ | c
    · exact absurd hk hx
    · obtain ⟨hdigit, -, hlong⟩ := h.shelf.dir [x] (by simp) hk
      obtain ⟨b, rfl, hb⟩ := hdigit x (by simp)
      obtain ⟨hn, hn0⟩ := Mode.isName_stem (Layout.isStem_of_digit hb)
      exact ⟨hn, Path.check_join hn hzero hn0 hlong, by simp [nameLimit]⟩
    · obtain ⟨name, n, file, husable, hfile, e⟩ := h.shelf.file [x] c hk
      obtain ⟨rfl, hshards⟩ := List.cons.inj e
      obtain ⟨hn, hn0⟩ := hfile.isName (l.isStem_place husable.ne_nil)
      have hshort := husable.short
      rw [l.dir_place, ← hshards] at hshort
      exact ⟨hn, Path.check_join hn hzero hn0 hshort, husable.length⟩
  obtain ⟨v, hrun, hpruned, hnone⟩ := Request.emptyDir_all h.free h.lead h.clear hentry
  obtain ⟨hstore, htree⟩ := clear_spec h.layout hrun
  have hlead := hpruned.leadsToDir h.clear h.lead
  obtain ⟨-, hheld, hcount⟩ := alone_of_empty h.layout h.free hlead hnone
  obtain ⟨halone, -, -⟩ :=
    alone_of_empty (s := { s with tracker := s.tracker.clear }) h.layout h.free hlead hnone
  refine ⟨v, htree, ?_, halone, hheld, hpruned⟩
  rw [hstore, hcount]
  rfl

end Alone

end FileStore

end ContentStore
