import ContentStore.Proofs.Answers
import ContentStore.Proofs.Belongs
import ContentStore.Proofs.Passing
import ContentStore.Proofs.Sessions

/-!
# Storing from a file of the store itself

A store may be given one of its own files to store from.  If that is the file of another chunk and it is
to be removed, the other chunk is gone, but it is still counted: `counts_after_own_source`.  The file of
the chunk itself is never removed.
-/

namespace ContentStore

open Decimal (wordLimit)
open FileSystem (shut)
open Function (update)

namespace FileStore

variable {s : FileStore} {l : Layout} {w v : Workspace}

theorem found_of_require (hl : s.layout? = some l) {name : Bytes} {location : Location} {e : Entry}
    (h : (s.require name).run w = (.ok (location, e), v)) :
    name ≠ [] ∧ location = l.place name ∧ s.mode.find (l.place name) w.tree = .ok (some e) ∧ v = w := by
  have hrun := require_run hl name w
  rw [h] at hrun
  cases hrun with
  | present hname e hfind => exact ⟨hname, rfl, hfind, rfl⟩

/-! ### The file of another chunk -/

theorem far_of_found {a b : Bytes} (hne : a ≠ b) (ha : a ≠ []) (hb : b ≠ []) {t : Tree} {e : Entry}
    {file old : Bytes} (found : s.mode.Found (l.place a) t e file old) (other : Bytes)
    (hother : s.mode.Names (l.place b).stem other) : e.path.key ≠ other :: (l.place b).dir.key := by
  rw [found.key (l.isStem_place ha)]
  exact fun h => hne ((found.belongs ha).name_eq (h ▸ l.belongs hb hother))

/-- **A chunk file as the source of another chunk.**  If it is left alone, or the call fails, the counts are
what a scan of the root counts, as before.  If the call succeeds and has removed its source, as it was asked to,
the counts still hold the chunk that it has taken the file of: they are one chunk of that size more. -/
theorem counts_after_own_source [FileSystem] {a b : Bytes} {location : Location} {e : Entry}
    {r : Except StoreError FileStore} (hs : s.Rooted) (hl : s.layout? = some l)
    (hsingle : s.mode.Single l.root.key w.tree.kind?)
    (hcounts : s.tracker.totals = (Scan.run s.mode l.root w).1) (hsize : s.tracker.size + e.size < wordLimit)
    (hne : a ≠ b) (ha : (s.require a).run w = (.ok (location, e), w))
    (hshare : ∀ old, s.mode.find (l.place b) w.tree = .ok (some old) → old.count + 1 < wordLimit) (asked : Bool)
    (h : (s.storeFile b e.path asked).run w = (r, v)) :
    (∀ err, r = .error err → s.tracker.totals = (Scan.run s.mode l.root v).1) ∧
    ∀ s', r = .ok s' → s'.tracker.totals =
      if asked && !shut e.path.key.tail then (Totals.one e.size).add (Scan.run s.mode l.root v).1
      else (Scan.run s.mode l.root v).1 := by
  rw [(Scan.run_spec _ _ _).1] at hcounts ⊢
  obtain ⟨haname, rfl, hfind, -⟩ := found_of_require hl ha
  have hroot := hs l hl
  have hstem := l.isStem_place haname
  obtain ⟨file, old, found⟩ := Mode.find_eq_some (l.dir_place_ne_blank hroot a) hstem hfind
  have hlead := Layout.leadsToDir_root hroot found.dir
  have hkey := found.key hstem
  have haccounts := accounts_of_count hlead hsingle hcounts
  refine ⟨fun err hr => ?_, fun s' hr => ?_⟩ <;> subst hr
  · have hgrown := (storeFile_error hl hroot h).grown
    exact (haccounts.congr fun k c _ => hgrown.file_iff k c).count (Tree.leadsToDir_mono hlead fun _ => hgrown.dir)
  · have hb : b ≠ [] := (storeFile_taken hl hroot h).1
    have hfar := far_of_found hne haname hb found
    obtain ⟨-, content, kinds, -, hstat, htook, hkinds⟩ := storeFile_took_far hl hroot hfar h
    obtain ⟨-, -, -, -, -, -, hdirs⟩ := storeFile_fewer hl hroot h
    have hlead' := Tree.leadsToDir_mono hlead hdirs
    have hkind := kind?_of_stat hstat
    rw [hkey, found.kind] at hkind
    cases hkind
    have hafter : Accounts s' l kinds := by
      refine htook.accounts hb hlead haccounts (fun e _ he => hshare e he) fun xs hxs => ?_
      have := htook.size_le hb hlead haccounts (fun e _ he => hshare e he) hxs
      rw [found.size] at hsize
      omega
    obtain ⟨-, hmode⟩ := htook.same
    cases hgone : asked && !shut e.path.key.tail with
    | false =>
      rw [hgone, if_neg (by simp)] at hkinds
      rw [if_neg (by simp)]
      rw [← hkinds] at hafter
      rw [← hmode]
      exact hafter.count hlead'
    | true =>
      rw [hgone, if_pos rfl, hkey] at hkinds
      rw [if_pos rfl]
      have hstill : kinds (file :: (l.place a).dir.key) = some (.file old) := by
        rw [← hkey]
        exact (htook.file_iff hfar _).mpr (kind?_of_stat hstat)
      have hlong : ((l.place a).dir.join file).isTooLong = false := by
        rw [← found.path]
        exact (Path.check_eq_ok_iff.mp (Tree.stat_eq_ok_iff.mp hstat).1).2.2
      have hfile := found.isFile
      rw [← hmode] at hfile
      have hforgotten := hafter.forget haname hfile hlong hstill
      rw [← hkinds] at hforgotten
      rw [hafter.counted haname hfile hlong hstill, found.size, ← hmode]
      exact congrArg _ (hforgotten.count hlead')

end FileStore

namespace Robbed

/-- A plain store that has stored one chunk. -/
def session : Session :=
  [.start "a" (Path.ofText "r") 0, .call "a" (.store [97] [1, 2])].foldl Deed.run
    ⟨[("a", .file (.new false (.ofDigest id)))], .bare⟩

/-- The same store, which has then been given the file of that chunk to store another one from. -/
def robbed : Session := Deed.run session (.call "a" (.storeFile [98] (Path.ofText "r/61") true))

def store : FileStore := ⟨.plain, .ofDigest id, some ⟨Path.ofText "r", 0⟩, ⟨0, 1, 2⟩⟩

end Robbed

/-- A plain store with one chunk of two bytes is given the file of that chunk to store another one, and to remove it:
it counts one chunk of two bytes more than there is. -/
theorem counts_after_own_source_robbed :
    ((Robbed.store.storeFile [98] (Path.ofText "r/61") true).run Robbed.session.workspace).1.isOk = true ∧
    ∀ s', ((Robbed.store.storeFile [98] (Path.ofText "r/61") true).run Robbed.session.workspace).1 = .ok s' →
      s'.tracker.totals = (Totals.one 2).add (Scan.run .plain (Path.ofText "r")
        ((Robbed.store.storeFile [98] (Path.ofText "r/61") true).run Robbed.session.workspace).2).1 := by
  have hfind : (Robbed.store.require [97]).run Robbed.session.workspace =
      (.ok (⟨Path.ofText "r", [54, 49]⟩, ⟨Path.ofText "r/61", 1, 2⟩), Robbed.session.workspace) :=
    Prod.ext (by decide +kernel) (Robbed.store.require_same [97] _)
  have hnone : ∀ old, Robbed.store.mode.find (Layout.place ⟨Path.ofText "r", 0⟩ [98])
      Robbed.session.workspace.tree = .ok (some old) → old.count + 1 < wordLimit := by
    have hno : Robbed.store.mode.find (Layout.place ⟨Path.ofText "r", 0⟩ [98])
        Robbed.session.workspace.tree = .ok none := by decide +kernel
    intro old hold
    rw [hno] at hold
    cases hold
  have hrooted : Robbed.store.Rooted := by
    intro l hl
    cases hl
    decide
  exact ⟨by decide +kernel, (FileStore.counts_after_own_source (l := ⟨Path.ofText "r", 0⟩) hrooted rfl
    (Mode.single_plain _ _) (by decide +kernel) (by decide +kernel) (by decide) hfind hnone true rfl).2⟩

/-- After the store was given the file of its only chunk to store another one from, it counts two chunks and
holds one. -/
theorem own_source_counted_robbed :
    (Robbed.session.store? "a").map AnyStore.totals = some ⟨1, 2⟩ ∧
    (Scan.run .plain (Path.ofText "r") Robbed.session.workspace).1 = ⟨1, 2⟩ ∧
    (Robbed.robbed.store? "a").map AnyStore.totals = some ⟨2, 4⟩ ∧
    (Scan.run .plain (Path.ofText "r") Robbed.robbed.workspace).1 = ⟨1, 2⟩ := by
  decide +kernel

namespace Mode.Found

variable {m : Mode} {l : Location} {t : Tree} {e : Entry} {file content : Bytes} {p : Path}

theorem length_le (found : m.Found l t e file content) (hs : isStem l.stem = true)
    (hp : t.canonical? p = some e.path.key) : file.length ≤ nameLimit := by
  have hto := (Tree.canonical?_eq_some hp).2
  rw [found.key hs] at hto
  exact Tree.length_le_of_walk hto (by simp) (by rw [found.kind]; simp)

/-- A chunk file is the same as any path that resolves to it, however long its own path is. -/
theorem sameFile (found : m.Found l t e file content) (hs : isStem l.stem = true)
    (hp : t.canonical? p = some e.path.key) : t.sameFile e.path p = true := by
  have hname := (found.isFile.isName hs).1
  obtain ⟨-, hwalk, hdir⟩ := Tree.leadsToDir_iff.mp found.dir
  have hkey := found.key hs
  have hlen := found.length_le hs hp
  refine Tree.sameFile_of_canonical (Tree.canonical?_of_walk ?_ ?_) hp
  · rw [found.path]
    exact Path.join_ne_blank _ hname
  · rw [hkey, found.path, Path.pieces_join _ hname, Tree.walk_concat, Tree.walk_base hwalk]
    exact Tree.stepFrom_eq_ok_iff.mpr ⟨hdir, hlen, (hname.step _).symm, by rw [found.kind]; simp⟩

end Mode.Found

namespace FileStore

variable {s : FileStore} {l : Layout} {name file old : Bytes} {e : Entry} {p : Path} {t : Tree} {w v : Workspace}

/-- Nothing is in the way of one more reference to a chunk that was found.  Its file is not empty, can be
reached by its own path, and is the only one of the chunk in its directory; the name that it gets can be
counted and is not too long, no directory has it, and the directory of the file is not shut to a counted
store. -/
structure Extensible [FileSystem] (s : FileStore) (l : Layout) (name : Bytes) (t : Tree) (e : Entry) : Prop where
  filled : 0 < e.size
  short : e.path.isTooLong = false
  only : s.mode.Only (l.place name) e.path.key t.kind?
  count : s.mode.next (s.held? t name) < wordLimit
  next : s.mode.Short (l.place name) (s.mode.next (s.held? t name))
  free : t.kind? (s.mode.path (l.place name) (s.mode.next (s.held? t name))).key ≠ some .dir
  unshut : s.mode = .counted → shut (l.place name).dir.key = false

/-- What stands at each key after one more reference to a chunk that was found. -/
def extended (s : FileStore) (l : Layout) (name : Bytes) (t : Tree) (e : Entry) : Key → Option Kind :=
  update (update t.kind? e.path.key none) (s.mode.path (l.place name) (s.mode.next (s.held? t name))).key
    (t.kind? e.path.key)

namespace Extensible

variable [FileSystem] (h : Extensible s l name t e)
include h

theorem stat (hname : name ≠ []) (found : s.mode.Found (l.place name) t e file old)
    (hlen : file.length ≤ nameLimit) : t.stat e.path = .ok (.file old) := by
  obtain ⟨hfile, h0⟩ := found.isFile.isName (l.isStem_place hname)
  have hzero := Path.zero_notMem_of_check (Tree.leadsToDir_iff.mp found.dir).1
  have hshort := h.short
  rw [found.path] at hshort ⊢
  exact Tree.stat_join hfile (Path.check_join hfile hzero h0 hshort) hlen found.dir found.kind

theorem admits (hname : name ≠ []) (found : s.mode.Found (l.place name) t e file old) :
    t.Admits (s.mode.path (l.place name) (s.mode.next (s.held? t name))) := by
  obtain ⟨hnew, h0⟩ := s.mode.isName_fileName (l.isStem_place hname) (s.mode.next (s.held? t name))
  have hzero := Path.zero_notMem_of_check (Tree.leadsToDir_iff.mp found.dir).1
  have hshort := h.next.1
  have hfree := h.free
  rw [l.key_path s.mode hname] at hfree
  rw [Mode.path_eq] at hshort ⊢
  exact Tree.admits_join hnew (Path.check_join hnew hzero h0 hshort) h.next.2 found.dir hfree

end Extensible

/-- **One more reference** to a chunk that was found is taken, if nothing is in the way. -/
theorem acquire_extends [FileSystem] (hl : s.layout? = some l) (hroot : l.root ≠ .blank) (hname : name ≠ [])
    (hfind : s.mode.find (l.place name) w.tree = .ok (some e)) (hfree : Extensible s l name w.tree e)
    (hp : w.tree.canonical? p = some e.path.key) :
    ∃ n v, (s.mode.acquire (l.place name) e).run w = (.ok n, v) ∧ v.tree.kind? = s.extended l name w.tree e := by
  have hs := l.isStem_place hname
  obtain ⟨file, old, found⟩ := Mode.find_eq_some (l.dir_place_ne_blank hroot name) hs hfind
  have hkind := found.kind
  rw [← found.key hs] at hkind
  have hopen := Tree.admits_of_stat (hfree.stat hname found (found.length_le hs hp))
  have hadmits := hfree.admits hname found
  have hrun := Mode.acquire_run (m := s.mode) (l := l.place name) hkind
  rcases hacquire : (s.mode.acquire (l.place name) e).run w with ⟨r, v⟩
  rw [hacquire] at hrun
  rw [held?_of_found hl hname hfind found] at hadmits
  unfold extended
  rw [held?_of_found hl hname hfind found]
  cases hrun with
  | plain hmode =>
    have hpath : s.mode.path (l.place name) (s.mode.next (some ⟨old, e.count⟩)) = e.path := by
      have hstem := found.isFile
      rw [hmode] at hstem ⊢
      rw [found.path, hstem.1]
      rfl
    refine ⟨_, w, rfl, ?_⟩
    rw [hpath, Function.update_idem, Function.update_eq_self]
  | refused hmode f hno =>
    rw [Mode.next, if_pos (by rw [hmode]; rfl)] at hadmits
    refine absurd ⟨hopen, hadmits, ?_⟩ hno
    rw [found.key hs, l.key_path s.mode hname]
    exact FileSystem.moves_within (hfree.unshut hmode) _ _
  | renamed hmode v after hold moved =>
    refine ⟨_, v, rfl, ?_⟩
    rw [Mode.next, if_pos (by rw [hmode]; rfl), moved.kinds, hkind]

/-- **Storing from the file of the chunk itself** takes one more reference and removes nothing. -/
theorem storeFile_ownFile [FileSystem] (hl : s.layout? = some l) (hroot : l.root ≠ .blank) (hname : name ≠ [])
    (hfind : s.mode.find (l.place name) w.tree = .ok (some e)) (hfree : Extensible s l name w.tree e)
    (hp : w.tree.canonical? p = some e.path.key) (hcheck : p.check = .ok ()) (asked : Bool) :
    ∃ v, (s.storeFile name p asked).run w = (.ok s, v) ∧ v.tree.kind? = s.extended l name w.tree e := by
  have hs := l.isStem_place hname
  obtain ⟨file, old, found⟩ := Mode.find_eq_some (l.dir_place_ne_blank hroot name) hs hfind
  obtain ⟨n, u, hacquire, hkinds⟩ := acquire_extends hl hroot hname hfind hfree hp
  obtain ⟨hkey, hwalk⟩ := Tree.canonical?_eq_some hp
  have hkind := found.kind
  rw [← found.key hs, hkey] at hkind
  have hstat : w.tree.stat p = .ok (.file old) :=
    Tree.stat_eq_ok_iff.mpr ⟨hcheck, hkey ▸ hwalk, Tree.node?_of_kind?_file hkind⟩
  have hrun := storeFile_run hl name p asked w
  rcases hstored : (s.storeFile name p asked).run w with ⟨r, v⟩
  rw [hstored] at hrun
  cases hrun with
  | emptyName hno => exact absurd hno hname
  | noSource err hno => exact absurd hstat (hno old)
  | emptyContent hempty =>
    rw [hstat] at hempty
    cases hempty
    exact absurd hfree.filled (by rw [found.size]; simp)
  | unshared _ c hc hcontent e' hfind' err v hrefused =>
    rw [hfind] at hfind'
    cases hfind'
    rw [hacquire] at hrefused
    cases hrefused
  | shared _ c hc hcontent e' hfind' n' v x hacquire' hlast =>
    rw [hfind] at hfind'
    cases hfind'
    rw [hacquire] at hacquire'
    cases hacquire'
    rw [found.sameFile hs hp, Bool.not_true, Bool.and_false] at hlast
    cases hlast with
    | unasked => exact ⟨u, rfl, hkinds⟩
    | kept h => cases h
    | gone h => cases h
  | unreadable _ c hc hcontent f hfind' | full _ c hc hcontent hfind' | noDir _ c hc hcontent hfind'
  | renamed _ c hc hcontent hfind' | uncopied _ c hc hcontent hfind' | copied _ c hc hcontent hfind' =>
    rw [hfind] at hfind'
    cases hfind'

theorem find_extended [FileSystem] (hroot : l.root ≠ .blank) (hname : name ≠ [])
    (hfind : s.mode.find (l.place name) t = .ok (some e)) (hfree : Extensible s l name t e)
    (found : s.mode.Found (l.place name) t e file old) {u : Tree} (hu : u.kind? = s.extended l name t e) :
    ∃ e', s.mode.find (l.place name) u = .ok (some e') ∧ e'.count = s.mode.next (s.held? t name) ∧
      u.stat e'.path = .ok (.file old) := by
  have hs := l.isStem_place hname
  obtain ⟨hnew, h0⟩ := s.mode.isName_fileName hs (s.mode.next (s.held? t name))
  have hkind := found.kind
  rw [← found.key hs] at hkind
  have hfreeKey := hfree.free
  rw [l.key_path s.mode hname] at hfreeKey
  rw [extended, l.key_path s.mode hname, hkind] at hu
  obtain ⟨hlead, hfound⟩ := find_of_renamed hname (fits_of_find hname hroot hfind) found.dir hkind hfree.only
    (Mode.carries_next hfree.count) hfreeKey hu
  refine ⟨_, hfound, rfl, ?_⟩
  have hshort := hfree.next.1
  rw [Mode.path_eq] at hshort ⊢
  exact Tree.stat_join hnew
    (Path.check_join hnew (Path.zero_notMem_of_check (Tree.leadsToDir_iff.mp hlead).1) h0 hshort)
    hfree.next.2 hlead (by rw [hu, Function.update_self])

theorem Extensible.vacant [FileSystem] (h : Extensible s l name t e) (hname : name ≠ [])
    (hne : (s.mode.path (l.place name) (s.mode.next (s.held? t name))).key ≠ e.path.key) :
    t.kind? (s.mode.path (l.place name) (s.mode.next (s.held? t name))).key = none := by
  have hfree := h.free
  rw [l.key_path s.mode hname] at hne hfree ⊢
  rcases hk : t.kind? (s.mode.fileName (l.place name).stem (s.mode.next (s.held? t name)) ::
    (l.place name).dir.key) with _ | _ | c
  · rfl
  · exact absurd hk hfree
  · exact absurd (h.only _ _ _ (Mode.isFile_fileName _ (Mode.carries_next h.count)) hk) hne

/-- **The file of the chunk itself.**  However it is spelled, reading the chunk into its own file succeeds and
changes nothing, and so does moving the chunk to its own store.  Storing the chunk from its own file, if
nothing is in the way of one more reference, succeeds whether the file is to be removed or not: the content is
still there, the chunk has one reference more, or one in plain mode, the counts are the same, and no other
file has changed. -/
theorem own_file_kept [FileSystem] {location : Location} (hs : s.Rooted) (hl : s.layout? = some l)
    (hthere : (s.require name).run w = (.ok (location, e), w)) (hp : w.tree.canonical? p = some e.path.key) :
    ChunkStore.getToFile s name p w = (true, w) ∧ ChunkStore.moveToSelf s name w = (true, w) ∧
    (p.check = .ok () → Extensible s l name w.tree e → ∀ asked, ∃ v,
      Sink.storeFile s name p asked w = ((true, s), v) ∧
      (ChunkStore.get s name v).1 = (ChunkStore.get s name w).1 ∧
      (ChunkStore.references s name v).1 =
        (if s.mode.isCounted then (ChunkStore.references s name w).1 + 1 else 1) ∧
      (∀ k, k ≠ e.path.key → k ≠ (s.mode.path location (s.mode.next (s.held? w.tree name))).key →
        v.tree.kind? k = w.tree.kind? k) ∧
      ((s.mode.path location (s.mode.next (s.held? w.tree name))).key ≠ e.path.key →
        w.tree.kind? (s.mode.path location (s.mode.next (s.held? w.tree name))).key = none)) := by
  have hroot := hs l hl
  obtain ⟨hname, rfl, hfind, -⟩ := found_of_require hl hthere
  have hstem := l.isStem_place hname
  obtain ⟨file, old, found⟩ := Mode.find_eq_some (l.dir_place_ne_blank hroot name) hstem hfind
  have hget : (s.getToFile name p).run w = (.ok (), w) := by
    have hrun := getToFile_run hl name p w
    rcases hgot : (s.getToFile name p).run w with ⟨r, v⟩
    rw [hgot] at hrun
    cases hrun with
    | missing err hmissing =>
      rw [hthere] at hmissing
      cases hmissing
    | same => rfl
    | uncopied _ e' hfind' hother | copied _ e' hfind' hother =>
      rw [hfind] at hfind'
      cases hfind'
      rw [found.sameFile hstem hp] at hother
      cases hother
  have hself : (s.moveToSelf name).run w = (.ok (), w) := by
    unfold moveToSelf
    rw [Action.run_bind, hthere]
    rfl
  refine ⟨?_, ?_, fun hcheck hfree asked => ?_⟩
  · simp only [ChunkStore.getToFile, Action.bind_apply, Attempt.reported_of_ok hget]
    rfl
  · simp only [ChunkStore.moveToSelf, Action.bind_apply, Attempt.reported_of_ok hself]
    rfl
  · obtain ⟨v, hstored, hv⟩ := storeFile_ownFile hl hroot hname hfind hfree hp hcheck asked
    obtain ⟨e', hfind', hcount, hstat'⟩ := find_extended hroot hname hfind hfree found hv
    have hstat := hfree.stat hname found (found.length_le hstem hp)
    have hheld := held?_of_found hl hname hfind found
    refine ⟨v, Attempt.settled_of_ok hstored, ?_, ?_, fun k hk hk' => ?_, hfree.vacant hname⟩
    · rw [get_of_stat hl hname hfind' hstat', get_of_stat hl hname hfind hstat]
    · rw [references_of_find hl hname hfind', references_of_find hl hname hfind, hcount, hheld]
      rfl
    · rw [hv, extended, Function.update_of_ne hk', Function.update_of_ne hk]

end FileStore

/-! ### What may be in the way -/

namespace Awkward

/-- A directory `r` with some files in it. -/
def holding (files : Listing) (h : (Listing.dir [114] files .nil).Distinct) : Workspace :=
  ⟨⟨.dir [114] files .nil, h⟩, [], []⟩

def store (root : Path) : FileStore := ⟨.counted, .ofDigest id, some ⟨root, 0⟩, .new 0⟩

/-- The chunk `61` has one file, with two references. -/
def single : Workspace :=
  holding (.file [54, 49, 46, 50] [7] .nil) (by simp [Listing.Distinct, Listing.names])

/-- The chunk `61` has an empty file. -/
def hollow : Workspace :=
  holding (.file [54, 49, 46, 49] [] .nil) (by simp [Listing.Distinct, Listing.names])

/-- The chunk `61` has two files. -/
def twofold : Workspace :=
  holding (.file [54, 49, 46, 49] [7] (.file [54, 49, 46, 50] [8] .nil))
    (by simp [Listing.Distinct, Listing.names])

/-- The number of references to the chunk `61` is written with two zeros in front. -/
def padded : Workspace :=
  holding (.file [54, 49, 46, 48, 48, 49] [7] .nil) (by simp [Listing.Distinct, Listing.names])

/-- By this path to the directory `r` the file in there cannot be opened, though it could if its number were
written without the zeros. -/
def longRoot : Path := ⟨114 :: (List.replicate 2044 [47, 46]).flatten⟩

/-- A counted store has a chunk, and another store takes the name that its file would get next for its root. -/
def nested : Session :=
  [.start "a" (Path.ofText "r") 0, .call "a" (.store [97] [7]), .start "b" (Path.ofText "r/61.2") 0].foldl Deed.run
    ⟨[("a", .file (.new true (.ofDigest id))), ("b", .file (.new true (.ofDigest id)))], .bare⟩

/-- Whether the chunk `61` can be stored from its only file, as a file system has it. -/
def takesItsOwn (files : FileSystem) : Bool :=
  (Sink.storeFile (store (Path.ofText "r")) [97] (Path.ofText "r/61.2") false single).1.1

theorem extensible_single :
    (store (Path.ofText "r")).Extensible ⟨Path.ofText "r", 0⟩ [97] single.tree
      ⟨Path.ofText "r/61.2", 2, 1⟩ where
  filled := by decide
  short := by decide +kernel
  only file n c _ hk := by
    have hmem : (file :: (Layout.place ⟨Path.ofText "r", 0⟩ [97]).dir.key, c) ∈ single.tree.filesBelow [] := by
      rw [Tree.mem_filesBelow_iff rfl, List.append_nil]
      exact hk
    have hlist : single.tree.filesBelow [] = [((Path.ofText "r/61.2").key, [7])] := by decide +kernel
    rw [hlist, List.mem_singleton] at hmem
    exact congrArg Prod.fst hmem
  count := by decide +kernel
  next := by decide +kernel
  free := by decide +kernel
  unshut _ := rfl

end Awkward

/-- The store is given the file of its chunk by another path, to be removed: it stays, and has one reference
more. -/
theorem own_file_kept_single :
    ChunkStore.getToFile (Awkward.store (Path.ofText "r")) [97] (Path.ofText "r/./../r/61.2") Awkward.single =
      (true, Awkward.single) ∧
    ChunkStore.moveToSelf (Awkward.store (Path.ofText "r")) [97] Awkward.single = (true, Awkward.single) ∧
    ∃ v, Sink.storeFile (Awkward.store (Path.ofText "r")) [97] (Path.ofText "r/./../r/61.2") true Awkward.single =
        ((true, Awkward.store (Path.ofText "r")), v) ∧
      (ChunkStore.references (Awkward.store (Path.ofText "r")) [97] v).1 = 3 := by
  have hthere : ((Awkward.store (Path.ofText "r")).require [97]).run Awkward.single =
      (.ok (⟨Path.ofText "r", [54, 49]⟩, ⟨Path.ofText "r/61.2", 2, 1⟩), Awkward.single) :=
    Prod.ext (by decide +kernel) (FileStore.require_same _ [97] _)
  have hrooted : (Awkward.store (Path.ofText "r")).Rooted := by
    intro l hl
    cases hl
    decide +kernel
  obtain ⟨hget, hself, hstore⟩ := FileStore.own_file_kept (l := ⟨Path.ofText "r", 0⟩)
    (p := Path.ofText "r/./../r/61.2") hrooted rfl hthere (by decide +kernel)
  obtain ⟨v, hrun, -, hreferences, -⟩ := hstore (by decide +kernel) Awkward.extensible_single true
  refine ⟨hget, hself, v, hrun, hreferences.trans ?_⟩
  decide +kernel

/-- What is in the way of storing a chunk from its own file: a directory that has the name that the file would
get; a file that is empty; another file of the chunk, which is replaced; a path that is too long because of
zeros in front of a number; and a directory that is shut. -/
theorem own_file_refused_awkward :
    ((Session.call "a" (.references [97]) Awkward.nested).1 = some (.number 1) ∧
      (Session.call "a" (.storeFile [97] (Path.ofText "r/61.1") false) Awkward.nested).1 = some (.truth false)) ∧
    ((ChunkStore.references (Awkward.store (Path.ofText "r")) [97] Awkward.hollow).1 = 1 ∧
      (Sink.storeFile (Awkward.store (Path.ofText "r")) [97] (Path.ofText "r/61.1") false Awkward.hollow).1.1 =
        false) ∧
    ((ChunkStore.references (Awkward.store (Path.ofText "r")) [97] Awkward.twofold).1 = 1 ∧
      Awkward.twofold.tree.kind? (Path.ofText "r/61.2").key = some (.file [8]) ∧
      (Sink.storeFile (Awkward.store (Path.ofText "r")) [97] (Path.ofText "r/61.1") false
        Awkward.twofold).2.tree.kind? (Path.ofText "r/61.2").key = some (.file [7])) ∧
    ((ChunkStore.references (Awkward.store Awkward.longRoot) [97] Awkward.padded).1 = 1 ∧
      (Awkward.longRoot.join [54, 49, 46, 50]).isTooLong = false ∧
      (Sink.storeFile (Awkward.store Awkward.longRoot) [97] (Path.ofText "r/61.001") false Awkward.padded).1.1 =
        false) ∧
    ((ChunkStore.references (Awkward.store (Path.ofText "r")) [97] Awkward.single).1 = 2 ∧
      Awkward.takesItsOwn .lenient = true ∧ Awkward.takesItsOwn (.locking (Path.ofText "r").key) = false) := by
  decide +kernel

end ContentStore
