import ContentStore.Proofs.Sinks

/-!
# Storing a file is storing its content

A file can come to its place in two ways: it is renamed, or it is copied by way of a hidden file, as a
content is that is written.  A copy is the writing of the content that is read (`copy_eq_write`), and where a
file can be renamed into place a hidden file can be finished there as well, so all ways end alike:
`file_stored_as_content`.  Only of the file itself does it depend on the file system what becomes: it stays if
its directory is shut.
-/

namespace ContentStore

open Function (update)
open FileSystem (shut Between)

section

variable [FileSystem]

namespace Staging

variable {dir source target : Path} {content : Bytes} {w : Workspace}

/-- A hidden file fits into a directory: neither its path nor its name is too long. -/
def HasRoom (t : Tree) (dir : Path) : Prop :=
  (hiddenPath t dir).isTooLong = false ∧ (freeName (taken t dir)).length ≤ nameLimit

/-- Copying a file is writing its content. -/
theorem copy_eq_write (dir target : Path) (hsource : w.tree.stat source = .ok (.file content)) :
    (copy dir source target).run w = match (write dir target content).run w with
      | (.ok (), v) => (.ok content.length, v)
      | (.error e, v) => (.error e, v) := by
  unfold copy write
  rw [Action.run_bind, Action.run_file, Action.run_ask, hsource]
  dsimp only
  rw [Action.run_bind, Action.run_bind, Action.run_file]
  rcases (newHidden dir).run w with ⟨f | h, u⟩
  · rfl
  · simp only [Action.run_bind, Attempt.run_lift, fill_eq]
    rcases (finish h target).run (u.commits (fillings h.key content)) with ⟨e | x, v⟩ <;> rfl

/-- Where there is room for a hidden file, only the target can stand in the way of a content. -/
theorem write_cases (hdir : w.tree.leadsToDir dir = true) (hroom : HasRoom w.tree dir) (target : Path)
    (content : Bytes) :
    (¬ (w.tree.Admits target ∧ Between dir.key target.key.tail) ∧
      ∃ e v, (write dir target content).run w = (.error e, v) ∧ v.tree.kind? = w.tree.kind?) ∨
    ∃ v, (write dir target content).run w = (.ok (), v) ∧ Placed w.tree target content v.tree := by
  rcases write_spec (Layout.root_ne_blank hdir) target content w with
    ⟨e, cs, hno, -, hrun, hsame⟩ | ⟨hidden, hrun, -, hplaced⟩
  · exact Or.inl ⟨fun h => hno ⟨admits_hiddenPath hdir hroom.1 hroom.2, h⟩, e, _, hrun, hsame⟩
  · exact Or.inr ⟨_, hrun, hplaced⟩

/-- Where there is room for a hidden file, a file is copied exactly if its content is written. -/
theorem copy_cases (hdir : w.tree.leadsToDir dir = true) (hroom : HasRoom w.tree dir) (target : Path)
    (hsource : w.tree.stat source = .ok (.file content)) :
    (∃ e v, (write dir target content).run w = (.error e, v) ∧
      (copy dir source target).run w = (.error e, v) ∧ v.tree.kind? = w.tree.kind?) ∨
    ∃ v, (write dir target content).run w = (.ok (), v) ∧
      (copy dir source target).run w = (.ok content.length, v) ∧ Placed w.tree target content v.tree := by
  rw [copy_eq_write dir target hsource]
  rcases write_cases hdir hroom target content with ⟨-, e, v, hwrite, hsame⟩ | ⟨v, hwrite, hplaced⟩ <;> rw [hwrite]
  · exact Or.inl ⟨e, v, rfl, rfl, hsame⟩
  · exact Or.inr ⟨v, rfl, rfl, hplaced⟩

/-- Where there is room for a hidden file, a content can be written to where a file that has it can be renamed.  This
comes to the same, but for the file. -/
theorem write_of_rename (hdir : w.tree.leadsToDir dir = true) (hroom : HasRoom w.tree dir)
    (htarget : target.key.tail = dir.key) (hne : source.key ≠ target.key)
    (hsource : w.tree.kind? source.key = some (.file content)) {z : Workspace}
    (hrename : (Request.rename source target).run w = (.ok (), z)) :
    shut source.key.tail = false ∧ ∃ v, (write dir target content).run w = (.ok (), v) ∧
      Placed w.tree target content v.tree ∧ z.tree.kind? = update v.tree.kind? source.key none := by
  rcases Request.rename_spec hsource target with ⟨f, -, -, hno⟩ | ⟨-, hadmits, hmoves, -, hyes, hkinds⟩
  · rw [hrename] at hno
    cases hno
  rw [hrename] at hyes
  cases hyes
  obtain ⟨hsourceOpen, hopen, -⟩ := hmoves.resolve_left hne
  rcases write_cases hdir hroom target content with ⟨hno, -⟩ | ⟨v, hwrite, hplaced⟩
  · -- a hidden file lies in the directory that the file is renamed to
    rw [htarget] at hno hopen
    exact absurd ⟨hadmits, hopen, hopen, rfl⟩ hno
  · refine ⟨hsourceOpen, v, hwrite, hplaced, ?_⟩
    rw [hkinds, Function.update_comm hne]
    exact congrArg (update · source.key none) hplaced.kinds.symm

omit [FileSystem] in
theorem Placed.stat {t u v : Tree} {p : Path} {held : Bytes} (h : Placed t target content u)
    (hne : p.key ≠ target.key) (hp : t.stat p = .ok (.file held)) (hv : v.kind? = u.kind?) :
    v.stat p = .ok (.file held) := by
  refine Tree.stat_mono hp (fun k hk => ?_) ?_
  · have hother : k ≠ target.key := fun e => h.admits.noDir (e ▸ hk)
    rw [hv, h.kinds, Function.update_of_ne hother, hk]
  · rw [hv, h.kinds, Function.update_of_ne hne]
    exact Tree.kind?_of_node? (Tree.stat_eq_ok_iff.mp hp).2.2

end Staging

namespace FileStore

variable {s : FileStore} {l : Layout} {name content : Bytes} {source : Path} {w : Workspace}

/-- Two workspaces have come of one and the same call, made with a content and with a file that has it: the
file is as it was in the first one, and in the second one it has gone or not. -/
structure Abreast (source : Path) (content : Bytes) (gone : Bool) (u v : Workspace) : Prop where
  kept : u.tree.kind? source.key = some (.file content)
  kinds : v.tree.kind? = if gone then update u.tree.kind? source.key none else u.tree.kind?

omit [FileSystem] in
theorem Abreast.refl {u : Workspace} (h : u.tree.kind? source.key = some (.file content)) :
    Abreast source content false u u := ⟨h, rfl⟩

omit [FileSystem] in
theorem Abreast.of_placed {target : Path} {u v : Workspace} {gone : Bool}
    (h : Staging.Placed w.tree target content u.tree) (hne : source.key ≠ target.key)
    (hsource : w.tree.stat source = .ok (.file content))
    (hv : v.tree.kind? = if gone then update u.tree.kind? source.key none else u.tree.kind?) :
    Abreast source content gone u v where
  kept := by rw [h.kinds, Function.update_of_ne hne, kind?_of_stat hsource]
  kinds := hv

/-- A source from outside the root is still there when a chunk has been taken in, and is then removed if
that was asked for and can be done. -/
theorem Took.abreast {u v : Workspace} {s' : FileStore} (hname : name ≠ [])
    (h : Took s l name content w.tree s' u.tree.kind?) {held : Bytes}
    (hsource : w.tree.stat source = .ok (.file held)) (hout : ¬ l.root.key <:+ source.key) {asked : Bool}
    (hlast : Discarded asked source u v) : Abreast source held (asked && !shut source.key.tail) u v := by
  have hframe := h.frame hname
  have hfile := (hframe.file _ _ hout).mpr (kind?_of_stat hsource)
  exact ⟨hfile, hlast.kinds (Tree.stat_mono hsource hframe.dir hfile)⟩

theorem source_after_makeDirs {p : Path} {v : Workspace} (hp : p ≠ .blank)
    (hsource : w.tree.stat source = .ok (.file content)) (h : (Request.makeDirs p).run w = (.ok (), v)) :
    v.tree.leadsToDir p = true ∧ v.tree.stat source = .ok (.file content) := by
  obtain ⟨r, cs, hrun, hgrown, hlead⟩ := Request.makeDirs_spec p w
  rw [h] at hrun
  cases hrun
  exact ⟨hlead rfl hp, Tree.stat_mono hsource (fun _ => hgrown.dir)
    ((hgrown.file_iff _ _).mpr (kind?_of_stat hsource))⟩

/-- **Storing a file** from outside the root ends as storing its content does: with the same result, and with
the same at every key but that of the source, which has gone exactly if it was stored, that was asked for and
its directory is not shut. -/
theorem storeFile_store (hl : s.layout? = some l) (hroot : l.root ≠ .blank)
    (hsource : w.tree.stat source = .ok (.file content)) (hout : ¬ l.root.key <:+ source.key)
    (hroom : ∀ v, (Request.makeDirs (l.place name).dir).run w = (.ok (), v) →
      Staging.HasRoom v.tree (l.place name).dir) (asked : Bool) :
    ∃ r u v, (s.store name content).run w = (r, u) ∧ (s.storeFile name source asked).run w = (r, v) ∧
      Abreast source content (r.isOk && (asked && !shut source.key.tail)) u v := by
  have hfile := kind?_of_stat hsource
  have hread : ∀ {c}, w.tree.stat source = .ok (.file c) → content = c := fun hc =>
    Node.file.inj (Except.ok.inj (hsource.symm.trans hc))
  have hblank := l.dir_place_ne_blank hroot name
  by_cases hname : name = []
  · subst hname
    exact ⟨_, w, w, store_emptyName hl content w, storeFile_emptyName hl source asked w, .refl hfile⟩
  have htarget : source.key ≠ (s.mode.path (l.place name) 1).key := by
    rw [l.key_path s.mode hname]
    exact fun h => hout (h ▸ root_suffix_file l name _)
  have hrun := storeFile_run hl name source asked w
  rcases hstored : (s.storeFile name source asked).run w with ⟨r, x⟩
  rw [hstored] at hrun
  cases hrun with
  | emptyName hno => exact absurd hno hname
  | noSource err hno => exact absurd hsource (hno content)
  | emptyContent hempty =>
    rw [hsource] at hempty
    cases hempty
    exact ⟨_, w, w, store_emptyContent hl hname w, rfl, .refl hfile⟩
  | unreadable _ c hc hcontent f hfind =>
    obtain rfl := hread hc
    exact ⟨_, w, w, by simp only [store_eq hl hname hcontent, hfind], rfl, .refl hfile⟩
  | unshared _ c hc hcontent e hfind err v hacquire =>
    obtain rfl := hread hc
    obtain ⟨-, rfl⟩ := acquire_error hname hroot hfind hacquire
    exact ⟨_, x, x, by simp only [store_eq hl hname hcontent, hfind, hacquire], rfl, .refl hfile⟩
  | shared _ c hc hcontent e hfind n v y hacquire hlast =>
    obtain rfl := hread hc
    have hother : w.tree.sameFile e.path source = false := by
      by_contra h
      rw [Bool.not_eq_false] at h
      exact hout (Tree.key_eq_of_sameFile h ▸ entry_below hname hroot hfind)
    rw [hother, Bool.not_false, Bool.and_true] at hlast
    have htook : Took s l name content w.tree s v.tree.kind? := took_of_acquire hname hroot hfind hacquire
    exact ⟨_, v, x, by simp only [store_eq hl hname hcontent, hfind, hacquire], rfl,
      htook.abreast hname hsource hout hlast⟩
  | full _ c hc hcontent hfind err hfull =>
    obtain rfl := hread hc
    exact ⟨_, w, w, by simp only [store_eq hl hname hcontent, hfind, hfull], rfl, .refl hfile⟩
  | noDir _ c hc hcontent hfind hspace f v hdirs =>
    obtain rfl := hread hc
    exact ⟨_, x, x, by simp only [store_eq hl hname hcontent, hfind, hspace, hdirs], rfl,
      .refl (((makeDirs_grown hdirs).file_iff _ _).mpr hfile)⟩
  | renamed _ c hc hcontent hfind hspace v hdirs hasked y z hrename hlast =>
    obtain rfl := hread hc
    obtain ⟨hlead, hthere⟩ := source_after_makeDirs hblank hsource hdirs
    obtain ⟨hopen, u, hwrite, hplaced, hkinds⟩ := Staging.write_of_rename hlead (hroom v hdirs)
      (by rw [l.key_path s.mode hname]; rfl) htarget (kind?_of_stat hthere) hrename
    refine ⟨_, _, x, by simp only [store_eq hl hname hcontent, hfind, hspace, hdirs, hwrite]; rfl, rfl,
      .of_placed (u := (Action.report _ u).2) hplaced htarget hthere ?_⟩
    rw [hasked, hopen, hlast.tree, Workspace.commits_nil, hkinds]
    rfl
  | uncopied _ c hc hcontent hfind hspace v hdirs hasked err z hcopy =>
    obtain rfl := hread hc
    obtain ⟨hlead, hthere⟩ := source_after_makeDirs hblank hsource hdirs
    rcases Staging.copy_cases hlead (hroom v hdirs) (s.mode.path (l.place name) 1) hthere with
      ⟨e, u, hwrite, hrun, hsame⟩ | ⟨u, -, hrun, -⟩ <;> rw [hcopy] at hrun <;> cases hrun
    exact ⟨_, x, x, by simp only [store_eq hl hname hcontent, hfind, hspace, hdirs, hwrite], rfl,
      .refl (by rw [hsame, kind?_of_stat hthere])⟩
  | copied _ c hc hcontent hfind hspace v hdirs hasked n y z a hcopy after hlast =>
    obtain rfl := hread hc
    obtain ⟨hlead, hthere⟩ := source_after_makeDirs hblank hsource hdirs
    rcases Staging.copy_cases hlead (hroom v hdirs) (s.mode.path (l.place name) 1) hthere with
      ⟨e, u, -, hrun, -⟩ | ⟨u, hwrite, hrun, hplaced⟩ <;> rw [hcopy] at hrun <;> cases hrun
    have hz : z.tree.kind? = y.tree.kind? := by rw [after.tree, Workspace.commits_nil]
    refine ⟨_, _, x, by simp only [store_eq hl hname hcontent, hfind, hspace, hdirs, hwrite]; rfl, rfl,
      .of_placed (u := (Action.report _ y).2) hplaced htarget hthere ?_⟩
    rw [hlast.kinds (hplaced.stat htarget hthere hz), hz]
    rfl

end FileStore

namespace AnyStore

/-- A hidden file fits into the directory of a chunk, once that has been made. -/
def HasRoom (w : Workspace) (name : Bytes) : AnyStore → Prop
  | .file s => ∀ l, s.layout? = some l → ∀ v,
      (Request.makeDirs (l.place name).dir).run w = (.ok (), v) → Staging.HasRoom v.tree (l.place name).dir
  | .memory _ | .fixed _ => True

/-- **Storing from a file.**  Whatever the state of a store, of the file tree and of the file system, storing a
file that lies outside the root has the same result, leaves the same store and the same tree as storing its
content, but for the file itself: it has gone exactly if it was stored, that was asked for and its directory is
not shut, and is else as it was. -/
theorem file_stored_as_content {a : AnyStore} (ha : a.Rooted) {name content : Bytes} {source : Path}
    {w : Workspace} (hsource : w.tree.stat source = .ok (.file content))
    (hout : ∀ p, a.root? = some p → ¬ p.key <:+ source.key)
    (hroom : a.HasRoom w name) {asked : Bool}
    (hopen : ∀ m, a = .memory m → asked = true → shut source.key.tail = false) :
    ∃ r a' u v, a.store name content w = ((r, a'), u) ∧ a.storeFile name source asked w = ((r, a'), v) ∧
      u.tree.kind? source.key = some (.file content) ∧
      v.tree.kind? = if r.isOk && (asked && !shut source.key.tail) then Function.update u.tree.kind? source.key none
        else u.tree.kind? := by
  have hfile := FileStore.kind?_of_stat hsource
  cases a with
  | file s =>
    rcases hl : s.layout? with _ | l
    · exact ⟨.error .notInitialized, .file s, w, w, store_file_error (FileStore.store_uninitialized hl name content w),
        storeFile_file_error (FileStore.storeFile_uninitialized hl name source asked w), hfile, rfl⟩
    · obtain ⟨r, u, v, hstore, hcopy, habreast⟩ := FileStore.storeFile_store hl (ha.file hl) hsource
        (hout _ (FileStore.root_eq hl)) (hroom l hl) asked
      cases r with
      | error e =>
        exact ⟨.error e, .file s, u, v, store_file_error hstore, storeFile_file_error hcopy, habreast.kept,
          habreast.kinds⟩
      | ok s' =>
        exact ⟨.ok (), .file s', u, v, store_file_ok hstore, storeFile_file_ok hcopy, habreast.kept, habreast.kinds⟩
  | memory m =>
    have hrun := MemoryStore.storeFile_run m name source asked w
    rw [storeFile_memory]
    rcases hstored : m.storeFile name source asked w with ⟨⟨r, m'⟩, v⟩
    rw [hstored] at hrun
    cases hrun with
    | unread e hno => exact absurd hsource (hno content)
    | refused c hc e hstore =>
      rw [hsource] at hc
      cases hc
      exact ⟨.error e, .memory m, w, w, store_memory_of_error hstore, rfl, hfile, rfl⟩
    | kept c hc m' hstore hasked hshut =>
      rw [hopen m rfl hasked] at hshut
      cases hshut
    | stored c hc m' hstore hopen x hkinds =>
      rw [hsource] at hc
      cases hc
      refine ⟨.ok (), .memory m', w, v, store_memory_of_ok hstore, rfl, hfile, ?_⟩
      rw [hkinds]
      cases asked with
      | false => rfl
      | true => rw [hopen rfl]; rfl
  | fixed f => exact ⟨unanswered, .fixed f, w, w, rfl, rfl, hfile, rfl⟩

end AnyStore

end

namespace Parcel

/-- A file `s` and a directory `q` with another one, next to an empty directory `r`. -/
def tree : Tree where
  top := .dir [113] (.file [115] [3] .nil) (.dir [114] .nil (.file [115] [1, 2] .nil))
  distinct := by simp [Listing.Distinct, Listing.names]

def workspace : Workspace := ⟨tree, [], []⟩

/-- A counted store whose root is `r`. -/
def store : FileStore := ⟨.counted, .ofDigest id, some ⟨⟨[114]⟩, 1⟩, .new 0⟩

/-- The directory `q` is shut. -/
scoped instance locked : FileSystem := .locking [[113]]

theorem hasRoom : (AnyStore.file store).HasRoom workspace [107] := by
  intro l hl v hv
  cases hl
  obtain rfl := (Prod.ext_iff.mp hv).2
  unfold Staging.HasRoom
  decide +kernel

/-- This path leads to the file `s`, and is too long to open it. -/
def detour : Path := ⟨(List.replicate 2048 [46, 47]).flatten ++ [115]⟩

end Parcel

open Parcel in
/-- The file in `q` cannot be renamed.  It is copied to where its content would have been written, and stays. -/
theorem file_stored_as_content_parcel :
    ((AnyStore.file store).storeFile [107] ⟨[113, 47, 115]⟩ true workspace).1.1 = .ok () ∧
    ∃ r a' u v, (AnyStore.file store).store [107] [3] workspace = ((r, a'), u) ∧
      (AnyStore.file store).storeFile [107] ⟨[113, 47, 115]⟩ true workspace = ((r, a'), v) ∧
      u.tree.kind? [[115], [113]] = some (.file [3]) ∧
      v.tree.kind? = if r.isOk && (true && !shut [[113]]) then update u.tree.kind? [[115], [113]] none
        else u.tree.kind? := by
  have hopen : ∀ m, AnyStore.file store = .memory m → true = true → shut (Path.key ⟨[113, 47, 115]⟩).tail = false :=
    fun _ h => nomatch h
  refine ⟨by decide +kernel, AnyStore.file_stored_as_content (a := .file store) ?_ rfl ?_ hasRoom hopen⟩
  · rintro p hp
    cases hp
    decide
  · rintro p hp
    cases hp
    decide

open Parcel in
/-- A file whose directory is shut has been stored and has not gone, although that was asked for.  A content can be
stored where a file that has it cannot, because the path of the file is too long to open it. -/
theorem file_stored_otherwise_parcel :
    (((AnyStore.file store).storeFile [107] ⟨[113, 47, 115]⟩ true workspace).1.1 = .ok () ∧
      ((AnyStore.file store).storeFile [107] ⟨[113, 47, 115]⟩ true workspace).2.tree.kind? [[115], [113]] =
        some (.file [3])) ∧
    workspace.tree.kind? detour.key = some (.file [1, 2]) ∧
    ((AnyStore.file store).store [107] [1, 2] workspace).1.1 = .ok () ∧
    ((AnyStore.file store).storeFile [107] detour true workspace).1.1 = .error (.file .invalidFilename) := by
  refine ⟨⟨by decide +kernel, by decide +kernel⟩, by decide +kernel, by decide +kernel, by decide +kernel⟩

end ContentStore
