import ContentStore.Proofs.Trace

/-!
# What a store changes in the course of an operation

An operation on a chunk prepares what it needs under hidden names and in new directories, then makes one change
to the files of the chunk, and only a source that is dropped takes another one.

* `store_trace`, `storeFile_trace`, `delete_trace`, `letGo_trace`: an operation on a chunk of a file store;
* `call_spans`: any call of a store but clearing;
* `moveTo_by`: a move.
-/

namespace ContentStore

/-! ### One reference more or less -/

/-- A key that a store can have a file of a chunk at. -/
def Mode.Claims (m : Mode) (l : Layout) (name : Bytes) (k : Key) : Prop :=
  name ≠ [] ∧ ∃ file, m.Names (l.place name).stem file ∧ k = file :: (l.place name).dir.key

namespace FileStore

open Staging (HiddenIn Staged)
open Tree (Alters Fixed Vacant)

variable {K : Prop} {s s' : FileStore} {l : Layout} {name content : Bytes} {t : Tree} {e : Entry} {w v : Workspace}

theorem claims_path (m : Mode) (l : Layout) (hname : name ≠ []) (n : Nat) :
    m.Claims l name (m.path (l.place name) n).key :=
  ⟨hname, _, m.names_fileName _ n, Layout.key_path m l hname n⟩

/-- Where a chunk has a file with one count, there is nothing under another count. -/
theorem vacant_of_single (hname : name ≠ []) {file old : Bytes} (found : s.mode.Found (l.place name) t e file old)
    (hsingle : s.mode.Single l.root.key t.kind?) {n : Nat} (hn : n ≠ e.count) (hcarries : s.mode.Carries n)
    (hdir : t.kind? (s.mode.path (l.place name) n).key ≠ some .dir) :
    t.kind? (s.mode.path (l.place name) n).key = none := by
  rw [Layout.key_path s.mode l hname] at hdir ⊢
  rcases hk : t.kind? (s.mode.fileName (l.place name).stem n :: (l.place name).dir.key) with _ | _ | c
  · rfl
  · exact absurd hk hdir
  · have hfile := Mode.isFile_fileName (l.place name).stem hcarries
    have heq := hsingle _ _ _ _ _ _ _ _ (root_suffix_dir l name) (l.isStem_place hname) found.isFile hfile
      found.kind hk
    exact absurd ((heq ▸ found.isFile).inj hfile).2.symm hn

/-- **Taking a reference** makes at most one change, to the files of the chunk. -/
theorem acquire_turns [FileSystem] (hname : name ≠ []) (hroot : l.root ≠ .blank)
    (hfind : s.mode.find (l.place name) w.tree = .ok (some e))
    (hK : K → s.mode.Single l.root.key w.tree.kind? ∧ (s.mode = .counted → e.count + 1 < Decimal.wordLimit))
    {r : Except StoreError Nat} (h : (s.mode.acquire (l.place name) e).run w = (r, v)) :
    w.Turns (Alters (s.mode.Claims l name) (Vacant K)) v := by
  obtain ⟨file, old, found⟩ :=
    Mode.find_eq_some (l.dir_place_ne_blank hroot name) (l.isStem_place hname) hfind
  have hkey := found.key (l.isStem_place hname)
  have hold : w.tree.kind? e.path.key = some (.file old) := by rw [hkey]; exact found.kind
  have hrun := Mode.acquire_run (m := s.mode) (l := l.place name) hold
  rw [h] at hrun
  cases hrun with
  | plain => exact .refl w
  | refused => exact .refl w
  | renamed hmode v after _ moved =>
    refine .one (.rename ⟨hname, file, found.isFile.names, hkey⟩ (claims_path _ l hname _) hold moved.admits.dir
      moved.admits.noDir fun k => ?_) after
    obtain ⟨hsingle, hcount⟩ := hK k
    refine vacant_of_single hname found hsingle (by omega) ?_ moved.admits.noDir
    rw [hmode]
    exact ⟨Nat.succ_pos _, hcount hmode⟩

/-- **Dropping a reference** makes at most one change, to the files of the chunk. -/
theorem release_turns [FileSystem] (hname : name ≠ []) (hroot : l.root ≠ .blank)
    (hfind : s.mode.find (l.place name) w.tree = .ok (some e))
    (hK : K → s.mode.Single l.root.key w.tree.kind?)
    {r : Except StoreError Nat} (h : (s.mode.release (l.place name) e).run w = (r, v)) :
    w.Turns (Alters (s.mode.Claims l name) (Vacant K)) v := by
  obtain ⟨file, old, found⟩ :=
    Mode.find_eq_some (l.dir_place_ne_blank hroot name) (l.isStem_place hname) hfind
  have hkey := found.key (l.isStem_place hname)
  have hold : w.tree.kind? e.path.key = some (.file old) := by rw [hkey]; exact found.kind
  have hclaims : s.mode.Claims l name e.path.key := ⟨hname, file, found.isFile.names, hkey⟩
  have hrun := Mode.release_run (m := s.mode) (l := l.place name) hold
  rw [h] at hrun
  cases hrun with
  | refused => exact .refl w
  | kept => exact .refl w
  | renamed hmode hcount v after _ moved =>
    refine .one (.rename hclaims (claims_path _ l hname _) hold moved.admits.dir moved.admits.noDir fun k => ?_) after
    exact vacant_of_single hname found (hK k) (by omega) (found.isFile.carries_fewer hmode hcount)
      moved.admits.noDir
  | removed _ v after => exact .one (.remove hclaims hold) after

/-! ### Operations on a chunk -/

/-- A key that a store changes something at when it takes a chunk in: that of a file of the chunk, or of a hidden
file next to it. -/
def Owns (s : FileStore) (l : Layout) (name : Bytes) (k : Key) : Prop :=
  s.mode.Claims l name k ∨ HiddenIn (l.place name).dir.key k

theorem Owns.suffix {k : Key} (h : s.Owns l name k) : l.root.key <:+ k := by
  rcases h with ⟨-, file, -, rfl⟩ | ⟨i, rfl⟩ <;> exact root_suffix_file l name _

theorem owns_of_find (hname : name ≠ []) (hroot : l.root ≠ .blank)
    (hfind : s.mode.find (l.place name) t = .ok (some e)) : s.Owns l name e.path.key := by
  obtain ⟨file, old, found⟩ :=
    Mode.find_eq_some (l.dir_place_ne_blank hroot name) (l.isStem_place hname) hfind
  exact Or.inl ⟨hname, file, found.isFile.names, found.key (l.isStem_place hname)⟩

/-- A hidden file is no file of a chunk. -/
theorem not_hiddenIn_of_names {m : Mode} {stem file : Bytes} (hs : isStem stem = true) (h : m.Names stem file)
    (d j : Key) : ¬ HiddenIn d (file :: j) := by
  rintro ⟨i, hi⟩
  obtain ⟨rfl, -⟩ := List.cons.inj hi
  exact h.head? hs (Staging.head?_hiddenName i)

theorem claims_turns (h : w.Turns (Alters (s.mode.Claims l name) (Vacant K)) v) :
    w.Turns (Alters (s.Owns l name) (Vacant K)) v :=
  h.mono fun _ _ hc => hc.mono (fun _ => Or.inl) fun _ _ _ => id

/-- A chunk that is not there leaves the place of its file free, whatever directories and hidden files come. -/
theorem vacant_of_find (hname : name ≠ []) (hlead : t.leadsToDir l.root = true)
    (hfind : s.mode.find (l.place name) t = .ok none) {d : Key} {u : Tree}
    (hveil : Veiled (HiddenIn d) (fun _ => True) t.kind? u.kind?)
    (hadmits : u.Admits (s.mode.path (l.place name) 1)) :
    u.kind? (s.mode.path (l.place name) 1).key = none := by
  have hdir := hadmits.noDir
  rw [Layout.key_path s.mode l hname] at hdir ⊢
  have hfile := Mode.isFile_fileName (l.place name).stem s.mode.carries_one
  rcases hk : u.kind? (s.mode.fileName (l.place name).stem 1 :: (l.place name).dir.key) with _ | _ | c
  · rfl
  · exact absurd hk hdir
  · rw [hveil.file _ c (not_hiddenIn_of_names (l.isStem_place hname) hfile.names _ _)] at hk
    exact absurd hk (Layout.lacks_of_find hlead hname hfind _ _ c hfile)

/-- A staged file of a chunk that is not there. -/
theorem staged_trace (hname : name ≠ []) (hlead : w.tree.leadsToDir l.root = true)
    (hfind : s.mode.find (l.place name) w.tree = .ok none) {x : Workspace}
    (hdirs : w.By (Alters (HiddenIn (l.place name).dir.key) Fixed) x)
    (h : Staged (l.place name).dir (s.mode.path (l.place name) 1) x v) :
    ∃ y, w.By (Alters (HiddenIn (l.place name).dir.key) Fixed) y ∧
      y.Turns (Alters (s.Owns l name) (Vacant K)) v := by
  cases h with
  | undone h => exact ⟨v, hdirs.trans h, .refl v⟩
  | placed y h hidden c hhidden hfile admits hlast =>
    have hy := hdirs.trans h
    exact ⟨y, hy, .one (.rename (Or.inr hhidden) (Or.inl (claims_path s.mode l hname 1)) hfile admits.dir
      admits.noDir fun _ => vacant_of_find hname hlead hfind hy.veiled admits) hlast⟩

theorem acquired_turns [FileSystem] (hl : s.layout? = some l) (hroot : l.root ≠ .blank) (hname : name ≠ [])
    (hfind : s.mode.find (l.place name) w.tree = .ok (some e))
    (hK : K → s.mode.Single l.root.key w.tree.kind? ∧ (AnyStore.file s).CanShare w.tree name)
    {r : Except StoreError Nat} (h : (s.mode.acquire (l.place name) e).run w = (r, v)) :
    w.Turns (Alters (s.Owns l name) (Vacant K)) v :=
  claims_turns (acquire_turns hname hroot hfind (fun k => ⟨(hK k).1, fun hmode =>
    countable_of_canShare hl hroot hname (hK k).2 e hmode hfind⟩) h)

/-- **Storing a content** is prepared under a hidden name and makes one more change. -/
theorem store_trace [FileSystem] (hl : s.layout? = some l) (hlead : w.tree.leadsToDir l.root = true)
    (hK : K → s.mode.Single l.root.key w.tree.kind? ∧ (AnyStore.file s).CanShare w.tree name)
    {r : Except StoreError FileStore} (h : (s.store name content).run w = (r, v)) :
    ∃ x, w.By (Alters (HiddenIn (l.place name).dir.key) Fixed) x ∧
      x.Turns (Alters (s.Owns l name) (Vacant K)) v := by
  have hroot := Layout.root_ne_blank hlead
  have hrun := store_run hl name content w
  rw [h] at hrun
  cases hrun with
  | emptyName | emptyContent | unreadable | full => exact ⟨w, .refl w, .refl w⟩
  | unshared hname _ e hfind err v hacquire => exact ⟨w, .refl w, acquired_turns hl hroot hname hfind hK hacquire⟩
  | shared hname _ e hfind n v hacquire => exact ⟨w, .refl w, acquired_turns hl hroot hname hfind hK hacquire⟩
  | noDir _ _ _ _ f v hdirs => exact ⟨v, Request.makeDirs_by hdirs, .refl v⟩
  | unwritten hname _ hfind _ x hdirs err v hwrite =>
    exact staged_trace hname hlead hfind (Request.makeDirs_by hdirs)
      (Staging.write_staged (l.dir_place_ne_blank hroot name) hwrite)
  | stored hname _ hfind _ x hdirs u v hwrite hlast =>
    obtain ⟨y, hy, hturn⟩ := staged_trace (K := K) hname hlead hfind (Request.makeDirs_by hdirs)
      (Staging.write_staged (l.dir_place_ne_blank hroot name) hwrite)
    exact ⟨y, hy, hturn.still hlast⟩

/-- What storing the content of a file does, one change after the other: the file itself is renamed into place, or
its content is stored and then it may be removed. -/
inductive StoreFileTrace [FileSystem] (K : Prop) (s : FileStore) (l : Layout) (name : Bytes) (source : Path)
    (asked : Bool)
    (w v : Workspace) : Prop
  | taken (hname : name ≠ []) (x : Workspace) (hbefore : w.By (Alters (HiddenIn (l.place name).dir.key) Fixed) x)
      (content : Bytes) (hfile : x.tree.kind? source.key = some (.file content))
      (hadmits : x.tree.Admits (s.mode.path (l.place name) 1))
      (hvacant : x.tree.kind? (s.mode.path (l.place name) 1).key = none) (hasked : asked = true)
      (hopen : FileSystem.shut source.key.tail = false)
      (hlast : x.After [.rename source.key (s.mode.path (l.place name) 1).key] v) :
      StoreFileTrace K s l name source asked w v
  | kept (x y : Workspace) (hbefore : w.By (Alters (HiddenIn (l.place name).dir.key) Fixed) x)
      (hturn : x.Turns (Alters (s.Owns l name) (Vacant K)) y) (gone : Bool) (hgone : gone = true → asked = true)
      (hlast : Discarded gone source y v) : StoreFileTrace K s l name source asked w v

/-- **Storing the content of a file** is prepared under a hidden name and makes one more change, and one more to
the source if that is dropped. -/
theorem storeFile_trace [FileSystem] (hl : s.layout? = some l) (hlead : w.tree.leadsToDir l.root = true)
    (hK : K → s.mode.Single l.root.key w.tree.kind? ∧ (AnyStore.file s).CanShare w.tree name) {source : Path}
    {asked : Bool} {r : Except StoreError FileStore} (h : (s.storeFile name source asked).run w = (r, v)) :
    StoreFileTrace K s l name source asked w v := by
  have hroot := Layout.root_ne_blank hlead
  have hrun := storeFile_run hl name source asked w
  rw [h] at hrun
  have hidle : StoreFileTrace K s l name source asked w w :=
    .kept w w (.refl w) (.refl w) false (by simp) (.unasked rfl)
  cases hrun with
  | emptyName | noSource | emptyContent | unreadable | full => exact hidle
  | unshared hname _ _ _ e hfind err v hacquire =>
    exact .kept w v (.refl w) (acquired_turns hl hroot hname hfind hK hacquire) false (by simp) (.unasked rfl)
  | shared hname _ _ _ e hfind n y v hacquire hlast =>
    exact .kept w y (.refl w) (acquired_turns hl hroot hname hfind hK hacquire) _
      (fun hgone => (Bool.and_eq_true_iff.mp hgone).1) hlast
  | noDir _ _ _ _ _ _ f v hdirs =>
    exact .kept v v (Request.makeDirs_by hdirs) (.refl v) false (by simp) (.unasked rfl)
  | renamed hname content hsource _ hfind _ x hdirs hasked u v hrename hlast =>
    have hby : w.By (Alters (HiddenIn (l.place name).dir.key) Fixed) x := Request.makeDirs_by hdirs
    have hfile : x.tree.kind? source.key = some (.file content) := by
      rw [(makeDirs_grown hdirs).file_iff]
      exact kind?_of_stat hsource
    rcases Request.rename_spec hfile (s.mode.path (l.place name) 1) with
      ⟨f, -, -, hno⟩ | ⟨-, hadmits, hmoves, -, hyes, -⟩ <;> rw [hrename] at *
    · cases hno
    · cases hyes
      have hvacant := vacant_of_find hname hlead hfind hby.veiled hadmits
      have hopen : FileSystem.shut source.key.tail = false := by
        rcases hmoves with hsame | ⟨hopen, -⟩
        · rw [hsame, hvacant] at hfile
          cases hfile
        · exact hopen
      exact .taken hname x hby content hfile hadmits hvacant hasked hopen
        ((Workspace.After.commits x _).trans hlast)
  | uncopied hname _ _ _ hfind _ x hdirs _ err v hcopy =>
    obtain ⟨y, hy, hturn⟩ := staged_trace (K := K) hname hlead hfind (Request.makeDirs_by hdirs)
      (Staging.copy_staged (l.dir_place_ne_blank hroot name) hcopy)
    exact .kept y v hy hturn false (by simp) (.unasked rfl)
  | copied hname _ _ _ hfind _ x hdirs _ n u z v hcopy after hlast =>
    obtain ⟨y, hy, hturn⟩ := staged_trace (K := K) hname hlead hfind (Request.makeDirs_by hdirs)
      (Staging.copy_staged (l.dir_place_ne_blank hroot name) hcopy)
    exact .kept y z hy (hturn.still after) asked id hlast

/-- **Dropping a reference** makes at most one change. -/
theorem delete_trace [FileSystem] (hl : s.layout? = some l) (hroot : l.root ≠ .blank)
    (hK : K → s.mode.Single l.root.key w.tree.kind?) {r : Except StoreError FileStore}
    (h : (s.delete name).run w = (r, v)) : w.Turns (Alters (s.mode.Claims l name) (Vacant K)) v := by
  have hrun := delete_run hl name w
  rw [h] at hrun
  cases hrun with
  | emptyName | unreadable | absent => exact .refl w
  | refused hname e hfind err v hrelease => exact release_turns hname hroot hfind hK hrelease
  | dropped hname e hfind n v hrelease => exact release_turns hname hroot hfind hK hrelease
  | removed hname e hfind x v hrelease hlast => exact (release_turns hname hroot hfind hK hrelease).still hlast

/-- **Letting a chunk go** makes at most one change. -/
theorem letGo_trace [FileSystem] (hname : name ≠ []) (hroot : l.root ≠ .blank)
    (hK : K → s.mode.Single l.root.key w.tree.kind?)
    {r : Except StoreError FileStore} (h : (s.letGo name (l.place name) e).run w = (r, v)) :
    w.Turns (Alters (s.mode.Claims l name) (Vacant K)) v := by
  have hrun := letGo_run s name (l.place name) e w
  rw [h] at hrun
  cases hrun with
  | unreadable => exact .refl w
  | gone hfind v hlast => exact Or.inl hlast
  | kept e hfind hmode v hlast => exact Or.inl hlast
  | refused e hfind hmode err v hrelease => exact release_turns hname hroot hfind hK hrelease
  | dropped e hfind hmode n x v hrelease hn hlast =>
    exact (release_turns hname hroot hfind hK hrelease).still hlast
  | removed e hfind hmode x v hrelease hlast => exact (release_turns hname hroot hfind hK hrelease).still hlast

/-! ### Asking, taking a root and clearing -/

section

variable {p : Tree → Change → Prop} {S : Key → Prop} {R : Tree → Key → Prop}

open Action (Does)

theorem find_does (s : FileStore) (name : Bytes) : Does p (s.find name).run := fun w => by
  rw [find_same]
  exact .refl w

theorem require_does (s : FileStore) (name : Bytes) : Does p (s.require name).run := fun w => by
  rw [require_same]
  exact .refl w

theorem get_does (s : FileStore) (name : Bytes) : Does p (s.get name).run := fun w => by
  rw [get_same]
  exact .refl w

theorem validate_does (s : FileStore) (name : Bytes) : Does p (s.validate name).run := fun w => by
  rw [validate_same]
  exact .refl w

theorem locate_does [FileSystem] (s : FileStore) (name : Bytes) (create : Bool) :
    Does (Alters S R) (s.locate name create).run := by
  unfold locate
  refine .run_bind (.run_except _) fun l => .run_bind (.run_except _) fun place => ?_
  -- the directory may be made, and then the file is looked for
  cases create with
  | true =>
    refine .run_bind (.run_file (Request.makeDirs_does _)) fun _ => .run_bind (.run_file (.run_ask _)) fun e => ?_
    cases e <;> exact .run_pure _
  | false =>
    refine .run_bind (.run_file (.run_ask _)) fun e => ?_
    cases e <;> exact .run_pure _

theorem prepareRoot_does [FileSystem] (root : Path) : Does (Alters S R) (prepareRoot root).run := by
  have hmake : Does (Alters S R) (do
      Request.makeDirs root
      if !(← Action.tree).leadsToDir root then throw (.invalidRoot root) : Attempt Unit).run := by
    refine .run_bind (.run_file (Request.makeDirs_does root)) fun _ => .run_bind (.run_lift .tree) fun t => ?_
    split
    · exact .run_throw _
    · exact .run_pure _
  unfold prepareRoot
  split
  · exact .run_throw _
  · exact hmake

/-- **Taking a root** makes directories only. -/
theorem start_does [FileSystem] (s : FileStore) (root : Path) (depth : Nat) :
    Does (Alters S R) (s.start root depth) := by
  have hinit : Does (Alters S R) (s.init root depth) := by
    unfold init
    refine .bind (prepareRoot_does root) fun r => ?_
    cases r with
    | error e => exact .pure _
    | ok _ => exact .bind (.scan _ root) fun found => .bind (.report _) fun _ => .pure _
  refine .bind hinit fun ⟨r, s'⟩ => ?_
  cases r with
  | error e => exact .bind (.report _) fun _ => .pure _
  | ok found => exact .pure _

theorem clear_does [FileSystem] (s : FileStore) (hp : ∀ t k, p t (.remove k)) : Does p s.clear := by
  unfold clear
  split
  · exact .pure _
  · refine .bind (Request.emptyDir_does hp _) fun r => .bind (.scan _ _) fun found => ?_
    cases r with
    | error f => exact .pure _
    | ok _ => exact .bind (.report _) fun _ => .pure _

end

end FileStore

/-! ### Calls -/

def Call.asks : Call → Bool
  | getToFile .. | store .. | storeFile .. | delete _ | clear => false
  | _ => true

def Key.Hidden (k : Key) : Prop := ∃ n ∈ k.head?, n.head? = some Bytes.dot

theorem Staging.HiddenIn.hidden {d k : Key} (h : HiddenIn d k) : k.Hidden := by
  obtain ⟨i, rfl⟩ := h
  exact ⟨_, rfl, head?_hiddenName i⟩

namespace Workspace

open Tree (Alters Fixed)

/-- Hidden files and directories are prepared, then there is one change to files with keys in `S` or none, and then
there are changes to files with keys in `T`. -/
def Spans (S T : Key → Prop) (R : Tree → Key → Prop) (w v : Workspace) : Prop :=
  ∃ x y, w.By (Alters Key.Hidden Fixed) x ∧ x.Turns (Alters S R) y ∧ y.By (Alters T Fixed) v

namespace Spans

variable {S T : Key → Prop} {R : Tree → Key → Prop} {u v w x : Workspace}

theorem of_by (h : w.By (Alters Key.Hidden Fixed) v) : w.Spans S T R v := ⟨v, v, h, .refl v, .refl v⟩

theorem of_turns (h : w.Turns (Alters S R) v) : w.Spans S T R v := ⟨w, v, .refl w, h, .refl v⟩

theorem still (h : w.Spans S T R v) (h' : v.After [] u) : w.Spans S T R u := by
  obtain ⟨x, y, hx, hy, hv⟩ := h
  exact ⟨x, y, hx, hy, hv.trans (.still h')⟩

end Spans

theorem Spans.by {S T : Key → Prop} {R : Tree → Key → Prop} {v w : Workspace} (h : w.Spans S T R v)
    (hhidden : ∀ k : Key, k.Hidden → S k) (hT : ∀ k, T k → S k) : w.By (Alters S R) v := by
  obtain ⟨x, y, hx, hy, hv⟩ := h
  exact (hx.widen hhidden fun _ _ _ hno => hno.elim).trans (hy.by.trans (hv.widen hT fun _ _ _ hno => hno.elim))

end Workspace

theorem Attempt.settled_after {σ : Type} (op : Operation) (name : Bytes) (before : σ) {a : Attempt σ}
    {w v : Workspace} {r : Except StoreError σ} (h : a.run w = (r, v)) :
    v.After [] (a.settled op name before w).2 := by
  cases r with
  | ok after =>
    rw [settled_of_ok h]
    exact .refl v
  | error e =>
    rw [settled_of_error h]
    exact .report (.refl v) _

theorem Attempt.outcome_after {α : Type} (op : Operation) (name : Bytes) (r : Except StoreError α) (w : Workspace) :
    w.After [] (outcome op name r w).2 := by
  cases r with
  | ok x => exact .refl w
  | error e => exact .report (.refl w) _

theorem Attempt.reported_after {α : Type} (op : Operation) (name : Bytes) {a : Attempt α} {w v : Workspace}
    {r : Except StoreError α} (h : a.run w = (r, v)) : v.After [] (a.reported op name w).2 := by
  unfold reported
  rw [Action.bind_apply, h]
  exact outcome_after op name r v

namespace FileStore

open Staging (HiddenIn)
open Tree (Alters Fixed Vacant)

variable {S : Key → Prop} {R : Tree → Key → Prop} {K : Prop} {s s' : FileStore} {l : Layout} {name content : Bytes}
  {source target : Path} {asked : Bool} {e : Entry} {t : Tree} {stored : Option Bytes} {w v : Workspace}

/-- No directory below the root holds two files of one chunk, and one more reference to a chunk that is stored can
be counted. -/
def Receptive (s : FileStore) (l : Layout) (stored : Option Bytes) (t : Tree) : Prop :=
  s.mode.Single l.root.key t.kind? ∧ ∀ name ∈ stored, (AnyStore.file s).CanShare t name

theorem Receptive.known (h : s.Receptive l (some name) t) :
    s.mode.Single l.root.key t.kind? ∧ (AnyStore.file s).CanShare t name := ⟨h.1, h.2 name rfl⟩

/-- What a store does for a chunk lies at keys of `S`, and `R` allows the places of its files, which are vacant if
the store is receptive. -/
structure Cares (S : Key → Prop) (R : Tree → Key → Prop) (s : FileStore) (l : Layout) (name : Bytes)
    (stored : Option Bytes) (t : Tree) : Prop where
  lead : t.leadsToDir l.root = true
  owns : ∀ k, s.Owns l name k → S k
  vacant : ∀ u k, s.Owns l name k → Vacant (s.Receptive l stored t) u k → R u k

theorem by_hidden {d : Key} (h : w.By (Alters (HiddenIn d) Fixed) v) : w.By (Alters Key.Hidden Fixed) v :=
  h.widen (fun _ => Staging.HiddenIn.hidden) fun _ _ _ hno => hno

theorem Discarded.turns [FileSystem] {gone : Bool} (h : Discarded gone source w v) (hS : gone = true → S source.key) :
    w.Turns (Alters S R) v := by
  cases h with
  | unasked => exact .refl w
  | kept _ _ _ after => exact Or.inl after
  | gone hgone _ content hfile v after => exact .one (.remove (hS hgone) hfile) after

theorem Cares.turns (h : Cares S R s l name stored w.tree) {x y : Workspace}
    (hturn : x.Turns (Alters (s.Owns l name) (Vacant (s.Receptive l stored w.tree))) y) : x.Turns (Alters S R) y :=
  hturn.mono fun _ _ hc => hc.mono h.owns fun _ _ => h.vacant _ _

theorem StoreFileTrace.spans [FileSystem] (h : Cares S R s l name (some name) w.tree)
    (hsource : asked = true → S source.key)
    (htrace : StoreFileTrace (s.Receptive l (some name) w.tree) s l name source asked w v) :
    w.Spans S (fun k => asked = true ∧ k = source.key) R v := by
  cases htrace with
  | taken hname x hbefore content hfile hadmits hvacant hasked hopen hlast =>
    have howns : s.Owns l name (s.mode.path (l.place name) 1).key := Or.inl (claims_path s.mode l hname 1)
    exact ⟨x, v, by_hidden hbefore, .one (.rename (hsource hasked) (h.owns _ howns) hfile hadmits.dir hadmits.noDir
      (h.vacant _ _ howns fun _ => hvacant)) hlast, .refl v⟩
  | kept x y hbefore hturn gone hgone hlast =>
    exact ⟨x, y, by_hidden hbefore, h.turns hturn, (hlast.turns fun hg => ⟨hgone hg, rfl⟩).by⟩

/-- What reading a chunk into a file does, one change after the other. -/
theorem getToFile_spans [FileSystem] (hl : s.layout? = some l) (hhidden : ∀ k : Key, k.Hidden → S k) (hS : S target.key)
    (hR : ∀ t, R t target.key) {T : Key → Prop} {r : Except StoreError Unit}
    (h : (s.getToFile name target).run w = (r, v)) : w.Spans S T R v := by
  have hrun := getToFile_run hl name target w
  rw [h] at hrun
  have hstaged : ∀ {p r}, (Staging.copy (stagingDir target) p target).run w = (r, v) → w.Spans S T R v := by
    intro p r hcopy
    cases Staging.copy_staged (stagingDir_ne_blank target) hcopy with
    | undone h => exact .of_by (by_hidden h)
    | placed x h hidden c hhid hfile admits hlast =>
      exact ⟨x, v, by_hidden h, .one (.rename (hhidden _ hhid.hidden) hS hfile admits.dir admits.noDir (hR _)) hlast,
        .refl v⟩
  cases hrun with
  | missing => exact .of_by (.refl w)
  | same => exact .of_by (.refl w)
  | uncopied hname e hfind hsame err v hcopy => exact hstaged hcopy
  | copied hname e hfind hsame n v hcopy => exact hstaged hcopy

theorem asks_does [FileSystem] {p : Tree → Change → Prop} (s : FileStore) {c : Call} (hc : c.asks = true) :
    Action.Does p (c.run s) := by
  cases c with
  | get name => exact .bind (.bind ((get_does s name).reported _ _) fun _ => .pure _) fun _ => .pure _
  | has name =>
    refine .bind (.bind ((find_does s name).reported _ _) fun x => ?_) fun _ => .pure _
    split <;> exact .pure _
  | validate name => exact .bind (.bind ((validate_does s name).reported _ _) fun _ => .pure _) fun _ => .pure _
  | chunkSize name =>
    refine .bind (.bind ((require_does s name).reported _ _) fun x => ?_) fun _ => .pure _
    split <;> exact .pure _
  | references name =>
    refine .bind (.bind ((find_does s name).reported _ _) fun x => ?_) fun _ => .pure _
    split <;> exact .pure _
  | size | count | capacity | isEmpty | setCapacity => exact .pure _
  | getToFile | store | storeFile | delete | clear => cases hc

/-- **A call** of a file store that has a root. -/
theorem call_spans [FileSystem] (hl : s.layout? = some l) {c : Call} (hc : c ≠ .clear)
    (h : ∀ name ∈ c.name?, Cares S R s l name c.stored? w.tree) (hhidden : ∀ k : Key, k.Hidden → S k)
    (hS : ∀ q ∈ c.alters, S q.key) (hR : ∀ q ∈ c.target?, ∀ t, R t q.key) :
    w.Spans S (fun k => ∃ q ∈ c.alters, k = q.key) R (c.run s w).2 := by
  cases c with
  | get | has | validate | chunkSize | references | size | count | capacity | isEmpty | setCapacity =>
    exact .of_by (asks_does s rfl w)
  | clear => exact absurd rfl hc
  | getToFile name target =>
    rcases hrun : (s.getToFile name target).run w with ⟨r, v⟩
    exact (getToFile_spans hl hhidden (hS target (by simp [Call.alters])) (hR target rfl) hrun).still
      (Attempt.reported_after .getToFile name hrun)
  | store name content =>
    rcases hrun : (s.store name content).run w with ⟨r, v⟩
    obtain ⟨x, hx, hturn⟩ := store_trace hl (h name rfl).lead Receptive.known hrun
    exact Workspace.Spans.still ⟨x, v, by_hidden hx, (h name rfl).turns hturn, .refl v⟩
      (Attempt.settled_after .store name s hrun)
  | storeFile name source asked =>
    rcases hrun : (s.storeFile name source asked).run w with ⟨r, v⟩
    have htrace := storeFile_trace hl (h name rfl).lead Receptive.known hrun
    obtain ⟨x, y, hx, hy, hv⟩ := htrace.spans (h name rfl) fun e => hS source (by simp [Call.alters, e])
    refine Workspace.Spans.still ⟨x, y, hx, hy, hv.widen ?_ fun _ _ _ hno => hno⟩
      (Attempt.settled_after .storeFile name s hrun)
    rintro k ⟨e, rfl⟩
    exact ⟨source, by simp [Call.alters, e], rfl⟩
  | delete name =>
    rcases hrun : (s.delete name).run w with ⟨r, v⟩
    have hroot := Layout.root_ne_blank (h name rfl).lead
    have hturn := claims_turns (delete_trace hl hroot (fun k : s.Receptive l none w.tree => k.1) hrun)
    exact (Workspace.Spans.of_turns ((h name rfl).turns hturn)).still (Attempt.settled_after .delete name s hrun)

theorem call_unrooted [FileSystem] (hl : s.layout? = none) (c : Call) (w : Workspace) : w.After [] (c.run s w).2 := by
  cases c with
  | get | has | validate | chunkSize | references | size | count | capacity | isEmpty | setCapacity =>
    exact Workspace.By.none (asks_does s rfl w)
  | getToFile name target =>
    exact Attempt.reported_after .getToFile name (getToFile_uninitialized hl name target w)
  | store name content => exact Attempt.settled_after .store name s (store_uninitialized hl name content w)
  | storeFile name source asked =>
    exact Attempt.settled_after .storeFile name s (storeFile_uninitialized hl name source asked w)
  | delete name => exact Attempt.settled_after .delete name s (delete_uninitialized hl name w)
  | clear =>
    have hclear : s.clear w = ((.error .notInitialized, s), w) := by
      unfold clear
      rw [hl]
      rfl
    have happly : ChunkStore.clear s w =
        ((s.clear w).1.2, (Attempt.outcome .clear [] (s.clear w).1.1 (s.clear w).2).2) := rfl
    show w.After [] (ChunkStore.clear s w).2
    rw [happly, hclear]
    exact .report (.refl w) _

theorem moveTo_after [FileSystem] (s : FileStore) (name : Bytes) (b : AnyStore) (w : Workspace) :
    (s.moveTo name b w).2.After [] (ChunkStore.moveTo s name b w).2 := by
  rw [moveTo_apply]
  rcases s.moveTo name b w with ⟨⟨e | after, b'⟩, x⟩
  · exact .report (.refl x) _
  · exact .refl x

end FileStore

variable [FileSystem]

namespace MemoryStore

open Tree (Alters Fixed)

variable {S T : Key → Prop} {R : Tree → Key → Prop} {m m' : MemoryStore} {name content : Bytes} {source target : Path}
  {asked : Bool} {w v : Workspace}

/-- Storing the content of a file may remove the file if that is asked for and its directory is not shut, and
changes nothing else. -/
theorem storeFile_turns (m : MemoryStore) (name : Bytes) (source : Path) (asked : Bool) (w : Workspace) :
    (w.After [] (m.storeFile name source asked w).2) ∨
      asked = true ∧ FileSystem.shut source.key.tail = false ∧
        w.Turns (Alters (· = source.key) Fixed) (m.storeFile name source asked w).2 := by
  unfold storeFile
  rw [Action.bind_apply]
  have hsame : ((do m.store name (← sourceContent source) : Attempt MemoryStore).run w).2 = w := by
    rw [Action.run_bind]
    rcases sourceContent_eq source w with ⟨content, -, hrun⟩ | ⟨e, -, hrun⟩ <;> rw [hrun]
    exact congrArg Prod.snd (Action.run_except _ _)
  rcases hrun : (do m.store name (← sourceContent source) : Attempt MemoryStore).run w with ⟨e | after, v⟩ <;>
    rw [hrun] at hsame <;> obtain rfl : v = w := hsame
  · exact Or.inl (.refl v)
  · dsimp only
    cases asked with
    | false => exact Or.inl (.refl v)
    | true =>
      rw [if_pos rfl, Action.bind_apply]
      rcases Request.unlink_spec source v with ⟨f, -, hunlink⟩ | ⟨content, -, hfile, hopen, hunlink, -⟩ <;>
        rw [hunlink]
      · exact Or.inl (.refl v)
      · exact Or.inr ⟨rfl, hopen, .one (.remove rfl hfile) (.commits v _)⟩

theorem write_by (hS : S target.key) {r : Except Fault Unit} (h : (Request.write target content).run w = (r, v)) :
    w.By (Alters S R) v := by
  unfold Request.write at h
  rw [Action.run_bind, Action.run_ask] at h
  rcases hplan : w.tree.planCreate target with f | k <;> rw [hplan] at h
  · cases h
    exact .refl w
  · obtain ⟨hadmits, -, rfl⟩ := Tree.planCreate_eq_ok_iff.mp hplan
    obtain ⟨n, d, hn, -, hk⟩ := id hadmits
    dsimp only at h
    rw [Action.run_bind, Action.run_commit] at h
    dsimp only at h
    rw [Action.run_lift, Staging.fill_eq] at h
    cases h
    have hkinds : (w.commits [.create target.key]).tree.kind? target.key = some (.file []) := by
      show (w.tree.putFile target.key []).kind? _ = _
      rw [hn.key, Tree.kind?_putFile [] hn.dir hk, Function.update_self]
    refine .trans (.one ?_ (.commits w [.create target.key])) ⟨_, .commits _ _, Staging.each_fillings hS hkinds content⟩
    rw [hn.key] at hS ⊢
    exact .create hS hn.dir hk

/-- **A call** of a memory store. -/
theorem call_spans {c : Call} (hT : ∀ q ∈ c.alters, T q.key) (w : Workspace) : w.Spans S T R (c.run m w).2 := by
  have hlast : ∀ {v}, w.By (Alters T Fixed) v → w.Spans S T R v := fun h => ⟨w, w, .refl w, .refl w, h⟩
  cases c with
  | get name => exact .of_by (.still (Attempt.outcome_after .get name (m.get name) w))
  | store name content => exact .of_by (.still (Attempt.settled_after .store name m (Action.run_except _ w)))
  | delete | has | validate | chunkSize | references | clear => exact .of_by (.refl w)
  | size | count | capacity | isEmpty | setCapacity => exact .of_by (.refl w)
  | getToFile name target =>
    rcases hrun : (m.getToFile name target).run w with ⟨r, v⟩
    refine hlast (.trans ?_ (.still (Attempt.reported_after .getToFile name hrun)))
    unfold getToFile at hrun
    rw [Action.run_bind, Action.run_except] at hrun
    rcases hget : m.get name with e | content <;> rw [hget] at hrun
    · cases hrun
      exact .refl w
    · dsimp only at hrun
      rw [Action.run_file] at hrun
      rcases hwrite : (Request.write target content).run w with ⟨f | _, x⟩ <;> rw [hwrite] at hrun <;> cases hrun <;>
        exact write_by (hT target (by simp [Call.alters])) hwrite
  | storeFile name source asked =>
    refine hlast (.trans ?_ (.still (Attempt.outcome_after .storeFile name _ _)))
    rcases storeFile_turns m name source asked w with h | ⟨rfl, -, h⟩
    · exact .still h
    · exact h.by.widen (fun k hk => hk ▸ hT source (by simp [Call.alters])) fun _ _ _ => id

theorem moveTo_after (m : MemoryStore) (name : Bytes) (b : AnyStore) (w : Workspace) :
    (m.moveTo name b w).2.After [] (ChunkStore.moveTo m name b w).2 := by
  rcases hm : m.moveTo name b w with ⟨⟨r, b'⟩, x⟩
  show x.After [] (ChunkStore.moveTo m name b w).2
  simp only [ChunkStore.moveTo, Action.bind_apply, hm]
  cases r with
  | ok after => exact .refl x
  | error e => exact .report (.refl x) _

end MemoryStore

namespace AnyStore

open Action (Does)
open Tree (Alters Fixed)

variable {p : Tree → Change → Prop} {S : Key → Prop} {R : Tree → Key → Prop} {a b : AnyStore} {name : Bytes}
  {stored : Option Bytes} {t : Tree} {w : Workspace}

/-- What a store does for a chunk in files lies at keys of `S`, and `R` allows the places of its files. -/
def Cares (S : Key → Prop) (R : Tree → Key → Prop) (a : AnyStore) (name : Bytes) (stored : Option Bytes)
    (t : Tree) : Prop :=
  ∀ s l, a = .file s → s.layout? = some l → s.Cares S R l name stored t

/-- **A call**, but for clearing, prepares what it needs, makes one change or none, and may then drop a source or
write a target. -/
theorem call_spans {c : Call} (hc : c ≠ .clear) (h : ∀ name ∈ c.name?, a.Cares S R name c.stored? w.tree)
    (hhidden : ∀ k : Key, k.Hidden → S k) (hS : ∀ q ∈ c.alters, S q.key) (hR : ∀ q ∈ c.target?, ∀ t, R t q.key) :
    w.Spans S (fun k => ∃ q ∈ c.alters, k = q.key) R (c.run a w).2 := by
  cases a with
  | file s =>
    rw [Call.run_file]
    rcases hl : s.layout? with _ | l
    · exact .of_by (.still (FileStore.call_unrooted hl c w))
    · exact FileStore.call_spans hl hc (fun name hn => h name hn s l rfl hl) hhidden hS hR
  | memory m =>
    rw [Call.run_memory]
    exact MemoryStore.call_spans (fun q hq => ⟨q, hq, rfl⟩) w
  | fixed f =>
    rw [Call.run_fixed, (f.call_idle c w).2]
    exact .of_by (.refl w)

theorem start_does (a : AnyStore) (root : Path) (depth : Nat) : Does (Alters S R) (start root depth a) := by
  cases a with
  | file s => exact .bind (s.start_does root depth) fun _ => .pure _
  | memory m => exact .pure _
  | fixed f => exact .pure _

theorem chunkPath_does (a : AnyStore) (name : Bytes) (create : Bool) :
    Does (Alters S R) (chunkPath name create a) := by
  cases a with
  | file s => exact .bind ((s.locate_does name create).reported _ _) fun _ => .pure _
  | memory m => exact .pure _
  | fixed f => exact .pure _

theorem moveToSelf_does (a : AnyStore) (name : Bytes) : Does p (ChunkStore.moveToSelf a name) := by
  cases a with
  | file s =>
    have hself : Does p (s.moveToSelf name).run := .run_bind (s.require_does name) fun _ => .run_pure _
    exact .bind (hself.reported _ _) fun _ => .pure _
  | memory m => exact .bind (.outcome _ _ _) fun _ => .pure _
  | fixed f => exact .pure _

/-- Clearing removes, and does nothing else. -/
theorem clear_does (a : AnyStore) (hp : ∀ t k, p t (.remove k)) : Does p (Call.clear.run a) := by
  cases a with
  | file s =>
    intro w
    rw [Call.run_file]
    exact Does.bind (.bind (s.clear_does hp) fun _ => .bind (.outcome _ _ _) fun _ => .pure _) (fun _ => .pure _) w
  | memory m => exact fun w => .refl w
  | fixed f => exact fun w => .refl w

/-- Storing the content of a file may remove that file as well. -/
theorem sinkStoreFile_by {source : Path} (asked : Bool) (hb : b.Cares S R name (some name) w.tree)
    (hhidden : ∀ k : Key, k.Hidden → S k) (hsource : S source.key) :
    w.By (Alters S R) (Sink.storeFile b name source asked w).2 := by
  have halters : ∀ q ∈ (Call.storeFile name source asked).alters, S q.key := by
    intro q hq
    simp only [Call.alters] at hq
    split at hq
    · rw [List.mem_singleton.mp hq]
      exact hsource
    · cases hq
  have hspans : w.Spans S _ R ((Call.storeFile name source asked).run b w).2 :=
    call_spans (by simp) (fun n hn => by cases hn; exact hb) hhidden halters (fun q hq => by cases hq)
  refine hspans.by hhidden ?_
  rintro k ⟨q, hq, rfl⟩
  exact halters q hq

theorem sinkStore_by (content : Bytes) (hb : b.Cares S R name (some name) w.tree)
    (hhidden : ∀ k : Key, k.Hidden → S k) : w.By (Alters S R) (Sink.store b name content w).2 := by
  have hspans : w.Spans S _ R ((Call.store name content).run b w).2 :=
    call_spans (by simp) (fun n hn => by cases hn; exact hb) hhidden (fun q hq => by cases hq) (fun q hq => by cases hq)
  exact hspans.by hhidden fun k ⟨q, hq, _⟩ => by cases hq

/-- A file store offers the file of a chunk to the sink, and then lets the chunk go. -/
theorem fileMove_by {s : FileStore} (ha : (AnyStore.file s).Cares S R name none w.tree)
    (hb : b.Cares S R name (some name) w.tree) (hhidden : ∀ k : Key, k.Hidden → S k)
    (hafter : ∀ l e, s.layout? = some l → name ≠ [] → s.mode.find (l.place name) w.tree = .ok (some e) → ∀ b' v,
      Sink.storeFile b name e.path (e.count ≤ 1) w = ((true, b'), v) → s.Cares S R l name none v.tree) :
    w.By (Alters S R) (s.moveTo name b w).2 := by
  rcases hl : s.layout? with _ | l
  · rw [FileStore.moveTo_uninitialized hl]
    exact .refl w
  have hs := ha s l rfl hl
  have hroot := Layout.root_ne_blank hs.lead
  have hoffered : ∀ {e taken b' v}, name ≠ [] → s.mode.find (l.place name) w.tree = .ok (some e) →
      Sink.storeFile b name e.path (e.count ≤ 1) w = ((taken, b'), v) → w.By (Alters S R) v := by
    intro e taken b' v hname hfind hsink
    have hby := sinkStoreFile_by (e.count ≤ 1) hb hhidden (hs.owns _ (FileStore.owns_of_find hname hroot hfind))
    rw [hsink] at hby
    exact hby
  have hrun := FileStore.moveTo_run hl name b w
  generalize s.moveTo name b w = result at hrun ⊢
  cases hrun with
  | missing => exact .refl w
  | refused hname e hfind b' v hsink => exact hoffered hname hfind hsink
  | taken hname e hfind b' v hsink r x hletGo =>
    have hturn := FileStore.claims_turns (FileStore.letGo_trace (K := s.Receptive l none v.tree) hname hroot And.left
      hletGo)
    exact (hoffered hname hfind hsink).trans ((hafter l e hl hname hfind b' v hsink).turns hturn).by

/-- A memory store gives the content of a chunk to the sink. -/
theorem memoryMove_by (m : MemoryStore) (hb : b.Cares S R name (some name) w.tree)
    (hhidden : ∀ k : Key, k.Hidden → S k) : w.By (Alters S R) (m.moveTo name b w).2 := by
  unfold MemoryStore.moveTo
  rcases m.get name with e | content
  · exact .refl w
  · dsimp only
    rw [Action.bind_apply]
    refine (sinkStore_by content hb hhidden).trans ?_
    split <;> exact .refl _

/-- **A move** is what the sink does with the chunk, and then what the source does to let it go. -/
theorem moveTo_by (ha : a.Cares S R name none w.tree) (hb : b.Cares S R name (some name) w.tree)
    (hhidden : ∀ k : Key, k.Hidden → S k)
    (hafter : ∀ s l e, a = .file s → s.layout? = some l → name ≠ [] →
      s.mode.find (l.place name) w.tree = .ok (some e) → ∀ b' v,
        Sink.storeFile b name e.path (e.count ≤ 1) w = ((true, b'), v) → s.Cares S R l name none v.tree) :
    w.By (Alters S R) (ChunkStore.moveTo a name b w).2 := by
  cases a with
  | file s =>
    rw [moveTo_file]
    exact (fileMove_by ha hb hhidden fun l e => hafter s l e rfl).trans (.still (s.moveTo_after name b w))
  | memory m =>
    rw [moveTo_memory]
    exact (memoryMove_by m hb hhidden).trans (.still (m.moveTo_after name b w))
  | fixed f =>
    rw [moveTo_fixed]
    exact .refl w

end AnyStore

end ContentStore
