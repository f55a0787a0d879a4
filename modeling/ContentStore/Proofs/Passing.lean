import ContentStore.Proofs.Common
import ContentStore.Proofs.Fewer
import ContentStore.Proofs.Shelf

/-!
# Moves within one directory

A store that hands a chunk over to one that shares its root gives that store the path of a file that both may
take for their own.  They do if they keep the chunk in the same place (`Together`): then the sink takes one more
reference to the file, and the source drops it again.  Otherwise neither takes the other's files for its own,
and the chunk is taken in and dropped as if the roots were different.  `moveTo_passed` lists all that can come
of it, and `Passed.common` says that it keeps what the stores have in common.
-/

namespace ContentStore

open Function (update)
open FileSystem (shut Free)

theorem Layout.stem_eq {l m : Layout} {name : Bytes} (hroot : l.root.key = m.root.key)
    (hdir : (l.place name).dir.key = (m.place name).dir.key) :
    (l.place name).stem = (m.place name).stem := by
  rw [l.key_dir_place, m.key_dir_place, hroot] at hdir
  have hlen := congrArg List.length (List.append_cancel_right hdir)
  rw [l.length_shards, m.length_shards] at hlen
  show (Hex.encode name).drop (min l.depth _) = (Hex.encode name).drop (min m.depth _)
  rw [hlen]

/-- The name of a chunk file with a number of references, and its path, are not too long. -/
def Mode.Short (m : Mode) (l : Location) (n : Nat) : Prop :=
  (m.path l n).isTooLong = false ∧ (m.fileName l.stem n).length ≤ nameLimit

instance (m : Mode) (l : Location) (n : Nat) : Decidable (m.Short l n) :=
  inferInstanceAs (Decidable (_ ∧ _))

variable [FileSystem]

namespace FileStore

variable {s s' f f' : FileStore} {l m : Layout} {name : Bytes} {d : Key} {t u : Tree} {e : Entry}
  {w v x : Workspace} {taken : Bool}

/-- A store has a directory for its root, by a path that passes nothing below it, and nothing below it is shut. -/
structure WorksIn (d : Key) (s : FileStore) (l : Layout) (t : Tree) : Prop where
  layout : s.layout? = some l
  key : l.root.key = d
  avoids : l.root.Avoids d
  lead : t.leadsToDir l.root = true
  free : Free d

namespace WorksIn

theorem sides (h : WorksIn d s l t) : l.root.Sides d := ⟨h.avoids, Or.inl h.key⟩

theorem root_ne_blank (h : WorksIn d s l t) : l.root ≠ .blank := Layout.root_ne_blank h.lead

theorem suffix_dir (h : WorksIn d s l t) (name : Bytes) : d <:+ (l.place name).dir.key :=
  h.key ▸ root_suffix_dir l name

theorem mono (h : WorksIn d s l t) (hdir : ∀ k, t.kind? k = some .dir → u.kind? k = some .dir) :
    WorksIn d s l u :=
  ⟨h.layout, h.key, h.avoids, Tree.leadsToDir_mono h.lead hdir, h.free⟩

theorem file_eq (h : WorksIn d s l t) {kinds : Key → Option Kind} (hc : Common d kinds) (hname : name ≠ [])
    {file other c c' : Bytes} {i j : Nat} (hfile : s.mode.IsFile (l.place name).stem i file)
    (hother : s.mode.IsFile (l.place name).stem j other)
    (hk : kinds (file :: (l.place name).dir.key) = some (.file c))
    (hk' : kinds (other :: (l.place name).dir.key) = some (.file c')) : file = other :=
  hc.single s.mode _ _ _ _ _ _ _ _ (h.suffix_dir name) (l.isStem_place hname) hfile hother hk hk'

theorem found_again (h : WorksIn d s l t) (hc : Common d u.kind?) (hname : name ≠ [])
    (hdir : ∀ k, t.kind? k = some .dir → u.kind? k = some .dir)
    (hfind : s.mode.find (l.place name) t = .ok (some e)) {file old : Bytes} {n : Nat}
    (hfile : s.mode.IsFile (l.place name).stem n file)
    (hk : u.kind? (file :: (l.place name).dir.key) = some (.file old)) :
    ∃ e', s.mode.find (l.place name) u = .ok (some e') ∧ e'.count = n ∧
      s.mode.Found (l.place name) u e' file old := by
  have hu := h.mono hdir
  have hholds : s.mode.Holds (l.place name) u.kind? ⟨old, n⟩ :=
    ⟨spells_of_find hname h.root_ne_blank hfind, file, hfile, hk⟩
  obtain ⟨e', file', hfind', hcount, found⟩ := find_of_holds hname hu.lead (hu.key ▸ hc.single s.mode) hholds
  obtain rfl := hu.file_eq hc hname found.isFile hfile found.kind hk
  exact ⟨e', hfind', hcount, found⟩

end WorksIn

/-! ### The same place -/

/-- Two stores keep a chunk in the same place. -/
def Together (s : FileStore) (l : Layout) (f : FileStore) (m : Layout) (name : Bytes) : Prop :=
  s.mode = f.mode ∧ (l.place name).dir.key = (m.place name).dir.key

instance (s : FileStore) (l : Layout) (f : FileStore) (m : Layout) (name : Bytes) :
    Decidable (Together s l f m name) :=
  inferInstanceAs (Decidable (_ ∧ _))

omit [FileSystem] in
/-- Stores that keep a chunk in different places name no file of it alike. -/
theorem key_ne_of_not_together (hname : name ≠ []) (h : ¬ Together s l f m name) {file other : Bytes}
    (hfile : s.mode.Names (l.place name).stem file) (hother : f.mode.Names (m.place name).stem other) :
    file :: (l.place name).dir.key ≠ other :: (m.place name).dir.key := by
  intro e
  obtain ⟨rfl, hdir⟩ := List.cons.inj e
  exact h ⟨(Mode.Names.inj (l.isStem_place hname) (m.isStem_place hname) hfile hother).1, hdir⟩

/-- What comes of handing a chunk over to a store with the same root. -/
inductive Passed (s : FileStore) (l : Layout) (f : FileStore) (m : Layout) (name : Bytes) (t : Tree) :
    Bool → FileStore → FileStore → Tree → Prop
  | refused {u : Tree} (hu : Grown (m.place name).dir t u) : Passed s l f m name t false s f u
  /-- The sink has taken one more reference to the file, and the source cannot drop it. -/
  | stuck (hname : name ≠ []) (e : Entry) (file old : Bytes) (hplace : Together s l f m name)
      (hmode : s.mode = .counted)
      (hfind : s.mode.find (l.place name) t = .ok (some e))
      (found : s.mode.Found (l.place name) t e file old) {u : Tree}
      (htook : Took f m name old t f u.kind?)
      (hno : ¬ u.Admits (s.mode.path (l.place name) (e.count + 1))) : Passed s l f m name t false s f u
  /-- The sink has taken one more reference to the file, and the source has dropped it. -/
  | back (hname : name ≠ []) (e e' : Entry) (file old : Bytes) (hplace : Together s l f m name)
      (hfind : s.mode.find (l.place name) t = .ok (some e))
      (found : s.mode.Found (l.place name) t e file old)
      (hfind' : f.mode.find (m.place name) t = .ok (some e'))
      (found' : f.mode.Found (m.place name) t e' file old) {u : Tree} (hu : u.kind? = t.kind?) :
      Passed s l f m name t true s f u
  /-- The sink has taken the chunk, and the last reference of the source has gone with its file. -/
  | gone (hname : name ≠ []) (e : Entry) (file old : Bytes) (hplace : ¬ Together s l f m name)
      (hfind : s.mode.find (l.place name) t = .ok (some e))
      (found : s.mode.Found (l.place name) t e file old) (hold : t.Admits e.path) (hlast : e.count = 1)
      {f' : FileStore} {kinds : Key → Option Kind} (htook : Took f m name old t f' kinds) {u : Tree}
      (hu : u.kind? = update kinds (file :: (l.place name).dir.key) none) :
      Passed s l f m name t true { s with tracker := s.tracker.remove old.length } f' u
  /-- The sink has taken the chunk, and the source has dropped one of several references. -/
  | fewer (hname : name ≠ []) (e : Entry) (file old : Bytes) (hplace : ¬ Together s l f m name)
      (hfind : s.mode.find (l.place name) t = .ok (some e))
      (found : s.mode.Found (l.place name) t e file old) {f' : FileStore} {v u : Tree}
      (htook : Took f m name old t f' v.kind?) (hdropped : Dropped s l name v s u.kind?) :
      Passed s l f m name t true s f' u

theorem stat_of_acquire (hname : name ≠ []) (hroot : m.root ≠ .blank)
    (hfind : f.mode.find (m.place name) w.tree = .ok (some e)) {file old : Bytes}
    (found : f.mode.Found (m.place name) w.tree e file old) {n : Nat}
    (hacquire : (f.mode.acquire (m.place name) e).run w = (.ok n, v)) :
    w.tree.stat e.path = .ok (.file old) := by
  have hs := m.isStem_place hname
  have hdir := m.dir_place_ne_blank hroot name
  have hkind : w.tree.kind? e.path.key = some (.file old) := by
    rw [found.key hs]
    exact found.kind
  have hrun := Mode.acquire_run (m := f.mode) (l := m.place name) hkind
  rw [hacquire] at hrun
  cases hrun with
  | plain hmode =>
    rw [hmode] at hfind
    obtain ⟨content, -, hstat⟩ := Mode.find_plain_eq_some hdir hs hfind
    rw [kind?_of_stat hstat] at hkind
    cases hkind
    exact hstat
  | renamed hmode v after hold moved => exact found.stat hdir hs hold

/-- A store that is given the file of its own chunk takes one more reference to it and removes nothing. -/
theorem storeFile_own (hf : WorksIn d f m w.tree) (h : Common d w.tree.kind?) (hname : name ≠ [])
    {source : Path} {asked : Bool} {file old : Bytes} {n : Nat}
    (hfile : f.mode.IsFile (m.place name).stem n file) (hkey : source.key = file :: (m.place name).dir.key)
    (hkind : w.tree.kind? (file :: (m.place name).dir.key) = some (.file old))
    (hstore : (f.storeFile name source asked).run w = (.ok f', v)) :
    f' = f ∧ Took f m name old w.tree f v.tree.kind? ∧
      ∃ e, f.mode.find (m.place name) w.tree = .ok (some e) ∧ f.mode.Found (m.place name) w.tree e file old := by
  have hs := m.isStem_place hname
  have hdir := m.dir_place_ne_blank hf.root_ne_blank name
  have hlacks : f.mode.find (m.place name) w.tree ≠ .ok none := fun hnone =>
    Layout.lacks_of_find hf.lead hname hnone file n old hfile hkind
  have hrun := storeFile_run hf.layout name source asked w
  rw [hstore] at hrun
  cases hrun with
  | shared _ content hsource hcontent e hfind n' u x hacquire hlast =>
    obtain ⟨file', old', found⟩ := Mode.find_eq_some hdir hs hfind
    obtain rfl := hf.file_eq h hname found.isFile hfile found.kind hkind
    obtain rfl : old' = old := Kind.file.inj (Option.some.inj (found.kind.symm.trans hkind))
    have hsame : w.tree.sameFile e.path source = true :=
      Tree.sameFile_of_stat (stat_of_acquire hname hf.root_ne_blank hfind found hacquire) hsource
        ((found.key hs).trans hkey.symm)
    have hv : v = u := by
      rw [hsame, Bool.not_true, Bool.and_false] at hlast
      cases hlast with
      | unasked => rfl
      | kept hasked => cases hasked
      | gone hasked => cases hasked
    subst hv
    exact ⟨rfl, took_of_acquire hname hf.root_ne_blank hfind hacquire, e, hfind, found⟩
  | renamed _ _ _ _ hfind => exact absurd hfind hlacks
  | copied _ _ _ _ hfind => exact absurd hfind hlacks

/-- What taking in a chunk that is there already comes to. -/
theorem Took.of_found {content : Bytes} {kinds : Key → Option Kind} (htook : Took f m name content t f' kinds)
    (hname : name ≠ []) (hfind : f.mode.find (m.place name) t = .ok (some e))
    {file old : Bytes} (found : f.mode.Found (m.place name) t e file old) :
    (f.mode = .plain ∧ kinds = t.kind?) ∨
    (f.mode = .counted ∧ t.Admits (f.mode.path (m.place name) (e.count + 1)) ∧
      kinds = update (update t.kind? (file :: (m.place name).dir.key) none)
        (f.mode.fileName (m.place name).stem (e.count + 1) :: (m.place name).dir.key) (some (.file old))) := by
  cases htook with
  | kept e' old' hmode => exact Or.inl ⟨hmode, rfl⟩
  | recounted e' file' old' hmode hfind' found' hold admits =>
    rw [hfind] at hfind'
    cases hfind'
    have hs := m.isStem_place hname
    obtain rfl : file' = file := (List.cons.inj ((found'.key hs).symm.trans (found.key hs))).1
    obtain rfl : old' = old := Kind.file.inj (Option.some.inj (found'.kind.symm.trans found.kind))
    exact Or.inr ⟨hmode, admits, rfl⟩
  | added hfind' =>
    rw [hfind] at hfind'
    cases hfind'

omit [FileSystem] in
theorem Dropped.of_found {kinds : Key → Option Kind} (hdropped : Dropped s l name t s' kinds)
    (hname : name ≠ []) (hfind : s.mode.find (l.place name) t = .ok (some e)) {file old : Bytes}
    (found : s.mode.Found (l.place name) t e file old) (hgt : 1 < e.count) :
    s' = s ∧ t.Admits e.path ∧ kinds = update (update t.kind? (file :: (l.place name).dir.key) none)
      (s.mode.fileName (l.place name).stem (e.count - 1) :: (l.place name).dir.key) (some (.file old)) := by
  cases hdropped with
  | absent hfind' =>
    rw [hfind] at hfind'
    cases hfind'
  | recounted e' file' old' hmode _ hfind' found' hold =>
    rw [hfind] at hfind'
    cases hfind'
    have hs := l.isStem_place hname
    obtain rfl : file' = file := (List.cons.inj ((found'.key hs).symm.trans (found.key hs))).1
    obtain rfl : old' = old := Kind.file.inj (Option.some.inj (found'.kind.symm.trans found.kind))
    exact ⟨rfl, hold, rfl⟩
  | removed e' file' old' hone hfind' =>
    rw [hfind] at hfind'
    cases hfind'
    omega

omit [FileSystem] in
theorem update_back {kinds : Key → Option Kind} {k k' : Key} {c : Option Kind}
    (hk : kinds k = c) (hk' : kinds k' = none) :
    update (update (update (update kinds k none) k' c) k' none) k c = kinds := by
  funext j
  by_cases hj : j = k
  · rw [hj, Function.update_self, hk]
  · rw [Function.update_of_ne hj]
    by_cases hj' : j = k'
    · rw [hj', Function.update_self, hk']
    · rw [Function.update_of_ne hj', Function.update_of_ne hj', Function.update_of_ne hj]

section Places

variable (hs : WorksIn d s l w.tree) (hf : WorksIn d f m w.tree) (h : Common d w.tree.kind?)
  (hshare : (AnyStore.file f).CanShare w.tree name) (hname : name ≠ [])
  (hfind : s.mode.find (l.place name) w.tree = .ok (some e))
include hs hf h hshare hname hfind

/-- **Different places.**  A chunk that is taken in is dropped by the source. -/
theorem passed_apart (hplace : ¬ Together s l f m name)
    (hstore : (f.storeFile name e.path (e.count ≤ 1)).run w = (.ok f', v)) {r : Except StoreError FileStore}
    (hletGo : (s.letGo name (l.place name) e).run v = (r, x)) :
    ∃ s', r = .ok s' ∧ Passed s l f m name w.tree true s' f' x.tree := by
  obtain ⟨file, old, found⟩ :=
    Mode.find_eq_some (l.dir_place_ne_blank hs.root_ne_blank name) (l.isStem_place hname) hfind
  have hkey := found.key (l.isStem_place hname)
  -- the sink takes the file for none of its own
  obtain ⟨-, content, kinds, -, hstat, htook, hkinds⟩ := storeFile_took_far hf.layout hf.root_ne_blank
    (fun g hg => by rw [hkey]; exact key_ne_of_not_together hname hplace found.isFile.names hg) hstore
  have hold : old = content := by
    have hk := kind?_of_stat hstat
    rw [hkey, found.kind] at hk
    cases hk
    rfl
  subst hold
  have hframe := htook.frame hname
  have hcommon := htook.common h hf.layout hf.sides hf.lead hname hshare
  have hown : ∀ {g n}, s.mode.IsFile (l.place name).stem n g → ∀ c,
      kinds (g :: (l.place name).dir.key) = some (.file c) ↔
        w.tree.kind? (g :: (l.place name).dir.key) = some (.file c) := fun hg =>
    htook.file_iff fun _ => key_ne_of_not_together hname hplace hg.names
  have hopen : shut e.path.key.tail = false := found.unshut hname (hs.key ▸ hs.free)
  rw [hopen, Bool.not_false, Bool.and_true] at hkinds
  by_cases hlast : e.count ≤ 1
  · rw [if_pos (decide_eq_true hlast)] at hkinds
    have hgone : s.mode.find (l.place name) v.tree = .ok none := by
      have honly := (hs.key ▸ h.single s.mode : s.mode.Single _ _).only (root_suffix_dir l name)
        (l.isStem_place hname) found
      exact find_of_removed hname hs.root_ne_blank hfind hframe.dir
        (honly.mono fun g n c hg hk => (hown hg c).mp hk) hkinds
    obtain ⟨rfl, hstill⟩ := letGo_gone hgone hletGo
    have htree : x.tree = v.tree := hstill.tree
    have hone : e.count = 1 := count_of_not_shared found fun hc => absurd hc.2 (by omega)
    rw [found.size]
    exact ⟨_, rfl, .gone hname e file old hplace hfind found (Tree.admits_of_stat hstat) hone htook
      (by rw [htree, hkinds, hkey])⟩
  · rw [if_neg (by simpa using hlast)] at hkinds
    subst hkinds
    obtain ⟨e', hfind', hcount, found'⟩ := hs.found_again hcommon hname (fun k => hframe.dir k) hfind
      found.isFile ((hown found.isFile old).mpr found.kind)
    have hstat' : v.tree.stat e'.path = .ok (.file old) := by
      rw [found'.path, ← found.path]
      refine Tree.stat_mono hstat (fun k => hframe.dir k) ?_
      rw [hkey]
      exact (hown found.isFile old).mpr found.kind
    obtain ⟨x', hok, hdropped⟩ := letGo_fewer e hname hs.root_ne_blank hfind' found'
      (Tree.admits_of_stat hstat') (by omega) (hs.key ▸ hcommon.tidy) (hs.key ▸ hs.free)
    rw [hletGo] at hok
    cases hok
    exact ⟨s, rfl, .fewer hname e file old hplace hfind found htook hdropped⟩

omit hf hshare in
/-- A file that has been given one reference more is found by the source, which drops it again if the file can take
that name. -/
theorem letGo_back (hmode : s.mode = .counted) {file old : Bytes}
    (found : s.mode.Found (l.place name) w.tree e file old) (hcarries : s.mode.Carries (e.count + 1))
    (hcommon : Common d v.tree.kind?) (hdirs : ∀ k, w.tree.kind? k = some .dir → v.tree.kind? k = some .dir)
    (hkinds : v.tree.kind? = update (update w.tree.kind? (file :: (l.place name).dir.key) none)
      (s.mode.fileName (l.place name).stem (e.count + 1) :: (l.place name).dir.key) (some (.file old)))
    {r : Except StoreError FileStore} (hletGo : (s.letGo name (l.place name) e).run v = (r, x)) :
    ((∃ err, r = .error err) ∧ x = v ∧ ¬ v.tree.Admits (s.mode.path (l.place name) (e.count + 1))) ∨
      (r = .ok s ∧ x.tree.kind? = w.tree.kind?) := by
  have hstem := l.isStem_place hname
  have hnew := Mode.isFile_fileName (l.place name).stem hcarries
  obtain ⟨e₁, hfind₁, hcount₁, found₁⟩ := hs.found_again hcommon hname hdirs hfind hnew
    (by rw [hkinds, Function.update_self])
  have hpath : e₁.path = s.mode.path (l.place name) (e.count + 1) := by rw [found₁.path, Mode.path_eq]
  have hgt : 1 < e₁.count := by
    have hpos := found.isFile.carries
    rw [hmode] at hpos
    have := hpos.1
    omega
  rcases letGo_after hname (hs.mono hdirs).lead hfind₁ (.refl _ _) hletGo with
    ⟨err, rfl, rfl⟩ | ⟨hplain, -⟩ | ⟨s', rfl, hdropped⟩
  · refine Or.inl ⟨⟨err, rfl⟩, rfl, fun hadmits => ?_⟩
    obtain ⟨y, hok, -⟩ := letGo_fewer e hname hs.root_ne_blank hfind₁ found₁ (hpath ▸ hadmits) hgt
      (hs.key ▸ hcommon.tidy) (hs.key ▸ hs.free)
    rw [hletGo] at hok
    cases hok
  · rw [hmode] at hplain
    cases hplain
  · obtain ⟨rfl, -, hx⟩ := hdropped.of_found hname hfind₁ found₁ hgt
    refine Or.inr ⟨rfl, ?_⟩
    have hcanonical : file = s'.mode.fileName (l.place name).stem e.count :=
      h.canonical s'.mode _ _ _ old _ (hs.suffix_dir name) hstem found.isFile found.kind
    rw [hx, hkinds, hcount₁, Nat.add_sub_cancel, ← hcanonical]
    refine update_back found.kind ?_
    -- nothing had the name with one reference more
    rcases hk : w.tree.kind? (s'.mode.fileName (l.place name).stem (e.count + 1) :: (l.place name).dir.key) with
      _ | ⟨_ | c⟩
    · rfl
    · have htidy := h.tidy
      rw [← hs.key] at htidy
      rw [hmode] at hk
      exact absurd hk (htidy.not_counted hname _)
    · have hsame := hs.file_eq h hname hnew found.isFile hk found.kind
      have heq := (hnew.inj (hsame ▸ found.isFile)).2
      omega

/-- **The same place.**  A reference that is taken to the file is dropped again, if the file can take the name
with one reference more. -/
theorem passed_together (hplace : Together s l f m name)
    (hstore : (f.storeFile name e.path (e.count ≤ 1)).run w = (.ok f', v)) {r : Except StoreError FileStore}
    (hletGo : (s.letGo name (l.place name) e).run v = (r, x)) :
    f' = f ∧ ((r = .ok s ∧ Passed s l f m name w.tree true s f x.tree) ∨
      ((∃ err, r = .error err) ∧ Passed s l f m name w.tree false s f x.tree)) := by
  have hstem := l.isStem_place hname
  obtain ⟨file, old, found⟩ := Mode.find_eq_some (l.dir_place_ne_blank hs.root_ne_blank name) hstem hfind
  have hkey := found.key hstem
  have hstems := Layout.stem_eq (hs.key.trans hf.key.symm) hplace.2
  have hkind : w.tree.kind? (file :: (m.place name).dir.key) = some (.file old) := hplace.2 ▸ found.kind
  have hfile : f.mode.IsFile (m.place name).stem e.count file := by
    rw [← hplace.1, ← hstems]
    exact found.isFile
  obtain ⟨rfl, htook, e', hfind', found'⟩ := storeFile_own hf h hname hfile (hkey.trans (by rw [hplace.2])) hkind
    hstore
  have hcount : e'.count = e.count := (found'.isFile.inj hfile).2
  have hcommon := htook.common h hf.layout hf.sides hf.lead hname hshare
  have hdirs := (htook.frame hname).dir
  refine ⟨rfl, ?_⟩
  rcases htook.of_found hname hfind' found' with ⟨hmode, hkinds⟩ | ⟨hmode, hadmits, hkinds⟩
  · -- the source finds the file as it was and keeps it
    obtain ⟨e₁, hfind₁, -⟩ := hs.found_again hcommon hname (fun k => hdirs k) hfind found.isFile
      (by rw [hkinds]; exact found.kind)
    have hrun := letGo_run s name (l.place name) e v
    rw [hletGo] at hrun
    cases hrun with
    | unreadable _ hfind₂ | gone hfind₂ =>
      rw [hfind₁] at hfind₂
      cases hfind₂
    | kept e₂ hfind₂ _ x hlast =>
      refine Or.inl ⟨rfl, .back hname e e' file old hplace hfind found hfind' found' ?_⟩
      rw [hlast.tree, Workspace.commits_nil, hkinds]
    | refused _ _ hcounted | dropped _ _ hcounted | removed _ _ hcounted =>
      rw [← hplace.1, hcounted] at hmode
      cases hmode
  · have hmode' : s.mode = .counted := hplace.1.trans hmode
    have hcarries : s.mode.Carries (e.count + 1) := by
      rw [hmode', ← hcount]
      exact ⟨Nat.succ_pos _, countable_of_canShare hf.layout hf.root_ne_blank hname hshare e' hmode hfind'⟩
    rw [← hplace.1, ← hstems, hcount, ← hplace.2] at hkinds
    rcases letGo_back hs h hname hfind hmode' found hcarries hcommon (fun k => hdirs k) hkinds hletGo with
      ⟨hr, rfl, hno⟩ | ⟨hr, hx⟩
    · exact Or.inr ⟨hr, .stuck hname e file old hplace hmode' hfind found htook hno⟩
    · exact Or.inl ⟨hr, .back hname e e' file old hplace hfind found hfind' found' hx⟩

end Places

/-- **Handing a chunk over** to a store with the same root. -/
theorem moveTo_passed (hs : WorksIn d s l w.tree) (hf : WorksIn d f m w.tree) (h : Common d w.tree.kind?)
    (hshare : (AnyStore.file f).CanShare w.tree name) {b' : AnyStore}
    (hrun : ChunkStore.moveTo s name (AnyStore.file f) w = ((taken, s', b'), x)) :
    ∃ f', b' = .file f' ∧ Passed s l f m name w.tree taken s' f' x.tree := by
  have hmove := moveTo_run hs.layout name (AnyStore.file f) w
  rw [moveTo_apply] at hrun
  rcases hm : s.moveTo name (AnyStore.file f) w with ⟨⟨r, b⟩, y⟩
  rw [hm] at hmove hrun
  cases hmove with
  | missing err =>
    cases hrun
    exact ⟨f, rfl, .refused (.refl _ _)⟩
  | refused hname e hfind b y hsink =>
    obtain ⟨f', rfl, hfile⟩ := AnyStore.sink_file_inv hsink
    cases hrun
    rcases sink_file hf.layout hf.root_ne_blank hfile with ⟨-, rfl, hgrown⟩ | ⟨htaken, -⟩
    · exact ⟨_, rfl, .refused hgrown⟩
    · cases htaken
  | taken hname e hfind b v hsink r y hletGo =>
    obtain ⟨f', rfl, hfile⟩ := AnyStore.sink_file_inv hsink
    rcases sink_file hf.layout hf.root_ne_blank hfile with ⟨htaken, -⟩ | ⟨-, hstore⟩
    · cases htaken
    · by_cases hplace : Together s l f m name
      · obtain ⟨rfl, ⟨rfl, hpassed⟩ | ⟨⟨err, rfl⟩, hpassed⟩⟩ :=
          passed_together hs hf h hshare hname hfind hplace hstore hletGo
        · cases hrun
          exact ⟨_, rfl, hpassed⟩
        · cases hrun
          exact ⟨_, rfl, hpassed⟩
      · obtain ⟨s'', rfl, hpassed⟩ := passed_apart hs hf h hshare hname hfind hplace hstore hletGo
        cases hrun
        exact ⟨_, rfl, hpassed⟩

/-! ### What comes of it -/

namespace Passed

theorem layout (h : Passed s l f m name t taken s' f' u) : s'.layout? = s.layout? ∧ f'.layout? = f.layout? := by
  cases h with
  | refused | stuck | back => exact ⟨rfl, rfl⟩
  | gone hname e file old hplace hfind found hold hlast htook => exact ⟨rfl, htook.same.1⟩
  | fewer hname e file old hplace hfind found htook => exact ⟨rfl, htook.same.1⟩

theorem dir (h : Passed s l f m name t taken s' f' u) {k : Key} (hk : t.kind? k = some .dir) :
    u.kind? k = some .dir := by
  cases h with
  | refused hu => exact hu.dir hk
  | stuck hname e file old hplace hmode hfind found htook => exact (htook.frame hname).dir k hk
  | back _ _ _ _ _ _ _ _ _ _ hu => rw [hu, hk]
  | gone hname e file old hplace hfind found hold hlast htook hu =>
    have hne : k ≠ file :: (l.place name).dir.key := by
      rintro rfl
      rw [found.kind] at hk
      cases hk
    rw [hu, Function.update_of_ne hne]
    exact (htook.frame hname).dir k hk
  | fewer hname e file old hplace hfind found htook hdropped =>
    exact (hdropped.frame hname).dir k ((htook.frame hname).dir k hk)

/-- **A move within one directory** keeps what the stores have in common. -/
theorem common (h : Passed s l f m name t taken s' f' u) (hs : WorksIn d s l t) (hf : WorksIn d f m t)
    (hc : Common d t.kind?) (hshare : (AnyStore.file f).CanShare t name) : Common d u.kind? := by
  cases h with
  | refused hu => exact hc.grown hf.key hf.avoids hu
  | stuck hname e file old hplace hmode hfind found htook =>
    exact htook.common hc hf.layout hf.sides hf.lead hname hshare
  | back _ _ _ _ _ _ _ _ _ _ hu => rwa [hu]
  | gone hname e file old hplace hfind found hold hlast htook hu =>
    rw [hu]
    exact (htook.common hc hf.layout hf.sides hf.lead hname hshare).remove _
  | fewer hname e file old hplace hfind found htook hdropped =>
    exact hdropped.common (htook.common hc hf.layout hf.sides hf.lead hname hshare) hs.sides hname

/-- **A move that is answered with no** changes no file, if the path with one reference more is not too long. -/
theorem file_iff_of_refused (h : Passed s l f m name t false s' f' u) (hs : WorksIn d s l t)
    (hf : WorksIn d f m t) (hc : Common d t.kind?) (hshare : (AnyStore.file f).CanShare t name)
    (hshort : ∀ chunk, s.held? t name = some chunk → s.mode.Short (l.place name) (chunk.count + 1))
    (k : Key) (c : Bytes) : u.kind? k = some (.file c) ↔ t.kind? k = some (.file c) := by
  have hcommon := h.common hs hf hc hshare
  cases h with
  | refused hu => exact hu.file_iff k c
  | stuck hname e file old hplace hmode hfind found htook hno =>
    have hstem := l.isStem_place hname
    obtain ⟨hpath, hlen⟩ := hshort _ (held?_of_found hs.layout hname hfind found)
    obtain ⟨hnew, h0⟩ := s.mode.isName_fileName hstem (e.count + 1)
    have hdir := Tree.leadsToDir_mono found.dir (htook.frame hname).dir
    rw [Mode.path_eq] at hno hpath
    refine absurd (Tree.admits_join hnew (Path.check_join hnew ?_ h0 hpath) hlen hdir ?_) hno
    · exact Path.zero_notMem_of_check (Tree.leadsToDir_iff.mp hdir).1
    · rw [hmode]
      exact Tidy.not_counted (hs.key ▸ hcommon.tidy) hname _

/-- **A move that is answered with yes** gives the chunk to the sink.  If both stores keep it in the same place
nothing has changed; otherwise the source has one reference less, and the sink one more or a first one. -/
theorem held (h : Passed s l f m name t true s' f' u) (hs : WorksIn d s l t) (hf : WorksIn d f m t)
    (hc : Common d t.kind?) (hshare : (AnyStore.file f).CanShare t name) :
    ∃ chunk, s.held? t name = some chunk ∧
      (Together s l f m name → u.kind? = t.kind? ∧ s' = s ∧ f' = f ∧ f.held? t name = some chunk ∧
        f.held? u name = some chunk) ∧
      (¬ Together s l f m name → s'.held? u name = s.mode.dropped chunk ∧
        f'.held? u name = some (f.mode.taken chunk.content (f.held? t name))) := by
  have hcommon := h.common hs hf hc hshare
  have hs' := hs.mono fun k => h.dir
  have hf' := hf.mono fun k => h.dir
  have hcount := fun hname => countable_of_canShare hf.layout hf.root_ne_blank hname hshare
  have hsingle : ∀ {kinds}, Common d kinds → s.mode.Single l.root.key kinds := fun h => hs.key ▸ h.single s.mode
  have hsingle' : ∀ {kinds}, Common d kinds → f.mode.Single m.root.key kinds := fun h => hf.key ▸ h.single f.mode
  cases h with
  | back hname e e' file old hplace hfind found hfind' found' hu =>
    have hfile := found.isFile
    rw [hplace.1, Layout.stem_eq (hs.key.trans hf.key.symm) hplace.2] at hfile
    have hheld : f.held? t name = some ⟨old, e.count⟩ := by
      rw [held?_of_found hf.layout hname hfind' found', (found'.isFile.inj hfile).2]
    refine ⟨_, held?_of_found hs.layout hname hfind found, fun _ => ⟨hu, rfl, rfl, hheld, ?_⟩,
      fun hno => absurd hplace hno⟩
    rw [← hheld]
    refine held?_congr hf.layout hf.layout rfl hf.lead hf'.lead (hsingle' hc) (hsingle' hcommon) fun g n c _ => ?_
    rw [hu]
  | gone hname e file old hplace hfind found hold hlast htook hu =>
    refine ⟨_, held?_of_found hs.layout hname hfind found, fun h => absurd h hplace, fun _ => ⟨?_, ?_⟩⟩
    · have hdropped : Dropped s l name t _ _ := .removed e file old hlast hfind found hold
      rw [hdropped.held_self hs.layout hname hs.lead (hsingle hc) hs'.lead (hsingle hcommon) fun g n c hg => ?_,
        held?_of_found hs.layout hname hfind found, Option.bind_some]
      rw [hu, Function.update_apply, Function.update_apply]
      split
      · exact Iff.rfl
      · exact htook.file_iff (fun _ => key_ne_of_not_together hname hplace hg.names) c
    · refine htook.held_self hf.layout hname hf.lead (hsingle' hc) (hcount hname) hf'.lead (hsingle' hcommon)
        fun g n c hg => ?_
      rw [hu, Function.update_of_ne (key_ne_of_not_together hname hplace found.isFile.names hg.names).symm]
  | fewer hname e file old hplace hfind found htook hdropped =>
    have hv := htook.common hc hf.layout hf.sides hf.lead hname hshare
    have hleadv := (hs.mono fun k => (htook.frame hname).dir k).lead
    refine ⟨_, held?_of_found hs.layout hname hfind found, fun h => absurd h hplace, fun _ => ⟨?_, ?_⟩⟩
    · rw [hdropped.held_self hs.layout hname hleadv (hsingle hv) hs'.lead (hsingle hcommon)
        fun g n c hg => Iff.rfl, held?_congr hs.layout hs.layout rfl hs.lead hleadv (hsingle hc) (hsingle hv)
        fun g n c hg => htook.file_iff (fun _ => key_ne_of_not_together hname hplace hg.names) c,
        held?_of_found hs.layout hname hfind found, Option.bind_some]
    · refine htook.held_self hf.layout hname hf.lead (hsingle' hc) (hcount hname) hf'.lead (hsingle' hcommon)
        fun g n c hg => ?_
      exact hdropped.file_iff (fun _ hnames => (key_ne_of_not_together hname hplace hnames hg.names).symm) c

end Passed

end FileStore

end ContentStore
