import ContentStore.Proofs.Accounts
import ContentStore.Proofs.Handover

/-!
# What a file store holds

A store holds a chunk with the content of its file and the references in the name of the file.  What it
holds depends on the files below its root and on the lengths of paths (`held?_eq_some_iff`), so taking a
chunk in and dropping a reference change what is held under one name and under no other: `Took.held`,
`Dropped.held`.
-/

namespace ContentStore

open Function (update)

namespace Mode

def taken (m : Mode) (content : Bytes) : Option Held → Held
  | none => ⟨content, 1⟩
  | some held => if m.isCounted then { held with count := held.count + 1 } else held

def dropped (m : Mode) (held : Held) : Option Held :=
  if m.isCounted ∧ 1 < held.count then some { held with count := held.count - 1 } else none

/-- The path by which the chunk at a location is looked for is not too long. -/
def Spells (m : Mode) (l : Location) : Prop :=
  match m with
  | .plain => l.plainPath.isTooLong = false ∧ l.stem.length ≤ nameLimit
  | .counted => l.dir.isTooLong = false

instance (l : Location) : (m : Mode) → Decidable (m.Spells l)
  | .plain => inferInstanceAs (Decidable (l.plainPath.isTooLong = false ∧ l.stem.length ≤ nameLimit))
  | .counted => inferInstanceAs (Decidable (l.dir.isTooLong = false))

/-- A chunk has a file with a content and a number of references, and is looked for there. -/
def Holds (m : Mode) (l : Location) (kinds : Key → Option Kind) (held : Held) : Prop :=
  m.Spells l ∧ ∃ file, m.IsFile l.stem held.count file ∧
    kinds (file :: l.dir.key) = some (.file held.content)

theorem spells_dir {m : Mode} {l : Location} (hs : isStem l.stem = true) (h : m.Spells l) :
    l.dir.isTooLong = false := by
  cases m with
  | plain => exact Path.isTooLong_of_join (isName_stem hs).1 h.1
  | counted => exact h

theorem fits_of_spells {m : Mode} {l : Location} (h : m.Spells l) : m.Fits l := by
  rintro rfl
  exact h

theorem spells_of_admits {m : Mode} {l : Location} (hdir : l.dir ≠ .blank) (hs : isStem l.stem = true)
    {t : Tree} {n : Nat} (h : t.Admits (m.path l n)) : m.Spells l := by
  obtain ⟨x, d, hn, -⟩ := h
  have hlong := (Path.check_eq_ok_iff.mp hn.check).2.2
  rw [path_eq] at hn hlong
  have hname := (m.isName_fileName hs n).1
  cases m with
  | plain =>
    obtain ⟨rfl, -⟩ := hn.of_join hname hdir
    exact ⟨hlong, hn.length⟩
  | counted => exact Path.isTooLong_of_join hname hlong

end Mode

namespace FileStore

variable {s s' : FileStore} {l : Layout} {name content file old : Bytes} {t u : Tree} {e : Entry}
  {kinds kinds' : Key → Option Kind} {chunk : Held}

def held? (s : FileStore) (t : Tree) (name : Bytes) : Option Held :=
  match s.layout? with
  | none => none
  | some l =>
    if name = [] then none
    else match s.mode.find (l.place name) t with
      | .ok (some e) => (t.content? e.path.key).map fun content => ⟨content, e.count⟩
      | _ => none

theorem held?_of_find (hl : s.layout? = some l) (hname : name ≠ [])
    (h : s.mode.find (l.place name) t = .ok none) : s.held? t name = none := by
  simp [held?, hl, hname, h]

theorem held?_blank (s : FileStore) (t : Tree) : s.held? t [] = none := by
  unfold held?
  cases s.layout? <;> rfl

theorem held?_of_found (hl : s.layout? = some l) (hname : name ≠ [])
    (hfind : s.mode.find (l.place name) t = .ok (some e))
    (found : s.mode.Found (l.place name) t e file old) : s.held? t name = some ⟨old, e.count⟩ := by
  have hkey := found.key (l.isStem_place hname)
  have hcontent : t.content? e.path.key = some old := by
    rw [hkey]
    exact Tree.content?_eq_some_iff.mpr found.kind
  simp [held?, hl, hname, hfind, hcontent]

theorem held?_of_stat (hl : s.layout? = some l) (hname : name ≠ []) (hroot : l.root ≠ .blank)
    (hfind : s.mode.find (l.place name) t = .ok (some e)) (hstat : t.stat e.path = .ok (.file content)) :
    s.held? t name = some ⟨content, e.count⟩ := by
  obtain ⟨file, old, found⟩ :=
    Mode.find_eq_some (l.dir_place_ne_blank hroot name) (l.isStem_place hname) hfind
  have hkind := kind?_of_stat hstat
  rw [found.key (l.isStem_place hname), found.kind] at hkind
  cases hkind
  exact held?_of_found hl hname hfind found

theorem spells_of_find (hname : name ≠ []) (hroot : l.root ≠ .blank)
    (hfind : s.mode.find (l.place name) t = .ok (some e)) : s.mode.Spells (l.place name) := by
  obtain ⟨file, old, found⟩ :=
    Mode.find_eq_some (l.dir_place_ne_blank hroot name) (l.isStem_place hname) hfind
  have hfits := fits_of_find hname hroot hfind
  have hdir := (Path.check_eq_ok_iff.mp (Tree.leadsToDir_iff.mp found.dir).1).2.2
  cases hmode : s.mode with
  | plain => exact hfits hmode
  | counted => exact hdir

theorem find_of_holds (hname : name ≠ []) (hlead : t.leadsToDir l.root = true)
    (hsingle : s.mode.Single l.root.key t.kind?) (h : s.mode.Holds (l.place name) t.kind? chunk) :
    ∃ e file, s.mode.find (l.place name) t = .ok (some e) ∧ e.count = chunk.count ∧
      s.mode.Found (l.place name) t e file chunk.content := by
  have hs := l.isStem_place hname
  obtain ⟨hspells, file, hfile, hkind⟩ := h
  have hd : t.kind? (l.place name).dir.key = some .dir := Tree.isDir_of_kind?_cons (by rw [hkind]; simp)
  have hdir := Layout.leadsToDir_place hlead (Mode.spells_dir hs hspells) hd
  exact ⟨_, file, Mode.find_of_file hs (Mode.fits_of_spells hspells) hdir hfile hkind fun other n c ho hk =>
    hsingle _ _ _ _ _ _ _ _ (root_suffix_dir l name) hs ho hfile hk hkind, rfl, rfl, hfile, rfl, hdir, hkind⟩

/-- **What is held.**  A store holds what the file of a chunk says, if it is looked for there. -/
theorem held?_eq_some_iff (hl : s.layout? = some l) (hname : name ≠ [])
    (hlead : t.leadsToDir l.root = true) (hsingle : s.mode.Single l.root.key t.kind?) :
    s.held? t name = some chunk ↔ s.mode.Holds (l.place name) t.kind? chunk := by
  have hroot := Layout.root_ne_blank hlead
  constructor
  · intro h
    rcases hfind : s.mode.find (l.place name) t with f | _ | e
    · simp [held?, hl, hname, hfind] at h
    · rw [held?_of_find hl hname hfind] at h
      cases h
    · obtain ⟨file, old, found⟩ :=
        Mode.find_eq_some (l.dir_place_ne_blank hroot name) (l.isStem_place hname) hfind
      rw [held?_of_found hl hname hfind found] at h
      cases h
      exact ⟨spells_of_find hname hroot hfind, file, found.isFile, found.kind⟩
  · intro h
    obtain ⟨e, file, hfind, hcount, found⟩ := find_of_holds hname hlead hsingle h
    rw [held?_of_found hl hname hfind found, hcount]

/-- A tree shows what an operation left of one chunk. -/
def ShowsChunk (m : Mode) (l : Layout) (name : Bytes) (kinds : Key → Option Kind) (u : Tree) : Prop :=
  ∀ file n c, m.IsFile (l.place name).stem n file →
    (u.kind? (file :: (l.place name).dir.key) = some (.file c) ↔
      kinds (file :: (l.place name).dir.key) = some (.file c))

theorem held?_congr (hl : s.layout? = some l) (hl' : s'.layout? = some l) (hmode : s'.mode = s.mode)
    (hlead : t.leadsToDir l.root = true) (hlead' : u.leadsToDir l.root = true)
    (hsingle : s.mode.Single l.root.key t.kind?) (hsingle' : s.mode.Single l.root.key u.kind?)
    (hsame : ShowsChunk s.mode l name t.kind? u) : s'.held? u name = s.held? t name := by
  by_cases hname : name = []
  · rw [hname, held?_blank, held?_blank]
  · refine Option.ext fun chunk => ?_
    rw [held?_eq_some_iff hl hname hlead hsingle,
      held?_eq_some_iff hl' hname hlead' (by rw [hmode]; exact hsingle'), hmode]
    refine and_congr_right fun _ => exists_congr fun file => and_congr_right fun hfile => ?_
    exact hsame file _ _ hfile

theorem name_eq_of_key {m : Mode} {other : Bytes} {f g : Bytes} {i j : Nat}
    (hf : m.IsFile (l.place name).stem i f) (hg : m.IsFile (l.place other).stem j g)
    (h : f :: (l.place name).dir.key = g :: (l.place other).dir.key) : name = other := by
  obtain ⟨rfl, hdir⟩ := List.cons.inj h
  rw [l.key_dir_place, l.key_dir_place] at hdir
  exact Layout.place_injective (List.append_cancel_right hdir) (hf.inj hg).1

theorem update_file_other {m : Mode} {other : Bytes} {f g : Bytes} {i j : Nat} (hne : other ≠ name)
    (hf : m.IsFile (l.place name).stem i f) (hg : m.IsFile (l.place other).stem j g) (kind : Option Kind) :
    update kinds (f :: (l.place name).dir.key) kind (g :: (l.place other).dir.key) =
      kinds (g :: (l.place other).dir.key) :=
  Function.update_of_ne (fun h => hne (name_eq_of_key hg hf h)) ..

/-- The tree after an operation shows what the operation left below the root. -/
structure Shows (l : Layout) (kinds : Key → Option Kind) (u : Tree) : Prop where
  lead : u.leadsToDir l.root = true
  file : ∀ k c, l.root.key <:+ k → (u.kind? k = some (.file c) ↔ kinds k = some (.file c))

theorem Shows.iff (h : Shows l kinds u) (name file c : Bytes) :
    u.kind? (file :: (l.place name).dir.key) = some (.file c) ↔
      kinds (file :: (l.place name).dir.key) = some (.file c) :=
  h.file _ c (root_suffix_file l name file)

theorem Shows.showsChunk (h : Shows l kinds u) (m : Mode) (name : Bytes) : ShowsChunk m l name kinds u :=
  fun file _ c _ => h.iff name file c

/-- A chunk that was taken in is held with one more reference, or with a first one and the new content. -/
theorem Took.held_self [FileSystem] (hl : s.layout? = some l) (hname : name ≠ []) (hlead : t.leadsToDir l.root = true)
    (h : s.mode.Single l.root.key t.kind?) (htook : Took s l name content t s' kinds)
    (hcount : ∀ e, s.mode = .counted → s.mode.find (l.place name) t = .ok (some e) →
      e.count + 1 < Decimal.wordLimit) (hlead' : u.leadsToDir l.root = true)
    (hsingle : s.mode.Single l.root.key u.kind?) (hshows : ShowsChunk s.mode l name kinds u) :
    s'.held? u name = some (s.mode.taken content (s.held? t name)) := by
  have hroot := Layout.root_ne_blank hlead
  have hs := l.isStem_place hname
  cases htook with
  | kept e old hmode hfind found =>
    rw [held?_congr hl hl rfl hlead hlead' h hsingle hshows, held?_of_found hl hname hfind found, Mode.taken,
      if_neg (by simp [Mode.isCounted, hmode])]
  | recounted e file old hmode hfind found hold admits =>
    have hcarries : s.mode.Carries (e.count + 1) := by
      rw [hmode]
      exact ⟨Nat.succ_pos _, hcount e hmode hfind⟩
    have hnew := Mode.isFile_fileName (l.place name).stem hcarries
    rw [held?_of_found hl hname hfind found, Mode.taken, if_pos (by simp [Mode.isCounted, hmode])]
    refine (held?_eq_some_iff hl hname hlead' hsingle).mpr ⟨spells_of_find hname hroot hfind, _, hnew, ?_⟩
    exact (hshows _ _ _ hnew).mpr (Function.update_self ..)
  | added hfind hroom w v htree hdirs grown admits =>
    have hnew := Mode.isFile_fileName (l.place name).stem s.mode.carries_one
    have hblank := l.dir_place_ne_blank hroot name
    rw [held?_of_find hl hname hfind, Mode.taken]
    refine (held?_eq_some_iff (s := { s with tracker := s.tracker.add content.length }) hl hname
      hlead' hsingle).mpr ⟨Mode.spells_of_admits hblank hs admits, _, hnew, ?_⟩
    exact (hshows _ _ _ hnew).mpr (Function.update_self ..)

/-- **Taking a chunk in** adds one reference, or a first one with the new content, and changes nothing
that is held under another name. -/
theorem Took.held [FileSystem] (hl : s.layout? = some l) (hname : name ≠ []) (hlead : t.leadsToDir l.root = true)
    (h : s.mode.Single l.root.key t.kind?) (htook : Took s l name content t s' kinds)
    (hcount : ∀ e, s.mode = .counted → s.mode.find (l.place name) t = .ok (some e) →
      e.count + 1 < Decimal.wordLimit) (hshows : Shows l kinds u) :
    s'.held? u name = some (s.mode.taken content (s.held? t name)) ∧
      ∀ other, other ≠ name → s'.held? u other = s.held? t other := by
  have hsingle := (htook.single hname hlead h hcount).congr hshows.file
  refine ⟨htook.held_self hl hname hlead h hcount hshows.lead hsingle (hshows.showsChunk _ _), fun other hne => ?_⟩
  cases htook with
  | kept e old hmode hfind found => exact held?_congr hl hl rfl hlead hshows.lead h hsingle (hshows.showsChunk _ _)
  | recounted e file old hmode hfind found hold admits =>
    have hnew : s.mode.IsFile (l.place name).stem (e.count + 1)
        (s.mode.fileName (l.place name).stem (e.count + 1)) := by
      refine Mode.isFile_fileName _ ?_
      rw [hmode]
      exact ⟨Nat.succ_pos _, hcount e hmode hfind⟩
    refine held?_congr hl hl rfl hlead hshows.lead h hsingle fun g n c hg => ?_
    rw [hshows.iff other g c, update_file_other hne hnew hg, update_file_other hne found.isFile hg]
  | added hfind hroom w v htree hdirs grown admits =>
    have hnew := Mode.isFile_fileName (l.place name).stem s.mode.carries_one
    refine held?_congr hl hl rfl hlead hshows.lead h hsingle fun g n c hg => ?_
    rw [hshows.iff other g c, update_file_other hne hnew hg, grown.file_iff]

/-- A chunk of which a reference was dropped is held with one less, or not at all. -/
theorem Dropped.held_self (hl : s.layout? = some l) (hname : name ≠ []) (hlead : t.leadsToDir l.root = true)
    (h : s.mode.Single l.root.key t.kind?) (hdropped : Dropped s l name t s' kinds)
    (hlead' : u.leadsToDir l.root = true) (hsingle : s.mode.Single l.root.key u.kind?)
    (hshows : ShowsChunk s.mode l name kinds u) :
    s'.held? u name = (s.held? t name).bind s.mode.dropped := by
  have hroot := Layout.root_ne_blank hlead
  cases hdropped with
  | absent hfind =>
    rw [held?_congr hl hl rfl hlead hlead' h hsingle hshows, held?_of_find hl hname hfind]
    rfl
  | recounted e file old hmode hgt hfind found hold admits =>
    have hnew := Mode.isFile_fileName (l.place name).stem (found.isFile.carries_fewer hmode hgt)
    rw [held?_of_found hl hname hfind found, Option.bind_some, Mode.dropped,
      if_pos ⟨by simp [Mode.isCounted, hmode], hgt⟩]
    refine (held?_eq_some_iff hl hname hlead' hsingle).mpr ⟨spells_of_find hname hroot hfind, _, hnew, ?_⟩
    exact (hshows _ _ _ hnew).mpr (Function.update_self ..)
  | removed e file old hone hfind found hold =>
    rw [held?_of_found hl hname hfind found, Option.bind_some, Mode.dropped, if_neg (by simp [hone])]
    refine Option.eq_none_iff_forall_ne_some.mpr fun chunk hheld => ?_
    obtain ⟨-, g, hg, hk⟩ := (held?_eq_some_iff (s := { s with tracker := s.tracker.remove old.length })
      hl hname hlead' hsingle).mp hheld
    exact lacks_of_remove hname h found.isFile found.kind g _ _ hg ((hshows g _ _ hg).mp hk)

/-- **Dropping a reference** takes one away, with the chunk if it was the last one, and changes nothing
that is held under another name. -/
theorem Dropped.held (hl : s.layout? = some l) (hname : name ≠ []) (hlead : t.leadsToDir l.root = true)
    (h : s.mode.Single l.root.key t.kind?) (hdropped : Dropped s l name t s' kinds)
    (hshows : Shows l kinds u) :
    s'.held? u name = (s.held? t name).bind s.mode.dropped ∧
      ∀ other, other ≠ name → s'.held? u other = s.held? t other := by
  have hsingle := (hdropped.single hname h).congr hshows.file
  refine ⟨hdropped.held_self hl hname hlead h hshows.lead hsingle (hshows.showsChunk _ _), fun other hne => ?_⟩
  cases hdropped with
  | absent hfind => exact held?_congr hl hl rfl hlead hshows.lead h hsingle (hshows.showsChunk _ _)
  | recounted e file old hmode hgt hfind found hold admits =>
    have hnew := Mode.isFile_fileName (l.place name).stem (found.isFile.carries_fewer hmode hgt)
    refine held?_congr hl hl rfl hlead hshows.lead h hsingle fun g n c hg => ?_
    rw [hshows.iff other g c, update_file_other hne hnew hg, update_file_other hne found.isFile hg]
  | removed e file old hone hfind found hold =>
    refine held?_congr hl hl rfl hlead hshows.lead h hsingle fun g n c hg => ?_
    rw [hshows.iff other g c, update_file_other hne found.isFile hg]

end FileStore

end ContentStore
