import ContentStore.Proofs.Answers
import ContentStore.Proofs.Moves
import ContentStore.Proofs.Sessions

/-!
# Moving to any sink

A source is told whether the sink has taken a chunk, and finds out by itself what the sink has done with
the file.  If what the sink leaves does not mislead it (`FileStore.Left`), a move that succeeds takes one
reference from the source, whatever the sink is: `one_reference_moved`.
-/

namespace ContentStore

open Function (update)
open FileSystem (shut)

/-- A store has one reference less to a chunk: if it was the last one the chunk is gone and counted no
longer, and otherwise the counts are as they were. -/
structure OneLess {σ : Type} [ChunkStore σ] (before after : σ) (name : Bytes) (w x : Workspace) : Prop where
  references : (ChunkStore.references after name x).1 + 1 = (ChunkStore.references before name w).1
  last : (ChunkStore.references before name w).1 = 1 →
    (ChunkStore.has after name x).1 = false ∧
    ChunkStore.count after = ChunkStore.count before - 1 ∧
    ChunkStore.size after = ChunkStore.size before - (ChunkStore.chunkSize before name w).1
  shared : (ChunkStore.references before name w).1 ≠ 1 →
    ChunkStore.count after = ChunkStore.count before ∧ ChunkStore.size after = ChunkStore.size before

section

variable [FileSystem]

/-! ### A source in memory -/

namespace MemoryStore

variable {m m' : MemoryStore} {name : Bytes} {w x : Workspace}

/-- Deleting a chunk that is there takes one reference. -/
theorem Sound.oneLess (hm : m.Sound) {chunk : Held} (hfind : m.find? name = some chunk) :
    OneLess m (m.delete name) name w x := by
  have hdeleted := m.delete_spec name
  obtain ⟨hpos, hplain⟩ : 0 < chunk.count ∧ (m.mode = .plain → chunk.count = 1) :=
    hm.carries _ (Table.mem_of_lookup hfind)
  obtain ⟨-, hheld, -⟩ := hdeleted.held
  have hbefore : (ChunkStore.references m name w).1 = chunk.count := by
    rw [m.references_answer, hfind]
    rfl
  have hsize : (ChunkStore.chunkSize m name w).1 = chunk.content.length := by
    rw [m.chunkSize_answer, hfind]
    rfl
  rw [hfind, Option.bind_some] at hheld
  generalize m.delete name = m' at hdeleted hheld ⊢
  cases hdeleted with
  | absent hnone =>
    rw [hfind] at hnone
    cases hnone
  | shared held hmode hcount hfind' =>
    rw [hfind] at hfind'
    cases hfind'
    rw [Mode.dropped, if_pos ⟨by simp [Mode.isCounted, hmode], hcount⟩] at hheld
    refine ⟨?_, fun hone => ?_, fun _ => ⟨rfl, rfl⟩⟩
    · rw [references_answer, hheld, hbefore]
      exact Nat.sub_add_cancel hcount.le
    · rw [hbefore] at hone
      omega
  | removed held hlast hfind' =>
    rw [hfind] at hfind'
    cases hfind'
    have hone : chunk.count = 1 := by
      rcases mode_cases m.mode with ⟨hmode, -⟩ | ⟨-, hcounted⟩
      · exact hplain hmode
      · have hle : ¬ 1 < chunk.count := fun h => hlast ⟨hcounted, h⟩
        omega
    rw [Mode.dropped, if_neg hlast] at hheld
    refine ⟨?_, fun _ => ⟨?_, rfl, by rw [hsize]; rfl⟩, fun hmore => absurd (hbefore.trans hone) hmore⟩
    · rw [references_answer, hheld, hbefore, hone]
      rfl
    · rw [has_answer, hheld]
      rfl

/-- **Moving out of memory.** -/
theorem moveTo_oneLess {τ : Type} [Sink τ] {sink sink' : τ} (hm : m.Sound) {done : Bool}
    (h : ChunkStore.moveTo m name sink w = ((done, m', sink'), x)) :
    (done = true → OneLess m m' name w x) ∧ (done = false → m' = m) := by
  simp only [ChunkStore.moveTo, moveTo, get, Action.bind_apply] at h
  rcases hfind : m.find? name with _ | chunk
  · rw [hfind] at h
    cases h
    exact ⟨Bool.noConfusion, fun _ => rfl⟩
  · rw [hfind] at h
    rcases hsink : Sink.store sink name chunk.content w with ⟨⟨_ | _, sink''⟩, y⟩
    all_goals
      simp only [Action.bind_apply, hsink] at h
      cases h
    · exact ⟨Bool.noConfusion, fun _ => rfl⟩
    · exact ⟨fun _ => hm.oneLess hfind, Bool.noConfusion⟩

end MemoryStore

end

/-! ### A source in a file tree -/

namespace FileStore

variable {s s' : FileStore} {l : Layout} {name : Bytes} {e : Entry} {t u : Tree} {w v x : Workspace}

/-- What a sink that has taken a chunk leaves of it.  The directory of the chunk can still be reached, and no
other file of the chunk stands in there than the one that was handed over.  That one has gone, if it was for
the last reference; or it is as it was, if references are counted. -/
structure Left (s : FileStore) (l : Layout) (name : Bytes) (e : Entry) (t u : Tree) : Prop where
  dir : u.leadsToDir (l.place name).dir = true
  only : s.mode.Only (l.place name) e.path.key u.kind?
  own : e.count ≤ 1 ∧ u.kind? e.path.key = none ∨
    s.mode = .counted ∧ u.kind? e.path.key = t.kind? e.path.key

/-- A sink does not mislead the source that hands over a chunk. -/
def Considerate {τ : Type} [Sink τ] (s : FileStore) (name : Bytes) (sink : τ) (w : Workspace) : Prop :=
  ∀ l e, s.layout? = some l → name ≠ [] → s.mode.find (l.place name) w.tree = .ok (some e) → ∀ sink' v,
    Sink.storeFile sink name e.path (e.count ≤ 1) w = ((true, sink'), v) → s.Left l name e w.tree v.tree

/-! ### Sinks that do not mislead a source -/

/-- No file of the source has changed, but the one that was handed over has been removed if it was for the last
reference and its directory is not shut. -/
theorem Left.of_spared [FileSystem] (hname : name ≠ []) (hroot : l.root ≠ .blank)
    (hfind : s.mode.find (l.place name) t = .ok (some e)) (hsingle : s.mode.Single l.root.key t.kind?)
    {kinds : Key → Option Kind} (hspared : Spared l.root.key t.kind? kinds)
    (hu : u.kind? = if e.count ≤ 1 ∧ shut e.path.key.tail = false then update kinds e.path.key none else kinds)
    (hmode : shut e.path.key.tail = true → s.mode = .counted) : s.Left l name e t u := by
  have hs := l.isStem_place hname
  obtain ⟨file, old, found⟩ := Mode.find_eq_some (l.dir_place_ne_blank hroot name) hs hfind
  have honly : s.mode.Only (l.place name) e.path.key kinds :=
    (hsingle.only (root_suffix_dir l name) hs found).mono
      fun other n c _ hk => (hspared.file _ _ (root_suffix_file l name other)).mp hk
  by_cases hlast : e.count ≤ 1 ∧ shut e.path.key.tail = false
  · rw [if_pos hlast] at hu
    exact ⟨leadsToDir_of_removed hname hroot hfind hspared.dir hu, hu ▸ honly.remove,
      Or.inl ⟨hlast.1, by rw [hu, Function.update_self]⟩⟩
  · rw [if_neg hlast] at hu
    subst hu
    refine ⟨Tree.leadsToDir_mono found.dir hspared.dir, honly, Or.inr ⟨?_, ?_⟩⟩
    · by_contra hplain
      refine hlast ⟨(count_of_not_shared found fun h => hplain h.1).le, ?_⟩
      simpa using mt hmode hplain
    · rw [found.key hs, found.kind]
      exact (hspared.file _ _ (root_suffix_file l name file)).mpr found.kind

/-- A store that has its chunks elsewhere does not mislead a source, unless references are not counted and the
file cannot be removed; and one that does nothing misleads it at most if references are not counted. -/
theorem considerate_of_clear [FileSystem] {b : AnyStore} (hl : s.layout? = some l) (hroot : l.root ≠ .blank)
    (hsingle : s.mode.Single l.root.key w.tree.kind?) (hb : b.Rooted) (hclear : b.ClearOf l.root.key)
    (hmode : b.mode? = none ∨ shut (l.place name).dir.key = true → s.mode = .counted) :
    s.Considerate name b w := by
  intro k e hk hname hfind b' v hsink
  rw [hl] at hk
  cases hk
  obtain ⟨file, old, found⟩ :=
    Mode.find_eq_some (l.dir_place_ne_blank hroot name) (l.isStem_place hname) hfind
  have hoffered := AnyStore.offered_storeFile hb (fun p hp => (hclear p hp).1.symm.not_suffix
    (entry_below hname hroot hfind)) hsink
  cases hoffered with
  | fixed hfixed hv =>
    subst hfixed
    rw [hv]
    have honly := hsingle.only (root_suffix_dir l name) (l.isStem_place hname) found
    exact ⟨found.dir, honly, Or.inr ⟨hmode (Or.inl rfl), rfl⟩⟩
  | took _ hstat htook hv =>
    simp only [Bool.and_eq_true, decide_eq_true_eq, Bool.not_eq_true'] at hv
    refine .of_spared hname hroot hfind hsingle (htook.untouched hname hclear).toSpared hv fun hshut => ?_
    rw [found.key (l.isStem_place hname)] at hshut
    exact hmode (Or.inr hshut)

/-! ### What the source finds -/

section

variable (hname : name ≠ []) (hroot : l.root ≠ .blank)
include hname hroot

/-- It finds no chunk, or the chunk as it was. -/
theorem Left.find (h : Left s l name e t u) (hfind : s.mode.find (l.place name) t = .ok (some e)) :
    e.count = 1 ∧ s.mode.find (l.place name) u = .ok none ∨
      s.mode = .counted ∧ s.mode.find (l.place name) u = .ok (some e) := by
  have hs := l.isStem_place hname
  obtain ⟨file, old, found⟩ := Mode.find_eq_some (l.dir_place_ne_blank hroot name) hs hfind
  rcases h.own with ⟨hlast, hgone⟩ | ⟨hmode, hsame⟩
  · exact Or.inl ⟨count_of_not_shared found fun hc => absurd hc.2 (by omega),
      find_of_gone hname hroot hfind h.dir h.only hgone⟩
  · have hkey := found.key hs
    rw [hkey, found.kind] at hsame
    have hagain := Mode.find_of_file hs (fits_of_find hname hroot hfind) h.dir found.isFile hsame
      fun other n c hother hk => (List.cons.inj ((h.only other n c hother hk).trans hkey)).1
    rw [← found.path, ← found.size] at hagain
    exact Or.inr ⟨hmode, hagain⟩

/-- Of a chunk with one file a reference is dropped: it is found with one less, or not at all. -/
theorem find_released [FileSystem] (hfind : s.mode.find (l.place name) v.tree = .ok (some e))
    (honly : s.mode.Only (l.place name) e.path.key v.tree.kind?) {n : Nat}
    (hrelease : (s.mode.release (l.place name) e).run v = (.ok n, x)) :
    n + 1 = e.count ∧ (n = 0 → s.mode.find (l.place name) x.tree = .ok none) ∧
      (n ≠ 0 → ∃ e', s.mode.find (l.place name) x.tree = .ok (some e') ∧ e'.count = n) := by
  have hs := l.isStem_place hname
  obtain ⟨file, old, found⟩ := Mode.find_eq_some (l.dir_place_ne_blank hroot name) hs hfind
  have hkind := found.kind
  rw [← found.key hs] at hkind
  have hrun := Mode.release_run (m := s.mode) (l := l.place name) hkind
  rw [hrelease] at hrun
  cases hrun with
  | renamed hmode hcount _ after hold moved =>
    have hfree := moved.admits.noDir
    have hkinds := moved.kinds
    rw [l.key_path s.mode hname] at hfree hkinds
    obtain ⟨-, hfound⟩ := find_of_renamed hname (fits_of_find hname hroot hfind) found.dir hkind honly
      (found.isFile.carries_fewer hmode hcount) hfree hkinds
    exact ⟨Nat.sub_add_cancel hcount.le, fun h0 => absurd h0 (by omega), fun _ => ⟨_, hfound, rfl⟩⟩
  | removed hcount _ after hold kinds =>
    exact ⟨(count_of_not_shared found hcount).symm,
      fun _ => find_of_removed hname hroot hfind (fun _ hk => hk) honly kinds, fun h0 => absurd rfl h0⟩

/-- Dropping the reference to a chunk that was handed over. -/
theorem Left.letGo [FileSystem] (h : Left s l name e t v.tree) (hfind : s.mode.find (l.place name) t = .ok (some e))
    (hrun : (s.letGo name (l.place name) e).run v = (.ok s', x)) :
    e.count = 1 ∧ s' = { s with tracker := s.tracker.remove e.size } ∧
        s.mode.find (l.place name) x.tree = .ok none ∨
      1 < e.count ∧ s' = s ∧
        ∃ e', s.mode.find (l.place name) x.tree = .ok (some e') ∧ e'.count + 1 = e.count := by
  rcases h.find hname hroot hfind with ⟨hone, hnone⟩ | ⟨hmode, hagain⟩
  · obtain ⟨hs', hstill⟩ := letGo_gone hnone hrun
    cases hs'
    exact Or.inl ⟨hone, rfl, by rw [hstill.tree, Workspace.commits_nil, hnone]⟩
  · -- the sink has left the file, so the source has all its references still to drop one of
    have hletGo := letGo_run s name (l.place name) e v
    rw [hrun] at hletGo
    cases hletGo with
    | gone hfind' =>
      rw [hagain] at hfind'
      cases hfind'
    | kept e' hfind' hplain =>
      rw [hmode] at hplain
      cases hplain
    | dropped e' hfind' _ n y _ hrelease hn hlast =>
      rw [hagain] at hfind'
      cases hfind'
      obtain ⟨hcount, -, hless⟩ := find_released hname hroot hagain h.only hrelease
      obtain ⟨e', hfound, hcount'⟩ := hless hn
      rw [hlast.tree, Workspace.commits_nil]
      exact Or.inr ⟨by omega, rfl, e', hfound, by omega⟩
    | removed e' hfind' _ y _ hrelease hlast =>
      rw [hagain] at hfind'
      cases hfind'
      obtain ⟨hcount, hgone, -⟩ := find_released hname hroot hagain h.only hrelease
      rw [hlast.tree, Workspace.commits_nil]
      exact Or.inl ⟨hcount.symm, rfl, hgone rfl⟩

end

/-- **Moving out of a file tree.** -/
theorem moveTo_oneLess [FileSystem] {τ : Type} [Sink τ] {sink sink' : τ} (hs : s.Rooted) {done : Bool}
    (h : ChunkStore.moveTo s name sink w = ((done, s', sink'), x)) :
    (done = true → s.Considerate name sink w → OneLess s s' name w x) ∧
    (done = false → s' = s ∧ (x.tree = w.tree ∨ ∃ l e, s.layout? = some l ∧
      s.mode.find (l.place name) w.tree = .ok (some e) ∧
      x.tree = (Sink.storeFile sink name e.path (e.count ≤ 1) w).2.tree)) := by
  rw [moveTo_apply] at h
  rcases hl : s.layout? with _ | l
  · rw [moveTo_uninitialized hl] at h
    cases h
    exact ⟨Bool.noConfusion, fun _ => ⟨rfl, Or.inl rfl⟩⟩
  · have hmove := moveTo_run hl name sink w
    rcases hm : s.moveTo name sink w with ⟨⟨r, sink''⟩, y⟩
    rw [hm] at hmove h
    cases hmove with
    | missing err hrequire =>
      cases h
      exact ⟨Bool.noConfusion, fun _ => ⟨rfl, Or.inl rfl⟩⟩
    | refused hname e hfind _ y hsink =>
      cases h
      exact ⟨Bool.noConfusion, fun _ => ⟨rfl, Or.inr ⟨l, e, rfl, hfind, by rw [hsink]; rfl⟩⟩⟩
    | taken hname e hfind _ v hsink r y hletGo =>
      have hroot := hs l hl
      rcases r with err | after
      · obtain rfl := letGo_error hname hroot hletGo
        cases h
        exact ⟨Bool.noConfusion, fun _ => ⟨rfl, Or.inr ⟨l, e, rfl, hfind, by rw [hsink]; rfl⟩⟩⟩
      · cases h
        refine ⟨fun _ hsafe => ?_, Bool.noConfusion⟩
        have hbefore := references_of_find hl hname hfind
        rcases (hsafe l e hl hname hfind _ _ hsink).letGo hname hroot hfind hletGo with
          ⟨hone, rfl, hnone⟩ | ⟨hmany, rfl, e', hfound, hcount⟩
        · obtain ⟨hreferences, hhas⟩ :=
            absent_of_find (s := { s with tracker := s.tracker.remove e.size }) hl hname hnone
          refine ⟨?_, fun _ => ⟨hhas, rfl, ?_⟩, fun hmore => absurd (hbefore.trans hone) hmore⟩
          · rw [hreferences, hbefore, hone]
          · rw [chunkSize_of_find hl hname hfind]
            rfl
        · refine ⟨?_, fun hone => ?_, fun _ => ⟨rfl, rfl⟩⟩
          · rw [references_of_find hl hname hfound, hcount, hbefore]
          · rw [hbefore] at hone
            omega

end FileStore

/-- **A move to any sink.**  If it succeeds the source has one reference less to the chunk, unless the sink
misleads it; if it fails the source is as it was, and nothing has happened but what the sink has done. -/
theorem one_reference_moved [FileSystem] {τ : Type} [Sink τ] (sink sink' : τ) (name : Bytes) (done : Bool)
    (w x : Workspace) :
    (∀ s s' : FileStore, s.Rooted → ChunkStore.moveTo s name sink w = ((done, s', sink'), x) →
      (done = true → s.Considerate name sink w → OneLess s s' name w x) ∧
      (done = false → s' = s ∧ (x.tree = w.tree ∨ ∃ l e, s.layout? = some l ∧
        s.mode.find (l.place name) w.tree = .ok (some e) ∧
        x.tree = (Sink.storeFile sink name e.path (e.count ≤ 1) w).2.tree))) ∧
    ∀ m m' : MemoryStore, m.Sound → ChunkStore.moveTo m name sink w = ((done, m', sink'), x) →
      (done = true → OneLess m m' name w x) ∧ (done = false → m' = m) :=
  ⟨fun _ _ hs h => FileStore.moveTo_oneLess hs h, fun _ _ hm h => MemoryStore.moveTo_oneLess hm h⟩

/-! ### Moves that mislead the source -/

namespace Misled

/-- Two stores of one mode that share a root, and a chunk in it. -/
def shared (counting : Bool) : Session :=
  [.start "a" (Path.ofText "r") 0, .start "b" (Path.ofText "r") 0, .call "a" (.store [97] [1, 2])].foldl Deed.run
    ⟨[("a", .file (.new counting (.ofDigest id))), ("b", .file (.new counting (.ofDigest id)))], .bare⟩

/-- A counted store that has read one chunk into a file with the name of another one, and a store that takes
whatever it is given. -/
def crowded : Session :=
  [.start "a" (Path.ofText "r") 0, .call "a" (.store [97] [1, 2]), .call "a" (.store [98] [3]),
    .call "a" (.getToFile [98] (Path.ofText "r/61.01"))].foldl Deed.run
    ⟨[("a", .file (.new true (.ofDigest id))), ("b", .fixed ⟨true⟩)], .bare⟩

/-- The references to the chunk in the store `a`, what comes of moving it to the store `b`, and the references
to it after that. -/
def moved (s : Session) : Option Answer × Option Bool × Option Answer :=
  let (done, after) := Session.moveTo "a" [97] "b" s
  ((Session.call "a" (.references [97]) s).1, done, (Session.call "a" (.references [97]) after).1)

def source : FileStore := ⟨.counted, .ofDigest id, some ⟨Path.ofText "r", 0⟩, ⟨0, 1, 2⟩⟩

theorem single_shared : Mode.counted.Single (Path.ofText "r").key (shared true).workspace.tree.kind? := by
  have hone : ∀ k c, (shared true).workspace.tree.kind? k = some (.file c) → k = (Path.ofText "r/61.1").key := by
    intro k c hk
    have hmem : (k, c) ∈ (shared true).workspace.tree.filesBelow [] := by
      rw [Tree.mem_filesBelow_iff rfl, List.append_nil]
      exact hk
    have hlist : (shared true).workspace.tree.filesBelow [] = [((Path.ofText "r/61.1").key, [1, 2])] := by
      decide +kernel
    rw [hlist, List.mem_singleton] at hmem
    exact congrArg Prod.fst hmem
  intro k stem f g i j x y _ _ _ _ hf hg
  exact (List.cons.inj ((hone _ _ hf).trans (hone _ _ hg).symm)).1

end Misled

/-- The last reference to a chunk moves to a store that says that it takes it and does nothing, out of a file
tree and out of memory; another such store refuses it. -/
theorem one_reference_moved_shared :
    let w := (Misled.shared true).workspace
    let m : MemoryStore := ⟨.counted, .ofDigest id, [([97], ⟨[1, 2], 1⟩)], ⟨0, 1, 2⟩⟩
    OneLess Misled.source (ChunkStore.moveTo Misled.source [97] (AnyStore.fixed ⟨true⟩) w).1.2.1 [97] w
      (ChunkStore.moveTo Misled.source [97] (AnyStore.fixed ⟨true⟩) w).2 ∧
    OneLess m (ChunkStore.moveTo m [97] (AnyStore.fixed ⟨true⟩) w).1.2.1 [97] w
      (ChunkStore.moveTo m [97] (AnyStore.fixed ⟨true⟩) w).2 ∧
    (ChunkStore.moveTo Misled.source [97] (AnyStore.fixed ⟨false⟩) w).1.2.1 = Misled.source := by
  intro w m
  have hroot : (Path.ofText "r") ≠ .blank := by decide
  have hs : Misled.source.Rooted := by
    intro l hl
    cases hl
    exact hroot
  have hm : m.Sound := ⟨by decide, by decide, rfl⟩
  have hdone : (ChunkStore.moveTo Misled.source [97] (AnyStore.fixed ⟨true⟩) w).1.1 = true := by decide +kernel
  have hrefused : (ChunkStore.moveTo Misled.source [97] (AnyStore.fixed ⟨false⟩) w).1.1 = false := by
    decide +kernel
  have hsafe : Misled.source.Considerate [97] (AnyStore.fixed ⟨true⟩) w :=
    FileStore.considerate_of_clear rfl hroot Misled.single_shared (fun p hp => by cases hp)
      (fun p hp => by cases hp) fun _ => rfl
  exact ⟨((one_reference_moved (AnyStore.fixed ⟨true⟩) _ [97] _ w _).1 _ _ hs rfl).1 hdone hsafe,
    ((one_reference_moved (AnyStore.fixed ⟨true⟩) _ [97] _ w _).2 _ _ hm rfl).1 (by decide +kernel),
    (((one_reference_moved (AnyStore.fixed ⟨false⟩) _ [97] _ w _).1 _ _ hs rfl).2 hrefused).1⟩

/-- Moves that succeed and leave the source as many references as before.  The first two are to a store that shares
the root, and has the chunk then; in the third another file of the chunk comes to light. -/
theorem moves_misled :
    Misled.moved (Misled.shared false) = (some (.number 1), some true, some (.number 1)) ∧
    Misled.moved (Misled.shared true) = (some (.number 1), some true, some (.number 1)) ∧
    Misled.moved Misled.crowded = (some (.number 1), some true, some (.number 1)) := by
  decide +kernel

end ContentStore
