import ContentStore.Proofs.Answers
import ContentStore.Proofs.Digests

/-!
# A file store and a memory store that mirror each other

A memory store mirrors a file store that has its root for itself if it holds the same chunks with the same
counts, and the trees that the two work in are alike outside the root: `Mirrors`.  An operation that both are
asked for fails on both or on neither, and they mirror each other afterwards: `Mirrors.store`,
`Mirrors.storeFile`, `Mirrors.delete`, `Mirrors.getToFile`, `Mirrors.clear`.
-/

namespace ContentStore

open Function (update)
open FileSystem (shut readOnly)

/-! ### Hashers -/

namespace Hasher

/-- A hasher digests a content that arrives piece by piece as it digests the whole content. -/
def Lawful (h : Hasher) : Prop := ∀ content, h.digestFile content = h.digest content

theorem lawful_ofDigest (digest : Bytes → Bytes) : (ofDigest digest).Lawful := (seamless_ofDigest digest).file

end Hasher

/-! ### The memory store -/

namespace MemoryStore

variable {m m' : MemoryStore} {name content : Bytes} {w : Workspace}

theorem Stored.store (h : Stored m name content m') : m'.mode = m.mode ∧ m'.hasher = m.hasher ∧
    m'.tracker = m.tracker.taken content (m.find? name) := by
  cases h with
  | kept held hmode hfind => exact ⟨rfl, rfl, by rw [hfind]; rfl⟩
  | shared held hmode hfind => exact ⟨rfl, rfl, by rw [hfind]; rfl⟩
  | added hfind => exact ⟨rfl, rfl, by rw [hfind]; rfl⟩

theorem Stored.room (h : Stored m name content m') (hnone : m.find? name = none) :
    m.tracker.ensureRoom content.length = .ok () := by
  cases h with
  | kept held hmode hfind => simp [hfind] at hnone
  | shared held hmode hfind => simp [hfind] at hnone
  | added hfind hroom => exact hroom

theorem Deleted.store (h : Deleted m name m') : m'.mode = m.mode ∧ m'.hasher = m.hasher ∧
    m'.tracker = m.tracker.dropped m.mode (m.find? name) := by
  cases h with
  | absent hfind => exact ⟨rfl, rfl, by rw [hfind]; rfl⟩
  | shared held hmode hcount hfind =>
    refine ⟨rfl, rfl, ?_⟩
    rw [hfind, Tracker.dropped, if_pos ⟨by rw [hmode]; rfl, hcount⟩]
  | removed held hcount hfind =>
    refine ⟨rfl, rfl, ?_⟩
    rw [hfind, Tracker.dropped, if_neg hcount]

/-- The content of a chunk is written to a file if one can be put there and opened; otherwise nothing happens. -/
theorem getToFile_run [FileSystem] (m : MemoryStore) (name : Bytes) (target : Path) (w : Workspace) :
    (m.find? name = none ∧ ∃ e, (m.getToFile name target).run w = (.error e, w)) ∨
    ∃ held v, m.find? name = some held ∧
      ((¬ (w.tree.Admits target ∧ w.tree.Opens target) ∧ v = w ∧
          ∃ e, (m.getToFile name target).run w = (.error e, w)) ∨
        ((w.tree.Admits target ∧ w.tree.Opens target) ∧
          v.tree.kind? = update w.tree.kind? target.key (some (.file held.content)) ∧
          (m.getToFile name target).run w = (.ok (), v))) := by
  unfold getToFile get
  rw [Action.run_bind, Action.run_except]
  rcases hfind : m.find? name with _ | held
  · exact Or.inl ⟨rfl, _, rfl⟩
  · right
    dsimp only
    rw [Action.run_file]
    rcases Request.write_spec target held.content w with ⟨f, hno, hrun⟩ | ⟨cs, hrun, hopen, hplaced⟩
    · rw [hrun]
      exact ⟨held, w, rfl, Or.inl ⟨hno, rfl, _, rfl⟩⟩
    · rw [hrun]
      exact ⟨held, _, rfl, Or.inr ⟨⟨hplaced.admits, hopen⟩, hplaced.kinds, rfl⟩⟩

end MemoryStore

variable [FileSystem]

/-! ### The relation -/

/-- A memory store holds what a file store holds and names contents as it does, in trees that are alike outside
the root. -/
structure Mirrors (s : FileStore) (l : Layout) (t : Tree) (m : MemoryStore) (u : Tree) : Prop where
  alone : s.Alone l t
  mode : m.mode = s.mode
  hasher : m.hasher = s.hasher
  lawful : s.hasher.Lawful
  tracker : m.tracker = s.tracker
  held : ∀ name, m.find? name = s.held? t name
  alike : t.Alike l.root.key u

namespace Mirrors

variable {s s' : FileStore} {l : Layout} {m m' : MemoryStore} {t t' u u' : Tree} {name content : Bytes}
  {kinds : Key → Option Kind} {w v : Workspace}

theorem took (h : Mirrors s l t m u) (hname : name ≠ []) (hst : s.Storable l t name)
    (htook : s.Took l name content t s' kinds) (hstored : m.Stored name content m')
    (ht : Keeps l.root.key kinds t') (hu : t'.Alike l.root.key u') : Mirrors s' l t' m' u' := by
  have halone := h.alone.took hname hst htook ht
  obtain ⟨hsame, hothers⟩ := htook.held h.alone.layout hname h.alone.lead h.alone.single
    (h.alone.countable hname hst) ⟨halone.lead, ht.file⟩
  obtain ⟨-, hm, hmothers⟩ := hstored.held
  obtain ⟨hmode, hhasher, htracker⟩ := hstored.store
  have hs := htook.store h.alone.layout hname
  refine ⟨halone, ?_, ?_, ?_, ?_, fun other => ?_, hu⟩
  · rw [hmode, h.mode, hs]
  · rw [hhasher, h.hasher, hs]
  · rw [hs]
    exact h.lawful
  · rw [htracker, h.tracker, h.held, hs]
  · by_cases he : other = name
    · rw [he, hm, hsame, h.held, h.mode]
    · rw [hmothers other he, hothers other he, h.held]

theorem dropped (h : Mirrors s l t m u) (hname : name ≠ []) (hdropped : s.Dropped l name t s' kinds)
    (hdeleted : m.Deleted name m') (ht : Keeps l.root.key kinds t') (hu : t'.Alike l.root.key u') :
    Mirrors s' l t' m' u' := by
  have halone := h.alone.dropped hname hdropped ht
  obtain ⟨hsame, hothers⟩ := hdropped.held h.alone.layout hname h.alone.lead h.alone.single
    ⟨halone.lead, ht.file⟩
  obtain ⟨-, hm, hmothers⟩ := hdeleted.held
  obtain ⟨hmode, hhasher, htracker⟩ := hdeleted.store
  have hs := hdropped.store h.alone.layout hname
  refine ⟨halone, ?_, ?_, ?_, ?_, fun other => ?_, hu⟩
  · rw [hmode, h.mode, hs]
  · rw [hhasher, h.hasher, hs]
  · rw [hs]
    exact h.lawful
  · rw [htracker, h.tracker, h.held, h.mode, hs]
  · by_cases he : other = name
    · rw [he, hm, hsame, h.held, h.mode]
    · rw [hmothers other he, hothers other he, h.held]

theorem kept (h : Mirrors s l t m u) (ht : Keeps l.root.key t.kind? t') (hu : t'.Alike l.root.key u') :
    Mirrors s l t' m u' := by
  obtain ⟨halone, hheld⟩ := h.alone.kept ht
  exact ⟨halone, h.mode, h.hasher, h.lawful, h.tracker, fun name => (h.held name).trans (hheld name).symm, hu⟩

/-! ### What both are asked for -/

/-- **Storing** fails on both stores for the same reason, or on neither. -/
theorem store (h : Mirrors s l w.tree m u) (hst : name ≠ [] → content ≠ [] → s.Storable l w.tree name) :
    (∃ e, (s.store name content).run w = (.error e, w) ∧ m.store name content = .error e) ∨
    ∃ s' v m', (s.store name content).run w = (.ok s', v) ∧ m.store name content = .ok m' ∧
      Mirrors s' l v.tree m' u := by
  rcases m.store_spec name content with ⟨rfl, hm⟩ | ⟨hname, rfl, hm⟩ |
    ⟨hname, hcontent, hnone, e, hroom, hm⟩ | ⟨hname, hcontent, m', hm, hstored⟩
  · exact Or.inl ⟨_, FileStore.store_emptyName h.alone.layout content w, hm⟩
  · exact Or.inl ⟨_, FileStore.store_emptyContent h.alone.layout hname w, hm⟩
  · rw [h.held] at hnone
    rw [h.tracker] at hroom
    exact Or.inl ⟨e, h.alone.store_full hname hcontent (hst hname hcontent).spells hnone hroom, hm⟩
  · right
    have hst := hst hname hcontent
    obtain ⟨s', v, hrun⟩ := h.alone.store_ok hname hcontent hst fun hnone => by
      rw [← h.tracker]
      exact hstored.room ((h.held name).trans hnone)
    obtain ⟨-, -, htook⟩ := FileStore.store_took h.alone.layout h.alone.root_ne_blank hrun
    refine ⟨s', v, m', hrun, hm, h.took hname hst htook hstored (.of_eq rfl) fun k hk => ?_⟩
    rw [(htook.frame hname).outside h.alone.lead hk]
    exact h.alike k hk

theorem storeFile_refused (h : Mirrors s l w.tree m u) {source : Path} (asked : Bool)
    (hst : name ≠ [] → ∀ content, content ≠ [] → w.tree.stat source = .ok (.file content) →
      s.Storable l w.tree name)
    (hno : ∀ content, w.tree.stat source = .ok (.file content) → ∃ e, m.store name content = .error e) :
    ∃ e, (s.storeFile name source asked).run w = (.error e, w) := by
  refine h.alone.storeFile_refused asked fun c hc => ?_
  obtain ⟨e, hs⟩ := hno c hc
  rcases m.store_spec name c with ⟨h0, -⟩ | ⟨-, h0, -⟩ | ⟨hname, hcontent, hnone, e, hroom, -⟩ |
    ⟨-, -, m', hok, -⟩
  · exact Or.inl h0
  · exact Or.inr (Or.inl h0)
  · refine Or.inr (Or.inr ⟨(hst hname c hcontent hc).spells, (h.held name).symm.trans hnone, ?_⟩)
    rw [← h.tracker, hroom]
    simp
  · rw [hok] at hs
    cases hs

/-- **Storing a file** that can be removed, if that is asked for, fails on both stores or on neither, and the
source is gone from both trees or none. -/
theorem storeFile (h : Mirrors s l w.tree m v.tree) {source : Path} {asked : Bool}
    (hopen : asked = true → shut source.key.tail = false) (hout : source.Outside l.root.key)
    (hst : name ≠ [] → ∀ content, content ≠ [] → w.tree.stat source = .ok (.file content) →
      s.Storable l w.tree name) :
    (∃ e e', (s.storeFile name source asked).run w = (.error e, w) ∧
      m.storeFile name source asked v = ((.error e', m), v)) ∨
    ∃ s' w' m' v', (s.storeFile name source asked).run w = (.ok s', w') ∧
      m.storeFile name source asked v = ((.ok (), m'), v') ∧ Mirrors s' l w'.tree m' v'.tree := by
  have hstat : ∀ c, v.tree.stat source = .ok (.file c) ↔ w.tree.stat source = .ok (.file c) :=
    fun c => (hout.stat_iff h.alike).symm
  have hgone : (asked && !shut source.key.tail) = asked := by
    cases asked with
    | false => rfl
    | true => rw [hopen rfl]; rfl
  have hrun := m.storeFile_run name source asked v
  rcases hm : m.storeFile name source asked v with ⟨⟨r, m'⟩, v'⟩
  rw [hm] at hrun
  cases hrun with
  | unread e' hno =>
    obtain ⟨e, hrun⟩ := h.storeFile_refused asked hst fun c hc => absurd ((hstat c).mpr hc) (hno c)
    exact Or.inl ⟨e, e', hrun, rfl⟩
  | refused c hc e' hs =>
    obtain ⟨e, hrun⟩ := h.storeFile_refused asked hst fun d hd => by
      rw [hstat, hd] at hc
      cases hc
      exact ⟨e', hs⟩
    exact Or.inl ⟨e, e', hrun, rfl⟩
  | kept c hc _ hs hasked hshut =>
    rw [hopen hasked] at hshut
    cases hshut
  | stored c hc _ hs _ _ hv =>
    right
    obtain ⟨hname, hcontent, hstored⟩ := MemoryStore.store_ok hs
    rw [hstat] at hc
    have hst := hst hname c hcontent hc
    obtain ⟨s', w', hrun⟩ := h.alone.storeFile_ok hname asked hc hcontent hst fun hnone => by
      rw [← h.tracker]
      exact hstored.room ((h.held name).trans hnone)
    obtain ⟨-, d, kinds, -, hd, htook, hw⟩ :=
      FileStore.storeFile_took h.alone.layout h.alone.root_ne_blank hout.key hrun
    rw [hc] at hd
    cases hd
    rw [hgone] at hw
    have houtside : ∀ k, (l.root.key <:+ k → k = l.root.key) → kinds k = v.tree.kind? k := fun k hk =>
      ((htook.frame hname).outside h.alone.lead hk).trans (h.alike k hk)
    have hsource : kinds source.key ≠ some .dir := by
      rw [(htook.frame hname).outside h.alone.lead fun hk => absurd hk hout.key,
        FileStore.kind?_of_stat hc]
      simp
    refine ⟨s', w', m', v', hrun, rfl, h.took hname hst htook hstored ?_ fun k hk => ?_⟩
    · cases asked with
      | false => exact .of_eq hw
      | true => exact .of_update hout.key hsource hw
    · rw [hw, hv]
      cases asked with
      | false => exact houtside k hk
      | true =>
        rw [if_pos rfl, if_pos rfl, Function.update_apply, Function.update_apply, houtside k hk]

/-- **Dropping a reference** succeeds on both stores. -/
theorem delete (h : Mirrors s l w.tree m u) (hspells : name ≠ [] → s.mode.Spells (l.place name)) :
    ∃ s' v, (s.delete name).run w = (.ok s', v) ∧ Mirrors s' l v.tree (m.delete name) u := by
  obtain ⟨s', v, hrun⟩ := h.alone.delete_ok hspells
  refine ⟨s', v, hrun, ?_⟩
  rcases FileStore.delete_dropped h.alone.layout h.alone.root_ne_blank hrun with
    ⟨rfl, rfl, rfl⟩ | ⟨hname, hdropped⟩
  · have hnone : m.find? [] = none := (h.held []).trans (s'.held?_blank _)
    have hsame : m.delete [] = m := by simp [MemoryStore.delete, hnone]
    rw [hsame]
    exact h
  · refine h.dropped hname hdropped (m.delete_spec name) (.of_eq rfl) fun k hk => ?_
    rw [(hdropped.frame hname).outside h.alone.lead hk]
    exact h.alike k hk

/-- **Reading a chunk into a file** writes the same file in both trees, or none.  A file that is there must be one
that can be written, in a directory that is not shut: a memory store writes it in place, and a file store replaces
it. -/
theorem getToFile (h : Mirrors s l w.tree m v.tree) (hspells : name ≠ [] → s.mode.Spells (l.place name))
    {target : Path} (hout : target.Outside l.root.key)
    (hopen : w.tree.kind? target.key ≠ none → shut target.key.tail = false ∧ readOnly target.key.tail = false)
    (hhidden : s.held? w.tree name ≠ none →
      (Staging.hiddenPath w.tree (FileStore.stagingDir target)).isTooLong = false ∧
        (Staging.freeName (Staging.taken w.tree (FileStore.stagingDir target))).length ≤ nameLimit) :
    ((s.getToFile name target).run w).1.toOption = ((m.getToFile name target).run v).1.toOption ∧
    Mirrors s l ((s.getToFile name target).run w).2.tree m ((m.getToFile name target).run v).2.tree := by
  have hsame : v.tree.kind? target.key = w.tree.kind? target.key :=
    (h.alike target.key fun hk => absurd hk hout.key).symm
  have hadmits : w.tree.Admits target ∧ shut target.key.tail = false ↔
      v.tree.Admits target ∧ v.tree.Opens target := by
    rw [hout.admits_iff h.alike]
    refine and_congr_right fun _ => ⟨fun h => ⟨fun _ => h, fun hsome => (hopen (hsame ▸ hsome)).2⟩, fun h => ?_⟩
    by_cases hnone : w.tree.kind? target.key = none
    · exact h.made (hsame.trans hnone)
    · exact (hopen hnone).1
  rcases h.alone.getToFile hspells hout.key hhidden with ⟨hnone, e, hrun⟩ | ⟨held, w', hheld, hs⟩
  · rcases m.getToFile_run name target v with ⟨-, e', hm⟩ | ⟨held, -, hheld, -⟩
    · rw [hrun, hm]
      exact ⟨rfl, h⟩
    · rw [h.held, hnone] at hheld
      cases hheld
  · rcases m.getToFile_run name target v with ⟨hnone, -⟩ | ⟨held', v', hheld', hm⟩
    · rw [h.held, hheld] at hnone
      cases hnone
    · rw [h.held, hheld] at hheld'
      cases hheld'
      rcases hs with ⟨hno, hw, e, hrun⟩ | ⟨hyes, hw, hrun⟩
      · rcases hm with ⟨-, rfl, e', hm⟩ | ⟨hyes, -⟩
        · rw [hrun, hm]
          refine ⟨rfl, h.kept (.of_eq hw) fun k hk => ?_⟩
          rw [hw]
          exact h.alike k hk
        · exact absurd (hadmits.mpr hyes) hno
      · rcases hm with ⟨hno, -⟩ | ⟨-, hv, hm⟩
        · exact absurd (hadmits.mp hyes) hno
        · rw [hrun, hm]
          refine ⟨rfl, h.kept (.of_update hout.key hyes.1.noDir hw) fun k hk => ?_⟩
          rw [hw, hv, Function.update_apply, Function.update_apply, h.alike k hk]

/-- **Clearing** removes all chunks of both stores. -/
theorem clear (h : Mirrors s l w.tree m v.tree) :
    Mirrors (ChunkStore.clear s w).1 l (ChunkStore.clear s w).2.tree (ChunkStore.clear m v).1
      (ChunkStore.clear m v).2.tree := by
  obtain ⟨x, htree, hstore, halone, hheld, hpruned⟩ := h.alone.cleared
  have hm : ChunkStore.clear m v = ({ m with chunks := [], tracker := m.tracker.clear }, v) := rfl
  rw [htree, hstore, hm]
  refine ⟨halone, h.mode, h.hasher, h.lawful, ?_, fun name => ?_, fun k hk => ?_⟩
  · rw [h.tracker]
  · exact (hheld name).symm
  · rw [hpruned.eq_of_outside hk]
    exact h.alike k hk

end Mirrors

end ContentStore
