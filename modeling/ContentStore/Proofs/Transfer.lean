import ContentStore.Proofs.Fewer
import ContentStore.Proofs.Sessions

/-!
# A move transfers one reference

`move_transfers`: a move that is answered with yes takes one reference from the store and gives one to the
sink, and no other chunk of either changes; a move that is answered with no changes no chunk and no count.
A reference to a chunk whose file stays can always be dropped, because nothing but digits names a
directory below a root, and none of these is shut (`letGo_succeeds`).
-/

namespace ContentStore

open Function (update)
open FileSystem (shut Free)

section

variable [FileSystem]

namespace AnyStore

variable {tidy : Prop} {a a' b b' : AnyStore} {name content : Bytes} {t u v x : Tree} {taken : Bool} {m : Mode}
  {kinds : Key → Option Kind} {chunk : Held} {outside : List Path} {offer : Bytes → Prop}
  {rest : (Key → Option Kind) → Key → Option Kind}

structure Same (a : AnyStore) (t : Tree) (a' : AnyStore) (u : Tree) : Prop where
  held : ∀ name, a'.held? u name = a.held? t name
  totals : a'.totals = a.totals

/-- A store has got one reference to a chunk, or the chunk itself, and no other chunk has changed. -/
structure Got (m : Mode) (name content : Bytes) (a : AnyStore) (t : Tree) (a' : AnyStore) (u : Tree) :
    Prop where
  held : a'.held? u name = some (m.taken content (a.held? t name))
  others : ∀ other, other ≠ name → a'.held? u other = a.held? t other

/-- A store has given one reference to a chunk away, with the chunk if it was the last one, and no other
chunk has changed. -/
structure Gave (name : Bytes) (chunk : Held) (a : AnyStore) (t : Tree) (a' : AnyStore) (u : Tree) : Prop where
  held : a.held? t name = some chunk
  last : chunk.count = 1 → a'.held? u name = none ∧
    a.totals = (Totals.one chunk.content.length).add a'.totals
  shared : chunk.count ≠ 1 → 1 < chunk.count ∧
    a'.held? u name = some { chunk with count := chunk.count - 1 } ∧ a'.totals = a.totals
  others : ∀ other, other ≠ name → a'.held? u other = a.held? t other

omit [FileSystem] in
theorem held?_untouched (ha : a.InOrder tidy t)
    (hu : ∀ p, a.root? = some p → Untouched p.key t.kind? u.kind?) (name : Bytes) :
    a.held? u name = a.held? t name := by
  cases a with
  | file s =>
    rcases hl : s.layout? with _ | l
    · simp only [held?, FileStore.held?, hl]
    · have hs := ha l hl
      have hu := hu _ (FileStore.root_eq hl)
      exact FileStore.held?_congr hl hl rfl hs.lead (hs.untouched hu).lead hs.accounts.single
        (hs.untouched hu).accounts.single fun file n c _ =>
          hu.file _ c (FileStore.root_suffix_file l name file)
  | memory m => rfl
  | fixed f => rfl

omit [FileSystem] in
theorem same_of_untouched (ha : a.InOrder tidy t)
    (hu : ∀ p, a.root? = some p → Untouched p.key t.kind? u.kind?) : Same a t a u :=
  ⟨held?_untouched ha hu, rfl⟩

omit [FileSystem] in
theorem Gave.of_same (h : Gave name chunk a v a' u) (hsame : Same a t a v) : Gave name chunk a t a' u where
  held := (hsame.held name).symm.trans h.held
  last := h.last
  shared := h.shared
  others other hne := (h.others other hne).trans (hsame.held other)

/-- **The chunk is held.** -/
theorem Took.got (h : Took name content t a a' kinds) (hname : name ≠ []) (hm : a.mode? = some m)
    (ha : a.InOrder tidy t) (hshare : a.CanShare t name)
    (hx : ∀ p, a.root? = some p → Untouched p.key kinds x.kind?) : Got m name content a t a' x := by
  cases h with
  | file hl h =>
    cases hm
    have hs := ha _ hl
    have hx := hx _ (FileStore.root_eq hl)
    have hshows : FileStore.Shows _ kinds x :=
      ⟨Tree.leadsToDir_mono hs.lead fun k hk => hx.dir k ((h.frame hname).dir k hk), hx.file⟩
    obtain ⟨hheld, hothers⟩ := h.held hl hname hs.lead hs.accounts.single (fun e _ hfind => by
      obtain ⟨file, old, found⟩ := Mode.find_eq_some
        (Layout.dir_place_ne_blank (Layout.root_ne_blank hs.lead) name) (Layout.isStem_place _ hname) hfind
      exact hshare _ (FileStore.held?_of_found hl hname hfind found)) hshows
    exact ⟨hheld, hothers⟩
  | memory h =>
    cases hm
    obtain ⟨-, hheld, hothers⟩ := h.held
    exact ⟨hheld, hothers⟩

/-- A store that has refused a chunk is the same as before, if the file that it was offered can be removed. -/
theorem Offered.same_of_refused (h : a.Offered name outside offer rest t false a' u) (ha : a.InOrder tidy t)
    (hopen : ∀ q ∈ outside, shut q.key.tail = false) : Same a t a' u := by
  have hsame := h.same hopen
  cases h with
  | idle hu => exact hu ▸ ⟨fun _ => rfl, rfl⟩
  | grown ha' hl hu =>
    subst ha'
    have hs := ha _ hl
    refine ⟨fun other => ?_, rfl⟩
    exact FileStore.held?_congr hl hl rfl hs.lead (Tree.leadsToDir_mono hs.lead fun _ => hu.dir)
      hs.accounts.single (hs.accounts.single.congr fun k c _ => hu.file_iff k c) fun file n c _ =>
        hu.file_iff _ c
  | fixed ha' hu => exact hu ▸ ⟨fun _ => rfl, rfl⟩
  | withheld ha' =>
    subst ha'
    rw [hsame]
    exact ⟨fun _ => rfl, rfl⟩

theorem Offered.got (h : a.Offered name outside offer rest t true a' u) (hm : a.mode? = some m)
    (ha : a.InOrder tidy t) (hshare : a.CanShare t name)
    (hout : ∀ p, a.root? = some p → ∀ q ∈ outside, ¬ p.key <:+ q.key)
    (hx : ∀ p, a.root? = some p → Untouched p.key u.kind? x.kind?) :
    ∃ content, offer content ∧ Got m name content a t a' x := by
  cases h with
  | fixed ha' hu =>
    subst ha'
    cases hm
  | took hname hoffer h hu haside =>
    exact ⟨_, hoffer, h.got hname hm ha hshare fun p hp =>
      (haside.untouched (hout p hp)).trans (hx p hp)⟩

end AnyStore

namespace FileStore

open AnyStore (Gave Got Same)

variable {tidy : Prop} {s s' : FileStore} {l : Layout} {name content file : Bytes} {t u : Tree} {e : Entry}
  {chunk : Held} {kinds : Key → Option Kind} {b b' : AnyStore} {taken : Bool} {v : Workspace}

omit [FileSystem] in
theorem Dropped.gave (hl : s.layout? = some l) (hname : name ≠ []) (h : s.InOrder tidy l t)
    (hdropped : Dropped s l name t s' kinds) (hshows : Shows l kinds u)
    (hheld : s.held? t name = some chunk) : Gave name chunk (.file s) t (.file s') u := by
  obtain ⟨hafter, hothers⟩ := hdropped.held hl hname h.lead h.accounts.single hshows
  rw [hheld, Option.bind_some] at hafter
  cases hdropped with
  | absent hfind =>
    rw [held?_of_find hl hname hfind] at hheld
    cases hheld
  | recounted e file old hmode hcount hfind found hold admits =>
    have hchunk := held?_of_found hl hname hfind found
    rw [hheld] at hchunk
    cases hchunk
    rw [Mode.dropped, if_pos ⟨by simp [Mode.isCounted, hmode], hcount⟩] at hafter
    exact ⟨hheld, fun hone => absurd hone hcount.ne', fun _ => ⟨hcount, hafter, rfl⟩, hothers⟩
  | removed e file old hone hfind found hold =>
    have hchunk := held?_of_found hl hname hfind found
    rw [hheld, hone] at hchunk
    cases hchunk
    rw [Mode.dropped, if_neg (by simp)] at hafter
    have hlong := (Path.check_eq_ok_iff.mp hold.check).2.2
    rw [found.path] at hlong
    exact ⟨hheld, fun _ => ⟨hafter, h.accounts.counted hname found.isFile hlong found.kind⟩,
      fun hne => absurd rfl hne, hothers⟩

/-- A reference to a chunk whose file stays can be dropped, where only digits name directories and none is shut. -/
theorem letGo_succeeds (hl : s.layout? = some l) (hname : name ≠ []) (h : s.InOrder tidy l t)
    (htidy : Tidy l.root.key t.kind?) (hfree : Free l.root.key)
    (hfind : s.mode.find (l.place name) t = .ok (some e)) (hstat : t.stat e.path = .ok (.file content))
    (hcount : 1 < e.count)
    (hsame : Untouched l.root.key t.kind? v.tree.kind?) (err : StoreError) :
    (s.letGo name (l.place name) e).run v ≠ (.error err, v) := by
  intro hletGo
  have hroot := Layout.root_ne_blank h.lead
  have hs := l.isStem_place hname
  have hdir := l.dir_place_ne_blank hroot name
  obtain ⟨file, old, found⟩ := Mode.find_eq_some hdir hs hfind
  have hv := h.untouched hsame
  -- the same file is found again
  have hheld := held?_of_found hl hname hfind found
  rw [held?_eq_some_iff hl hname h.lead h.accounts.single] at hheld
  have hfile : v.tree.kind? (file :: (l.place name).dir.key) = some (.file old) :=
    (hsame.file _ _ (root_suffix_file l name file)).mpr found.kind
  have hholds : s.mode.Holds (l.place name) v.tree.kind? ⟨old, e.count⟩ :=
    ⟨hheld.1, file, found.isFile, hfile⟩
  obtain ⟨e', file', hfind', hcount', found'⟩ := find_of_holds hname hv.lead hv.accounts.single hholds
  obtain rfl : file' = file := hv.accounts.single _ _ _ _ _ _ _ _ (root_suffix_dir l name) hs
    found'.isFile found.isFile found'.kind hfile
  have hpath : e'.path = e.path := found'.path.trans found.path.symm
  have hstat' : v.tree.stat e'.path = .ok (.file content) := by
    rw [hpath]
    exact Tree.stat_mono hstat hsame.dir
      ((hsame.file _ _ (entry_below hname hroot hfind)).mpr (kind?_of_stat hstat))
  have hgt : 1 < e'.count := by
    rw [hcount']
    exact hcount
  obtain ⟨x, hok, -⟩ := letGo_fewer e hname hroot hfind' found' (Tree.admits_of_stat hstat') hgt
    (htidy.untouched hsame) hfree
  rw [hletGo] at hok
  cases hok

/-- **A move out of a file store** transfers one reference, or changes nothing. -/
theorem Handed.transfers (h : Handed s l name b t taken s' b' u) (hl : s.layout? = some l)
    (hs : s.InOrder tidy l t) (htidy : Tidy l.root.key t.kind?) (hfree : Free l.root.key)
    (hb : b.InOrder tidy t) (hbeside : ∀ q, b.root? = some q → q.Beside l.root) (hshare : b.CanShare t name) {n : Mode}
    (hn : b.mode? = some n) :
    (taken = true → ∃ chunk, Gave name chunk (.file s) t (.file s') u ∧
      Got n name chunk.content b t b' u) ∧
    (taken = false → Same (.file s) t (.file s') u ∧ Same b t b' u) := by
  have hroot := Layout.root_ne_blank hs.lead
  have horder := inOrder_of hl hs
  have hclear : b.ClearOf l.root.key := fun q hq => ⟨(hbeside q hq).apart, (hbeside q hq).avoids⟩
  have hsource : ∀ {x : Tree}, Untouched l.root.key t.kind? x.kind? → Same (.file s) t (.file s) x :=
    fun hx => AnyStore.same_of_untouched horder fun p hp => by
      rw [root_eq hl] at hp
      cases hp
      exact hx
  have hout : ∀ e, name ≠ [] → s.mode.find (l.place name) t = .ok (some e) →
      ∀ q, b.root? = some q → ∀ p ∈ [e.path], ¬ q.key <:+ p.key := by
    intro e hname hfind q hq p hp
    rw [List.mem_singleton.mp hp]
    exact (hbeside q hq).apart.symm.not_suffix (entry_below hname hroot hfind)
  have hopen : ∀ e, name ≠ [] → s.mode.find (l.place name) t = .ok (some e) → shut e.path.key.tail = false := by
    intro e hname hfind
    obtain ⟨file, old, found⟩ :=
      Mode.find_eq_some (l.dir_place_ne_blank hroot name) (l.isStem_place hname) hfind
    exact found.unshut hname hfree
  cases h with
  | missing hu =>
    subst hu
    exact ⟨fun h => (by cases h), fun _ => ⟨⟨fun _ => rfl, rfl⟩, ⟨fun _ => rfl, rfl⟩⟩⟩
  | refused hname e hfind hoffers =>
    exact ⟨fun h => (by cases h), fun _ =>
      ⟨hsource (hoffers.untouched_of_refused hclear), hoffers.same_of_refused hb fun p hp => by
        rw [List.mem_singleton.mp hp]
        exact hopen e hname hfind⟩⟩
  | emptied hname e file content hfind found hstat hlast hunshut htook hu =>
    refine ⟨fun _ => ⟨⟨content, 1⟩, ?_, ?_⟩, fun h => by cases h⟩
    · have hdropped := Dropped.removed e file content hlast hfind found (Tree.admits_of_stat hstat)
      have hsame := htook.untouched hname hclear
      refine hdropped.gave hl hname hs ⟨(hs.emptied hname found hstat hsame hu).lead, fun k c hk => ?_⟩
        ((held?_of_found hl hname hfind found).trans (by rw [hlast]))
      rw [hu, found.key (l.isStem_place hname), Function.update_apply, Function.update_apply]
      split
      · exact Iff.rfl
      · exact hsame.file k c hk
    · have hoffers := offers_of_emptied hname hclear (entry_below hname hroot hfind) hstat hlast hunshut htook hu
      obtain ⟨c, hc, hgot⟩ := hoffers.got hn hb hshare (hout e hname hfind) fun _ _ => .refl _ _
      rw [hstat] at hc
      cases hc
      exact hgot
  | stuck hname e hfind hoffers hsame err hletGo =>
    exfalso
    cases hoffers with
    | fixed hfixed =>
      subst hfixed
      cases hn
    | took _ hstat htook hv =>
      by_cases hlast : e.count ≤ 1
      · -- the file would have gone
        rw [if_pos ⟨hlast, hopen e hname hfind⟩] at hv
        have hstay := (hsame.file _ _ (entry_below hname hroot hfind)).mpr (kind?_of_stat hstat)
        rw [hv, Function.update_self] at hstay
        cases hstay
      · exact letGo_succeeds hl hname hs htidy hfree hfind hstat (by omega) hsame err hletGo
  | kept hname e hfind _ hleft =>
    rw [hn, hopen e hname hfind] at hleft
    simp at hleft
  | dropped hname e hfind hoffers hsame hdropped =>
    obtain ⟨file, old, found⟩ :=
      Mode.find_eq_some (l.dir_place_ne_blank hroot name) (l.isStem_place hname) hfind
    have hframe := hdropped.frame hname
    have hv := hs.untouched hsame
    have hheld : s.held? t name = some ⟨old, e.count⟩ := held?_of_found hl hname hfind found
    refine ⟨fun _ => ⟨⟨old, e.count⟩, ?_, ?_⟩, fun h => by cases h⟩
    · have hgave := hdropped.gave hl hname hv
        ⟨Tree.leadsToDir_mono hv.lead hframe.dir, fun _ _ _ => Iff.rfl⟩
        (((hsource hsame).held name).trans hheld)
      exact hgave.of_same (hsource hsame)
    · obtain ⟨c, hstat, hgot⟩ := hoffers.got hn hb hshare (hout e hname hfind) fun q hq =>
        hframe.untouched (hbeside q hq).apart.symm
          (Layout.avoids_place (hbeside q hq).avoided (hbeside q hq).apart.symm name)
      have hc := kind?_of_stat hstat
      rw [found.key (l.isStem_place hname), found.kind] at hc
      cases hc
      exact hgot

end FileStore

namespace MemoryStore

open AnyStore (Gave)

variable {m : MemoryStore} {name : Bytes} {chunk : Held} {t u : Tree}

omit [FileSystem] in
theorem delete_gave (h : m.Sound) (hfind : m.find? name = some chunk) :
    Gave name chunk (.memory m) t (.memory (m.delete name)) u := by
  have hdeleted := m.delete_spec name
  obtain ⟨-, hafter, hothers⟩ := hdeleted.held
  rw [hfind, Option.bind_some] at hafter
  obtain ⟨hpos, hplain⟩ := h.carries _ (Table.mem_of_lookup hfind)
  generalize m.delete name = m' at *
  cases hdeleted with
  | absent hnone =>
    rw [hfind] at hnone
    cases hnone
  | shared held hmode hcount hfind' =>
    rw [hfind] at hfind'
    cases hfind'
    rw [Mode.dropped, if_pos ⟨by simp [Mode.isCounted, hmode], hcount⟩] at hafter
    exact ⟨hfind, fun hone => absurd hone (by omega), fun _ => ⟨hcount, hafter, rfl⟩, hothers⟩
  | removed held hcount hfind' =>
    rw [hfind] at hfind'
    cases hfind'
    rw [Mode.dropped, if_neg hcount] at hafter
    refine ⟨hfind, fun _ => ⟨hafter, ?_⟩, fun hne => ?_, hothers⟩
    · have htotals := h.totals
      rw [tally_perm (perm_without h.nodup hfind), tally_cons] at htotals
      exact htotals.trans (by rw [← Tracker.totals_remove htotals]; rfl)
    · refine absurd ?_ hcount
      rcases mode_cases m.mode with ⟨hmode, -⟩ | ⟨-, hb⟩
      · exact absurd (hplain hmode) hne
      · exact ⟨hb, by have : 0 < chunk.count := hpos; omega⟩

/-- **A move out of a memory store** transfers one reference, or changes nothing. -/
theorem Handed.transfers {tidy : Prop} {m' : MemoryStore} {b b' : AnyStore} {taken : Bool}
    (h : Handed m name b t taken m' b' u) (hm : m.Sound) (hb : b.InOrder tidy t) (hshare : b.CanShare t name)
    {n : Mode} (hn : b.mode? = some n) :
    (taken = true → ∃ chunk, Gave name chunk (.memory m) t (.memory m') u ∧
      AnyStore.Got n name chunk.content b t b' u) ∧
    (taken = false → AnyStore.Same (.memory m) t (.memory m') u ∧ AnyStore.Same b t b' u) := by
  cases h with
  | missing hu =>
    subst hu
    exact ⟨fun h => (by cases h), fun _ => ⟨⟨fun _ => rfl, rfl⟩, ⟨fun _ => rfl, rfl⟩⟩⟩
  | refused chunk hfind hoffered =>
    exact ⟨fun h => (by cases h), fun _ => ⟨⟨fun _ => rfl, rfl⟩, hoffered.same_of_refused hb (by simp)⟩⟩
  | deleted chunk hfind hoffered =>
    obtain ⟨content, rfl, hgot⟩ := hoffered.got hn hb hshare (by simp) fun _ _ => .refl _ _
    exact ⟨fun _ => ⟨chunk, delete_gave hm hfind, hgot⟩, fun h => by cases h⟩

end MemoryStore

namespace AnyStore

variable {a b : AnyStore} {tidy : Prop} {w : Workspace} {name : Bytes}

/-- **A move** between stores that hold chunks transfers one reference, or changes nothing. -/
theorem moveTo_transfers (ha : a.InOrder tidy w.tree)
    (htidy : ∀ p, a.root? = some p → Tidy p.key w.tree.kind? ∧ Free p.key) (hb : b.InOrder tidy w.tree)
    (hbeside : ∀ p q, a.root? = some p → b.root? = some q → q.Beside p) (hshare : b.CanShare w.tree name)
    {m n : Mode} (hm : a.mode? = some m) (hn : b.mode? = some n) {taken : Bool} {a' b' : AnyStore}
    {x : Workspace} (hrun : ChunkStore.moveTo a name b w = ((taken, a', b'), x)) :
    (taken = true → ∃ chunk, Gave name chunk a w.tree a' x.tree ∧
      Got n name chunk.content b w.tree b' x.tree) ∧
    (taken = false → Same a w.tree a' x.tree ∧ Same b w.tree b' x.tree) := by
  cases a with
  | file s =>
    rw [moveTo_file] at hrun
    cases hrun
    rcases hl : s.layout? with _ | l
    · rw [FileStore.moveTo_apply, FileStore.moveTo_uninitialized hl]
      exact ⟨fun h => (by cases h), fun _ => ⟨⟨fun _ => rfl, rfl⟩, ⟨fun _ => rfl, rfl⟩⟩⟩
    · have hroot := FileStore.root_eq hl
      exact (FileStore.moveTo_handed hl (ha l hl) hb
        (fun q hq => ⟨(hbeside _ q hroot hq).apart, (hbeside _ q hroot hq).avoids⟩) rfl).transfers hl (ha l hl)
          (htidy _ hroot).1 (htidy _ hroot).2 hb (fun q hq => hbeside _ q hroot hq) hshare hn
  | memory s =>
    rw [moveTo_memory] at hrun
    cases hrun
    exact (MemoryStore.moveTo_handed hb.rooted rfl).transfers ha hb hshare hn
  | fixed f => cases hm

end AnyStore

/-- **Moves.**  In a session whose roots hold no directories but those of digits, none of which is shut, take two
different stores that hold chunks.  A move that is answered with yes takes one reference to the chunk from the one
and gives one to the other: what was held under the name had a number of references, and that number is one less
afterwards, or nothing is held under the name any more and the chunk is not counted; the sink has the same
content with one reference, or one reference more to the content that it had.  Nothing that either store
holds under another name changes.  A move that is answered with no changes nothing that either holds or
counts. -/
theorem move_transfers {s : Session} (h : Session.Reach True s) {id sinkId : String} (hne : id ≠ sinkId)
    {a b : AnyStore} (ha : s.store? id = some a) (hb : s.store? sinkId = some b) {m n : Mode}
    (hm : a.mode? = some m) (hn : b.mode? = some n) {name : Bytes} (hshare : b.CanShare s.workspace.tree name)
    {moved : Bool} {after : Session} (hrun : Session.moveTo id name sinkId s = (some moved, after)) :
    ∃ a' b', after.store? id = some a' ∧ after.store? sinkId = some b' ∧
      (moved = true → ∃ chunk, AnyStore.Gave name chunk a s.workspace.tree a' after.workspace.tree ∧
        AnyStore.Got n name chunk.content b s.workspace.tree b' after.workspace.tree) ∧
      (moved = false → AnyStore.Same a s.workspace.tree a' after.workspace.tree ∧
        AnyStore.Same b s.workspace.tree b' after.workspace.tree) := by
  have hgood := h.good
  rw [Session.moveTo_apply name hne ha hb] at hrun
  cases hrun
  refine ⟨(ChunkStore.moveTo a name b s.workspace).1.2.1, (ChunkStore.moveTo a name b s.workspace).1.2.2,
    ?_, ?_, AnyStore.moveTo_transfers (hgood.inOrder id a ha) ?_ (hgood.inOrder sinkId b hb) ?_
    hshare hm hn rfl⟩
  · rw [Session.store?_put, if_neg hne, Session.store?_put, if_pos rfl]
  · rw [Session.store?_put, if_pos rfl]
  · intro p hp
    refine ⟨?_, hgood.free trivial id p ((Session.root?_of_store? ha).trans hp)⟩
    cases a with
    | file f =>
      rcases hl : f.layout? with _ | l
      · rw [AnyStore.root?, FileStore.root?, hl] at hp
        cases hp
      · rw [FileStore.root_eq hl] at hp
        cases hp
        exact (hgood.inOrder id _ ha l hl).tidy trivial
    | memory m => cases hp
    | fixed f => cases hp
  · exact fun p q hp hq => hgood.beside_of (Ne.symm hne) hb ha hq hp

end

/-- A counted store with two references to a chunk of two bytes moves it to an empty plain store in memory. -/
theorem move_transfers_trial :
    (Session.moveTo "a" [107] "m" Trial.session).1 = some true ∧
    ∃ a b a' b', Trial.session.store? "a" = some a ∧ Trial.session.store? "m" = some b ∧
      (Session.moveTo "a" [107] "m" Trial.session).2.store? "a" = some a' ∧
      (Session.moveTo "a" [107] "m" Trial.session).2.store? "m" = some b' ∧
      ∃ chunk, AnyStore.Gave [107] chunk a Trial.session.workspace.tree a'
          (Session.moveTo "a" [107] "m" Trial.session).2.workspace.tree ∧
        AnyStore.Got .plain [107] chunk.content b Trial.session.workspace.tree b'
          (Session.moveTo "a" [107] "m" Trial.session).2.workspace.tree := by
  have hmoved : (Session.moveTo "a" [107] "m" Trial.session).1 = some true := by decide +kernel
  obtain ⟨a, ha⟩ : ∃ a, Trial.session.store? "a" = some a := Option.isSome_iff_exists.mp (by decide +kernel)
  obtain ⟨b, hb⟩ : ∃ b, Trial.session.store? "m" = some b := Option.isSome_iff_exists.mp (by decide +kernel)
  have hm : (Trial.session.store? "a").bind AnyStore.mode? = some .counted := by decide +kernel
  have hn : (Trial.session.store? "m").bind AnyStore.mode? = some .plain := by decide +kernel
  have hshare : ∀ b ∈ Trial.session.store? "m", b.CanShare Trial.session.workspace.tree [107] := by
    decide +kernel
  rw [ha] at hm
  rw [hb] at hn
  obtain ⟨a', b', ha', hb', htransfer, -⟩ := move_transfers (Trial.reach True) (by decide) ha hb hm hn
    (hshare b hb) (Prod.ext hmoved rfl)
  exact ⟨hmoved, a, b, a', b', ha, hb, ha', hb', htransfer rfl⟩

/-- A move to a store whose root leads through another one, which was cleared: the directories that it makes
let chunks be found again that it has nothing to do with. -/
theorem move_uncovers_detour :
    Detour.root.key.Apart (Path.ofText "r2").key ∧
    (Detour.session.store? "a").bind (AnyStore.held? Detour.session.workspace.tree [107]) = none ∧
    (Session.moveTo "m" [110] "a" Detour.session).1 = some true ∧
    ((Session.moveTo "m" [110] "a" Detour.session).2.store? "a").bind
      (AnyStore.held? (Session.moveTo "m" [110] "a" Detour.session).2.workspace.tree [107]) =
        some ⟨[97, 98, 99], 1⟩ := by
  decide +kernel

end ContentStore
