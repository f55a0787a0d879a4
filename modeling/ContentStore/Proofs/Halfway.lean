import ContentStore.Proofs.Course
import ContentStore.Proofs.Restart
import ContentStore.Proofs.Transfer

/-!
# Stopping on the way

A process may stop after any of the changes that lead from one workspace to another.  `Cut` says what matters then:
seen from one root nothing has changed so far, or nothing would have changed any more, seen from the same root or
another one.  Hidden files and new directories do not count (`Overlooks`), so an operation whose changes that can be
seen are one or none is cut cleanly at any point.

* `Cut.prepared`, `Cut.turn`, `Cut.finished`: the parts of such an operation;
* `InOrder.held_same`, `Legible.seesSame`: a store has the same chunks in a tree in which it can see no difference;
* `start_shows`: a store that takes its root there shows what the other one has.
-/

namespace ContentStore

open Tree (Alters Fixed)

/-- A store whose root has the key `d` overlooks the file at a key: the file is hidden, or it lies elsewhere. -/
def Overlooks (d k : Key) : Prop := k.Hidden ∨ ¬ d <:+ k

theorem Mode.Names.not_overlooked {m : Mode} {stem file : Bytes} {d k : Key} (hd : d <:+ k)
    (hs : isStem stem = true) (hfile : m.Names stem file) : ¬ Overlooks d (file :: k) := by
  rintro (⟨n, hn, hdot⟩ | hout)
  · cases hn
    exact hfile.head? hs hdot
  · exact hout (hd.trans (List.suffix_cons _ _))

namespace Workspace

variable {F G S : Key → Prop} {R : Tree → Key → Prop} {u v w x : Workspace} {done rest : List Change}

/-- Wherever the changes that lead from one workspace to another stop, no directory has gone.  Either files have
changed so far only at keys of `F`, or those that would have changed after that have keys of `G`. -/
def Cut (F G : Key → Prop) (w v : Workspace) : Prop :=
  ∃ cs, w.After cs v ∧ ∀ done rest, cs = done ++ rest →
    (∀ k, w.tree.kind? k = some .dir → (done.foldl Tree.apply w.tree).kind? k = some .dir) ∧
    (Veiled F (fun _ => True) w.tree.kind? (done.foldl Tree.apply w.tree).kind? ∨
      Veiled G (fun _ => True) (done.foldl Tree.apply w.tree).kind? v.tree.kind?)

/-- What has changed so far, and what will change after that. -/
theorem splits {t : Tree} (h : t.Each (Alters S R) (done ++ rest)) :
    Veiled S (fun _ => True) t.kind? (done.foldl Tree.apply t).kind? ∧
      Veiled S (fun _ => True) (done.foldl Tree.apply t).kind? ((done ++ rest).foldl Tree.apply t).kind? := by
  obtain ⟨hdone, hrest⟩ := Tree.each_append.mp h
  rw [List.foldl_append]
  exact ⟨hdone.veiled, hrest.veiled⟩

namespace Cut

theorem turn (h : w.Turns (Alters S R) v) : Cut F G w v := by
  rcases h with h | ⟨c, hc, h⟩
  · refine ⟨[], h, fun done rest hsplit => ?_⟩
    obtain ⟨rfl, -⟩ := List.append_eq_nil_iff.mp hsplit.symm
    exact ⟨fun _ hk => hk, Or.inl (.refl ..)⟩
  · refine ⟨[c], h, fun done rest hsplit => ?_⟩
    cases done with
    | nil => exact ⟨fun _ hk => hk, Or.inl (.refl ..)⟩
    | cons c' done =>
      obtain ⟨rfl, hnil⟩ := List.cons.inj hsplit
      obtain ⟨rfl, -⟩ := List.append_eq_nil_iff.mp hnil.symm
      refine ⟨hc.veiled.dir, Or.inr ?_⟩
      rw [h.tree]
      exact .refl ..

theorem refl (w : Workspace) : Cut F G w w := .turn (S := F) (R := Fixed) (.refl w)

theorem prepared (h : w.By (Alters F R) x) (h' : Cut F G x v) : Cut F G w v := by
  obtain ⟨as, hafter, heach⟩ := h
  obtain ⟨bs, hafter', hstops⟩ := h'
  have hx : x.tree = as.foldl Tree.apply w.tree := hafter.tree
  refine ⟨as ++ bs, hafter.trans hafter', fun done rest hsplit => ?_⟩
  rcases List.append_eq_append_iff.mp hsplit with ⟨mid, rfl, hbs⟩ | ⟨mid, rfl, -⟩
  · obtain ⟨hdir, hcut⟩ := hstops mid rest hbs
    rw [hx] at hdir hcut
    rw [List.foldl_append]
    exact ⟨fun k hk => hdir k (heach.veiled.dir k hk), hcut.imp_left heach.veiled.trans⟩
  · have hso := (splits heach).1
    exact ⟨hso.dir, Or.inl hso⟩

theorem finished (h : Cut F G w x) (h' : x.By (Alters G R) v) : Cut F G w v := by
  obtain ⟨as, hafter, hstops⟩ := h
  have hby := h'.veiled
  obtain ⟨bs, hafter', heach⟩ := h'
  have hx : x.tree = as.foldl Tree.apply w.tree := hafter.tree
  have hv : v.tree = bs.foldl Tree.apply x.tree := hafter'.tree
  refine ⟨as ++ bs, hafter.trans hafter', fun done rest hsplit => ?_⟩
  rcases List.append_eq_append_iff.mp hsplit with ⟨mid, rfl, rfl⟩ | ⟨mid, has, -⟩
  · obtain ⟨hsofar, hleft⟩ := splits heach
    rw [← hv] at hleft
    rw [List.foldl_append, ← hx]
    refine ⟨fun k hk => hsofar.dir k ?_, Or.inr hleft⟩
    rw [hx]
    exact (hstops as [] (by simp)).1 k hk
  · obtain ⟨hdir, hcut⟩ := hstops done mid has
    exact ⟨hdir, hcut.imp_right fun h => h.trans hby⟩

theorem quiet (h : w.By (Alters F R) v) : Cut F G w v := .prepared h (.refl v)

/-- The changes are determined by the workspaces. -/
theorem stop (h : Cut F G w v) (hafter : w.After (done ++ rest) v) :
    (∀ k, w.tree.kind? k = some .dir → (done.foldl Tree.apply w.tree).kind? k = some .dir) ∧
    (Veiled F (fun _ => True) w.tree.kind? (done.foldl Tree.apply w.tree).kind? ∨
      Veiled G (fun _ => True) (done.foldl Tree.apply w.tree).kind? v.tree.kind?) := by
  obtain ⟨cs, hcs, hstops⟩ := h
  exact hstops done rest (List.append_cancel_left (hcs.changes.symm.trans hafter.changes))

end Cut

theorem Spans.cut {T : Key → Prop} (h : w.Spans S T R v) (hF : ∀ k : Key, k.Hidden → F k) (hG : ∀ k, T k → G k) :
    Cut F G w v := by
  obtain ⟨x, y, hx, hy, hv⟩ := h
  exact .prepared (hx.widen hF fun _ _ _ => id) (.finished (.turn hy) (hv.widen hG fun _ _ _ => id))

end Workspace

/-! ### What a store sees there -/

namespace FileStore

open AnyStore (Same)

variable {tidy : Prop} {f g : FileStore} {l : Layout} {t u : Tree}

/-- A store sees the same in two trees, below a root that it can reach in both. -/
structure SeesSame (m : Mode) (l : Layout) (t u : Tree) : Prop where
  lead : t.leadsToDir l.root = true
  lead' : u.leadsToDir l.root = true
  file : ∀ k c, ¬ Overlooks l.root.key k → (u.kind? k = some (.file c) ↔ t.kind? k = some (.file c))
  count : Scan.count m u l.root = Scan.count m t l.root

namespace SeesSame

theorem of_veiled {D : Key → Prop} (m : Mode) (h : Veiled (Overlooks l.root.key) D t.kind? u.kind?)
    (hlead : t.leadsToDir l.root = true) : SeesSame m l t u where
  lead := hlead
  lead' := Tree.leadsToDir_mono hlead h.dir
  file := h.file
  count := by
    refine h.count (fun n k hk hbelow => ?_) hlead
    rcases hk with ⟨n', hn, hdot⟩ | hout
    · cases hn
      exact m.classify_hidden hdot
    · exact absurd hbelow hout

theorem symm {m : Mode} (h : SeesSame m l t u) : SeesSame m l u t :=
  ⟨h.lead', h.lead, fun k c hk => (h.file k c hk).symm, h.count.symm⟩

theorem trans {m : Mode} {v : Tree} (h : SeesSame m l t u) (h' : SeesSame m l u v) : SeesSame m l t v :=
  ⟨h.lead, h'.lead', fun k c hk => (h'.file k c hk).trans (h.file k c hk), h'.count.trans h.count⟩

theorem of_untouched (h : f.InOrder tidy l t) (hu : Untouched l.root.key t.kind? u.kind?) :
    SeesSame f.mode l t u where
  lead := h.lead
  lead' := (h.untouched hu).lead
  file k c hk := hu.file k c (by_contra fun hout => hk (Or.inr hout))
  count := ((h.untouched hu).accounts.count (h.untouched hu).lead).symm.trans (h.accounts.count h.lead)

theorem single {m : Mode} (h : SeesSame m l t u) (hsingle : m.Single l.root.key t.kind?) :
    m.Single l.root.key u.kind? := by
  intro k stem file other i j c c' hd hs hfile hother hk hk'
  exact hsingle k stem file other i j c c' hd hs hfile hother
    ((h.file _ _ (hfile.names.not_overlooked hd hs)).mp hk) ((h.file _ _ (hother.names.not_overlooked hd hs)).mp hk')

end SeesSame

theorem held?_settings (hmode : g.mode = f.mode) (hlayout : g.layout? = f.layout?) (t : Tree) (name : Bytes) :
    g.held? t name = f.held? t name := by
  simp only [held?, hlayout, hmode]

theorem InOrder.held_same (h : f.InOrder tidy l t) (hl : f.layout? = some l) (hsees : SeesSame f.mode l t u)
    (name : Bytes) : f.held? u name = f.held? t name := by
  by_cases hname : name = []
  · rw [hname, held?_blank, held?_blank]
  · exact held?_congr hl hl rfl h.lead hsees.lead' h.accounts.single (hsees.single h.accounts.single)
      fun file n c hfile => hsees.file _ c
        (hfile.names.not_overlooked (root_suffix_dir l name) (l.isStem_place hname))

/-- **Taking the root** of a store that is in order, a store of the same mode shows what that store has, in any tree
in which that store sees the same. -/
theorem start_shows [FileSystem] (h : f.InOrder tidy l t) (hl : f.layout? = some l) {w : Workspace}
    (hsees : SeesSame f.mode l t w.tree) (hmode : g.mode = f.mode) :
    ∃ g' x, g.start l.root l.depth w = ((true, g'), x) ∧ x.tree = w.tree ∧
      Same (.file f) t (.file g') w.tree := by
  obtain ⟨x, hrun, htree⟩ := start_ok (s := g) (prepareRoot_of_dir hsees.lead') l.depth
  refine ⟨_, x, hrun, htree, fun name => ?_, ?_⟩
  · simp only [AnyStore.held?]
    rw [← h.held_same hl hsees name]
    refine held?_settings ?_ ?_ w.tree name
    · exact hmode
    · exact hl.symm
  · have hcount : Scan.count g.mode w.tree l.root = f.tracker.totals := by
      rw [hmode, hsees.count]
      exact (h.accounts.count h.lead).symm
    rw [hcount]
    rfl

/-! ### What a store can open there -/

variable {name content : Bytes}

theorem legible_of_names (hl : f.layout? = some l) (hroot : l.root ≠ .blank) (hname : name ≠ [])
    (hsingle : f.mode.Single l.root.key u.kind?) {file c n : Bytes} {i : Nat} {d : Key}
    (hfile : f.mode.IsFile (l.place name).stem i file)
    (hk : u.kind? (file :: (l.place name).dir.key) = some (.file c))
    (hn : t.Names ((l.place name).dir.join file) n d) : f.Legible u name := by
  intro l' e hl' _ hfind
  rw [hl] at hl'
  cases hl'
  have hs := l.isStem_place hname
  have hdir := l.dir_place_ne_blank hroot name
  obtain ⟨other, old, found⟩ := Mode.find_eq_some hdir hs hfind
  obtain rfl : other = file := hsingle _ _ _ _ _ _ _ _ (root_suffix_dir l name) hs found.isFile hfile found.kind hk
  have hisName := (found.isFile.isName hs).1
  obtain ⟨rfl, -⟩ := hn.of_join hisName hdir
  exact ⟨old, by rw [found.path]; exact Tree.stat_join hisName hn.check hn.length found.dir found.kind⟩

theorem Legible.seesSame (hlegible : f.Legible t name) (h : f.InOrder tidy l t) (hl : f.layout? = some l)
    (hsees : SeesSame f.mode l t u) : f.Legible u name := by
  intro l' e hl' hname hfind
  have hl'' := hl'
  rw [hl] at hl'
  cases hl'
  have hroot := Layout.root_ne_blank h.lead
  have hs := l.isStem_place hname
  have hdir := l.dir_place_ne_blank hroot name
  obtain ⟨file, old, found⟩ := Mode.find_eq_some hdir hs hfind
  have hkind := (hsees.file _ _ (found.isFile.names.not_overlooked (root_suffix_dir l name) hs)).mp found.kind
  have hholds : f.mode.Holds (l.place name) t.kind? ⟨old, e.count⟩ :=
    ⟨spells_of_find hname hroot hfind, file, found.isFile, hkind⟩
  obtain ⟨e', other, hfind', -, found'⟩ := find_of_holds hname h.lead h.accounts.single hholds
  obtain rfl : other = file := h.accounts.single _ _ _ _ _ _ _ _ (root_suffix_dir l name) hs found'.isFile
    found.isFile found'.kind hkind
  obtain ⟨c, hstat⟩ := hlegible l e' hl hname hfind'
  obtain ⟨n, d, hn, -⟩ := Tree.names_of_stat hstat
  rw [found'.path] at hn
  exact legible_of_names hl hroot hname (hsees.single h.accounts.single) found.isFile found.kind hn l e hl'' hname hfind

/-- A store can open a chunk that it has taken, as long as its directory is left alone. -/
theorem Took.legible [FileSystem] {kinds : Key → Option Kind} (htook : Took f l name content t g kinds)
    (h : f.InOrder tidy l t)
    (hl : f.layout? = some l) (hname : name ≠ []) (hshare : (AnyStore.file f).CanShare t name)
    (hx : Untouched l.root.key kinds u.kind?) (hsingle : f.mode.Single l.root.key u.kind?) : g.Legible u name := by
  have hroot := Layout.root_ne_blank h.lead
  -- a counted file is where it was renamed to
  have hplaced : ∀ {n : Nat} {c : Bytes} {x : Tree}, f.mode.Carries n → x.Admits (f.mode.path (l.place name) n) →
      kinds (f.mode.fileName (l.place name).stem n :: (l.place name).dir.key) = some (.file c) →
        f.Legible u name := by
    intro n c x hcarries hadmits hk
    obtain ⟨y, d, hn, -⟩ := hadmits
    rw [Mode.path_eq] at hn
    exact legible_of_names hl hroot hname hsingle (Mode.isFile_fileName _ hcarries)
      ((hx.file _ _ (root_suffix_file l name _)).mpr hk) hn
  cases htook with
  | kept e old hmode =>
    exact legible_plain (fun l' hl' => by rw [hl] at hl'; cases hl'; exact hroot) hmode name u
  | recounted e file old hmode hfind found hold admits =>
    refine hplaced ?_ admits (by rw [Function.update_self])
    rw [hmode]
    exact ⟨Nat.succ_pos _, countable_of_canShare hl hroot hname hshare e hmode hfind⟩
  | added hfind hroom w v htree hdirs grown admits =>
    exact hplaced f.mode.carries_one admits (by rw [Function.update_self])

/-- A store has a chunk, and reads its content. -/
def Reads [FileSystem] (f : FileStore) (w : Workspace) (name : Bytes) (chunk : Held) : Prop :=
  f.held? w.tree name = some chunk ∧ (ChunkStore.get f name w).1 = chunk.content

/-- A chunk that a store has and can open is read by any store of its mode and root that sees the same. -/
theorem InOrder.reads [FileSystem] (h : f.InOrder tidy l t) (hl : f.layout? = some l) {w : Workspace}
    (hsees : SeesSame f.mode l t w.tree) {chunk : Held} (hheld : f.held? t name = some chunk)
    (hlegible : f.Legible t name) (hmode : g.mode = f.mode) (hlayout : g.layout? = f.layout?) :
    g.Reads w name chunk := by
  have hthere : g.held? w.tree name = some chunk := by
    rw [held?_settings hmode hlayout, h.held_same hl hsees, hheld]
  have hopens : g.Legible w.tree name := by
    have := hlegible.seesSame h hl hsees
    rwa [Legible, ← hmode, ← hlayout] at this
  refine ⟨hthere, ?_⟩
  rw [get_answer (fun l' hl' => ?_) hopens, hthere]
  · rfl
  · rw [hlayout, hl] at hl'
    cases hl'
    exact Layout.root_ne_blank h.lead

/-! ### What a move leaves to either store -/

section

variable {s s' b : FileStore} {m : Layout} {c c' : AnyStore}

theorem Handed.untouched [FileSystem] (h : Handed s l name c t false s' c' u) (hclear : c.ClearOf l.root.key) :
    Untouched l.root.key t.kind? u.kind? := by
  cases h with
  | missing hu => exact hu ▸ .refl _ _
  | refused hname e hfind hoffers => exact hoffers.untouched_of_refused hclear
  | stuck hname e hfind hoffers hsame err hletGo => exact hsame

theorem Handed.took [FileSystem] (h : Handed s l name (.file b) t true s' c' u) (hroot : l.root ≠ .blank)
    (hm : b.layout? = some m) (hbeside : m.root.Beside l.root) :
    ∃ e content kinds, name ≠ [] ∧ s.mode.find (l.place name) t = .ok (some e) ∧
      t.stat e.path = .ok (.file content) ∧ AnyStore.Took name content t (.file b) c' kinds ∧
      Untouched m.root.key kinds u.kind? := by
  have hroots : ∀ q, (AnyStore.file b).root? = some q → q = m.root := fun q hq =>
    Option.some.inj (hq.symm.trans (root_eq hm))
  have hclear : (AnyStore.file b).ClearOf l.root.key := fun q hq =>
    hroots q hq ▸ ⟨hbeside.apart, hbeside.avoids⟩
  have hoffered : ∀ e v, s.mode.find (l.place name) t = .ok (some e) → name ≠ [] →
      Offers (.file b) name e t true c' v → Untouched m.root.key v.kind? u.kind? →
      ∃ e content kinds, name ≠ [] ∧ s.mode.find (l.place name) t = .ok (some e) ∧
        t.stat e.path = .ok (.file content) ∧ AnyStore.Took name content t (.file b) c' kinds ∧
        Untouched m.root.key kinds u.kind? := by
    intro e v hfind hname hoffers hv
    cases hoffers with
    | fixed hfixed => cases hfixed
    | took _ hstat htook hkinds haside =>
      refine ⟨e, _, _, hname, hfind, hstat, htook, (haside.untouched fun p hp => ?_).trans hv⟩
      rw [List.mem_singleton.mp hp]
      exact hbeside.apart.symm.not_suffix (entry_below hname hroot hfind)
  cases h with
  | emptied hname e file content hfind found hstat hlast hopen htook hu =>
    exact hoffered e u hfind hname
      (offers_of_emptied hname hclear (entry_below hname hroot hfind) hstat hlast hopen htook hu) (.refl _ _)
  | kept hname e hfind hmode hleft hoffers hsame => exact hoffered e u hfind hname hoffers (.refl _ _)
  | dropped hname e hfind hoffers hsame hdropped =>
    exact hoffered e _ hfind hname hoffers ((hdropped.frame hname).untouched hbeside.apart.symm
      (Layout.avoids_place hbeside.avoided hbeside.apart.symm name))

end

end FileStore

end ContentStore
