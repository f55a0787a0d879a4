import ContentStore.Proofs.Found

/-!
# What emptying a directory does to the tree

A directory is emptied entry by entry, up to the first that cannot be removed.  Nothing goes but what lies
below it (`emptyDir_pruned`), and everything goes if nothing is shut and every entry has a path that is not
too long (`emptyDir_all`).  A name that no path can spell would lead elsewhere, so all names of the tree have to be
proper ones.
-/

namespace ContentStore

open FileSystem (shut volume Free)

/-- Every entry has a name that a path can spell. -/
def Proper (kinds : Key → Option Kind) : Prop := ∀ n d, kinds (n :: d) ≠ none → Path.IsName n

/-- Nothing has changed, but some of what lay below a directory may have gone. -/
def Pruned (d : Key) (t u : Tree) : Prop :=
  ∀ k, u.kind? k = t.kind? k ∨ u.kind? k = none ∧ d <:+ k ∧ k ≠ d

namespace Pruned

variable {d : Key} {t u v : Tree}

theorem refl (d : Key) (t : Tree) : Pruned d t t := fun _ => Or.inl rfl

theorem trans (h : Pruned d t u) (h' : Pruned d u v) : Pruned d t v := by
  intro k
  rcases h' k with e | hk
  · rw [e]
    exact h k
  · exact Or.inr hk

theorem proper (h : Pruned d t u) (ht : Proper t.kind?) : Proper u.kind? := by
  intro n k hk
  rcases h (n :: k) with e | ⟨e, -⟩
  · exact ht n k (e ▸ hk)
  · exact absurd e hk

theorem eq_of_outside (h : Pruned d t u) {k : Key} (hk : d <:+ k → k = d) : u.kind? k = t.kind? k := by
  rcases h k with e | ⟨-, hs, hne⟩
  · exact e
  · exact absurd (hk hs) hne

theorem leadsToDir (h : Pruned d t u) {p : Path} (hp : ∀ k ∈ p.visits, d <:+ k → k = d)
    (hlead : t.leadsToDir p = true) : u.leadsToDir p = true := by
  obtain ⟨hc, hw, hd⟩ := Tree.leadsToDir_iff.mp hlead
  refine Tree.leadsToDir_iff.mpr ⟨hc, ?_, ?_⟩
  · rw [← hw]
    exact Tree.walk_congr fun k hk => h.eq_of_outside (hp k hk)
  · rw [h.eq_of_outside (hp _ p.key_mem_visits), hd]

end Pruned

/-! ### What is removed -/

namespace Listing

variable [FileSystem]

theorem clearing_file (k : Key) (name content : Bytes) (rest : Listing) :
    (file name content rest).clearing k =
      if shut k then ([], some .permissionDenied)
      else ((name :: k) :: (rest.clearing k).1, (rest.clearing k).2) := rfl

theorem clearing_dir (k : Key) (name : Bytes) (inner rest : Listing) :
    (dir name inner rest).clearing k =
      match (inner.clearing (name :: k)).2 <|> stuck? k name with
      | some fault => ((inner.clearing (name :: k)).1, some fault)
      | none => ((inner.clearing (name :: k)).1 ++ (name :: k) :: (rest.clearing k).1, (rest.clearing k).2) := rfl

/-- Only what lies at an entry or below it is removed. -/
theorem clearing_below {l : Listing} {k j : Key} (h : j ∈ (l.clearing k).1) : ∃ x ∈ l.names, x :: k <:+ j := by
  induction l generalizing k with
  | nil => cases h
  | file name content rest ih =>
    rw [clearing_file] at h
    split at h
    · cases h
    · rcases List.mem_cons.mp h with rfl | h
      · exact ⟨name, List.mem_cons_self, List.suffix_refl _⟩
      · obtain ⟨x, hx, hj⟩ := ih h
        exact ⟨x, List.mem_cons_of_mem _ hx, hj⟩
  | dir name inner rest ihInner ihRest =>
    have hinner : j ∈ (inner.clearing (name :: k)).1 → ∃ x ∈ (dir name inner rest).names, x :: k <:+ j := by
      intro h
      obtain ⟨x, -, hj⟩ := ihInner h
      exact ⟨name, List.mem_cons_self, (List.suffix_cons x _).trans hj⟩
    rw [clearing_dir] at h
    split at h
    · exact hinner h
    · rcases List.mem_append.mp h with h | h
      · exact hinner h
      · rcases List.mem_cons.mp h with rfl | h
        · exact ⟨name, List.mem_cons_self, List.suffix_refl _⟩
        · obtain ⟨x, hx, hj⟩ := ihRest h
          exact ⟨x, List.mem_cons_of_mem _ hx, hj⟩

theorem mem_clearing {l : Listing} {k : Key} (hall : (l.clearing k).2 = none) {x : Bytes} (hx : x ∈ l.names) :
    x :: k ∈ (l.clearing k).1 := by
  induction l with
  | nil => cases hx
  | file name content rest ih =>
    rw [clearing_file] at hall ⊢
    split at hall
    · cases hall
    · next hopen =>
      rw [if_neg hopen]
      rcases List.mem_cons.mp hx with rfl | hx
      · exact List.mem_cons_self
      · exact List.mem_cons_of_mem _ (ih hall hx)
  | dir name inner rest _ ih =>
    rw [clearing_dir] at hall ⊢
    split at hall
    · cases hall
    · refine List.mem_append_right _ ?_
      rcases List.mem_cons.mp hx with rfl | hx
      · exact List.mem_cons_self
      · exact List.mem_cons_of_mem _ (ih hall hx)

theorem stuck?_eq_none {k : Key} (h : Free k) (name : Bytes) : stuck? k name = none := by
  rw [stuck?, if_neg (by rw [(h k (List.suffix_refl k)).1]; simp), if_pos (h _ (List.suffix_cons name k)).2]

/-- All goes where nothing is shut and no other volume begins. -/
theorem clearing_all {k : Key} (h : Free k) (l : Listing) : (l.clearing k).2 = none := by
  induction l generalizing k with
  | nil => rfl
  | file name content rest ih =>
    rw [clearing_file, if_neg (by rw [(h k (List.suffix_refl k)).1]; simp)]
    exact ih h
  | dir name inner rest ihInner ihRest =>
    have hbelow : Free (name :: k) := h.below (List.suffix_cons name k)
    rw [clearing_dir, ihInner hbelow, stuck?_eq_none h]
    exact ihRest h

end Listing

namespace Request

variable {p : Path} {x : Bytes} {w : Workspace}

theorem kind?_removals {ks : List Key} (hks : [] ∉ ks) (t : Tree) (k : Key) :
    ((ks.map Change.remove).foldl Tree.apply t).kind? k =
      if ∃ j ∈ ks, j <:+ k then none else t.kind? k := by
  induction ks generalizing t with
  | nil => simp
  | cons j ks ih =>
    rw [List.mem_cons, not_or] at hks
    rw [List.map_cons, List.foldl_cons, ih hks.2, Tree.apply, Tree.kind?_remove (Ne.symm hks.1)]
    by_cases hj : j <:+ k <;> by_cases h : ∃ i ∈ ks, i <:+ k <;> simp [hj, h]

variable [FileSystem]

theorem removeAll_run (k : Key) (inner : Listing) (w : Workspace) :
    (removeAll k inner).run w = ((inner.clearing k).2.elim (.ok ()) .error,
      w.commits ((inner.clearing k).1.map .remove)) := by
  unfold removeAll
  rw [Action.run_bind, Action.run_lift, removeKeys, Action.forM_commit]
  cases (inner.clearing k).2 <;> rfl

/-- Removes an entry of a directory by its joined name. -/
def removeEntry (p : Path) (e : Bytes × Node) : Request Unit :=
  match e.2 with
  | .dir _ => removeDir (p.join e.1)
  | .file _ => unlink (p.join e.1)

/-- What removing an entry comes to: some of what lies at it or below it goes, and all of it unless the
request is refused. -/
inductive Removal (p : Path) (e : Bytes × Node) (w : Workspace) : Except Fault Unit × Workspace → Prop
  | gone (ks : List Key) (hbelow : ∀ j ∈ ks, e.1 :: p.key <:+ j) (hmem : e.1 :: p.key ∈ ks) :
      Removal p e w (.ok (), w.commits (ks.map .remove))
  | refused (f : Fault) (ks : List Key) (hbelow : ∀ j ∈ ks, e.1 :: p.key <:+ j)
      (hno : Free p.key → w.tree.Names (p.join e.1) e.1 p.key → w.tree.kind? (e.1 :: p.key) ≠ some e.2.kind) :
      Removal p e w (.error f, w.commits (ks.map .remove))

theorem Removal.unchanged {e : Bytes × Node} (f : Fault)
    (hno : Free p.key → w.tree.Names (p.join e.1) e.1 p.key → w.tree.kind? (e.1 :: p.key) ≠ some e.2.kind) :
    Removal p e w (.error f, w) := by
  have h : Removal p e w _ := .refused f [] (fun _ h => by cases h) hno
  rwa [List.map_nil, Workspace.commits_nil] at h

theorem removeDir_join (hx : Path.IsName x) (inner : Listing) :
    Removal p (x, .dir inner) w ((removeDir (p.join x)).run w) := by
  unfold removeDir
  rw [Action.run_bind, Action.run_ask]
  have h := w.tree.spotted (p.join x)
  generalize w.tree.spot (p.join x) = r at h ⊢
  cases h with
  | fault f hno => exact .unchanged f fun _ h => absurd h (hno _ _)
  | noName s hl hlast hno =>
    rw [(p.last_join hx).2.1] at hlast
    rcases hl with hl | hl <;> cases hl.symm.trans hlast
  | tooLong s n hl hlook hno =>
    dsimp only
    rw [hl]
    dsimp only
    rw [Action.run_bind, Action.run_ask, hlook]
    exact .unchanged _ fun _ h => absurd h (hno _ _)
  | entry s n hl _ hnames hlook =>
    obtain ⟨rfl, hdir⟩ : n = x ∧ s.dir = p.key := by
      have hkey := hnames.key
      rw [Path.key_join p hx] at hkey
      exact ⟨(List.cons.inj hkey).1.symm, (List.cons.inj hkey).2.symm⟩
    dsimp only
    rw [hl]
    dsimp only
    rw [Action.run_bind, Action.run_ask, hlook, hdir]
    rcases hnode : w.tree.node? (n :: p.key) with _ | ⟨content | found⟩
    · exact .unchanged _ fun _ _ => by simp [Tree.kind?, hnode]
    · exact .unchanged _ fun _ _ => by simp [Tree.kind?, hnode, Node.kind]
    · have hbelow : ∀ j ∈ ((Listing.dir n found .nil).clearing p.key).1, n :: p.key <:+ j := by
        intro j hj
        obtain ⟨y, hy, hsuffix⟩ := Listing.clearing_below hj
        rwa [List.mem_singleton.mp hy] at hsuffix
      show Removal p _ w ((removeAll p.key (.dir n found .nil)).run w)
      rw [removeAll_run]
      rcases hall : ((Listing.dir n found .nil).clearing p.key).2 with _ | f
      · exact .gone _ hbelow (Listing.mem_clearing hall List.mem_cons_self)
      · refine .refused f _ hbelow fun hfree => ?_
        rw [Listing.clearing_all hfree] at hall
        cases hall

theorem removeEntry_removal {e : Bytes × Node} (he : Path.IsName e.1) (w : Workspace) :
    Removal p e w ((removeEntry p e).run w) := by
  obtain ⟨x, node⟩ := e
  cases node with
  | dir inner => exact removeDir_join he inner
  | file content =>
    show Removal p _ w ((unlink (p.join x)).run w)
    have hkey := Path.key_join p he
    rcases unlink_spec (p.join x) w with ⟨f, hno, hrun⟩ | ⟨c, -, -, -, hrun, -⟩
    · rw [hrun]
      refine .unchanged f fun hfree hnames hk => hno ⟨?_, ⟨content, hkey ▸ hk⟩, ?_⟩
      · refine ⟨x, p.key, hnames, (p.last_join he).2.2, ?_⟩
        rw [hk]
        simp [Node.kind]
      · rw [hkey]
        exact (hfree _ (List.suffix_refl _)).1
    · rw [hrun, hkey]
      exact .gone [x :: p.key] (by simp) (by simp)

theorem Removal.pruned {e : Bytes × Node} {r : Except Fault Unit} {v : Workspace} (h : Removal p e w (r, v)) :
    Pruned p.key w.tree v.tree := by
  have hpruned : ∀ ks : List Key, (∀ j ∈ ks, e.1 :: p.key <:+ j) →
      Pruned p.key w.tree (w.commits (ks.map .remove)).tree := by
    intro ks hbelow k
    have hks : [] ∉ ks := fun h => List.cons_ne_nil _ _ (List.suffix_nil.mp (hbelow _ h))
    show ((ks.map Change.remove).foldl Tree.apply w.tree).kind? k = _ ∨ _
    rw [Workspace.commits, kind?_removals hks]
    split
    · next hgone =>
      obtain ⟨j, hj, hk⟩ := hgone
      have hk := (hbelow j hj).trans hk
      refine Or.inr ⟨rfl, (List.suffix_cons _ _).trans hk, ?_⟩
      rintro rfl
      have := hk.length_le
      rw [List.length_cons] at this
      omega
    · exact Or.inl rfl
  cases h with
  | gone ks hbelow => exact hpruned ks hbelow
  | refused f ks hbelow => exact hpruned ks hbelow

theorem emptyDir_eq (p : Path) (w : Workspace) :
    (emptyDir p).run w = match w.tree.list p with
      | .ok inner => (inner.toList.forM (removeEntry p)).run w
      | .error f => (.error f, w) := by
  have hentry : emptyDir p = ask (·.list p) >>= fun inner => inner.toList.forM (removeEntry p) := by
    unfold emptyDir removeEntry
    rfl
  rw [hentry, Action.run_bind, Action.run_ask]
  rcases w.tree.list p with f | inner <;> rfl

omit [FileSystem] in
theorem forM_cons_run {α : Type} (f : α → Request Unit) (a : α) (as : List α) (w : Workspace) :
    ((a :: as).forM f).run w = match (f a).run w with
      | (.ok _, v) => (as.forM f).run v
      | (.error e, v) => (.error e, v) := by
  show ((f a) >>= fun _ => as.forM f).run w = _
  rw [Action.run_bind]
  rcases (f a).run w with ⟨e | u, v⟩ <;> rfl

theorem forM_removeEntry_pruned {es : List (Bytes × Node)} (hes : ∀ e ∈ es, Path.IsName e.1)
    (w : Workspace) :
    ∃ r v, (es.forM (removeEntry p)).run w = (r, v) ∧ Pruned p.key w.tree v.tree := by
  induction es generalizing w with
  | nil => exact ⟨.ok (), w, rfl, .refl _ _⟩
  | cons e es ih =>
    rw [forM_cons_run]
    have hremoval := removeEntry_removal (p := p) (hes e List.mem_cons_self) w
    rcases hrun : (removeEntry p e).run w with ⟨r, v⟩
    rw [hrun] at hremoval
    have hpruned := hremoval.pruned
    rcases r with f | u
    · exact ⟨_, v, rfl, hpruned⟩
    · obtain ⟨r, u, hrun', hpruned'⟩ := ih (fun e he => hes e (List.mem_cons_of_mem _ he)) v
      exact ⟨r, u, hrun', hpruned.trans hpruned'⟩

/-- **Emptying a directory** takes away nothing but what lies below it. -/
theorem emptyDir_pruned (p : Path) {w : Workspace} (hw : Proper w.tree.kind?) :
    ∃ r v, (emptyDir p).run w = (r, v) ∧ Pruned p.key w.tree v.tree := by
  rw [emptyDir_eq]
  rcases hlist : w.tree.list p with f | inner
  · exact ⟨_, w, rfl, .refl _ _⟩
  · obtain ⟨-, -, hnode⟩ := Tree.stat_eq_ok_iff.mp (Tree.list_eq_ok_iff.mp hlist)
    refine forM_removeEntry_pruned (fun e he => ?_) w
    have hfind := (Listing.mem_toList_iff (Tree.distinct_of_node? hnode)).mp he
    refine hw e.1 p.key ?_
    rw [Tree.kind?, Tree.node?, hnode]
    simp [Node.child?, hfind]

/-! ### Emptying a directory for good -/

theorem removeEntry_ok {node : Node} (hfree : Free p.key) (hx : Path.IsName x)
    (hcheck : (p.join x).check = .ok ()) (hlen : x.length ≤ nameLimit) (hlead : w.tree.leadsToDir p = true)
    (hk : w.tree.kind? (x :: p.key) = some node.kind) :
    ∃ v, (removeEntry p (x, node)).run w = (.ok (), v) ∧ Pruned p.key w.tree v.tree ∧
      ∀ k, v.tree.kind? k = if x :: p.key <:+ k then none else w.tree.kind? k := by
  obtain ⟨-, hwalk, hd⟩ := Tree.leadsToDir_iff.mp hlead
  have hremoval := removeEntry_removal (p := p) (e := (x, node)) hx w
  rcases hrun : (removeEntry p (x, node)).run w with ⟨r, v⟩
  rw [hrun] at hremoval
  refine ⟨v, ?_⟩
  have hpruned := hremoval.pruned
  cases hremoval with
  | refused f ks _ hno => exact absurd hk (hno hfree (Tree.names_join hx hcheck hlen hwalk hd))
  | gone ks hbelow hmem =>
    refine ⟨rfl, hpruned, fun k => ?_⟩
    have hks : [] ∉ ks := fun h => List.cons_ne_nil _ _ (List.suffix_nil.mp (hbelow _ h))
    have hiff : (∃ j ∈ ks, j <:+ k) ↔ x :: p.key <:+ k :=
      ⟨fun ⟨j, hj, hk⟩ => (hbelow j hj).trans hk, fun hk => ⟨_, hmem, hk⟩⟩
    show ((ks.map Change.remove).foldl Tree.apply w.tree).kind? k = _
    rw [kind?_removals hks]
    simp only [hiff]

theorem forM_removeEntry_ok {es : List (Bytes × Node)} (hfree : Free p.key)
    (hvisits : ∀ k ∈ p.visits, p.key <:+ k → k = p.key)
    (hnodup : (es.map Prod.fst).Nodup)
    (hes : ∀ e ∈ es, Path.IsName e.1 ∧ (p.join e.1).check = .ok () ∧ e.1.length ≤ nameLimit)
    (w : Workspace) (hlead : w.tree.leadsToDir p = true)
    (hk : ∀ e ∈ es, w.tree.kind? (e.1 :: p.key) = some e.2.kind) :
    ∃ v, (es.forM (removeEntry p)).run w = (.ok (), v) ∧ Pruned p.key w.tree v.tree ∧
      ∀ e ∈ es, v.tree.kind? (e.1 :: p.key) = none := by
  induction es generalizing w with
  | nil => exact ⟨w, rfl, .refl _ _, by simp⟩
  | cons e es ih =>
    obtain ⟨x, node⟩ := e
    rw [List.map_cons, List.nodup_cons] at hnodup
    obtain ⟨hx, hcheck, hlen⟩ := hes (x, node) List.mem_cons_self
    obtain ⟨u, hrun, hfirst, hgone⟩ := removeEntry_ok hfree hx hcheck hlen hlead (hk (x, node) List.mem_cons_self)
    rw [forM_cons_run, hrun]
    obtain ⟨v, hrun', hpruned, hnone⟩ := ih hnodup.2 (fun e he => hes e (List.mem_cons_of_mem _ he)) _
      (hfirst.leadsToDir hvisits hlead) fun e he => by
        have hne : x ≠ e.1 := fun h => hnodup.1 (List.mem_map.mpr ⟨e, he, h.symm⟩)
        have hs : ¬ x :: p.key <:+ e.1 :: p.key := fun h =>
          hne (List.cons.inj (h.eq_of_length (by simp))).1
        rw [hgone, if_neg hs]
        exact hk e (List.mem_cons_of_mem _ he)
    refine ⟨v, hrun', hfirst.trans hpruned, fun e he => ?_⟩
    rcases List.mem_cons.mp he with rfl | he
    · rcases hpruned (x :: p.key) with h | ⟨h, -⟩
      · rw [h, hgone, if_pos (List.suffix_refl _)]
      · exact h
    · exact hnone e he

/-- A directory whose entries all have paths that are not too long is empty afterwards, where nothing is
shut. -/
theorem emptyDir_all (hfree : Free p.key) (hlead : w.tree.leadsToDir p = true)
    (hvisits : ∀ k ∈ p.visits, p.key <:+ k → k = p.key)
    (hfits : ∀ x, w.tree.kind? (x :: p.key) ≠ none →
      Path.IsName x ∧ (p.join x).check = .ok () ∧ x.length ≤ nameLimit) :
    ∃ v, (emptyDir p).run w = (.ok (), v) ∧ Pruned p.key w.tree v.tree ∧
      ∀ k, p.key <:+ k → k ≠ p.key → v.tree.kind? k = none := by
  obtain ⟨hc, hwalk, hd⟩ := Tree.leadsToDir_iff.mp hlead
  obtain ⟨inner, hnode⟩ := Tree.node?_of_kind?_dir hd
  have hlist : w.tree.list p = .ok inner :=
    Tree.list_eq_ok_iff.mpr (Tree.stat_eq_ok_iff.mpr ⟨hc, hwalk, hnode⟩)
  have hdistinct := Tree.distinct_of_node? hnode
  have hmem : ∀ x node, (x, node) ∈ inner.toList ↔ w.tree.node? (x :: p.key) = some node := by
    intro x node
    rw [Listing.mem_toList_iff hdistinct, Tree.node?, hnode]
    rfl
  have hkind : ∀ e ∈ inner.toList, w.tree.kind? (e.1 :: p.key) = some e.2.kind := fun e he =>
    Tree.kind?_of_node? ((hmem e.1 e.2).mp he)
  have hentries : ∀ e ∈ inner.toList, Path.IsName e.1 ∧ (p.join e.1).check = .ok () ∧
      e.1.length ≤ nameLimit := fun e he => by
    have hne : w.tree.kind? (e.1 :: p.key) ≠ none := by rw [hkind e he]; simp
    exact hfits _ hne
  obtain ⟨v, hrun, hpruned, hnone⟩ :=
    forM_removeEntry_ok hfree hvisits (Listing.nodup_toList hdistinct) hentries w hlead hkind
  refine ⟨v, by rw [emptyDir_eq, hlist]; exact hrun, hpruned, fun k hk hne => ?_⟩
  obtain ⟨r, rfl⟩ := hk
  obtain ⟨s, x, rfl⟩ := List.eq_nil_or_concat r |>.resolve_left (by rintro rfl; exact hne rfl)
  rw [List.concat_eq_append, List.append_assoc, List.singleton_append]
  -- the entry of the directory on the way to `k` has gone
  have hx : v.tree.kind? (x :: p.key) = none := by
    rcases hn : w.tree.node? (x :: p.key) with _ | node
    · rcases hpruned (x :: p.key) with h | ⟨h, -⟩
      · rw [h, Tree.kind?, hn]
        rfl
      · exact h
    · exact hnone (x, node) ((hmem x node).mpr hn)
  by_cases hs : s = []
  · subst hs
    exact hx
  · exact Tree.kind?_below_eq_none ⟨s, rfl⟩ (by simpa using hs) (by rw [hx]; simp)

end Request

end ContentStore
