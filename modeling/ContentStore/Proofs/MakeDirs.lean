import ContentStore.Proofs.Request

/-!
# What making directories does to the tree

Directories appear where nothing was, whatever comes of it in the end: `makeDirs_spec`.  They lie on the way of
the path, since it passes all that the paths of the directories above it pass (`visits_of_mem_parents`).  Where
only directories stand on the way and none of them is shut, all that are missing appear: `makeDirs_below`.
-/

namespace ContentStore

/-! ### The directories above a path -/

namespace Path

theorem trimEnd_ne_nil {rs : List Bytes} (h : rs ≠ []) : trimEnd rs ≠ [] := by
  fun_induction trimEnd rs with
  | case1 => exact h
  | case2 piece => exact List.cons_ne_nil _ _
  | case3 piece before hne hidle ih => exact ih hne
  | case4 piece before hne hidle => exact List.cons_ne_nil _ _

theorem trimEnd_suffix (rs : List Bytes) : trimEnd rs <:+ rs := by
  fun_induction trimEnd rs with
  | case1 => exact List.suffix_refl _
  | case2 piece => exact List.suffix_refl _
  | case3 piece before hne hidle ih => exact ih.trans (List.suffix_cons piece before)
  | case4 piece before hne hidle => exact List.suffix_refl _

theorem pieces_ofReversed {rs : List Bytes} (hne : rs ≠ []) (h : ∀ x ∈ rs, Bytes.slash ∉ x) :
    (ofReversed rs).pieces = rs.reverse ∨ (rs = [[]] ∧ (ofReversed rs).pieces = [[], []]) := by
  by_cases hrs : rs = [[]]
  · exact Or.inr ⟨hrs, by rw [hrs]; decide⟩
  · left
    unfold ofReversed
    rw [if_neg hrs]
    exact Bytes.splitOn_joinWith (by simpa using hne) fun x hx => h x (List.mem_reverse.mp hx)

theorem key_ofReversed {rs : List Bytes} (hne : rs ≠ []) (h : ∀ x ∈ rs, Bytes.slash ∉ x) :
    (ofReversed rs).key = rs.reverse.foldl Key.step [] := by
  rcases pieces_ofReversed hne h with hpieces | ⟨hrs, hpieces⟩
  · rw [key, hpieces]
  · rw [key, hpieces, hrs]
    rfl

theorem visits_ofReversed {rs : List Bytes} (hne : rs ≠ []) (h : ∀ x ∈ rs, Bytes.slash ∉ x) {k : Key}
    (hk : k ∈ (ofReversed rs).visits) : k ∈ Key.visits [] rs.reverse := by
  rcases pieces_ofReversed hne h with hpieces | ⟨-, hpieces⟩
  · rwa [visits, hpieces] at hk
  · -- the top is spelled by two blank pieces
    have hnil : k = [] := by simpa [visits, hpieces, Key.visits, Key.step, isIdle] using hk
    rw [hnil]
    exact Key.mem_visits_self _ _

theorem visits_of_mem_above {rs : List Bytes} (h : ∀ x ∈ rs, Bytes.slash ∉ x) {q : Path} (hq : q ∈ above rs)
    {k : Key} (hk : k ∈ q.visits) : k ∈ Key.visits [] rs.reverse := by
  fun_induction above rs with
  | case1 => cases hq
  | case2 => cases hq
  | case3 =>
    rw [List.mem_singleton.mp hq] at hk
    have hnil : k = [] := by simpa [visits, pieces, blank, Bytes.splitOn, Key.visits, Key.step, isIdle] using hk
    rw [hnil]
    exact Key.mem_visits_self _ _
  | case4 piece before hne hidle ih =>
    rw [List.reverse_cons, Key.visits_append]
    exact Or.inl (ih (fun x hx => h x (List.mem_cons_of_mem _ hx)) hq)
  | case5 piece before hne hidle ih =>
    rw [List.reverse_cons, Key.visits_append]
    have hbefore : ∀ x ∈ before, Bytes.slash ∉ x := fun x hx => h x (List.mem_cons_of_mem _ hx)
    rcases List.mem_cons.mp hq with rfl | hq
    · obtain ⟨front, hfront⟩ := trimEnd_suffix before
      have htrim : ∀ x ∈ trimEnd before, Bytes.slash ∉ x := fun x hx => hbefore x (hfront ▸ by simp [hx])
      have hpassed := visits_ofReversed (trimEnd_ne_nil hne) htrim hk
      rw [← hfront, List.reverse_append, Key.visits_append]
      exact Or.inl (Or.inl hpassed)
    · exact Or.inl (ih hbefore hq)

/-- A path passes all that the paths of the directories above it pass. -/
theorem visits_of_mem_parents {p q : Path} (hq : q ∈ p.parents) {k : Key} (hk : k ∈ q.visits) :
    k ∈ p.visits := by
  have hslash : ∀ x ∈ p.pieces.reverse, Bytes.slash ∉ x := fun x hx =>
    Bytes.notMem_of_mem_splitOn (List.mem_reverse.mp hx)
  have hmem := visits_of_mem_above hslash hq hk
  rwa [List.reverse_reverse] at hmem

end Path

/-! ### Directories that appear -/

/-- Nothing has gone, and nothing but directories on the way of a path has appeared. -/
def Grown (p : Path) (t u : Tree) : Prop :=
  ∀ k, u.kind? k = t.kind? k ∨
    t.kind? k = none ∧ u.kind? k = some .dir ∧ k ∈ p.visits ∧ ∀ n ∈ k.head?, Path.IsName n

namespace Grown

variable {p : Path} {t u v : Tree}

theorem of_eq (p : Path) (h : u.kind? = t.kind?) : Grown p t u := fun k => Or.inl (by rw [h])

theorem refl (p : Path) (t : Tree) : Grown p t t := fun _ => Or.inl rfl

theorem trans (h : Grown p t u) (h' : Grown p u v) : Grown p t v := by
  intro k
  rcases h k with hk | ⟨hn, hk, hp⟩ <;> rcases h' k with hk' | ⟨hn', hk', hp'⟩
  · exact Or.inl (hk'.trans hk)
  · exact Or.inr ⟨hk ▸ hn', hk', hp'⟩
  · exact Or.inr ⟨hn, hk'.trans hk, hp⟩
  · rw [hk] at hn'
    cases hn'

theorem dir (h : Grown p t u) {k : Key} (hk : t.kind? k = some .dir) : u.kind? k = some .dir := by
  rcases h k with e | ⟨hn, -⟩
  · rw [e, hk]
  · rw [hk] at hn
    cases hn

theorem file_iff (h : Grown p t u) (k : Key) (c : Bytes) :
    u.kind? k = some (.file c) ↔ t.kind? k = some (.file c) := by
  rcases h k with e | ⟨hn, hk, -⟩
  · rw [e]
  · simp [hn, hk]

theorem content? (h : Grown p t u) (k : Key) : u.content? k = t.content? k :=
  Tree.content?_congr fun c => h.file_iff k c

theorem of_makeDir {q : Path} {n : Bytes} {d : Key} (hq : t.Names q n d) (hk : t.kind? (n :: d) = none)
    (hp : q.key ∈ p.visits) : Grown p t (t.putDir (n :: d)) := by
  intro j
  rw [Tree.kind?_putDir hq.dir hk]
  by_cases e : j = n :: d
  · subst e
    refine Or.inr ⟨hk, Function.update_self .., hq.key ▸ hp, ?_⟩
    rintro m hm
    cases hm
    exact hq.isName
  · exact Or.inl (Function.update_of_ne e ..)

end Grown

namespace Tree

theorem Names.leadsToDir {t : Tree} {p : Path} {n : Bytes} {d : Key} (h : t.Names p n d)
    (hk : t.kind? (n :: d) = some .dir) : t.leadsToDir p = true :=
  leadsToDir_iff.mpr ⟨h.check, h.walk_pieces hk, by rw [h.key]; exact hk⟩

theorem leadsToDir_join {t : Tree} {p : Path} {x : Bytes} (hx : Path.IsName x)
    (hcheck : (p.join x).check = .ok ()) (hlen : x.length ≤ nameLimit) (h : t.leadsToDir p = true)
    (hk : t.kind? (x :: p.key) = some .dir) : t.leadsToDir (p.join x) = true := by
  obtain ⟨-, hw, hd⟩ := leadsToDir_iff.mp h
  exact (names_join hx hcheck hlen hw hd).leadsToDir hk

theorem leadsToDir_mono {t u : Tree} {p : Path} (h : t.leadsToDir p = true)
    (hdir : ∀ k, t.kind? k = some .dir → u.kind? k = some .dir) : u.leadsToDir p = true := by
  obtain ⟨hc, hw, hd⟩ := leadsToDir_iff.mp h
  have hd := hdir _ hd
  exact leadsToDir_iff.mpr ⟨hc, walk_mono hw (fun i _ => hdir i) (by rw [hd]; simp), hd⟩

end Tree

namespace Tree

theorem walk_before {t : Tree} {rs : List Bytes} {k : Key} (h : t.walk [] rs.reverse = .ok k) :
    ∃ d, t.walk [] (lastOf rs).1 = .ok d ∧ t.kind? d = some .dir := by
  induction rs generalizing k with
  | nil => exact ⟨[], rfl, rfl⟩
  | cons piece rs ih =>
    rw [List.reverse_cons, walk_concat] at h
    rcases hw : t.walk [] rs.reverse with f | d
    · rw [hw] at h
      cases h
    · by_cases hp : piece = []
      · subst hp
        rw [(lastOf_blank rs).1]
        exact ih hw
      · rw [lastOf_of_ne hp]
        rw [hw] at h
        exact ⟨d, hw, (stepFrom_eq_ok_iff.mp h).1⟩

theorem planMakeDir_of_dir [FileSystem] {t : Tree} {p : Path} (h : t.leadsToDir p = true) :
    t.planMakeDir p = .error .alreadyExists := by
  obtain ⟨hc, hw, hd⟩ := leadsToDir_iff.mp h
  have hrev : t.walk [] p.pieces.reverse.reverse = .ok p.key := by rwa [List.reverse_reverse]
  obtain ⟨d, hbefore, hdir⟩ := walk_before hrev
  obtain ⟨inner, hnode⟩ := node?_of_kind?_dir hdir
  have hspot : t.spot p = .ok ⟨d, inner, p.last, p.endsInSlash⟩ :=
    spot_eq_ok_iff.mpr ⟨hc, hbefore, hnode, rfl, rfl⟩
  unfold planMakeDir
  rw [hspot, ok_bind]
  cases hlast : p.last with
  | here => rfl
  | up => rfl
  | name n =>
    obtain ⟨blanks, -, hpieces, hidle, hup, -⟩ := pieces_of_last hlast
    rw [hpieces, walk_append, show t.walk [] p.before = .ok d from hbefore] at hw
    obtain ⟨-, hlen, hk, -⟩ := walk_cons_eq_ok_iff.mp hw
    rw [Key.step, if_neg (by simp [hidle]), if_neg hup] at hk
    obtain ⟨node, hn⟩ := Option.ne_none_iff_exists'.mp fun e => hk (node?_eq_none_iff.mp e)
    have hlook : (⟨d, inner, .name n, p.endsInSlash⟩ : Spot).lookup n = .ok (some node) :=
      (lookup_eq hnode hlen).trans (by rw [hn])
    simp [hlook]

theorem stat_join_of_none {t : Tree} {p : Path} {x : Bytes} (hx : Path.IsName x)
    (hcheck : (p.join x).check = .ok ()) (hlen : x.length ≤ nameLimit) (hlead : t.leadsToDir p = true)
    (hnone : t.kind? (x :: p.key) = none) : t.stat (p.join x) = .error .notFound := by
  obtain ⟨-, hw, hd⟩ := leadsToDir_iff.mp hlead
  refine stat_eq_error_iff.mpr (Or.inr ⟨hcheck, ?_⟩)
  rw [Path.pieces_join _ hx, walk_concat, walk_base hw]
  have hlen' : ¬ nameLimit < x.length := Nat.not_lt.mpr hlen
  simp [Except.bind, stepFrom, hd, hx.isIdle, hx.ne_up, hlen', hnone]

theorem stat_join {t : Tree} {p : Path} {x : Bytes} {content : Bytes} (hx : Path.IsName x)
    (hcheck : (p.join x).check = .ok ()) (hlen : x.length ≤ nameLimit) (hlead : t.leadsToDir p = true)
    (hfile : t.kind? (x :: p.key) = some (.file content)) :
    t.stat (p.join x) = .ok (.file content) := by
  obtain ⟨-, hw, hd⟩ := leadsToDir_iff.mp hlead
  have hkey := Path.key_join p hx
  refine stat_eq_ok_iff.mpr ⟨hcheck, ?_, by rw [hkey]; exact node?_of_kind?_file hfile⟩
  rw [Path.pieces_join _ hx, walk_concat, walk_base hw, hkey]
  exact stepFrom_eq_ok_iff.mpr ⟨hd, hlen, (hx.step _).symm, by rw [hfile]; simp⟩

theorem leadsToDir_below {t : Tree} {p : Path} {k : Key} (hp : t.leadsToDir p = true) (h : p.Joins k)
    (hk : t.kind? (k ++ p.key) = some .dir) : t.leadsToDir (p.below k) = true := by
  induction k with
  | nil => exact hp
  | cons x k ih =>
    have habove : t.kind? (k ++ p.key) = some .dir := isDir_of_kind?_cons (by rw [← List.cons_append, hk]; simp)
    refine leadsToDir_join (h.names x List.mem_cons_self) (h.check (leadsToDir_iff.mp hp).1)
      (h.length x List.mem_cons_self) (ih h.tail habove) ?_
    rwa [Path.key_below h.tail.names]

/-- The way to something that is missing ends where the first directory is missing. -/
theorem walk_below_notFound {t : Tree} {p : Path} {k : Key} (hp : t.leadsToDir p = true) (h : p.Joins k)
    (hnone : t.kind? (k ++ p.key) = none)
    (hfree : ∀ l, l <:+ k → t.kind? (l ++ p.key) = none ∨ t.kind? (l ++ p.key) = some .dir) :
    t.walk [] (p.below k).base = .error .notFound := by
  obtain ⟨-, hw, hd⟩ := leadsToDir_iff.mp hp
  rw [Path.base_below h.names, walk_append, walk_base hw]
  refine walk_names_notFound (fun x hx => h.names x (List.mem_reverse.mp hx))
    (fun x hx => h.length x (List.mem_reverse.mp hx)) hd (by rwa [List.reverse_reverse]) ?_
  rw [List.reverse_reverse]
  exact fun l hl _ => hfree l hl

/-- Nothing can be looked at in a directory that is missing. -/
theorem stat_join_of_notFound {t : Tree} {q : Path} {x : Bytes} (hx : Path.IsName x)
    (hcheck : (q.join x).check = .ok ()) (hwalk : t.walk [] q.base = .error .notFound) :
    t.stat (q.join x) = .error .notFound := by
  refine stat_eq_error_iff.mpr (Or.inr ⟨hcheck, ?_⟩)
  rw [Path.pieces_join q hx, walk_append, hwalk]
  rfl

theorem planMakeDir_join_of_notFound [FileSystem] {t : Tree} {q : Path} {x : Bytes} (hx : Path.IsName x)
    (hcheck : (q.join x).check = .ok ()) (hwalk : t.walk [] q.base = .error .notFound) :
    t.planMakeDir (q.join x) = .error .notFound := by
  have hbefore := (q.last_join hx).1
  unfold planMakeDir spot
  rw [hcheck]
  simp only [Path.before] at hbefore
  simp only [ok_bind, hbefore, followAll_eq_error_iff.mpr hwalk, error_bind]

/-- A file can still be looked at as long as it and the directories stay. -/
theorem stat_mono {t u : Tree} {p : Path} {content : Bytes} (h : t.stat p = .ok (.file content))
    (hdir : ∀ k, t.kind? k = some .dir → u.kind? k = some .dir)
    (hfile : u.kind? p.key = some (.file content)) : u.stat p = .ok (.file content) := by
  obtain ⟨hc, hw, -⟩ := stat_eq_ok_iff.mp h
  exact stat_eq_ok_iff.mpr
    ⟨hc, walk_mono hw (fun i _ => hdir i) (by rw [hfile]; simp), node?_of_kind?_file hfile⟩

end Tree

variable [FileSystem]

open FileSystem (shut Free)

namespace Request

theorem makeUnlessDir_eq (p : Path) (w : Workspace) :
    (makeUnlessDir p).run w = match w.tree.planMakeDir p with
      | .ok c => (.ok (), w.commits [c])
      | .error f => (if w.tree.leadsToDir p then .ok () else .error f, w) := by
  unfold makeUnlessDir
  rw [Action.run_bind, Action.run_tree]
  dsimp only
  rcases w.tree.planMakeDir p with f | c
  · dsimp only
    split <;> rfl
  · rfl

theorem makeUnlessDir_spec {p q : Path} (hp : p.key ∈ q.visits) (w : Workspace) :
    ∃ r cs, (makeUnlessDir p).run w = (r, w.commits cs) ∧ Grown q w.tree (w.commits cs).tree ∧
      (r = .ok () → (w.commits cs).tree.leadsToDir p = true) := by
  rw [makeUnlessDir_eq]
  rcases hplan : w.tree.planMakeDir p with f | c
  · refine ⟨_, [], by rw [Workspace.commits_nil], by rw [Workspace.commits_nil]; exact .refl _ _, ?_⟩
    rw [Workspace.commits_nil]
    cases w.tree.leadsToDir p <;> simp
  · obtain ⟨n, d, hn, hk, -, rfl⟩ := Tree.planMakeDir_eq_ok_iff.mp hplan
    have hkinds := Tree.kind?_putDir hn.dir hk
    have hgrown : Grown q w.tree (w.tree.putDir (n :: d)) := .of_makeDir hn hk hp
    refine ⟨_, [.makeDir (n :: d)], rfl, hgrown, fun _ => ?_⟩
    have hnew : (w.tree.putDir (n :: d)).kind? (n :: d) = some .dir := by
      rw [hkinds, Function.update_self]
    exact (hn.mono fun k => hgrown.dir).leadsToDir hnew

theorem makeDirFrom_cons (p parent : Path) (parents : List Path) (w : Workspace) :
    (makeDirFrom p (parent :: parents)).run w =
      if w.tree.planMakeDir p = .error .notFound then
        match (makeDirFrom parent parents).run w with
        | (.ok _, v) => (makeUnlessDir p).run v
        | (.error f, v) => (.error f, v)
      else (makeUnlessDir p).run w := by
  conv_lhs => unfold makeDirFrom
  rw [Action.run_bind, Action.run_tree]
  dsimp only
  split
  · next h =>
    rw [if_pos h, Action.run_bind]
    rcases (makeDirFrom parent parents).run w with ⟨f | u, v⟩ <;> rfl
  · next h => rw [if_neg h]

theorem makeDirFrom_of_plan {p : Path} (hp : p ≠ .blank) (parents : List Path) {w : Workspace}
    (h : w.tree.planMakeDir p ≠ .error .notFound) :
    (makeDirFrom p parents).run w = (makeUnlessDir p).run w := by
  cases parents with
  | nil => rw [makeDirFrom, if_neg hp]
  | cons parent parents => rw [makeDirFrom_cons, if_neg h]

theorem makeDirFrom_spec {q : Path} (p : Path) (parents : List Path)
    (hq : ∀ r ∈ p :: parents, r.key ∈ q.visits) (w : Workspace) :
    ∃ r cs, (makeDirFrom p parents).run w = (r, w.commits cs) ∧ Grown q w.tree (w.commits cs).tree ∧
      (r = .ok () → p ≠ .blank → (w.commits cs).tree.leadsToDir p = true) := by
  induction parents generalizing p w with
  | nil =>
    unfold makeDirFrom
    split
    · next hp => exact ⟨_, [], by rw [Workspace.commits_nil]; rfl, by simpa using .refl _ _, by simp [hp]⟩
    · obtain ⟨r, cs, hrun, hgrown, hok⟩ := makeUnlessDir_spec (hq p List.mem_cons_self) w
      exact ⟨r, cs, hrun, hgrown, fun h _ => hok h⟩
  | cons parent parents ih =>
    have hp := hq p List.mem_cons_self
    rw [makeDirFrom_cons]
    split
    · obtain ⟨r, cs, hrun, hgrown, -⟩ := ih parent (fun r hr => hq r (List.mem_cons_of_mem _ hr)) w
      rw [hrun]
      rcases r with f | u
      · exact ⟨_, cs, rfl, hgrown, by simp⟩
      · obtain ⟨r, ds, hrun', hgrown', hok⟩ := makeUnlessDir_spec hp (w.commits cs)
        refine ⟨r, cs ++ ds, ?_, ?_, ?_⟩
        · rw [Workspace.commits_append]
          exact hrun'
        · rw [Workspace.commits_append]
          exact hgrown.trans hgrown'
        · rw [Workspace.commits_append]
          exact fun h _ => hok h
    · obtain ⟨r, cs, hrun, hgrown, hok⟩ := makeUnlessDir_spec hp w
      exact ⟨r, cs, hrun, hgrown, fun h _ => hok h⟩

/-- Making directories lets directories appear and nothing else, also if it stops half way. -/
theorem makeDirs_spec (p : Path) (w : Workspace) :
    ∃ r cs, (makeDirs p).run w = (r, w.commits cs) ∧ Grown p w.tree (w.commits cs).tree ∧
      (r = .ok () → p ≠ .blank → (w.commits cs).tree.leadsToDir p = true) := by
  refine makeDirFrom_spec p p.parents (fun q hq => ?_) w
  rcases List.mem_cons.mp hq with rfl | hq
  · exact q.key_mem_visits
  · exact Path.visits_of_mem_parents hq q.key_mem_visits

/-! ### Directories below one that is there -/

theorem makeDirs_of_dir {p : Path} {w : Workspace} (h : w.tree.leadsToDir p = true) :
    (makeDirs p).run w = (.ok (), w) := by
  have hne : p ≠ .blank := by
    rintro rfl
    have hc := (Tree.leadsToDir_iff.mp h).1
    cases hc
  have hplan := Tree.planMakeDir_of_dir h
  refine (makeDirFrom_of_plan hne _ (by rw [hplan]; simp)).trans ?_
  rw [makeUnlessDir_eq, hplan]
  simp [h]

theorem makeUnlessDir_of_names {p : Path} {w : Workspace} {n : Bytes} {d : Key}
    (hn : w.tree.Names p n d) (hopen : shut d = false)
    (hk : w.tree.kind? (n :: d) = none ∨ w.tree.kind? (n :: d) = some .dir) :
    ∃ cs, (makeUnlessDir p).run w = (.ok (), w.commits cs) ∧
      (w.commits cs).tree.kind? = Function.update w.tree.kind? (n :: d) (some .dir) ∧
      w.tree.planMakeDir p ≠ .error .notFound := by
  rw [makeUnlessDir_eq]
  rcases hk with hk | hk
  · have hplan := Tree.planMakeDir_eq_ok_iff.mpr ⟨n, d, hn, hk, hopen, rfl⟩
    rw [hplan]
    exact ⟨[.makeDir (n :: d)], rfl, Tree.kind?_putDir hn.dir hk, by simp⟩
  · have hplan := Tree.planMakeDir_of_exists hn (by rw [hk]; simp)
    rw [hplan]
    refine ⟨[], ?_, ?_, by simp⟩
    · simp [hn.leadsToDir hk]
    · rw [Workspace.commits_nil, ← hk, Function.update_eq_self]

omit [FileSystem] in
theorem parents_join {q : Path} {x y : Bytes} (hx : Path.IsName x) (hy : Path.IsName y) :
    ((q.join y).join x).parents = q.join y :: (q.join y).parents := by
  have hpieces := Path.pieces_join q hy
  have hne : y :: q.base.reverse ≠ [[]] := by simp [hy.ne_nil]
  have hpath : Path.ofReversed (y :: q.base.reverse) = q.join y := by
    rw [Path.ofReversed, if_neg hne, List.reverse_cons, List.reverse_reverse, ← hpieces]
    exact congrArg Path.mk (Bytes.joinWith_splitOn Bytes.slash _)
  have htrim : Path.trimEnd (y :: q.base.reverse) = y :: q.base.reverse := by
    cases q.base.reverse with
    | nil => rfl
    | cons z zs => simp [Path.trimEnd, hy.isIdle]
  rw [Path.parents, Path.pieces_join _ hx, Path.base_join _ hy, Path.parents, hpieces]
  simp only [List.reverse_append, List.reverse_singleton, List.singleton_append, Path.above, hx.isIdle,
    htrim, hpath, Bool.false_eq_true, if_false]

/-- What stands at a key once there are all directories from `d` down to `k` below it. -/
def withDirs (t : Tree) (d : Key) : Key → Key → Option Kind
  | [] => t.kind?
  | x :: k => Function.update (withDirs t d k) (x :: k ++ d) (some .dir)

omit [FileSystem] in
theorem withDirs_of_forall_ne (t : Tree) (d : Key) {k j : Key}
    (h : ∀ l, l <:+ k → l ≠ [] → j ≠ l ++ d) : withDirs t d k j = t.kind? j := by
  induction k with
  | nil => rfl
  | cons x k ih =>
    rw [withDirs, Function.update_of_ne (h (x :: k) (List.suffix_refl _) (by simp))]
    exact ih fun l hl => h l (hl.trans (List.suffix_cons _ _))

omit [FileSystem] in
theorem withDirs_of_dir {t : Tree} {d k : Key} (h : t.kind? (k ++ d) = some .dir) :
    withDirs t d k = t.kind? := by
  induction k with
  | nil => rfl
  | cons x k ih =>
    have hk : t.kind? (k ++ d) = some .dir := Tree.isDir_of_kind?_cons (by rw [← List.cons_append, h]; simp)
    rw [withDirs, ih hk, ← h, Function.update_eq_self]

/-- In a directory that is there and not shut another one can be made, if no file has its name. -/
theorem makeUnlessDir_join {p : Path} {k : Key} {x : Bytes} {w : Workspace} (hp : p.check = .ok ())
    (h : p.Joins (x :: k)) (hlead : w.tree.leadsToDir (p.below k) = true) (hopen : shut (k ++ p.key) = false)
    (hfree : w.tree.kind? (x :: k ++ p.key) = none ∨ w.tree.kind? (x :: k ++ p.key) = some .dir) :
    ∃ cs, (makeUnlessDir (p.below (x :: k))).run w = (.ok (), w.commits cs) ∧
      (w.commits cs).tree.kind? = Function.update w.tree.kind? (x :: k ++ p.key) (some .dir) ∧
      w.tree.planMakeDir (p.below (x :: k)) ≠ .error .notFound := by
  obtain ⟨-, hw, hd⟩ := Tree.leadsToDir_iff.mp hlead
  have hn := Tree.names_join (h.names x List.mem_cons_self) (h.check hp) (h.length x List.mem_cons_self) hw hd
  rw [Path.key_below h.tail.names] at hn
  exact makeUnlessDir_of_names hn hopen hfree

/-- Where no file is in the way and nothing is shut, all directories below one that is there can be made. -/
theorem makeDirs_below {p : Path} {w : Workspace} (hp : w.tree.leadsToDir p = true) (hopen : Free p.key)
    {k : Key} (hk : k ≠ []) (h : p.Joins k)
    (hfree : ∀ l, l <:+ k → w.tree.kind? (l ++ p.key) = none ∨ w.tree.kind? (l ++ p.key) = some .dir) :
    ∃ cs, (makeDirs (p.below k)).run w = (.ok (), w.commits cs) ∧
      (w.commits cs).tree.kind? = withDirs w.tree p.key k := by
  have hc := (Tree.leadsToDir_iff.mp hp).1
  induction k with
  | nil => exact absurd rfl hk
  | cons x k ih =>
    have hx := h.names x List.mem_cons_self
    have habove : ∀ l, l <:+ k → w.tree.kind? (l ++ p.key) = none ∨ w.tree.kind? (l ++ p.key) = some .dir :=
      fun l hl => hfree l (hl.trans (List.suffix_cons x k))
    rcases habove k (List.suffix_refl _) with hnone | hdir
    · -- the directory above is made first
      have hne : k ≠ [] := by
        rintro rfl
        rw [List.nil_append, (Tree.leadsToDir_iff.mp hp).2.2] at hnone
        cases hnone
      obtain ⟨cs, hrun, hkinds⟩ := ih hne h.tail habove
      have hplan := Tree.planMakeDir_join_of_notFound hx (h.check hc)
        (Tree.walk_below_notFound hp h.tail hnone habove)
      obtain ⟨y, l, rfl⟩ := List.exists_cons_of_ne_nil hne
      have hy := h.tail.names y List.mem_cons_self
      have hlead : (w.commits cs).tree.leadsToDir (p.below (y :: l)) = true := by
        obtain ⟨r, ds, hrun', -, hok⟩ := makeDirs_spec (p.below (y :: l)) w
        rw [hrun] at hrun'
        obtain ⟨rfl, hv⟩ := Prod.mk.inj hrun'
        rw [hv]
        exact hok rfl (Path.join_ne_blank _ hy)
      have hsame : (w.commits cs).tree.kind? (x :: y :: l ++ p.key) = w.tree.kind? (x :: y :: l ++ p.key) := by
        rw [hkinds]
        refine withDirs_of_forall_ne _ _ fun j hj _ e => ?_
        have := hj.length_le
        rw [← List.append_cancel_right e, List.length_cons] at this
        omega
      obtain ⟨ds, hrun', hkinds', -⟩ :=
        makeUnlessDir_join hc h hlead (hopen _ (List.suffix_append _ _)).1
          (by rw [hsame]; exact hfree _ (List.suffix_refl _))
      refine ⟨cs ++ ds, ?_, ?_⟩
      · show (makeDirFrom _ (((p.below l).join y).join x).parents).run w = _
        rw [parents_join hx hy, makeDirFrom_cons]
        have hrun : (makeDirFrom ((p.below l).join y) ((p.below l).join y).parents).run w = _ := hrun
        refine (if_pos hplan).trans ?_
        rw [hrun, Workspace.commits_append]
        exact hrun'
      · rw [Workspace.commits_append, hkinds', hkinds]
        rfl
    · have hlead := Tree.leadsToDir_below hp h.tail hdir
      obtain ⟨cs, hrun, hkinds, hplan⟩ := makeUnlessDir_join hc h hlead (hopen _ (List.suffix_append _ _)).1
        (hfree _ (List.suffix_refl _))
      refine ⟨cs, (makeDirFrom_of_plan (Path.join_ne_blank _ hx) _ hplan).trans hrun, ?_⟩
      rw [hkinds, withDirs, withDirs_of_dir hdir]

end Request

end ContentStore
