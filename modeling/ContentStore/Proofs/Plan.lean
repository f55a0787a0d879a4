import ContentStore.Proofs.Join

/-!
# What a plan comes to

A path comes to one of four things when it is followed up to its last piece (`Spotted`).  A request is granted
for one of them only: the path names an entry of a directory, and what stands there fits the request.  The
theorems `planMakeDir_eq_ok_iff`, `planCreate_eq_ok_iff`, `planUnlink_eq_ok_iff` and `planRename_eq_ok_iff` say so
for each request, with what the file system has to grant besides and the change that it comes to.
-/

namespace ContentStore.Tree

variable {t : Tree} {p q : Path}

theorem lookup_eq {inner : Listing} {d : Key} (hd : t.node? d = some (.dir inner)) {n : Bytes}
    (hn : n.length ≤ nameLimit) : inner.lookup n = .ok (t.node? (n :: d)) := by
  unfold Listing.lookup
  rw [if_neg (Nat.not_lt.mpr hn), node?, hd]
  rfl

theorem lookup_of_long {n : Bytes} (hn : ¬ n.length ≤ nameLimit) (inner : Listing) :
    inner.lookup n = .error .invalidFilename := by
  unfold Listing.lookup
  rw [if_pos (Nat.not_le.mp hn)]

theorem Names.mono {u : Tree} {n : Bytes} {d : Key} (h : t.Names p n d)
    (hdir : ∀ k, t.kind? k = some .dir → u.kind? k = some .dir) : u.Names p n d where
  check := h.check
  last := h.last
  walk := walk_mono h.walk (fun i _ => hdir i) (by rw [hdir d h.dir]; simp)
  dir := hdir d h.dir
  length := h.length

/-- A file can be put at a path, in place of another file if there is one. -/
def Admits (t : Tree) (p : Path) : Prop :=
  ∃ n d, t.Names p n d ∧ p.endsInSlash = false ∧ t.kind? (n :: d) ≠ some .dir

theorem Names.admits_iff {n : Bytes} {d : Key} (h : t.Names p n d) :
    t.Admits p ↔ p.endsInSlash = false ∧ t.kind? (n :: d) ≠ some .dir := by
  constructor
  · rintro ⟨m, e, hm, hs, hk⟩
    obtain ⟨rfl, rfl⟩ := names_inj h hm
    exact ⟨hs, hk⟩
  · rintro ⟨hs, hk⟩
    exact ⟨n, d, h, hs, hk⟩

theorem not_admits (h : ∀ n d, ¬ t.Names p n d) : ¬ t.Admits p := by
  rintro ⟨n, d, hn, -⟩
  exact h n d hn

theorem Admits.check (h : t.Admits p) : p.check = .ok () := by
  obtain ⟨n, d, hn, -⟩ := h
  exact hn.check

theorem Admits.dir (h : t.Admits p) : t.kind? p.key.tail = some .dir := by
  obtain ⟨n, d, hn, -⟩ := h
  rw [hn.key]
  exact hn.dir

theorem Admits.isName (h : t.Admits p) {n : Bytes} (hn : n ∈ p.key.head?) : Path.IsName n := by
  obtain ⟨m, d, hm, -⟩ := h
  rw [hm.key] at hn
  cases hn
  exact hm.isName

theorem Admits.noDir (h : t.Admits p) : t.kind? p.key ≠ some .dir := by
  obtain ⟨n, d, hn, -, hk⟩ := h
  rwa [hn.key]

/-- Whether a file can be put at a path depends on the directories only. -/
theorem admits_congr {u : Tree} (h : ∀ k, t.kind? k = some .dir ↔ u.kind? k = some .dir) :
    t.Admits p ↔ u.Admits p := by
  constructor
  · rintro ⟨n, d, hn, hs, hk⟩
    exact ⟨n, d, hn.mono fun k => (h k).mp, hs, fun e => hk ((h _).mpr e)⟩
  · rintro ⟨n, d, hn, hs, hk⟩
    exact ⟨n, d, hn.mono fun k => (h k).mpr, hs, fun e => hk ((h _).mp e)⟩

theorem admits_of_stat {content : Bytes} (h : t.stat p = .ok (.file content)) : t.Admits p := by
  obtain ⟨n, d, hn, hs⟩ := names_of_stat h
  obtain ⟨-, -, hnode⟩ := stat_eq_ok_iff.mp h
  refine ⟨n, d, hn, hs, ?_⟩
  rw [← hn.key, kind?_of_node? hnode]
  simp [Node.kind]

theorem admits_join {x : Bytes} (hx : Path.IsName x) (hcheck : (p.join x).check = .ok ())
    (hlen : x.length ≤ nameLimit) (h : t.leadsToDir p = true) (hk : t.kind? (x :: p.key) ≠ some .dir) :
    t.Admits (p.join x) := by
  obtain ⟨-, hw, hd⟩ := leadsToDir_iff.mp h
  exact ⟨x, p.key, names_join hx hcheck hlen hw hd, (p.last_join hx).2.2, hk⟩

/-- A directory lies below directories only. -/
theorem isDir_of_isUnder {k d : Key} (hd : t.kind? d = some .dir) (h : Key.isUnder k d = true) :
    t.kind? k = some .dir := by
  by_cases e : k = d
  · rwa [e]
  · exact isDir_of_suffix (List.isSuffixOf_iff_suffix.mp h) e (by rw [hd]; simp)

/-! ### Where the last piece of a path would go -/

/-- What comes of following a path to where its last piece would go. -/
inductive Spotted (t : Tree) (p : Path) : Except Fault Spot → Prop
  /-- The path cannot be followed that far. -/
  | fault (f : Fault) (hno : ∀ n d, ¬ t.Names p n d) : Spotted t p (.error f)
  /-- The last piece is no name. -/
  | noName (s : Spot) (hl : s.last = .here ∨ s.last = .up) (hlast : s.last = p.last)
      (hno : ∀ n d, ¬ t.Names p n d) : Spotted t p (.ok s)
  /-- The last piece is longer than a name may be. -/
  | tooLong (s : Spot) (n : Bytes) (hl : s.last = .name n) (hlook : s.lookup n = .error .invalidFilename)
      (hno : ∀ m d, ¬ t.Names p m d) : Spotted t p (.ok s)
  /-- The path names an entry, and its spot is that entry. -/
  | entry (s : Spot) (n : Bytes) (hl : s.last = .name n) (hslash : s.slash = p.endsInSlash)
      (hnames : t.Names p n s.dir) (hlook : s.lookup n = .ok (t.node? (n :: s.dir))) : Spotted t p (.ok s)

theorem spotted (t : Tree) (p : Path) : t.Spotted p (t.spot p) := by
  rcases hs : t.spot p with f | s
  · refine .fault f fun n d h => ?_
    obtain ⟨inner, -, h⟩ := h.spot
    rw [hs] at h
    cases h
  · obtain ⟨-, -, hd, hlast, hslash⟩ := spot_eq_ok_iff.mp hs
    have hno : (∀ n, s.last ≠ .name n) → ∀ n d, ¬ t.Names p n d := fun h n d hn => h n (hlast.trans hn.last)
    cases hl : s.last with
    | here => exact .noName s (Or.inl hl) hlast (hno (by simp [hl]))
    | up => exact .noName s (Or.inr hl) hlast (hno (by simp [hl]))
    | name n =>
      by_cases hlen : n.length ≤ nameLimit
      · exact .entry s n hl hslash (names_of_spot hs hl hlen) (lookup_eq hd hlen)
      · refine .tooLong s n hl (lookup_of_long hlen _) fun m d h => ?_
        have hm := h.last
        rw [← hlast, hl] at hm
        cases hm
        exact hlen h.length

/-! ### Plans -/

variable [FileSystem]

open FileSystem (shut readOnly volume Moves)

theorem planMakeDir_eq_ok_iff {c : Change} :
    t.planMakeDir p = .ok c ↔
      ∃ n d, t.Names p n d ∧ t.kind? (n :: d) = none ∧ shut d = false ∧ c = .makeDir (n :: d) := by
  unfold planMakeDir
  have h := t.spotted p
  generalize t.spot p = r at h ⊢
  cases h with
  | fault f hno => simp [hno]
  | noName s hl _ hno => rcases hl with hl | hl <;> simp [hl, hno]
  | tooLong s n hl hlook hno => simp [hl, hlook, hno]
  | entry s n hl _ hnames hlook =>
    have honly : (∃ m d, t.Names p m d ∧ t.kind? (m :: d) = none ∧ shut d = false ∧ c = .makeDir (m :: d)) ↔
        t.kind? (n :: s.dir) = none ∧ shut s.dir = false ∧ c = .makeDir (n :: s.dir) := by
      constructor
      · rintro ⟨m, d, hm, hk, hshut, hc⟩
        obtain ⟨rfl, rfl⟩ := names_inj hnames hm
        exact ⟨hk, hshut, hc⟩
      · rintro ⟨hk, hshut, hc⟩
        exact ⟨n, s.dir, hnames, hk, hshut, hc⟩
    rw [honly, ← node?_eq_none_iff]
    cases hshut : shut s.dir <;> rcases hnode : t.node? (n :: s.dir) with _ | node <;>
      simp [hl, hlook, hnode, hshut, @eq_comm _ c]

/-- A directory is not made where something stands already. -/
theorem planMakeDir_of_exists {n : Bytes} {d : Key} (h : t.Names p n d) (hk : t.kind? (n :: d) ≠ none) :
    t.planMakeDir p = .error .alreadyExists := by
  obtain ⟨inner, hd, hs⟩ := h.spot
  have hnode : t.node? (n :: d) ≠ none := by rwa [ne_eq, node?_eq_none_iff]
  obtain ⟨node, hnode⟩ := Option.ne_none_iff_exists'.mp hnode
  simp [planMakeDir, hs, Spot.lookup, lookup_eq hd h.length, hnode]

/-- A new file can be made at a path, or the one that is there can be written. -/
structure Opens (t : Tree) (p : Path) : Prop where
  made : t.kind? p.key = none → shut p.key.tail = false
  written : t.kind? p.key ≠ none → readOnly p.key.tail = false

theorem Opens.of_eq {u : Tree} (h : t.Opens p) (heq : u.kind? p.key = t.kind? p.key) : u.Opens p where
  made hnone := h.made (heq ▸ hnone)
  written hsome := h.written (heq ▸ hsome)

theorem planCreate_eq_ok_iff {k : Key} : t.planCreate p = .ok k ↔ t.Admits p ∧ t.Opens p ∧ k = p.key := by
  unfold planCreate
  have h := t.spotted p
  generalize t.spot p = r at h ⊢
  cases h with
  | fault f hno => simp [not_admits hno]
  | noName s hl _ hno => rcases hl with hl | hl <;> simp [hl, not_admits hno]
  | tooLong s n hl hlook hno => cases hslash : s.slash <;> simp [hl, hlook, hslash, not_admits hno]
  | entry s n hl hslash hnames hlook =>
    have hopens : t.Opens p ↔ (t.kind? (n :: s.dir) = none → shut s.dir = false) ∧
        (t.kind? (n :: s.dir) ≠ none → readOnly s.dir = false) := by
      constructor
      · rintro ⟨hmade, hwritten⟩
        rw [hnames.key] at hmade hwritten
        exact ⟨hmade, hwritten⟩
      · rintro ⟨hmade, hwritten⟩
        constructor <;> rwa [hnames.key]
    rw [hnames.admits_iff, hopens, hnames.key, ← hslash]
    cases hs : s.slash with
    | true => simp [hl, hs]
    | false =>
      cases hshut : shut s.dir <;> cases hread : readOnly s.dir <;>
        rcases hnode : t.node? (n :: s.dir) with _ | ⟨content | inner⟩ <;>
        simp [hl, hs, hlook, hnode, hshut, hread, kind?, Node.kind, @eq_comm _ k]

theorem planUnlink_eq_ok_iff {c : Change} : t.planUnlink p = .ok c ↔
    t.Admits p ∧ (∃ content, t.kind? p.key = some (.file content)) ∧ shut p.key.tail = false ∧
      c = .remove p.key := by
  unfold planUnlink
  have h := t.spotted p
  generalize t.spot p = r at h ⊢
  cases h with
  | fault f hno => simp [not_admits hno]
  | noName s hl _ hno => rcases hl with hl | hl <;> simp [hl, not_admits hno]
  | tooLong s n hl hlook hno => simp [hl, hlook, not_admits hno]
  | entry s n hl hslash hnames hlook =>
    rw [hnames.admits_iff, hnames.key, ← hslash]
    cases hshut : shut s.dir <;> rcases hnode : t.node? (n :: s.dir) with _ | ⟨content | inner⟩ <;>
      cases hs : s.slash <;> simp [hl, hs, hlook, hnode, hshut, kind?, Node.kind, @eq_comm _ c]

/-- A file takes the key of another entry unless that one is a directory, one of the two paths has a slash at the
end or a directory is shut. -/
theorem planRenameAt_eq_ok_iff {s r : Spot} {n m content : Bytes} {c : Change}
    (hfile : t.kind? (n :: s.dir) = some (.file content)) (hs : t.kind? s.dir = some .dir)
    (hr : t.kind? r.dir = some .dir) (hlook : s.lookup n = .ok (t.node? (n :: s.dir)))
    (hlook' : r.lookup m = .ok (t.node? (m :: r.dir))) :
    planRenameAt s r n m = .ok c ↔ (s.slash = false ∧ r.slash = false) ∧ t.kind? (m :: r.dir) ≠ some .dir ∧
      (n :: s.dir = m :: r.dir ∨ shut s.dir = false ∧ shut r.dir = false) ∧
      c = .rename (n :: s.dir) (m :: r.dir) := by
  -- no directory lies below a file, and a directory that lies below the new key makes it one
  have hbelow : Key.isUnder (n :: s.dir) r.dir = false := by
    by_contra h
    have hdir := isDir_of_isUnder hr (by simpa using h)
    rw [hfile] at hdir
    cases hdir
  have habove : Key.isUnder (m :: r.dir) s.dir = true → t.kind? (m :: r.dir) = some .dir := isDir_of_isUnder hs
  unfold planRenameAt
  simp only [hlook, node?_of_kind?_file hfile, hlook', hbelow, isFile, Bool.true_and, Bool.false_eq_true, if_false,
    ok_bind, pure_eq_ok, throw_eq_error]
  by_cases hslash : (s.slash || r.slash) = true
  · have hno : ¬ (s.slash = false ∧ r.slash = false) := by simpa [← Bool.or_eq_false_iff] using hslash
    simp [hslash, hno]
  · have hyes : s.slash = false ∧ r.slash = false := by simpa using hslash
    simp only [hyes, true_and]
    by_cases hab : Key.isUnder (m :: r.dir) s.dir = true
    · simp [hab, habove hab]
    · by_cases hsame : n :: s.dir = m :: r.dir
      · have hk : t.kind? (m :: r.dir) ≠ some .dir := by rw [← hsame, hfile]; simp
        simp [hab, hsame, hk, @eq_comm _ c]
      · rcases htarget : t.node? (m :: r.dir) with _ | ⟨old | inner⟩ <;> cases shut s.dir <;> cases shut r.dir <;>
          simp [hab, hsame, htarget, replaceFault?, kind?, Node.kind, @eq_comm _ c]

/-- A file is renamed exactly if its own path names it without a slash at the end, it can be put at the
new one and nothing keeps it from being moved there. -/
theorem planRename_eq_ok_iff {c : Change} {content : Bytes}
    (hfile : t.kind? p.key = some (.file content)) :
    t.planRename p q = .ok c ↔ t.Admits p ∧ t.Admits q ∧ Moves p.key q.key ∧ c = .rename p.key q.key := by
  unfold planRename
  by_cases hzero : q.bytes.contains 0 = true
  · have hno : ∀ m e, ¬ t.Names q m e := fun m e h =>
      Path.zero_notMem_of_check h.check (List.contains_iff_mem.mp hzero)
    simp [List.contains_iff_mem.mp hzero, not_admits hno]
  · rw [if_neg hzero]
    have hp := t.spotted p
    have hq := t.spotted q
    generalize t.spot p = r at hp ⊢
    generalize t.spot q = r' at hq ⊢
    cases hp with
    | fault f hno => simp [not_admits hno]
    | noName s hl _ hno =>
      rcases r' with f | s'
      · simp [not_admits hno]
      · by_cases hvol : volume s.dir = volume s'.dir <;> rcases hl with hl | hl <;> simp [hl, hvol, not_admits hno]
    | tooLong s n hl hlook hno =>
      rcases r' with f | s'
      · simp [not_admits hno]
      · by_cases hvol : volume s.dir = volume s'.dir <;> cases hl' : s'.last <;>
          simp [hl, hl', hvol, planRenameAt, hlook, not_admits hno]
    | entry s n hl hslash hnames hlook =>
      rw [hnames.key] at hfile
      cases hq with
      | fault f hno => simp [not_admits hno]
      | noName s' hl' _ hno =>
        by_cases hvol : volume s.dir = volume s'.dir <;> rcases hl' with hl' | hl' <;> simp [hl', hvol, not_admits hno]
      | tooLong s' m hl' hlook' hno =>
        by_cases hvol : volume s.dir = volume s'.dir <;>
          simp [hl, hl', hvol, planRenameAt, hlook, node?_of_kind?_file hfile, hlook', not_admits hno]
      | entry s' m hl' hslash' hnames' hlook' =>
        rw [hnames.admits_iff, hnames'.admits_iff, hnames.key, hnames'.key]
        by_cases hvol : volume s.dir = volume s'.dir
        · have hmoves : Moves (n :: s.dir) (m :: s'.dir) ↔
              (n :: s.dir = m :: s'.dir ∨ shut s.dir = false ∧ shut s'.dir = false) := by
            simp [Moves, FileSystem.Between, hvol]
          simp only [hl, hl', ok_bind, hvol, ne_eq, not_true_eq_false, if_false]
          rw [planRenameAt_eq_ok_iff hfile hnames.dir hnames'.dir hlook hlook', hmoves, hslash, hslash', hfile]
          simp [and_assoc]
        · -- an entry does not take its own place on another volume
          have hmoves : ¬ Moves (n :: s.dir) (m :: s'.dir) := by
            rintro (h | h)
            · exact hvol (by rw [(List.cons.inj h).2])
            · exact hvol h.2.2
          simp [hvol, hmoves]

end ContentStore.Tree
