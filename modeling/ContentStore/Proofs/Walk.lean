import ContentStore.Proofs.Kind

/-!
# Following a path by its keys

There are no links in a tree, so the key that a path can lead to, `Path.key`, depends on its spelling
alone.  The tree only decides whether the path can be followed: `Tree.walk` follows pieces on the
kinds of a tree, and `followAll_eq_walk` says that it answers as `Tree.followAll` does.

* a path that can be followed in a tree can be followed in any tree that still has its directories and
  its end: `walk_mono`;
* what a path leads to depends only on the keys that it passes: `walk_congr`;
* what `Tree.stat`, `Tree.list`, `Tree.canonical?` and `Tree.spot` answer: `stat_eq_ok_iff`,
  `list_eq_ok_iff`, `canonical?_eq_some_iff`, `spot_eq_ok_iff`.
-/

namespace ContentStore

section Results

variable {ε α β : Type}

@[simp] theorem ok_bind (x : α) (f : α → Except ε β) : (Except.ok x >>= f) = f x := rfl

@[simp] theorem error_bind (e : ε) (f : α → Except ε β) : (Except.error e >>= f) = .error e := rfl

@[simp] theorem pure_eq_ok (x : α) : (pure x : Except ε α) = .ok x := rfl

@[simp] theorem throw_eq_error (e : ε) : (throw e : Except ε α) = .error e := rfl

end Results

namespace Key

/-- The key that a piece leads to from a key, if it leads anywhere. -/
def step (k : Key) (piece : Bytes) : Key :=
  if Path.isIdle piece then k else if piece = upPiece then k.tail else piece :: k

/-- The keys that are passed when pieces are followed from a key, which is the first of them. -/
def visits (k : Key) : List Bytes → List Key
  | [] => [k]
  | piece :: pieces => k :: (k.step piece).visits pieces

theorem mem_visits_self (k : Key) (pieces : List Bytes) : k ∈ k.visits pieces := by
  cases pieces <;> simp [visits]

theorem mem_visits_end (k : Key) (pieces : List Bytes) : pieces.foldl step k ∈ k.visits pieces := by
  induction pieces generalizing k with
  | nil => simp [visits]
  | cons piece pieces ih =>
    rw [List.foldl_cons, visits]
    exact List.mem_cons_of_mem _ (ih _)

theorem visits_append (k : Key) (ps qs : List Bytes) :
    ∀ j, j ∈ k.visits (ps ++ qs) ↔ j ∈ k.visits ps ∨ j ∈ (ps.foldl step k).visits qs := by
  intro j
  induction ps generalizing k with
  | nil =>
    simp only [List.nil_append, List.foldl_nil, visits, List.mem_singleton]
    constructor
    · exact Or.inr
    · rintro (rfl | h)
      · exact mem_visits_self _ _
      · exact h
  | cons p ps ih => simp only [List.cons_append, visits, List.mem_cons, ih, List.foldl_cons, or_assoc]

end Key

namespace Path

/-- The key that a path leads to, if it leads anywhere. -/
def key (p : Path) : Key := p.pieces.foldl Key.step []

/-- The keys that a path passes, from the top to its end. -/
def visits (p : Path) : List Key := Key.visits [] p.pieces

theorem key_mem_visits (p : Path) : p.key ∈ p.visits := Key.mem_visits_end [] p.pieces

end Path

namespace Tree

def stepFrom (t : Tree) (k : Key) (piece : Bytes) : Except Fault Key :=
  if t.kind? k ≠ some .dir then .error .notADirectory
  else if Path.isIdle piece then .ok k
  else if piece = upPiece then .ok k.tail
  else if nameLimit < piece.length then .error .invalidFilename
  else if t.kind? (piece :: k) = none then .error .notFound
  else .ok (piece :: k)

def walk (t : Tree) (k : Key) (pieces : List Bytes) : Except Fault Key := pieces.foldlM t.stepFrom k

theorem walk_cons (t : Tree) (k : Key) (piece : Bytes) (pieces : List Bytes) :
    t.walk k (piece :: pieces) = (t.stepFrom k piece).bind fun j => t.walk j pieces := by
  rw [walk, List.foldlM_cons]
  rfl

theorem walk_append (t : Tree) (k : Key) (ps qs : List Bytes) :
    t.walk k (ps ++ qs) = (t.walk k ps).bind fun j => t.walk j qs := by
  rw [walk, List.foldlM_append]
  rfl

theorem walk_concat (t : Tree) (k : Key) (ps : List Bytes) (piece : Bytes) :
    t.walk k (ps ++ [piece]) = (t.walk k ps).bind fun j => t.stepFrom j piece := by
  rw [walk_append]
  congr 1
  funext j
  rw [walk_cons]
  cases t.stepFrom j piece <;> rfl

theorem length_le_of_idle {piece : Bytes} (h : Path.isIdle piece = true) : piece.length ≤ nameLimit := by
  simp only [Path.isIdle, Bool.or_eq_true, decide_eq_true_eq] at h
  rcases h with rfl | rfl <;> decide

theorem stepFrom_eq_ok_iff {t : Tree} {k j : Key} {piece : Bytes} :
    t.stepFrom k piece = .ok j ↔ t.kind? k = some .dir ∧ piece.length ≤ nameLimit ∧
      j = k.step piece ∧ t.kind? j ≠ none := by
  unfold stepFrom Key.step
  by_cases hk : t.kind? k = some .dir
  · have htail : t.kind? k.tail = some .dir := isDir_tail (by rw [hk]; simp)
    by_cases hi : Path.isIdle piece = true
    · have hlen := length_le_of_idle hi
      simp only [hk, hi, if_true, ne_eq, not_true, if_false]
      grind
    · by_cases hu : piece = upPiece
      · have hlen : piece.length ≤ nameLimit := by rw [hu]; decide
        simp only [hk, hu, if_true, ne_eq, not_true, if_false]
        grind
      · simp only [hk, hi, hu, ne_eq, not_true, if_false]
        grind
  · simp [hk]

theorem stepFrom_eq_ok {t : Tree} {k : Key} {piece : Bytes} (hk : t.kind? k = some .dir)
    (hlen : piece.length ≤ nameLimit) (h : t.kind? (k.step piece) ≠ none) :
    t.stepFrom k piece = .ok (k.step piece) :=
  stepFrom_eq_ok_iff.mpr ⟨hk, hlen, rfl, h⟩

theorem walk_cons_eq_ok_iff {t : Tree} {k j : Key} {piece : Bytes} {pieces : List Bytes} :
    t.walk k (piece :: pieces) = .ok j ↔ t.kind? k = some .dir ∧ piece.length ≤ nameLimit ∧
      t.kind? (k.step piece) ≠ none ∧ t.walk (k.step piece) pieces = .ok j := by
  rw [walk_cons]
  constructor
  · intro h
    rcases hs : t.stepFrom k piece with f | i
    · rw [hs] at h
      cases h
    · obtain ⟨hk, hlen, rfl, hi⟩ := stepFrom_eq_ok_iff.mp hs
      rw [hs] at h
      exact ⟨hk, hlen, hi, h⟩
  · rintro ⟨hk, hlen, hs, h⟩
    rw [stepFrom_eq_ok hk hlen hs]
    exact h

theorem key_of_walk {t : Tree} {k j : Key} {pieces : List Bytes} (h : t.walk k pieces = .ok j) :
    j = pieces.foldl Key.step k := by
  induction pieces generalizing k with
  | nil => cases h; rfl
  | cons piece pieces ih => exact ih (walk_cons_eq_ok_iff.mp h).2.2.2

/-- All keys on a way but its end are directories. -/
theorem isDir_of_mem_visits {t : Tree} {k j : Key} {pieces : List Bytes}
    (h : t.walk k pieces = .ok j) {i : Key} (hi : i ∈ k.visits pieces) :
    i = j ∨ t.kind? i = some .dir := by
  induction pieces generalizing k with
  | nil =>
    cases h
    exact Or.inl (List.mem_singleton.mp hi)
  | cons piece pieces ih =>
    obtain ⟨hk, -, -, hw⟩ := walk_cons_eq_ok_iff.mp h
    rcases List.mem_cons.mp hi with rfl | hi
    · exact Or.inr hk
    · exact ih hw hi

theorem walk_mono {t u : Tree} {k j : Key} {pieces : List Bytes} (h : t.walk k pieces = .ok j)
    (hdir : ∀ i ∈ k.visits pieces, t.kind? i = some .dir → u.kind? i = some .dir)
    (hend : u.kind? j ≠ none) : u.walk k pieces = .ok j := by
  induction pieces generalizing k with
  | nil => exact h
  | cons piece pieces ih =>
    obtain ⟨hk, hlen, hs, hw⟩ := walk_cons_eq_ok_iff.mp h
    have ih := ih hw fun i hi => hdir i (List.mem_cons_of_mem _ hi)
    refine walk_cons_eq_ok_iff.mpr ⟨hdir k List.mem_cons_self hk, hlen, ?_, ih⟩
    rcases isDir_of_mem_visits hw (Key.mem_visits_self _ _) with e | e
    · exact e ▸ hend
    · rw [hdir _ (List.mem_cons_of_mem _ (Key.mem_visits_self _ _)) e]
      simp

theorem stepFrom_congr {t u : Tree} {k : Key} (piece : Bytes) (hk : t.kind? k = u.kind? k)
    (hs : t.kind? (k.step piece) = u.kind? (k.step piece)) :
    t.stepFrom k piece = u.stepFrom k piece := by
  unfold stepFrom
  unfold Key.step at hs
  grind

theorem walk_congr {t u : Tree} {k : Key} {pieces : List Bytes}
    (h : ∀ i ∈ k.visits pieces, t.kind? i = u.kind? i) : t.walk k pieces = u.walk k pieces := by
  induction pieces generalizing k with
  | nil => rfl
  | cons piece pieces ih =>
    have hs : ∀ i ∈ (k.step piece).visits pieces, t.kind? i = u.kind? i :=
      fun i hi => h i (List.mem_cons_of_mem _ hi)
    rw [walk_cons, walk_cons, stepFrom_congr piece (h k List.mem_cons_self)
      (hs _ (Key.mem_visits_self _ _))]
    rcases hu : u.stepFrom k piece with f | j
    · rfl
    · obtain ⟨-, -, rfl, -⟩ := stepFrom_eq_ok_iff.mp hu
      exact ih hs

/-! ### Trails -/

/-- A trail shows what the tree has at its keys. -/
def Shows (t : Tree) : Trail → Prop
  | [] => True
  | (name, node) :: rest => t.node? (name :: Trail.key rest) = some node ∧ t.Shows rest

theorem shows_nil {t : Tree} : t.Shows [] := trivial

theorem node?_of_shows {t : Tree} {trail : Trail} (h : t.Shows trail) :
    t.node? trail.key = some (trail.node t.top) := by
  cases trail with
  | nil => rfl
  | cons e rest => exact h.1

theorem shows_tail {t : Tree} {trail : Trail} (h : t.Shows trail) : t.Shows trail.tail := by
  cases trail with
  | nil => trivial
  | cons e rest => exact h.2

theorem follow_eq_stepFrom {t : Tree} {trail : Trail} (h : t.Shows trail) (piece : Bytes) :
    (t.follow trail piece).map Trail.key = t.stepFrom trail.key piece ∧
      ∀ next, t.follow trail piece = .ok next → t.Shows next := by
  have hnode := node?_of_shows h
  unfold follow stepFrom
  rcases hn : Trail.node t.top trail with content | inner
  · rw [hn] at hnode
    simp [kind?, hnode, Node.kind, Except.map]
  · rw [hn] at hnode
    have hkind : t.kind? trail.key = some .dir := kind?_of_node? hnode
    have hchild : t.node? (piece :: trail.key) = inner.find? piece := by
      rw [node?, hnode]
      rfl
    have hkey : Trail.key trail.tail = trail.key.tail := by simp [Trail.key]
    by_cases hi : Path.isIdle piece = true
    · simp [hkind, hi, Except.map, h]
    · by_cases hu : piece = upPiece
      · subst hu
        have hi' : Path.isIdle upPiece = false := by decide
        simp [hkind, hi', Except.map, hkey, shows_tail h]
      · have hnone : t.kind? (piece :: trail.key) = none ↔ inner.find? piece = none := by
          rw [← node?_eq_none_iff, hchild]
        by_cases hlen : nameLimit < piece.length
        · simp [hkind, hi, hu, Listing.lookup, hlen, Except.map]
        · rcases hf : inner.find? piece with _ | node
          · simp [hkind, hi, hu, Listing.lookup, hlen, hf, hnone, Except.map]
          · have hcons : Trail.key ((piece, node) :: trail) = piece :: trail.key := rfl
            rw [hf] at hchild
            simp [hkind, hi, hu, Listing.lookup, hlen, hf, hnone, Except.map, hcons, Shows, hchild, h]

theorem foldlM_follow_eq_walk {t : Tree} {trail : Trail} (h : t.Shows trail) (pieces : List Bytes) :
    (pieces.foldlM t.follow trail).map Trail.key = t.walk trail.key pieces ∧
      ∀ last, pieces.foldlM t.follow trail = .ok last → t.Shows last := by
  induction pieces generalizing trail with
  | nil =>
    refine ⟨rfl, fun last hlast => ?_⟩
    cases hlast
    exact h
  | cons piece pieces ih =>
    obtain ⟨hkey, hshows⟩ := follow_eq_stepFrom h piece
    rw [walk_cons, ← hkey, List.foldlM_cons]
    rcases hf : t.follow trail piece with f | next
    · exact ⟨rfl, fun last hlast => by cases hlast⟩
    · exact ih (hshows next hf)

/-- **Paths by keys.**  Following pieces gives the key that a walk on the kinds gives, and what stands
there. -/
theorem followAll_eq_walk (t : Tree) (pieces : List Bytes) :
    (t.followAll pieces).map Trail.key = t.walk [] pieces :=
  (foldlM_follow_eq_walk shows_nil pieces).1

theorem node?_of_followAll {t : Tree} {pieces : List Bytes} {trail : Trail}
    (h : t.followAll pieces = .ok trail) : t.node? trail.key = some (trail.node t.top) :=
  node?_of_shows ((foldlM_follow_eq_walk shows_nil pieces).2 trail h)

theorem walk_of_followAll {t : Tree} {pieces : List Bytes} {trail : Trail}
    (h : t.followAll pieces = .ok trail) : t.walk [] pieces = .ok trail.key := by
  rw [← followAll_eq_walk, h]
  rfl

theorem followAll_of_walk {t : Tree} {pieces : List Bytes} {k : Key} (h : t.walk [] pieces = .ok k) :
    ∃ trail, t.followAll pieces = .ok trail ∧ trail.key = k := by
  rw [← followAll_eq_walk] at h
  rcases hf : t.followAll pieces with f | trail
  · rw [hf] at h
    cases h
  · rw [hf] at h
    cases h
    exact ⟨trail, rfl, rfl⟩

theorem followAll_eq_error_iff {t : Tree} {pieces : List Bytes} {f : Fault} :
    t.followAll pieces = .error f ↔ t.walk [] pieces = .error f := by
  rw [← followAll_eq_walk]
  rcases t.followAll pieces with g | trail <;> simp [Except.map]

/-! ### What a path leads to -/

theorem stat_eq_ok_iff {t : Tree} {p : Path} {node : Node} :
    t.stat p = .ok node ↔
      p.check = .ok () ∧ t.walk [] p.pieces = .ok p.key ∧ t.node? p.key = some node := by
  unfold stat resolve
  rcases hc : p.check with f | u
  · simp
  · rcases hf : t.followAll p.pieces with f | trail
    · rw [followAll_eq_error_iff.mp hf]
      simp
    · have hw := walk_of_followAll hf
      rw [hw, ← show trail.key = p.key from key_of_walk hw, node?_of_followAll hf]
      simp

theorem stat_eq_error_iff {t : Tree} {p : Path} {f : Fault} :
    t.stat p = .error f ↔ p.check = .error f ∨ p.check = .ok () ∧ t.walk [] p.pieces = .error f := by
  unfold stat resolve
  rcases hc : p.check with g | u
  · simp
  · rw [← followAll_eq_error_iff]
    rcases hf : t.followAll p.pieces with g | trail <;> simp

theorem list_eq_ok_iff {t : Tree} {p : Path} {inner : Listing} :
    t.list p = .ok inner ↔ t.stat p = .ok (.dir inner) := by
  unfold list
  rcases t.stat p with f | ⟨content | i⟩ <;>
    simp

theorem read_eq_ok_iff {t : Tree} {p : Path} {content : Bytes} :
    t.read p = .ok content ↔ t.stat p = .ok (.file content) := by
  unfold read
  rcases t.stat p with f | ⟨c | i⟩ <;>
    simp

theorem leadsToDir_iff {t : Tree} {p : Path} :
    t.leadsToDir p = true ↔
      p.check = .ok () ∧ t.walk [] p.pieces = .ok p.key ∧ t.kind? p.key = some .dir := by
  unfold leadsToDir
  rcases hs : t.stat p with f | ⟨c | inner⟩
  · simp only [Bool.false_eq_true, false_iff]
    rintro ⟨hc, hw, hk⟩
    obtain ⟨inner, hn⟩ := node?_of_kind?_dir hk
    rw [stat_eq_ok_iff.mpr ⟨hc, hw, hn⟩] at hs
    cases hs
  · obtain ⟨-, -, hn⟩ := stat_eq_ok_iff.mp hs
    simp [kind?_of_node? hn, Node.kind]
  · obtain ⟨hc, hw, hn⟩ := stat_eq_ok_iff.mp hs
    simp [hc, hw, kind?_of_node? hn, Node.kind]

theorem isDir_of_leadsToDir {t : Tree} {p : Path} (h : t.leadsToDir p = true) {k : Key} (hk : k ∈ p.visits) :
    t.kind? k = some .dir := by
  obtain ⟨-, hwalk, hdir⟩ := leadsToDir_iff.mp h
  rcases isDir_of_mem_visits hwalk hk with rfl | hpassed
  · exact hdir
  · exact hpassed

theorem canonical?_eq_some {t : Tree} {p : Path} {k : Key} (h : t.canonical? p = some k) :
    k = p.key ∧ t.walk [] p.pieces = .ok k := by
  unfold canonical? at h
  split at h
  · cases h
  · rw [followAll_eq_walk] at h
    rcases hw : t.walk [] p.pieces with f | j
    · rw [hw] at h
      cases h
    · rw [hw] at h
      cases h
      exact ⟨key_of_walk hw, rfl⟩

theorem key_eq_of_sameFile {t : Tree} {p q : Path} (h : t.sameFile p q = true) : p.key = q.key := by
  unfold sameFile at h
  split at h
  · next k l hk hl =>
    rw [← (canonical?_eq_some hk).1, ← (canonical?_eq_some hl).1]
    exact of_decide_eq_true h
  · cases h

/-- A path that can be followed resolves to its key. -/
theorem canonical?_of_walk {t : Tree} {p : Path} (hne : p ≠ .blank) (h : t.walk [] p.pieces = .ok p.key) :
    t.canonical? p = some p.key := by
  obtain ⟨trail, htrail, hkey⟩ := followAll_of_walk h
  have hbytes : p.bytes ≠ [] := fun e => hne (congrArg Path.mk e)
  rw [canonical?, if_neg hbytes, htrail]
  exact congrArg some hkey

theorem sameFile_of_canonical {t : Tree} {p q : Path} {k : Key} (hp : t.canonical? p = some k)
    (hq : t.canonical? q = some k) : t.sameFile p q = true := by
  rw [sameFile, hp, hq]
  exact decide_eq_true rfl

theorem canonical?_of_stat {t : Tree} {p : Path} {node : Node} (h : t.stat p = .ok node) :
    t.canonical? p = some p.key := by
  obtain ⟨hcheck, hwalk, -⟩ := stat_eq_ok_iff.mp h
  refine canonical?_of_walk ?_ hwalk
  rintro rfl
  cases hcheck

theorem sameFile_of_stat {t : Tree} {p q : Path} {m n : Node} (hp : t.stat p = .ok m) (hq : t.stat q = .ok n)
    (h : p.key = q.key) : t.sameFile p q = true :=
  sameFile_of_canonical (canonical?_of_stat hp) (h ▸ canonical?_of_stat hq)

theorem length_le_of_walk {t : Tree} {k d : Key} {n : Bytes} {pieces : List Bytes}
    (h : t.walk k pieces = .ok (n :: d)) (hk : k ≠ n :: d) (hfile : t.kind? (n :: d) ≠ some .dir) :
    n.length ≤ nameLimit := by
  induction pieces generalizing k with
  | nil => exact absurd (Except.ok.inj h) hk
  | cons piece pieces ih =>
    obtain ⟨hdir, hlen, -, hrest⟩ := walk_cons_eq_ok_iff.mp h
    by_cases hstep : k.step piece = n :: d
    · -- this is the step that reaches the file, and it goes down
      unfold Key.step at hstep
      split at hstep
      · exact absurd (hstep ▸ hdir) hfile
      · split at hstep
        · exact absurd (hstep ▸ isDir_tail (by rw [hdir]; simp)) hfile
        · rwa [← (List.cons.inj hstep).1]
    · exact ih hrest hstep

end Tree

/-! ### Where the last piece of a path would go -/

namespace Path

/-- The pieces before the last one that is not blank. -/
def before (p : Path) : List Bytes := (Tree.lastOf p.pieces.reverse).1

/-- What the last piece that is not blank is. -/
def last (p : Path) : Last := (Tree.lastOf p.pieces.reverse).2.1

/-- Whether a slash follows that piece. -/
def endsInSlash (p : Path) : Bool := (Tree.lastOf p.pieces.reverse).2.2

end Path

/-- The key that a last piece leads to from a directory. -/
def Last.from (d : Key) : Last → Key
  | .here => d
  | .up => d.tail
  | .name n => n :: d

theorem Key.step_eq_from (k : Key) (piece : Bytes) (h : piece ≠ []) :
    k.step piece = (if piece = [Bytes.dot] then Last.here
      else if piece = upPiece then Last.up else Last.name piece).from k := by
  unfold Key.step
  by_cases hd : piece = [Bytes.dot]
  · simp [hd, Path.isIdle, Last.from]
  · by_cases hu : piece = upPiece
    · have hidle : Path.isIdle upPiece = false := by decide
      simp [hu, hidle, Last.from, show upPiece ≠ [Bytes.dot] by decide]
    · simp [hd, hu, h, Path.isIdle, Last.from]

namespace Tree

theorem lastOf_blank (rs : List Bytes) :
    (lastOf ([] :: rs)).1 = (lastOf rs).1 ∧ (lastOf ([] :: rs)).2.1 = (lastOf rs).2.1 := by
  unfold lastOf
  rw [List.dropWhile_cons_of_pos (by simp)]
  rcases rs.dropWhile (· = []) with _ | ⟨piece, before⟩ <;> exact ⟨rfl, rfl⟩

theorem lastOf_of_ne {piece : Bytes} (h : piece ≠ []) (rs : List Bytes) :
    lastOf (piece :: rs) = (rs.reverse, if piece = [Bytes.dot] then .here else if piece = upPiece then .up
      else .name piece, false) := by
  unfold lastOf
  rw [List.dropWhile_cons_of_neg (by simpa using h)]
  simp [h]

theorem foldl_step_lastOf (rs : List Bytes) :
    rs.reverse.foldl Key.step [] = (lastOf rs).2.1.from ((lastOf rs).1.foldl Key.step []) := by
  induction rs with
  | nil => rfl
  | cons piece rs ih =>
    rw [List.reverse_cons, List.foldl_append, List.foldl_cons, List.foldl_nil]
    by_cases hp : piece = []
    · subst hp
      rw [(lastOf_blank rs).1, (lastOf_blank rs).2, ← ih]
      rfl
    · rw [lastOf_of_ne hp]
      exact Key.step_eq_from _ piece hp

end Tree

theorem Path.key_eq_from (p : Path) : p.key = p.last.from (p.before.foldl Key.step []) := by
  have h := Tree.foldl_step_lastOf p.pieces.reverse
  rwa [List.reverse_reverse] at h

namespace Tree

theorem spot_eq_ok_iff {t : Tree} {p : Path} {s : Spot} :
    t.spot p = .ok s ↔ p.check = .ok () ∧ t.walk [] p.before = .ok s.dir ∧
      t.node? s.dir = some (.dir s.inner) ∧ s.last = p.last ∧ s.slash = p.endsInSlash := by
  unfold spot
  rcases hc : p.check with f | u
  · simp
  · simp only [Path.before, Path.last, Path.endsInSlash]
    rcases hf : t.followAll (lastOf p.pieces.reverse).1 with f | trail
    · rw [followAll_eq_error_iff.mp hf]
      simp
    · rw [walk_of_followAll hf]
      have hn := node?_of_followAll hf
      rcases hnode : Trail.node t.top trail with content | inner
      · rw [hnode] at hn
        simp only [hnode, ok_bind, pure_eq_ok, throw_eq_error]
        grind
      · rw [hnode] at hn
        obtain ⟨dir, i, last, slash⟩ := s
        simp only [hnode, ok_bind, pure_eq_ok, throw_eq_error]
        grind

/-- A path names an entry of a directory, which need not be there. -/
structure Names (t : Tree) (p : Path) (n : Bytes) (d : Key) : Prop where
  check : p.check = .ok ()
  last : p.last = .name n
  walk : t.walk [] p.before = .ok d
  dir : t.kind? d = some .dir
  length : n.length ≤ nameLimit

theorem Names.key {t : Tree} {p : Path} {n : Bytes} {d : Key} (h : t.Names p n d) : p.key = n :: d := by
  rw [p.key_eq_from, h.last, ← key_of_walk h.walk]
  rfl

theorem Names.spot {t : Tree} {p : Path} {n : Bytes} {d : Key} (h : t.Names p n d) :
    ∃ inner, t.node? d = some (.dir inner) ∧
      t.spot p = .ok ⟨d, inner, .name n, p.endsInSlash⟩ := by
  obtain ⟨inner, hinner⟩ := node?_of_kind?_dir h.dir
  exact ⟨inner, hinner, spot_eq_ok_iff.mpr ⟨h.check, h.walk, hinner, h.last.symm, rfl⟩⟩

theorem names_of_spot {t : Tree} {p : Path} {s : Spot} {n : Bytes} (h : t.spot p = .ok s)
    (hlast : s.last = .name n) (hn : n.length ≤ nameLimit) : t.Names p n s.dir := by
  obtain ⟨hc, hw, hd, hl, -⟩ := spot_eq_ok_iff.mp h
  exact ⟨hc, hl ▸ hlast, hw, kind?_of_node? hd, hn⟩

theorem lastOf_name {rs : List Bytes} {n : Bytes} (h : (lastOf rs).2.1 = .name n) :
    ∃ blanks, (∀ b ∈ blanks, b = []) ∧ rs.reverse = (lastOf rs).1 ++ n :: blanks ∧
      Path.isIdle n = false ∧ n ≠ upPiece ∧ ((lastOf rs).2.2 = false → blanks = []) := by
  induction rs with
  | nil => cases h
  | cons piece rs ih =>
    by_cases hp : piece = []
    · subst hp
      rw [(lastOf_blank rs).2] at h
      obtain ⟨blanks, hb, hrs, hi, hu, -⟩ := ih h
      refine ⟨blanks ++ [[]], fun b hmem => ?_, ?_, hi, hu, fun hs => ?_⟩
      · rcases List.mem_append.mp hmem with hmem | hmem
        · exact hb b hmem
        · exact List.mem_singleton.mp hmem
      · rw [List.reverse_cons, hrs, (lastOf_blank rs).1]
        simp
      · unfold lastOf at h hs
        rw [List.dropWhile_cons_of_pos (by simp)] at hs
        rcases hd : rs.dropWhile (fun b => decide (b = [])) with _ | ⟨x, xs⟩
        · rw [hd] at h
          cases h
        · rw [hd] at hs
          simp at hs
    · rw [lastOf_of_ne hp] at h ⊢
      by_cases hdot : piece = [Bytes.dot]
      · simp [hdot] at h
      · by_cases hup : piece = upPiece
        · simp [hup, show upPiece ≠ [Bytes.dot] by decide] at h
        · have hn : piece = n := by simpa [hdot, hup] using h
          subst hn
          exact ⟨[], by simp, by simp, by simp [Path.isIdle, hp, hdot], hup, by simp⟩

theorem pieces_of_last {p : Path} {n : Bytes} (h : p.last = .name n) :
    ∃ blanks, (∀ b ∈ blanks, b = []) ∧ p.pieces = p.before ++ n :: blanks ∧
      Path.isIdle n = false ∧ n ≠ upPiece ∧ (p.endsInSlash = false → blanks = []) := by
  have := lastOf_name h
  rwa [List.reverse_reverse] at this

theorem walk_blanks {t : Tree} {k : Key} {blanks : List Bytes} (h : ∀ b ∈ blanks, b = [])
    (hk : t.kind? k = some .dir) : t.walk k blanks = .ok k := by
  induction blanks with
  | nil => rfl
  | cons b blanks ih =>
    have hb := h b List.mem_cons_self
    subst hb
    refine walk_cons_eq_ok_iff.mpr ⟨hk, by decide, ?_, ih fun c hc => h c (List.mem_cons_of_mem _ hc)⟩
    simp [Key.step, Path.isIdle, hk]

/-- A path that names a directory leads to it. -/
theorem Names.walk_pieces {t : Tree} {p : Path} {n : Bytes} {d : Key} (h : t.Names p n d)
    (hk : t.kind? (n :: d) = some .dir) : t.walk [] p.pieces = .ok p.key := by
  obtain ⟨blanks, hb, hp, hi, hu, -⟩ := pieces_of_last h.last
  have hstep : Key.step d n = n :: d := by simp [Key.step, hi, hu]
  rw [hp, walk_append, h.walk, h.key]
  refine walk_cons_eq_ok_iff.mpr ⟨h.dir, h.length, by rw [hstep, hk]; simp, ?_⟩
  rw [hstep]
  exact walk_blanks hb hk

/-- A path that leads to a file ends in the name of the file. -/
theorem names_of_stat {t : Tree} {p : Path} {content : Bytes} (h : t.stat p = .ok (.file content)) :
    ∃ n d, t.Names p n d ∧ p.endsInSlash = false := by
  obtain ⟨hc, hw, hnode⟩ := stat_eq_ok_iff.mp h
  have hfile : t.kind? p.key = some (.file content) := kind?_of_node? hnode
  rcases List.eq_nil_or_concat p.pieces with hp | ⟨front, piece, hp⟩
  · exact absurd hp (Bytes.splitOn_ne_nil _ _)
  · rw [List.concat_eq_append] at hp
    rw [hp, walk_concat] at hw
    rcases hf : t.walk [] front with f | d
    · rw [hf] at hw
      cases hw
    · rw [hf] at hw
      obtain ⟨hd, hlen, hkey, -⟩ := stepFrom_eq_ok_iff.mp hw
      -- a dot, two dots or a blank piece would lead to a directory
      have hi : Path.isIdle piece = false := by
        by_contra hi
        rw [hkey, Key.step, if_pos (by simpa using hi), hd] at hfile
        cases hfile
      have hu : piece ≠ upPiece := by
        intro hu
        rw [hkey, Key.step, if_neg (by simp [hi]), if_pos hu, isDir_tail (by rw [hd]; simp)] at hfile
        cases hfile
      have hne : piece ≠ [] := by
        rintro rfl
        cases hi
      have hdot : piece ≠ [Bytes.dot] := by
        rintro rfl
        cases hi
      have hlast : lastOf p.pieces.reverse = (front, .name piece, false) := by
        rw [hp, List.reverse_append, List.reverse_singleton, List.singleton_append, lastOf_of_ne hne]
        simp [hdot, hu]
      exact ⟨piece, d, ⟨hc, by rw [Path.last, hlast], by rw [Path.before, hlast]; exact hf, hd, hlen⟩,
        by rw [Path.endsInSlash, hlast]⟩

theorem names_inj {t u : Tree} {p : Path} {n m : Bytes} {d e : Key} (h : t.Names p n d)
    (h' : u.Names p m e) : n = m ∧ d = e := by
  have := h.key.symm.trans h'.key
  simpa using this

end Tree

end ContentStore
