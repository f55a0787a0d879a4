import ContentStore.Proofs.Walk

/-!
# Paths that are put together

A store never takes a path apart: it joins names to the path of its root.  A joined path leads to the
joined name below the key of the path it was joined to (`key_join`, `key_below`), and whether it can be
followed is a matter of its base, the pieces without a slash at the end (`pieces_join`, `names_join`).  Names of
which each may be joined to the path before it are bundled in `Joins`.
-/

namespace ContentStore

namespace Bytes

theorem splitOn_of_notMem {sep : UInt8} {x : Bytes} (h : sep ∉ x) : splitOn sep x = [x] := by
  induction x with
  | nil => rfl
  | cons b x ih =>
    rw [List.mem_cons, not_or] at h
    unfold splitOn
    rw [if_neg (Ne.symm h.1), ih h.2]

theorem splitOn_append (sep : UInt8) (a b : Bytes) :
    splitOn sep (a ++ sep :: b) = splitOn sep a ++ splitOn sep b := by
  induction a with
  | nil => simp [splitOn]
  | cons c a ih =>
    rw [List.cons_append, splitOn, ih]
    conv_rhs => rw [splitOn]
    split
    · rfl
    · rcases hs : splitOn sep a with _ | ⟨piece, pieces⟩
      · exact absurd hs (splitOn_ne_nil sep a)
      · rfl

theorem notMem_of_mem_splitOn {sep : UInt8} {bs x : Bytes} (h : x ∈ splitOn sep bs) : sep ∉ x := by
  induction bs generalizing x with
  | nil =>
    rw [splitOn, List.mem_singleton] at h
    simp [h]
  | cons b bs ih =>
    unfold splitOn at h
    split at h
    · rcases List.mem_cons.mp h with rfl | h
      · simp
      · exact ih h
    · next hb =>
      rcases hs : splitOn sep bs with _ | ⟨piece, pieces⟩
      · exact absurd hs (splitOn_ne_nil sep bs)
      · rw [hs] at h ih
        rcases List.mem_cons.mp h with rfl | h
        · rw [List.mem_cons, not_or]
          exact ⟨Ne.symm hb, ih List.mem_cons_self⟩
        · exact ih (List.mem_cons_of_mem _ h)

theorem splitOn_joinWith {sep : UInt8} {pieces : List Bytes} (hne : pieces ≠ [])
    (h : ∀ x ∈ pieces, sep ∉ x) : splitOn sep (joinWith sep pieces) = pieces := by
  induction pieces with
  | nil => exact absurd rfl hne
  | cons piece pieces ih =>
    by_cases hp : pieces = []
    · subst hp
      exact splitOn_of_notMem (h piece List.mem_cons_self)
    · rw [joinWith_cons sep piece hp, splitOn_append, ih hp fun x hx => h x (List.mem_cons_of_mem _ hx),
        splitOn_of_notMem (h piece List.mem_cons_self)]
      rfl

end Bytes

namespace Path

open Bytes (slash dot splitOn splitOn_append splitOn_of_notMem)

/-- A piece that names an entry. -/
structure IsName (x : Bytes) : Prop where
  ne_nil : x ≠ []
  noSlash : slash ∉ x
  ne_dot : x ≠ [dot]
  ne_up : x ≠ upPiece

theorem isName_of_mem {x : Bytes} {b : UInt8} (hb : b ∈ x) (hdot : b ≠ dot) (hslash : slash ∉ x) :
    IsName x where
  ne_nil := List.ne_nil_of_mem hb
  noSlash := hslash
  ne_dot h := hdot (by simpa [h] using hb)
  ne_up h := hdot (by simpa [h, upPiece] using hb)

theorem IsName.isIdle {x : Bytes} (h : IsName x) : isIdle x = false := by
  simp [Path.isIdle, h.ne_nil, h.ne_dot]

theorem IsName.step {x : Bytes} (h : IsName x) (k : Key) : k.step x = x :: k := by
  simp [Key.step, h.isIdle, h.ne_up]

theorem IsName.getLast? {x : Bytes} (h : IsName x) : x.getLast? ≠ some slash := by
  intro e
  exact h.noSlash (List.mem_of_getLast? e)

theorem IsName.isAbsolute {x : Bytes} (h : IsName x) : isAbsolute x = false := by
  rw [Path.isAbsolute, decide_eq_false_iff_not]
  intro e
  exact h.noSlash (List.mem_of_head? e)

/-- The pieces without a blank one at the end. -/
def base (p : Path) : List Bytes :=
  if p.bytes = [] ∨ p.bytes.getLast? = some slash then p.pieces.dropLast else p.pieces

theorem pieces_ne_nil (p : Path) : p.pieces ≠ [] := Bytes.splitOn_ne_nil _ _

theorem pieces_eq_base (p : Path) : p.pieces = p.base ∨ p.pieces = p.base ++ [[]] := by
  unfold base
  split
  · next h =>
    right
    have hlast : p.pieces.getLast p.pieces_ne_nil = [] := by
      rcases h with h | h
      · simp [pieces, h, splitOn]
      · obtain ⟨front, hfront⟩ := List.getLast?_eq_some_iff.mp h
        have hp : p.pieces = splitOn slash front ++ [[]] := by
          rw [pieces, hfront, splitOn_append]
          rfl
        simp [hp]
    conv_lhs => rw [← List.dropLast_concat_getLast p.pieces_ne_nil, hlast]
  · exact Or.inl rfl

theorem key_eq_base (p : Path) : p.key = p.base.foldl Key.step [] := by
  rcases p.pieces_eq_base with h | h
  · rw [key, h]
  · rw [key, h, List.foldl_append]
    rfl

theorem pieces_join (p : Path) {x : Bytes} (hx : IsName x) : (p.join x).pieces = p.base ++ [x] := by
  unfold join base
  rw [hx.isAbsolute, if_neg (by simp)]
  split
  · next h =>
    rcases h with h | h
    · simp [pieces, h, splitOn, splitOn_of_notMem hx.noSlash]
    · obtain ⟨front, hfront⟩ := List.getLast?_eq_some_iff.mp h
      have hp : p.pieces = splitOn slash front ++ [[]] := by
        rw [pieces, hfront, splitOn_append]
        rfl
      rw [hp, List.dropLast_concat]
      simp only [pieces, hfront, List.append_assoc, List.singleton_append, splitOn_append,
        splitOn_of_notMem hx.noSlash]
  · simp only [pieces, splitOn_append, splitOn_of_notMem hx.noSlash]

theorem bytes_join (p : Path) {x : Bytes} (hx : IsName x) :
    ∃ sep, (p.join x).bytes = p.bytes ++ sep ++ x ∧ (sep = [] ∨ sep = [slash]) ∧
      (sep = [] → p.bytes = [] ∨ p.bytes.getLast? = some slash) := by
  unfold join
  rw [hx.isAbsolute, if_neg (by simp)]
  split
  · next h => exact ⟨[], by simp, Or.inl rfl, fun _ => h⟩
  · exact ⟨[slash], by simp, Or.inr rfl, by simp⟩

theorem base_join (p : Path) {x : Bytes} (hx : IsName x) : (p.join x).base = p.base ++ [x] := by
  obtain ⟨sep, hb, -⟩ := bytes_join p hx
  have hlast : (p.join x).bytes.getLast? ≠ some slash := by
    rw [hb, List.getLast?_append, List.getLast?_eq_some_getLast hx.ne_nil, Option.some_or,
      ← List.getLast?_eq_some_getLast hx.ne_nil]
    exact hx.getLast?
  have hne : (p.join x).bytes ≠ [] := by
    rw [hb]
    exact List.append_ne_nil_of_right_ne_nil _ hx.ne_nil
  rw [base, if_neg (by simp [hlast, hne]), pieces_join p hx]

theorem join_ne_blank (p : Path) {x : Bytes} (hx : IsName x) : p.join x ≠ blank := by
  intro e
  have h := congrArg Path.base e
  rw [base_join p hx] at h
  simp [base, blank, pieces, splitOn] at h

theorem key_join (p : Path) {x : Bytes} (hx : IsName x) : (p.join x).key = x :: p.key := by
  rw [key, pieces_join p hx, List.foldl_append, ← key_eq_base]
  exact hx.step _

theorem mem_visits_base (p : Path) (j : Key) : j ∈ Key.visits [] p.base ↔ j ∈ p.visits := by
  rcases p.pieces_eq_base with h | h
  · rw [visits, h]
  · rw [visits, h, Key.visits_append, ← key_eq_base]
    constructor
    · exact Or.inl
    · rintro (hj | hj)
      · exact hj
      · have : j = p.key := by simpa [Key.visits, Key.step, isIdle] using hj
        rw [this, key_eq_base]
        exact Key.mem_visits_end _ _

theorem mem_visits_join (p : Path) {x : Bytes} (hx : IsName x) (j : Key) :
    j ∈ (p.join x).visits ↔ j ∈ p.visits ∨ j = x :: p.key := by
  rw [visits, pieces_join p hx, Key.visits_append, mem_visits_base, ← key_eq_base]
  simp only [Key.visits, List.mem_cons, List.not_mem_nil, or_false, hx.step]
  constructor
  · rintro (h | rfl | h)
    · exact Or.inl h
    · exact Or.inl p.key_mem_visits
    · exact Or.inr h
  · rintro (h | h)
    · exact Or.inl h
    · exact Or.inr (Or.inr h)

theorem last_join (p : Path) {x : Bytes} (hx : IsName x) :
    (p.join x).before = p.base ∧ (p.join x).last = .name x ∧ (p.join x).endsInSlash = false := by
  unfold before last endsInSlash
  rw [pieces_join p hx, List.reverse_append, List.reverse_singleton, List.singleton_append,
    Tree.lastOf_of_ne hx.ne_nil, List.reverse_reverse]
  simp [hx.ne_dot, hx.ne_up]

/-! ### Checks of a joined path -/

theorem check_eq_ok_iff {p : Path} :
    p.check = .ok () ↔ (0 : UInt8) ∉ p.bytes ∧ p.bytes ≠ [] ∧ p.isTooLong = false := by
  unfold check
  split
  · next h => simp [List.contains_iff_mem.mp h]
  · next h =>
    have h0 : (0 : UInt8) ∉ p.bytes := fun hm => h (List.contains_iff_mem.mpr hm)
    split
    · next hb => simp [hb]
    · next hb => split <;> simp_all

theorem isTooLong_of_join {p : Path} {x : Bytes} (hx : IsName x) (h : (p.join x).isTooLong = false) :
    p.isTooLong = false := by
  obtain ⟨sep, hb, -⟩ := bytes_join p hx
  unfold isTooLong at h ⊢
  rw [hb] at h
  simp only [List.length_append, decide_eq_false_iff_not, Nat.not_le] at h ⊢
  omega

theorem check_join {p : Path} {x : Bytes} (hx : IsName x) (hp : (0 : UInt8) ∉ p.bytes)
    (h0 : (0 : UInt8) ∉ x) (hlen : (p.join x).isTooLong = false) : (p.join x).check = .ok () := by
  obtain ⟨sep, hb, hsep, -⟩ := bytes_join p hx
  refine check_eq_ok_iff.mpr ⟨?_, ?_, hlen⟩
  · rw [hb]
    rcases hsep with rfl | rfl
    · simp [hp, h0]
    · simp [hp, h0, slash]
  · rw [hb]
    exact List.append_ne_nil_of_right_ne_nil _ hx.ne_nil

theorem zero_notMem_of_check {p : Path} (h : p.check = .ok ()) : (0 : UInt8) ∉ p.bytes :=
  (check_eq_ok_iff.mp h).1

theorem zero_notMem_join {p : Path} {x : Bytes} (hx : IsName x) (hp : (0 : UInt8) ∉ p.bytes)
    (h0 : (0 : UInt8) ∉ x) : (0 : UInt8) ∉ (p.join x).bytes := by
  obtain ⟨sep, hb, hsep, -⟩ := bytes_join p hx
  rw [hb]
  rcases hsep with rfl | rfl <;> simp [hp, h0, slash]

/-! ### Several names -/

/-- The path of a key below a path; the key lists the innermost name first. -/
def below (p : Path) : Key → Path
  | [] => p
  | name :: k => (p.below k).join name

theorem below_concat (p : Path) (k : Key) (x : Bytes) : p.below (k ++ [x]) = (p.join x).below k := by
  induction k with
  | nil => rfl
  | cons name k ih => rw [List.cons_append, below, below, ih]

theorem key_below {p : Path} {k : Key} (h : ∀ x ∈ k, IsName x) : (p.below k).key = k ++ p.key := by
  induction k with
  | nil => rfl
  | cons name k ih =>
    rw [below, key_join _ (h name List.mem_cons_self), ih fun x hx => h x (List.mem_cons_of_mem _ hx)]
    rfl

theorem base_below {p : Path} {k : Key} (h : ∀ x ∈ k, IsName x) :
    (p.below k).base = p.base ++ k.reverse := by
  induction k with
  | nil => simp [below]
  | cons name k ih =>
    rw [below, base_join _ (h name List.mem_cons_self), ih fun x hx => h x (List.mem_cons_of_mem _ hx)]
    simp

theorem mem_visits_below {p : Path} {k : Key} (h : ∀ x ∈ k, IsName x) (j : Key) :
    j ∈ (p.below k).visits ↔ j ∈ p.visits ∨ ∃ l, l <:+ k ∧ l ≠ [] ∧ j = l ++ p.key := by
  induction k with
  | nil =>
    simp only [below, List.suffix_nil]
    constructor
    · exact Or.inl
    · rintro (hj | ⟨l, rfl, hl, -⟩)
      · exact hj
      · exact absurd rfl hl
  | cons name k ih =>
    have hk : ∀ x ∈ k, IsName x := fun x hx => h x (List.mem_cons_of_mem _ hx)
    rw [below, mem_visits_join _ (h name List.mem_cons_self), ih hk, key_below hk]
    constructor
    · rintro ((hj | ⟨l, hl, hne, rfl⟩) | rfl)
      · exact Or.inl hj
      · exact Or.inr ⟨l, hl.trans (List.suffix_cons _ _), hne, rfl⟩
      · exact Or.inr ⟨name :: k, List.suffix_refl _, by simp, rfl⟩
    · rintro (hj | ⟨l, hl, hne, rfl⟩)
      · exact Or.inl (Or.inl hj)
      · rcases List.suffix_cons_iff.mp hl with rfl | hl
        · exact Or.inr rfl
        · exact Or.inl (Or.inr ⟨l, hl, hne, rfl⟩)

theorem isTooLong_below {p : Path} {k l : Key} (h : ∀ x ∈ k, IsName x) (hl : l <:+ k)
    (hlong : (p.below k).isTooLong = false) : (p.below l).isTooLong = false := by
  induction k with
  | nil =>
    rw [List.suffix_nil.mp hl]
    exact hlong
  | cons name k ih =>
    rcases List.suffix_cons_iff.mp hl with rfl | hl
    · exact hlong
    · exact ih (fun x hx => h x (List.mem_cons_of_mem _ hx)) hl
        (isTooLong_of_join (h name List.mem_cons_self) hlong)

theorem zero_notMem_below {p : Path} {k : Key} (h : ∀ x ∈ k, IsName x) (hp : (0 : UInt8) ∉ p.bytes)
    (h0 : ∀ x ∈ k, (0 : UInt8) ∉ x) : (0 : UInt8) ∉ (p.below k).bytes := by
  induction k with
  | nil => exact hp
  | cons name k ih =>
    exact zero_notMem_join (h name List.mem_cons_self)
      (ih (fun x hx => h x (List.mem_cons_of_mem _ hx)) fun x hx => h0 x (List.mem_cons_of_mem _ hx))
      (h0 name List.mem_cons_self)

/-- Names that can be joined to a path one after the other: they have no zero byte and not too many bytes, and the
path that they make has not too many either. -/
structure Joins (p : Path) (k : Key) : Prop where
  names : ∀ x ∈ k, IsName x
  nonzero : ∀ x ∈ k, (0 : UInt8) ∉ x
  length : ∀ x ∈ k, x.length ≤ nameLimit
  short : (p.below k).isTooLong = false

namespace Joins

variable {p : Path} {k l : Key} {x : Bytes}

theorem suffix (h : p.Joins k) (hl : l <:+ k) : p.Joins l where
  names x hx := h.names x (hl.subset hx)
  nonzero x hx := h.nonzero x (hl.subset hx)
  length x hx := h.length x (hl.subset hx)
  short := isTooLong_below h.names hl h.short

theorem tail (h : p.Joins (x :: k)) : p.Joins k := h.suffix (List.suffix_cons x k)

theorem zero_notMem (h : p.Joins k) (hp : p.check = .ok ()) : (0 : UInt8) ∉ (p.below k).bytes :=
  zero_notMem_below h.names (zero_notMem_of_check hp) h.nonzero

theorem check (h : p.Joins (x :: k)) (hp : p.check = .ok ()) : ((p.below k).join x).check = .ok () :=
  check_join (h.names x List.mem_cons_self) (h.tail.zero_notMem hp) (h.nonzero x List.mem_cons_self) h.short

end Joins

end Path

namespace Tree

theorem walk_base {t : Tree} {p : Path} {k : Key} (h : t.walk [] p.pieces = .ok k) :
    t.walk [] p.base = .ok k := by
  rcases p.pieces_eq_base with e | e
  · rwa [← e]
  · rw [e, walk_concat] at h
    rcases hb : t.walk [] p.base with f | j
    · rw [hb] at h
      cases h
    · rw [hb] at h
      obtain ⟨-, -, rfl, -⟩ := stepFrom_eq_ok_iff.mp h
      rfl

theorem walk_pieces {t : Tree} {p : Path} (h : t.walk [] p.base = .ok p.key)
    (hdir : t.kind? p.key = some .dir) : t.walk [] p.pieces = .ok p.key := by
  rcases p.pieces_eq_base with e | e
  · rwa [e]
  · rw [e, walk_concat, h]
    exact stepFrom_eq_ok hdir (by decide) (by simp [Key.step, Path.isIdle, hdir])

/-- A joined name names an entry of the directory that the path leads to. -/
theorem names_join {t : Tree} {p : Path} {x : Bytes} (hx : Path.IsName x)
    (hcheck : (p.join x).check = .ok ()) (hlen : x.length ≤ nameLimit)
    (hwalk : t.walk [] p.pieces = .ok p.key) (hdir : t.kind? p.key = some .dir) :
    t.Names (p.join x) x p.key where
  check := hcheck
  last := (p.last_join hx).2.1
  walk := by rw [(p.last_join hx).1]; exact walk_base hwalk
  dir := hdir
  length := hlen

theorem Names.of_join {t : Tree} {p : Path} {x n : Bytes} {d : Key} (hx : Path.IsName x)
    (hp : p ≠ .blank) (h : t.Names (p.join x) n d) :
    n = x ∧ d = p.key ∧
      (p.check = .ok () ∧ t.walk [] p.pieces = .ok p.key ∧ t.kind? p.key = some .dir) := by
  have hlast := h.last
  rw [(p.last_join hx).2.1] at hlast
  have hw := h.walk
  rw [(p.last_join hx).1] at hw
  have hd : d = p.key := by rw [Path.key_eq_base, ← key_of_walk hw]
  subst hd
  obtain ⟨sep, hb, -⟩ := Path.bytes_join p hx
  obtain ⟨h0, -, hlong⟩ := Path.check_eq_ok_iff.mp h.check
  refine ⟨by cases hlast; rfl, rfl, Path.check_eq_ok_iff.mpr ⟨?_, ?_, Path.isTooLong_of_join hx hlong⟩,
    Tree.walk_pieces hw h.dir, h.dir⟩
  · rw [hb] at h0
    simp only [List.mem_append, not_or] at h0
    exact h0.1.1
  · intro e
    exact hp (by cases p; simp_all [Path.blank])

theorem leadsToDir_of_join {t : Tree} {p : Path} {x : Bytes} (hx : Path.IsName x) (hp : p ≠ .blank)
    (h : t.leadsToDir (p.join x) = true) : t.leadsToDir p = true := by
  obtain ⟨hcheck, hwalk, -⟩ := leadsToDir_iff.mp h
  rw [Path.pieces_join _ hx, walk_concat] at hwalk
  rcases hbase : t.walk [] p.base with f | d
  · rw [hbase] at hwalk
    cases hwalk
  · rw [hbase] at hwalk
    obtain ⟨hdir, hlen, -⟩ := stepFrom_eq_ok_iff.mp hwalk
    have hn : t.Names (p.join x) x d :=
      ⟨hcheck, (p.last_join hx).2.1, by rw [(p.last_join hx).1]; exact hbase, hdir, hlen⟩
    exact leadsToDir_iff.mpr (hn.of_join hx hp).2.2

theorem Names.isName {t : Tree} {p : Path} {n : Bytes} {d : Key} (h : t.Names p n d) :
    Path.IsName n := by
  obtain ⟨blanks, -, hpieces, hidle, hup, -⟩ := pieces_of_last h.last
  have hmem : n ∈ p.pieces := by
    rw [hpieces]
    simp
  refine ⟨?_, Bytes.notMem_of_mem_splitOn hmem, ?_, hup⟩ <;> rintro rfl <;> cases hidle

/-- Names lead nowhere, and only for want of an entry, if there is no file on the way. -/
theorem walk_names_notFound {t : Tree} {k : Key} {names : List Bytes}
    (hn : ∀ x ∈ names, Path.IsName x) (hlen : ∀ x ∈ names, x.length ≤ nameLimit)
    (hk : t.kind? k = some .dir) (hend : t.kind? (names.reverse ++ k) = none)
    (hfile : ∀ l, l <:+ names.reverse → l ≠ names.reverse →
      t.kind? (l ++ k) = none ∨ t.kind? (l ++ k) = some .dir) :
    t.walk k names = .error .notFound := by
  induction names generalizing k with
  | nil => simp [hk] at hend
  | cons x names ih =>
    have hx := hn x List.mem_cons_self
    have hidle := hx.isIdle
    rw [List.reverse_cons, List.append_assoc, List.singleton_append] at hend
    rw [walk_cons]
    have hlenx : ¬ nameLimit < x.length := Nat.not_lt.mpr (hlen x List.mem_cons_self)
    rcases hxk : t.kind? (x :: k) with _ | kind
    · simp [stepFrom, hk, hidle, hx.ne_up, hlenx, hxk, Except.bind]
    · have hstep : t.stepFrom k x = .ok (x :: k) := by
        simp [stepFrom, hk, hidle, hx.ne_up, hlenx, hxk]
      have hne : names ≠ [] := by
        rintro rfl
        simp [hxk] at hend
      have hdir : t.kind? (x :: k) = some .dir := by
        have := hfile [x] ⟨names.reverse, by simp⟩ (by simp [hne])
        simpa [hxk] using this
      rw [hstep]
      refine ih (fun y hy => hn y (List.mem_cons_of_mem _ hy))
        (fun y hy => hlen y (List.mem_cons_of_mem _ hy)) hdir hend fun l hl hne' => ?_
      have := hfile (l ++ [x]) (by
        obtain ⟨r, hr⟩ := hl
        exact ⟨r, by simp [← hr]⟩) (by simpa using hne')
      simpa using this

end Tree

end ContentStore
