import ContentStore.Proofs.Bystander

/-!
# Outside a directory

Two trees that are alike outside a directory look the same to every path that keeps outside it: such a path
leads to the same file in both (`Path.Outside.stat_iff`), and a file can be put there in both or in neither
(`Path.Outside.admits_iff`).

A file can be put at a path only if the directory in which it would be staged is there:
`Tree.Admits.stagingDir`.
-/

namespace ContentStore

open Bytes (slash joinWith)

/-! ### The directory of a path -/

namespace Bytes

theorem joinWith_append (sep : UInt8) {xs ys : List Bytes} (hx : xs ≠ []) (hy : ys ≠ []) :
    joinWith sep (xs ++ ys) = joinWith sep xs ++ sep :: joinWith sep ys := by
  induction xs with
  | nil => exact absurd rfl hx
  | cons x xs ih =>
    rw [List.cons_append, joinWith_cons sep x (by simp [hy])]
    rcases eq_or_ne xs [] with rfl | hne
    · simp [joinWith]
    · rw [ih hne, joinWith_cons sep x hne]
      simp

end Bytes

namespace Path

theorem bytes_ofReversed {rs : List Bytes} (hne : rs ≠ []) {p : Path} {n : Bytes} {rest : List Bytes}
    (h : p.pieces = rs.reverse ++ rest ++ [n]) :
    (ofReversed rs).bytes ≠ [] ∧ ∃ after, p.bytes = (ofReversed rs).bytes ++ after := by
  have hbytes : p.bytes = joinWith slash rs.reverse ++ slash :: joinWith slash (rest ++ [n]) := by
    rw [← Bytes.joinWith_append slash (by simpa using hne) (by simp), ← List.append_assoc, ← h]
    exact (Bytes.joinWith_splitOn slash p.bytes).symm
  unfold ofReversed
  split
  · next hrs =>
    subst hrs
    refine ⟨by simp, joinWith slash (rest ++ [n]), ?_⟩
    rw [hbytes]
    rfl
  · next hrs =>
    refine ⟨fun h0 => hrs ?_, _, hbytes⟩
    -- nothing but a single blank piece is spelled by no bytes
    rcases List.eq_nil_or_concat rs with rfl | ⟨front, x, rfl⟩
    · exact absurd rfl hne
    · rcases eq_or_ne front [] with rfl | hf
      · simpa [joinWith] using h0
      · rw [List.concat_eq_append, List.reverse_append, List.reverse_singleton, List.singleton_append,
          Bytes.joinWith_cons slash x (by simpa using hf)] at h0
        simp at h0

end Path

namespace Tree

variable {t u : Tree} {p : Path} {d : Key}

theorem walk_trimEnd {rs : List Bytes} (h : t.walk [] rs.reverse = .ok d) :
    t.walk [] (Path.trimEnd rs).reverse = .ok d := by
  fun_induction Path.trimEnd rs with
  | case1 => exact h
  | case2 piece => exact h
  | case3 piece before hne hidle ih =>
    rw [List.reverse_cons, walk_concat] at h
    rcases hb : t.walk [] before.reverse with f | e
    · rw [hb] at h
      cases h
    · rw [hb] at h
      obtain ⟨-, -, hkey, -⟩ := stepFrom_eq_ok_iff.mp h
      rw [Key.step, if_pos hidle] at hkey
      subst hkey
      exact ih hb
  | case4 piece before hne hidle => exact h

theorem walk_here (t : Tree) : t.walk [] Path.here.pieces = .ok Path.here.key :=
  walk_cons_eq_ok_iff.mpr ⟨rfl, by decide, by simp [Key.step, Path.isIdle], rfl⟩

/-- If the last piece of a path names an entry of a directory, the path of that directory leads there; a single
name has the blank path above it. -/
theorem Names.parent {n : Bytes} (hn : t.Names p n d) (hslash : p.endsInSlash = false) :
    (p.before = [] ∧ d = [] ∧ p.parent? = some .blank) ∨
      ∃ q, p.parent? = some q ∧ q ≠ .blank ∧ q.key = d ∧ t.leadsToDir q = true := by
  obtain ⟨blanks, -, hpieces, hidle, -, hblanks⟩ := pieces_of_last hn.last
  rw [hblanks hslash] at hpieces
  have hwalk : t.walk [] p.before = .ok d := hn.walk
  have habove : p.parents = Path.above (n :: p.before.reverse) := by
    rw [Path.parents, hpieces]
    simp
  rcases hb : p.before.reverse with _ | ⟨b, bs⟩
  · -- the path is a single name
    have htop : d = [] := by
      rw [List.reverse_eq_nil_iff.mp hb] at hwalk
      cases hwalk
      rfl
    refine Or.inl ⟨List.reverse_eq_nil_iff.mp hb, htop, ?_⟩
    have hne : n ≠ [] := by
      rintro rfl
      cases hidle
    rw [Path.parent?, habove, hb]
    simp [Path.above, hne]
  · have hparent : p.parent? = some (Path.ofReversed (Path.trimEnd (b :: bs))) := by
      rw [Path.parent?, habove, hb]
      simp [Path.above, hidle]
    have hne := Path.trimEnd_ne_nil (List.cons_ne_nil b bs)
    obtain ⟨front, hfront⟩ := Path.trimEnd_suffix (b :: bs)
    have hbefore : p.before = (Path.trimEnd (b :: bs)).reverse ++ front.reverse := by
      rw [← List.reverse_append, hfront, ← hb, List.reverse_reverse]
    have hends : p.pieces = (Path.trimEnd (b :: bs)).reverse ++ front.reverse ++ [n] := by
      rw [← hbefore, hpieces]
    obtain ⟨hbytes, after, hp⟩ := Path.bytes_ofReversed hne hends
    have hslash : ∀ x ∈ Path.trimEnd (b :: bs), slash ∉ x := by
      intro x hx
      have hpiece : x ∈ p.pieces := by
        rw [hpieces, hbefore]
        simp [hx]
      exact Bytes.notMem_of_mem_splitOn hpiece
    have hw : t.walk [] (Path.trimEnd (b :: bs)).reverse = .ok d :=
      walk_trimEnd (by rw [← hb, List.reverse_reverse]; exact hwalk)
    have hkey : (Path.ofReversed (Path.trimEnd (b :: bs))).key = d := by
      rw [Path.key_ofReversed hne hslash, ← key_of_walk hw]
    refine Or.inr ⟨_, hparent, fun e => hbytes (by rw [e]; rfl), hkey, ?_⟩
    rw [leadsToDir_iff, hkey]
    refine ⟨?_, ?_, hn.dir⟩
    · obtain ⟨h0, -, hlong⟩ := Path.check_eq_ok_iff.mp hn.check
      refine Path.check_eq_ok_iff.mpr ⟨fun hm => h0 (by simp [hp, hm]), hbytes, ?_⟩
      have hlen : p.bytes.length = (Path.ofReversed (Path.trimEnd (b :: bs))).bytes.length + after.length := by
        rw [hp, List.length_append]
      simp only [Path.isTooLong, decide_eq_false_iff_not, Nat.not_le] at hlong ⊢
      omega
    · rcases Path.pieces_ofReversed hne hslash with hpc | ⟨hrs, hpc⟩
      · rw [hpc]
        exact hw
      · rw [hrs] at hw
        rw [hpc]
        cases hw
        rfl

/-- If a file can be put at a path, the directory above is there, and it is staged in that directory. -/
theorem Admits.stagingDir (h : t.Admits p) :
    t.leadsToDir (FileStore.stagingDir p) = true ∧ (FileStore.stagingDir p).key = p.key.tail := by
  obtain ⟨n, d, hn, hslash, -⟩ := h
  rw [hn.key, List.tail_cons]
  rcases hn.parent hslash with ⟨-, htop, hparent⟩ | ⟨q, hparent, hblank, hkey, hlead⟩
  · have hhere : FileStore.stagingDir p = .here := by simp [FileStore.stagingDir, hparent]
    rw [hhere, leadsToDir_iff, htop]
    exact ⟨⟨by decide, walk_here t, rfl⟩, rfl⟩
  · have hstaging : FileStore.stagingDir p = q := by simp [FileStore.stagingDir, hparent, hblank]
    rw [hstaging]
    exact ⟨hlead, hkey⟩

end Tree

/-! ### Trees that are alike outside a directory -/

/-- Two trees hold the same but for what lies below a directory. -/
def Tree.Alike (d : Key) (t u : Tree) : Prop := ∀ k, (d <:+ k → k = d) → t.kind? k = u.kind? k

/-- A path neither ends in a directory nor passes anything below it. -/
structure Path.Outside (p : Path) (d : Key) : Prop where
  key : ¬ d <:+ p.key
  avoids : p.Avoids d

namespace Path.Outside

variable {t u : Tree} {p : Path} {d : Key}

theorem kind? (hp : p.Outside d) (h : t.Alike d u) {k : Key} (hk : k ∈ p.visits) :
    t.kind? k = u.kind? k :=
  h k (hp.avoids k hk)

/-- A path outside leads to the same file in both trees. -/
theorem stat_iff (hp : p.Outside d) (h : t.Alike d u) {content : Bytes} :
    t.stat p = .ok (.file content) ↔ u.stat p = .ok (.file content) := by
  have hwalk : t.walk [] p.pieces = u.walk [] p.pieces := Tree.walk_congr fun k hk => hp.kind? h hk
  have hkind := hp.kind? h p.key_mem_visits
  have hfile : ∀ v : Tree, v.node? p.key = some (.file content) ↔
      v.kind? p.key = some (.file content) := by
    intro v
    exact ⟨Tree.kind?_of_node?, Tree.node?_of_kind?_file⟩
  rw [Tree.stat_eq_ok_iff, Tree.stat_eq_ok_iff, hwalk, hfile, hfile, hkind]

theorem admits_of (hp : p.Outside d) (h : t.Alike d u) (ht : t.Admits p) : u.Admits p := by
  obtain ⟨n, e, hn, hslash, hk⟩ := ht
  obtain ⟨blanks, -, hpieces, -⟩ := Tree.pieces_of_last hn.last
  have hbefore : ∀ k ∈ Key.visits [] p.before, t.kind? k = u.kind? k := by
    intro k hk
    refine hp.kind? h (show k ∈ Key.visits [] p.pieces from ?_)
    rw [hpieces, Key.visits_append]
    exact Or.inl hk
  have he : e ∈ Key.visits [] p.before := by
    rw [Tree.key_of_walk hn.walk]
    exact Key.mem_visits_end _ _
  refine ⟨n, e, ⟨hn.check, hn.last, ?_, ?_, hn.length⟩, hslash, ?_⟩
  · rw [← Tree.walk_congr hbefore]
    exact hn.walk
  · rw [← hbefore e he]
    exact hn.dir
  · rw [← hn.key, ← hp.kind? h p.key_mem_visits, hn.key]
    exact hk

/-- A file can be put at a path outside in both trees or in neither. -/
theorem admits_iff (hp : p.Outside d) (h : t.Alike d u) : t.Admits p ↔ u.Admits p :=
  ⟨hp.admits_of h, hp.admits_of fun k hk => (h k hk).symm⟩

end Path.Outside

end ContentStore
