import ContentStore.Proofs.Found
import ContentStore.Proofs.Tally

/-!
# Two trees that differ where nobody looks

Two trees may differ in the files at some keys, and the second one may have further directories at others:
`Veiled`.  A path that passes none of these keys leads to the same in both (`Alike.stat`, `Alike.admits`), and a
directory below which they hold no chunk files has the same count (`Veiled.count`).  Whatever changes both trees
alike (`InStep`) leaves them as different as they were: `InStep.veiled`.
-/

namespace ContentStore

open Function (update)

/-- Two trees that differ in files at the keys of `F`, and in directories at those of `D`, which only the second
one has. -/
structure Veiled (F D : Key → Prop) (t u : Key → Option Kind) : Prop where
  file : ∀ k c, ¬ F k → (u k = some (.file c) ↔ t k = some (.file c))
  dir : ∀ k, t k = some .dir → u k = some .dir
  fresh : ∀ k, u k = some .dir → t k = some .dir ∨ D k

/-- Two trees have each taken a step: where one of them has changed both have the same, no directory has gone, and
the second one has the files at the keys of `F` that it had. -/
structure InStep (F : Key → Prop) (t u t' u' : Key → Option Kind) : Prop where
  same : ∀ k, t' k = t k ∧ u' k = u k ∨ t' k = u' k
  dir : ∀ k, t k = some .dir → t' k = some .dir
  dir' : ∀ k, u k = some .dir → u' k = some .dir
  foreign : ∀ k c, F k → (u' k = some (.file c) ↔ u k = some (.file c))

namespace Veiled

variable {F D : Key → Prop} {t u v : Key → Option Kind} {k : Key}

theorem refl (F D : Key → Prop) (t : Key → Option Kind) : Veiled F D t t :=
  ⟨fun _ _ _ => Iff.rfl, fun _ h => h, fun _ => Or.inl⟩

theorem trans (h : Veiled F D t u) (h' : Veiled F D u v) : Veiled F D t v where
  file k c hk := (h'.file k c hk).trans (h.file k c hk)
  dir k hk := h'.dir k (h.dir k hk)
  fresh k hk := (h'.fresh k hk).elim (h.fresh k) Or.inr

theorem eq (h : Veiled F D t u) (hF : ¬ F k) (hD : ¬ D k) : t k = u k := by
  rcases ht : t k with _ | _ | c
  · rcases hu : u k with _ | _ | c
    · rfl
    · rcases h.fresh k hu with hd | hd
      · rw [ht] at hd
        cases hd
      · exact absurd hd hD
    · rw [(h.file k c hF).mp hu] at ht
      cases ht
  · exact (h.dir k ht).symm
  · exact ((h.file k c hF).mpr ht).symm

/-- What is a directory in the first tree, or no file that could differ, is the same in both. -/
theorem eq_of_dir (h : Veiled F D t u) (hk : t k = some .dir) : t k = u k :=
  hk.trans (h.dir k hk).symm

end Veiled

namespace InStep

variable {F D : Key → Prop} {t u t' u' t'' u'' : Key → Option Kind} {k : Key}

theorem refl (F : Key → Prop) (t u : Key → Option Kind) : InStep F t u t u :=
  ⟨fun _ => Or.inl ⟨rfl, rfl⟩, fun _ h => h, fun _ h => h, fun _ _ _ => Iff.rfl⟩

theorem trans (h : InStep F t u t' u') (h' : InStep F t' u' t'' u'') : InStep F t u t'' u'' where
  same k := by
    rcases h'.same k with ⟨ht, hu⟩ | heq
    · rw [ht, hu]
      exact h.same k
    · exact Or.inr heq
  dir k hk := h'.dir k (h.dir k hk)
  dir' k hk := h'.dir' k (h.dir' k hk)
  foreign k c hk := (h'.foreign k c hk).trans (h.foreign k c hk)

theorem eq (h : InStep F t u t' u') (hk : t k = u k) : t' k = u' k := by
  rcases h.same k with ⟨ht, hu⟩ | heq
  · rw [ht, hu, hk]
  · exact heq

/-- **A step** leaves two trees as different as they were. -/
theorem veiled (h : InStep F t u t' u') (hv : Veiled F D t u) : Veiled F D t' u' where
  file k c hk := by
    rcases h.same k with ⟨ht, hu⟩ | heq
    · rw [ht, hu]
      exact hv.file k c hk
    · rw [heq]
  dir k hk := by
    rcases h.same k with ⟨ht, hu⟩ | heq
    · rw [hu]
      exact hv.dir k (ht ▸ hk)
    · exact heq ▸ hk
  fresh k hk := by
    rcases h.same k with ⟨ht, hu⟩ | heq
    · rw [ht]
      exact hv.fresh k (hu ▸ hk)
    · exact Or.inl (heq.trans hk)

/-- What a step does to the second tree lies where it lies for the first one. -/
theorem confined {F' D' : Key → Prop} (h : InStep F t u t' u') (hv : Veiled F D t u) (ht : Veiled F' D' t t') :
    Veiled F' D' u u' where
  file k c hk := by
    by_cases hF : F k
    · exact h.foreign k c hF
    · exact ((h.veiled hv).file k c hF).trans ((ht.file k c hk).trans (hv.file k c hF).symm)
  dir := h.dir'
  fresh k hk := by
    rcases h.same k with ⟨-, hu⟩ | htu
    · exact Or.inl (hu.symm.trans hk)
    · exact (ht.fresh k (htu.trans hk)).imp_left (hv.dir k)

theorem dir_update {t : Key → Option Kind} (hdir : t k ≠ some .dir) (x : Option Kind) {j : Key}
    (hj : t j = some .dir) : Function.update t k x j = some .dir := by
  have hne : j ≠ k := fun h => hdir (h ▸ hj)
  rwa [Function.update_of_ne hne]

/-- The same comes to stand at one key of both trees, which none of them has a directory at. -/
theorem update (hk : ¬ F k) (hdir : t k ≠ some .dir) (hdir' : u k ≠ some .dir) (x : Option Kind) :
    InStep F t u (update t k x) (update u k x) where
  same j := by
    by_cases hj : j = k
    · subst hj
      exact Or.inr (by rw [Function.update_self, Function.update_self])
    · exact Or.inl ⟨Function.update_of_ne hj .., Function.update_of_ne hj ..⟩
  dir _ := dir_update hdir x
  dir' _ := dir_update hdir' x
  foreign j c hj := by
    have hne : j ≠ k := fun h => hk (h ▸ hj)
    rw [Function.update_of_ne hne]

/-- A directory comes to stand at one key of both trees, where neither of them has a file. -/
theorem makeDir (ht : t k = none ∨ t k = some .dir) (hu : u k = none ∨ u k = some .dir) :
    InStep F t u (Function.update t k (some .dir)) (Function.update u k (some .dir)) where
  same j := by
    by_cases hj : j = k
    · subst hj
      exact Or.inr (by rw [Function.update_self, Function.update_self])
    · exact Or.inl ⟨Function.update_of_ne hj .., Function.update_of_ne hj ..⟩
  dir j hj := by
    by_cases h : j = k
    · rw [h, Function.update_self]
    · rwa [Function.update_of_ne h]
  dir' j hj := by
    by_cases h : j = k
    · rw [h, Function.update_self]
    · rwa [Function.update_of_ne h]
  foreign j c hj := by
    by_cases h : j = k
    · subst h
      rw [Function.update_self]
      rcases hu with hu | hu <;> simp [hu]
    · rw [Function.update_of_ne h]

end InStep

/-- A file comes, goes or changes at a key of `F`. -/
theorem Veiled.update {F D : Key → Prop} {t : Key → Option Kind} {k : Key} (hk : F k) (hdir : t k ≠ some .dir)
    {x : Option Kind} (hx : x ≠ some .dir) : Veiled F D t (update t k x) where
  file j c hj := by
    have hne : j ≠ k := fun h => hj (h ▸ hk)
    rw [Function.update_of_ne hne]
  dir _ := InStep.dir_update hdir x
  fresh j hj := by
    rw [Function.update_apply] at hj
    split at hj
    · exact absurd hj hx
    · exact Or.inl hj

/-! ### Paths that lead to the same -/

/-- Two trees have the same on the way of a path. -/
def Path.Alike (p : Path) (t u : Key → Option Kind) : Prop := ∀ k ∈ p.visits, t k = u k

/-- The pieces before the last one are some of the pieces. -/
theorem Path.visits_before (p : Path) {k : Key} (hk : k ∈ Key.visits [] p.before) : k ∈ p.visits := by
  have hpieces : ∃ rest, p.pieces = p.before ++ rest := by
    have hsplit := List.takeWhile_append_dropWhile (p := fun x : Bytes => decide (x = [])) (l := p.pieces.reverse)
    unfold Path.before Tree.lastOf
    rcases hdrop : p.pieces.reverse.dropWhile (fun x => decide (x = [])) with _ | ⟨piece, before⟩
    · exact ⟨p.pieces, rfl⟩
    · rw [hdrop] at hsplit
      have hrev := congrArg List.reverse hsplit
      rw [List.reverse_reverse, List.reverse_append, List.reverse_cons, List.append_assoc] at hrev
      exact ⟨_, hrev.symm⟩
  obtain ⟨rest, hrest⟩ := hpieces
  rw [Path.visits, hrest, Key.visits_append]
  exact Or.inl hk

namespace Path.Alike

variable {F D : Key → Prop} {t u : Tree} {p q : Path} {content : Bytes}

theorem symm {t u : Key → Option Kind} (h : p.Alike t u) : p.Alike u t := fun k hk => (h k hk).symm

/-- A directory is a directory in both trees, and so are those on the way to it. -/
theorem of_leadsToDir (hv : Veiled F D t.kind? u.kind?) (hlead : t.leadsToDir p = true) :
    p.Alike t.kind? u.kind? := fun _ hk => hv.eq_of_dir (Tree.isDir_of_leadsToDir hlead hk)

theorem step {t u t' u' : Key → Option Kind} (h : p.Alike t u) (hstep : InStep F t u t' u') : p.Alike t' u' :=
  fun k hk => hstep.eq (h k hk)

variable (h : p.Alike t.kind? u.kind?)
include h

theorem walk : t.walk [] p.pieces = u.walk [] p.pieces := Tree.walk_congr h

theorem key : t.kind? p.key = u.kind? p.key := h _ p.key_mem_visits

/-- What a path leads to is the same but for what lies below a directory. -/
theorem stat : (t.stat p).map Node.kind = (u.stat p).map Node.kind := by
  rcases ht : t.stat p with f | node
  · have hu : u.stat p = .error f := by
      rw [Tree.stat_eq_error_iff] at ht ⊢
      rwa [← h.walk]
    rw [hu]
  · obtain ⟨hcheck, hwalk, hnode⟩ := Tree.stat_eq_ok_iff.mp ht
    have hkind : u.kind? p.key = some node.kind := h.key ▸ Tree.kind?_of_node? hnode
    obtain ⟨other, hother, hsame⟩ := Option.map_eq_some_iff.mp hkind
    rw [Tree.stat_eq_ok_iff.mpr ⟨hcheck, h.walk ▸ hwalk, hother⟩]
    exact congrArg Except.ok hsame.symm

theorem stat_file (hstat : t.stat p = .ok (.file content)) : u.stat p = .ok (.file content) := by
  have hsame := h.stat
  rw [hstat] at hsame
  rcases hu : u.stat p with f | _ | inner
  · rw [hu] at hsame
    cases hsame
  · rw [hu] at hsame
    cases hsame
    rfl
  · rw [hu] at hsame
    cases hsame

theorem leadsToDir : t.leadsToDir p = u.leadsToDir p := by
  have hsame := h.stat
  unfold Tree.leadsToDir
  rcases ht : t.stat p with f | _ | inner <;> rcases hu : u.stat p with g | _ | inner' <;>
    rw [ht, hu] at hsame <;> first | rfl | cases hsame

theorem read : t.read p = u.read p := by
  have hsame := h.stat
  unfold Tree.read
  rcases ht : t.stat p with f | _ | inner <;> rcases hu : u.stat p with g | _ | inner' <;>
    rw [ht, hu] at hsame <;> cases hsame <;> rfl

theorem canonical? : t.canonical? p = u.canonical? p := by
  unfold Tree.canonical?
  rw [Tree.followAll_eq_walk, Tree.followAll_eq_walk, h.walk]

theorem sameFile (hq : q.Alike t.kind? u.kind?) : t.sameFile p q = u.sameFile p q := by
  unfold Tree.sameFile
  rw [h.canonical?, hq.canonical?]

theorem names {n : Bytes} {d : Key} (hn : t.Names p n d) : u.Names p n d where
  check := hn.check
  last := hn.last
  walk := (Tree.walk_congr fun k hk => (h k (p.visits_before hk)).symm).trans hn.walk
  dir := by
    have hd : d ∈ Key.visits [] p.before := Tree.key_of_walk hn.walk ▸ Key.mem_visits_end [] p.before
    exact (h d (p.visits_before hd)).symm.trans hn.dir
  length := hn.length

/-- A file can be put at a path in both trees or in neither. -/
theorem admits (ha : t.Admits p) : u.Admits p := by
  obtain ⟨n, d, hn, hslash, hk⟩ := ha
  refine ⟨n, d, h.names hn, hslash, ?_⟩
  rw [← hn.key, ← h.key, hn.key]
  exact hk

/-- Where the last piece of a path would go is the same but for what the directory lists. -/
theorem spot : (∃ f, t.spot p = .error f ∧ u.spot p = .error f) ∨
    ∃ s s', t.spot p = .ok s ∧ u.spot p = .ok s' ∧ s'.dir = s.dir ∧ s'.last = s.last := by
  have hwalk : t.walk [] p.before = u.walk [] p.before :=
    Tree.walk_congr fun k hk => h k (p.visits_before hk)
  rcases ht : t.spot p with f | s
  · refine Or.inl ⟨f, rfl, ?_⟩
    unfold Tree.spot at ht ⊢
    rcases hcheck : p.check with g | ⟨⟩
    · rw [hcheck] at ht
      exact ht
    rw [hcheck] at ht
    simp only [ok_bind] at ht ⊢
    change (t.followAll p.before >>= _) = _ at ht
    change (u.followAll p.before >>= _) = _
    rcases hfollow : t.followAll p.before with g | trail
    · rw [hfollow] at ht
      rw [Tree.followAll_eq_error_iff.mpr (hwalk ▸ Tree.followAll_eq_error_iff.mp hfollow)]
      exact ht
    · -- the pieces before the last one lead to a file, in both trees
      have hkey := Tree.walk_of_followAll hfollow
      obtain ⟨other, hother, hsame⟩ := Tree.followAll_of_walk (hwalk ▸ hkey)
      have hd : trail.key ∈ Key.visits [] p.before := Tree.key_of_walk hkey ▸ Key.mem_visits_end [] p.before
      have hkind : some (trail.node t.top).kind = some (other.node u.top).kind := by
        rw [← Tree.kind?_of_node? (Tree.node?_of_followAll hfollow),
          ← Tree.kind?_of_node? (Tree.node?_of_followAll hother), hsame]
        exact h _ (p.visits_before hd)
      rw [hfollow] at ht
      rw [hother]
      simp only [ok_bind] at ht ⊢
      rcases hm : trail.node t.top with c | inner <;> rcases hn : other.node u.top with c' | inner' <;>
        rw [hm] at ht hkind <;> rw [hn] at hkind
      · exact ht
      · cases hkind
      · cases hkind
      · cases ht
  · obtain ⟨hcheck, hto, hnode, hlast, hslash⟩ := Tree.spot_eq_ok_iff.mp ht
    have hd : s.dir ∈ Key.visits [] p.before := Tree.key_of_walk hto ▸ Key.mem_visits_end [] p.before
    have hkind : u.kind? s.dir = some .dir :=
      (h _ (p.visits_before hd)).symm.trans (Tree.kind?_of_node? hnode)
    obtain ⟨inner, hinner⟩ := Tree.node?_of_kind?_dir hkind
    exact Or.inr ⟨s, ⟨s.dir, inner, p.last, p.endsInSlash⟩, rfl,
      Tree.spot_eq_ok_iff.mpr ⟨hcheck, hwalk ▸ hto, hinner, rfl, rfl⟩, rfl, hlast.symm⟩

/-- A directory is made in both trees, or refused in both for the same reason. -/
theorem planMakeDir [FileSystem] : t.planMakeDir p = u.planMakeDir p := by
  unfold Tree.planMakeDir
  rcases h.spot with ⟨f, ht, hu⟩ | ⟨s, s', ht, hu, hdir, hlast⟩
  · rw [ht, hu]
  rw [ht, hu]
  simp only [ok_bind, hlast]
  rcases hname : s.last with _ | _ | n
  · rfl
  · rfl
  obtain ⟨-, hto, hnode, hlast, -⟩ := Tree.spot_eq_ok_iff.mp ht
  obtain ⟨-, -, hnode', -, -⟩ := Tree.spot_eq_ok_iff.mp hu
  have hkey : p.key = n :: s.dir := by
    rw [Path.key_eq_from, ← hlast, hname, ← Tree.key_of_walk hto]
    rfl
  simp only [Spot.lookup]
  by_cases hlen : n.length ≤ nameLimit
  · rw [Tree.lookup_eq hnode hlen, Tree.lookup_eq hnode' hlen, hdir]
    simp only [ok_bind]
    have hkind := h.key
    rw [hkey] at hkind
    rcases hn : t.node? (n :: s.dir) with _ | node <;> rcases hn' : u.node? (n :: s.dir) with _ | node'
    · rfl
    · rw [Tree.node?_eq_none_iff.mp hn, Tree.kind?_of_node? hn'] at hkind
      cases hkind
    · rw [Tree.node?_eq_none_iff.mp hn', Tree.kind?_of_node? hn] at hkind
      cases hkind
    · rfl
  · rw [Tree.lookup_of_long hlen, Tree.lookup_of_long hlen]
    rfl

end Path.Alike

/-! ### Scans -/

namespace Scan

variable {m : Mode} {root : Path}

theorem classify_of_sees {p : Path} {names : List Bytes} (h : sees m p names = true) :
    ∃ x, names.getLast? = some x ∧ (m.classify x).isSome = true := by
  induction names generalizing p with
  | nil => cases h
  | cons name rest ih =>
    rw [sees, Bool.and_eq_true] at h
    obtain ⟨-, h⟩ := h
    by_cases hrest : rest = []
    · rw [if_pos hrest] at h
      exact ⟨name, by rw [hrest]; rfl, h⟩
    · rw [if_neg hrest] at h
      obtain ⟨x, hx, hchunk⟩ := ih h
      exact ⟨x, by rw [List.getLast?_cons, hx]; rfl, hchunk⟩

theorem tally_filter (m : Mode) (root : Path) (xs : List (Key × Bytes)) :
    tally m root (xs.filter fun f => sees m root f.1.reverse) = tally m root xs := by
  induction xs with
  | nil => rfl
  | cons f xs ih =>
    rw [List.filter_cons]
    split
    · rw [tally_cons, tally_cons, ih]
    · next hsees => rw [tally_cons, ih, share, if_neg hsees, Totals.zero_add]

end Scan

/-- **A scan** counts the same in both trees, if the files that differ are no chunk files. -/
theorem Veiled.count {F D : Key → Prop} {t u : Tree} {m : Mode} {root : Path}
    (h : Veiled F D t.kind? u.kind?)
    (hforeign : ∀ n k, F (n :: k) → root.key <:+ n :: k → m.classify n = none)
    (hlead : t.leadsToDir root = true) : Scan.count m u root = Scan.count m t root := by
  have hlead' := Tree.leadsToDir_mono hlead h.dir
  obtain ⟨-, -, hdir⟩ := Tree.leadsToDir_iff.mp hlead
  obtain ⟨-, -, hdir'⟩ := Tree.leadsToDir_iff.mp hlead'
  rw [Scan.count_eq_tally hlead, Scan.count_eq_tally hlead', ← Scan.tally_filter,
    ← Scan.tally_filter _ _ (t.filesBelow _)]
  refine Scan.tally_perm ((List.perm_ext_iff_of_nodup ((u.nodup_filesBelow _).filter _)
    ((t.nodup_filesBelow _).filter _)).mpr fun ⟨r, c⟩ => ?_)
  rw [List.mem_filter, List.mem_filter, Tree.mem_filesBelow_iff hdir, Tree.mem_filesBelow_iff hdir']
  refine and_congr_left fun hsees => h.file _ c fun hF => ?_
  obtain ⟨x, hx, hchunk⟩ := Scan.classify_of_sees hsees
  rw [List.getLast?_reverse] at hx
  obtain ⟨rest, rfl⟩ : ∃ rest, r = x :: rest := by
    cases r with
    | nil => cases hx
    | cons y rest => exact ⟨rest, by cases hx; rfl⟩
  rw [hforeign x (rest ++ root.key) hF ⟨x :: rest, rfl⟩] at hchunk
  cases hchunk

end ContentStore
