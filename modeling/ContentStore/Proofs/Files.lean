import ContentStore.Proofs.Kind
import Mathlib.Data.List.Nodup
import Mathlib.Data.List.Perm.Basic

/-!
# The files of a listing

`Listing.files` lists every file once (`nodup_files`) and no others (`mem_files_iff`).  What is summed over
the files below a directory does not depend on the order in which they are listed: two lists of the same
files are permutations of each other (`Lists.perm`), and a file that comes or goes is one entry more or less
(`Lists.add`, `Lists.remove`).
-/

namespace ContentStore

namespace Listing

theorem descend_concat_ne_none {l : Listing} {r : Key} {name : Bytes}
    (h : (Node.dir l).descend (r ++ [name]) ≠ none) : name ∈ l.names := by
  by_contra hn
  refine h ?_
  rw [Node.descend_concat, Node.child?, find?_eq_none hn]
  rfl

/-- What stands below a listing with one more entry stands at the entry or below it, or below the listing without
it. -/
theorem descend_entry_iff {l m : Listing} {n : Bytes} {node : Node}
    (hm : ∀ name, m.find? name = if n = name then some node else l.find? name) (hn : n ∉ l.names) {r : Key}
    {c : Bytes} : (Node.dir m).descend r = some (.file c) ↔
      (∃ s, r = s ++ [n] ∧ node.descend s = some (.file c)) ∨ (Node.dir l).descend r = some (.file c) := by
  rcases List.eq_nil_or_concat r with rfl | ⟨s, name, rfl⟩
  · simp [Node.descend]
  rw [List.concat_eq_append, Node.descend_concat, Node.child?, hm]
  by_cases hne : n = name
  · subst hne
    rw [if_pos rfl, Option.bind_some]
    constructor
    · intro h
      exact Or.inl ⟨s, rfl, h⟩
    · rintro (⟨s', hs, h⟩ | h)
      · rwa [List.append_cancel_right hs]
      · exact absurd (descend_concat_ne_none (by rw [h]; simp)) hn
  · rw [if_neg hne, Node.descend_concat, Node.child?]
    constructor
    · exact Or.inr
    · rintro (⟨s', hs, -⟩ | h)
      · exact absurd (by simpa using (List.append_inj' hs rfl).2.symm) hne
      · exact h

/-- The files of a listing are those that a key leads to. -/
theorem mem_files_iff {l : Listing} (hl : l.Distinct) {k j : Key} {c : Bytes} :
    (j, c) ∈ l.files k ↔ ∃ r, j = r ++ k ∧ (Node.dir l).descend r = some (.file c) := by
  induction l generalizing k with
  | nil =>
    simp only [files, List.not_mem_nil, false_iff, not_exists, not_and]
    rintro r rfl
    rcases List.eq_nil_or_concat r with rfl | ⟨s, name, rfl⟩
    · simp [Node.descend]
    · simp [List.concat_eq_append, Node.descend_concat, Node.child?, find?]
  | file n content rest ih =>
    have hentry := @descend_entry_iff rest (file n content rest) n (.file content) (fun _ => rfl) hl.1
    simp only [files, List.mem_cons, ih hl.2, hentry]
    constructor
    · rintro (h | ⟨r, rfl, hd⟩)
      · cases h
        exact ⟨[n], rfl, Or.inl ⟨[], rfl, rfl⟩⟩
      · exact ⟨r, rfl, Or.inr hd⟩
    · rintro ⟨r, rfl, ⟨s, rfl, hd⟩ | hd⟩
      · -- nothing stands below a file
        rcases eq_or_ne s [] with rfl | hs
        · cases hd
          exact Or.inl rfl
        · rw [Node.descend_file _ _ hs] at hd
          cases hd
      · exact Or.inr ⟨r, rfl, hd⟩
  | dir n inner rest ihi ih =>
    have hentry := @descend_entry_iff rest (dir n inner rest) n (.dir inner) (fun _ => rfl) hl.1
    simp only [files, List.mem_append, ihi hl.2.1, ih hl.2.2, hentry]
    constructor
    · rintro (⟨s, rfl, hd⟩ | ⟨r, rfl, hd⟩)
      · exact ⟨s ++ [n], by simp, Or.inl ⟨s, rfl, hd⟩⟩
      · exact ⟨r, rfl, Or.inr hd⟩
    · rintro ⟨r, rfl, ⟨s, rfl, hd⟩ | hd⟩
      · exact Or.inl ⟨s, by simp, hd⟩
      · exact Or.inr ⟨r, rfl, hd⟩

theorem mem_keys_iff {l : Listing} (hl : l.Distinct) {k j : Key} :
    j ∈ (l.files k).map Prod.fst ↔ ∃ r c, j = r ++ k ∧ (Node.dir l).descend r = some (.file c) := by
  simp only [List.mem_map, Prod.exists, exists_and_right, exists_eq_right, mem_files_iff hl]
  constructor
  · rintro ⟨c, r, h⟩
    exact ⟨r, c, h⟩
  · rintro ⟨r, c, h⟩
    exact ⟨c, r, h⟩

theorem nodup_files {l : Listing} (hl : l.Distinct) (k : Key) : ((l.files k).map Prod.fst).Nodup := by
  induction l generalizing k with
  | nil => simp [files]
  | file n content rest ih =>
    rw [files, List.map_cons, List.nodup_cons]
    refine ⟨fun hm => ?_, ih hl.2 k⟩
    obtain ⟨r, c, he, hd⟩ := (mem_keys_iff hl.2).mp hm
    have hr' : r = [] ++ [n] := (List.append_left_inj k).mp (by simpa using he.symm)
    subst hr'
    exact hl.1 (descend_concat_ne_none (by rw [hd]; simp))
  | dir n inner rest ihi ih =>
    rw [files, List.map_append, List.nodup_append]
    refine ⟨ihi hl.2.1 _, ih hl.2.2 k, ?_⟩
    rintro a ha b hb rfl
    obtain ⟨r, c, rfl, -⟩ := (mem_keys_iff hl.2.1).mp ha
    obtain ⟨r', c', he, hd⟩ := (mem_keys_iff hl.2.2).mp hb
    have hr' : r' = r ++ [n] := (List.append_left_inj k).mp (by simpa using he.symm)
    subst hr'
    exact hl.1 (descend_concat_ne_none (by rw [hd]; simp))

theorem nodup_files' {l : Listing} (hl : l.Distinct) (k : Key) : (l.files k).Nodup :=
  (nodup_files hl k).of_map

end Listing

namespace Tree

/-- The files below a directory, by their keys from there. -/
def filesBelow (t : Tree) (d : Key) : List (Key × Bytes) :=
  match t.node? d with
  | some (.dir inner) => inner.files []
  | _ => []

theorem mem_filesBelow_iff {t : Tree} {d r : Key} {c : Bytes} (hd : t.kind? d = some .dir) :
    (r, c) ∈ t.filesBelow d ↔ t.kind? (r ++ d) = some (.file c) := by
  obtain ⟨inner, hnode⟩ := node?_of_kind?_dir hd
  have hdescend : t.node? (r ++ d) = (Node.dir inner).descend r := by
    rw [node?_append, hnode]
    rfl
  unfold filesBelow
  rw [hnode]
  dsimp only
  rw [Listing.mem_files_iff (distinct_of_node? hnode), kind?, hdescend]
  constructor
  · rintro ⟨r', he, hd⟩
    rw [List.append_nil] at he
    subst he
    rw [hd]
    rfl
  · intro h
    obtain ⟨node, hnode, hkind⟩ := Option.map_eq_some_iff.mp h
    refine ⟨r, by simp, ?_⟩
    rw [hnode]
    cases node with
    | file c' => cases hkind; rfl
    | dir i => cases hkind

theorem nodup_filesBelow (t : Tree) (d : Key) : (t.filesBelow d).Nodup := by
  unfold filesBelow
  split
  · next inner hnode => exact Listing.nodup_files' (distinct_of_node? hnode) []
  · exact List.nodup_nil

end Tree

/-! ### Lists of what stands below a directory -/

open Function (update)

/-- A list has every file below a directory once, by its key from there. -/
structure Lists (kinds : Key → Option Kind) (d : Key) (xs : List (Key × Bytes)) : Prop where
  nodup : xs.Nodup
  mem : ∀ r c, (r, c) ∈ xs ↔ kinds (r ++ d) = some (.file c)

theorem Tree.lists_filesBelow {t : Tree} {d : Key} (hd : t.kind? d = some .dir) :
    Lists t.kind? d (t.filesBelow d) :=
  ⟨t.nodup_filesBelow d, fun _ _ => mem_filesBelow_iff hd⟩

namespace Lists

variable {kinds kinds' : Key → Option Kind} {d r : Key} {c : Bytes} {xs ys : List (Key × Bytes)}

theorem perm (h : Lists kinds d xs) (h' : Lists kinds d ys) : xs.Perm ys :=
  (List.perm_ext_iff_of_nodup h.nodup h'.nodup).mpr fun ⟨r, c⟩ => by rw [h.mem, h'.mem]

theorem congr (h : Lists kinds d xs)
    (hsame : ∀ k c, d <:+ k → (kinds' k = some (.file c) ↔ kinds k = some (.file c))) :
    Lists kinds' d xs :=
  ⟨h.nodup, fun r c => by rw [h.mem, hsame _ _ ⟨r, rfl⟩]⟩

theorem add (h : Lists kinds d xs) (hnew : ∀ c, kinds (r ++ d) ≠ some (.file c)) (c : Bytes) :
    Lists (update kinds (r ++ d) (some (.file c))) d ((r, c) :: xs) where
  nodup := List.nodup_cons.mpr ⟨fun hm => hnew c ((h.mem r c).mp hm), h.nodup⟩
  mem r' c' := by
    rw [List.mem_cons, h.mem]
    by_cases hr : r' = r
    · subst hr
      rw [Function.update_self]
      have hno := hnew c'
      simp [hno, eq_comm]
    · have hne : r' ++ d ≠ r ++ d := fun e => hr (List.append_cancel_right e)
      rw [Function.update_of_ne hne]
      simp [hr]

theorem remove (h : Lists kinds d xs) (hold : kinds (r ++ d) = some (.file c)) :
    Lists (update kinds (r ++ d) none) d (xs.erase (r, c)) where
  nodup := h.nodup.erase _
  mem r' c' := by
    rw [h.nodup.mem_erase_iff, h.mem]
    by_cases hr : r' = r
    · subst hr
      rw [Function.update_self, hold]
      simp [eq_comm]
    · have hne : r' ++ d ≠ r ++ d := fun e => hr (List.append_cancel_right e)
      rw [Function.update_of_ne hne]
      simp [hr]

end Lists

end ContentStore
