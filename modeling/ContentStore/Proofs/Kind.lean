import ContentStore.Tree.Change
import Mathlib.Logic.Function.Basic
import Mathlib.Tactic.Common

/-!
# What stands at a key

`Tree.kind?` says of every key whether a directory or a file with some content stands there.  It leaves
out what lies below a directory and in which order, and two trees with the same kinds answer every
request alike, up to the order of a listing.

* a kind stands only in a directory: `isDir_of_kind?_cons`, `isDir_of_suffix`;
* every change of a tree is a change of its kinds at one or two keys: `kind?_putFile`, `kind?_putDir`,
  `kind?_remove`, `kind?_removeFile`, `kind?_move`.
-/

namespace ContentStore

/-- What stands at a key. -/
inductive Kind where
  | dir
  | file (content : Bytes)
deriving DecidableEq

namespace Node

/-- A node without what lies below it. -/
def kind : Node → Kind
  | .file content => .file content
  | .dir _ => .dir

/-- What a key leads to from a node. -/
def descend (node : Node) : Key → Option Node
  | [] => some node
  | name :: k => (node.descend k).bind (child? name)

/-- A node with another listing; a file stays what it is. -/
def alter (f : Listing → Listing) : Node → Node
  | .file content => .file content
  | .dir inner => .dir (f inner)

@[simp] theorem kind_alter (f : Listing → Listing) (node : Node) : (node.alter f).kind = node.kind := by
  cases node <;> rfl

theorem descend_append (node : Node) (r d : Key) :
    node.descend (r ++ d) = (node.descend d).bind fun n => n.descend r := by
  induction r with
  | nil => simp [descend]
  | cons name r ih => simp only [List.cons_append, descend, ih, Option.bind_assoc]

theorem descend_concat (node : Node) (r : Key) (name : Bytes) :
    node.descend (r ++ [name]) = (node.child? name).bind fun n => n.descend r := by
  rw [descend_append]
  rfl

theorem descend_file (content : Bytes) (r : Key) (h : r ≠ []) : (Node.file content).descend r = none := by
  obtain ⟨s, name, rfl⟩ := List.eq_nil_or_concat r |>.resolve_left h
  rw [List.concat_eq_append, descend_concat]
  rfl

end Node

namespace Listing

theorem find?_eq_none_iff {name : Bytes} {l : Listing} : l.find? name = none ↔ name ∉ l.names := by
  refine ⟨fun h => ?_, find?_eq_none⟩
  induction l with
  | nil => simp [names]
  | file n content rest ih => grind [find?, names]
  | dir n inner rest _ ih => grind [find?, names]

theorem find?_inside (name other : Bytes) (f : Listing → Listing) (l : Listing) :
    (l.inside name f).find? other
      = if name = other then (l.find? other).map (Node.alter f) else l.find? other := by
  induction l with
  | nil => simp [inside, find?]
  | file n content rest ih => grind [inside, find?, Node.alter]
  | dir n inner rest _ ih => grind [inside, find?, Node.alter]

theorem find?_erase_of_ne {name other : Bytes} (h : other ≠ name) (l : Listing) :
    (l.erase name).find? other = l.find? other := by
  induction l with
  | nil => rfl
  | file n content rest ih => grind [erase, find?]
  | dir n inner rest _ ih => grind [erase, find?]

theorem descend_within (d : Key) (f : Listing → Listing) (l : Listing) :
    (Node.dir (within d f l)).descend d = ((Node.dir l).descend d).map (Node.alter f) := by
  induction d generalizing f with
  | nil => rfl
  | cons name d ih =>
    simp only [within, Node.descend, ih]
    cases (Node.dir l).descend d with
    | none => rfl
    | some n =>
      cases n with
      | file content => rfl
      | dir inner => simp [Node.alter, Node.child?, find?_inside]

/-- A change that leaves the other names of a directory alone leaves alone whatever is not below the
name. -/
theorem kind_descend_within {d : Key} {name : Bytes} {f : Listing → Listing}
    (hf : ∀ (i : Listing) (other : Bytes), other ≠ name → (f i).find? other = i.find? other)
    {k : Key} (hk : ¬ name :: d <:+ k) (l : Listing) :
    ((Node.dir (within d f l)).descend k).map Node.kind = ((Node.dir l).descend k).map Node.kind := by
  induction d generalizing name f with
  | nil =>
    rcases List.eq_nil_or_concat k with rfl | ⟨r, other, rfl⟩
    · rfl
    · have hne : other ≠ name := by
        rintro rfl
        exact hk ⟨r, by simp⟩
      simp only [within, List.concat_eq_append, Node.descend_concat, Node.child?, hf l other hne]
  | cons m d ih =>
    by_cases hm : m :: d <:+ k
    · obtain ⟨s, rfl⟩ := hm
      rw [Node.descend_append, Node.descend_append, descend_within]
      rcases List.eq_nil_or_concat s with rfl | ⟨r, other, rfl⟩
      · cases (Node.dir l).descend (m :: d) <;> simp [Node.descend]
      · have hne : other ≠ name := by
          rintro rfl
          exact hk ⟨r, by simp⟩
        cases (Node.dir l).descend (m :: d) with
        | none => rfl
        | some n =>
          cases n with
          | file content => simp [Node.alter]
          | dir inner =>
            simp only [Option.map_some, Option.bind_some, Node.alter, List.concat_eq_append,
              Node.descend_concat, Node.child?, hf inner other hne]
    · simp only [within]
      refine ih (fun i other h => ?_) hm
      rw [find?_inside, if_neg (Ne.symm h)]

end Listing

namespace Tree

def kind? (t : Tree) (k : Key) : Option Kind := (t.node? k).map Node.kind

theorem node?_eq_descend (t : Tree) (k : Key) : t.node? k = (Node.dir t.top).descend k := by
  induction k with
  | nil => rfl
  | cons name k ih => simp only [node?, Node.descend, ih]

theorem node?_append (t : Tree) (r d : Key) :
    t.node? (r ++ d) = (t.node? d).bind fun n => n.descend r := by
  simp only [node?_eq_descend, Node.descend_append]

@[simp] theorem kind?_nil (t : Tree) : t.kind? [] = some .dir := rfl

theorem kind?_of_node? {t : Tree} {k : Key} {node : Node} (h : t.node? k = some node) :
    t.kind? k = some node.kind := by
  rw [kind?, h, Option.map_some]

theorem node?_of_kind?_dir {t : Tree} {k : Key} (h : t.kind? k = some .dir) :
    ∃ inner, t.node? k = some (.dir inner) := by
  obtain ⟨node, hnode, hkind⟩ := Option.map_eq_some_iff.mp h
  cases node with
  | file content => cases hkind
  | dir inner => exact ⟨inner, hnode⟩

theorem node?_of_kind?_file {t : Tree} {k : Key} {content : Bytes}
    (h : t.kind? k = some (.file content)) : t.node? k = some (.file content) := by
  obtain ⟨node, hnode, hkind⟩ := Option.map_eq_some_iff.mp h
  cases node with
  | file c => rw [hnode]; cases hkind; rfl
  | dir inner => cases hkind

theorem node?_eq_none_iff {t : Tree} {k : Key} : t.node? k = none ↔ t.kind? k = none := by
  rw [kind?, Option.map_eq_none_iff]

theorem content?_eq_some_iff {t : Tree} {k : Key} {content : Bytes} :
    t.content? k = some content ↔ t.kind? k = some (.file content) := by
  unfold content? kind?
  rcases t.node? k with _ | ⟨c | inner⟩ <;> simp [Node.kind]

theorem content?_congr {t u : Tree} {k l : Key}
    (h : ∀ c, t.kind? k = some (.file c) ↔ u.kind? l = some (.file c)) : t.content? k = u.content? l := by
  apply Option.ext
  intro c
  rw [content?_eq_some_iff, content?_eq_some_iff, h c]

/-! ### A kind stands in a directory -/

theorem isDir_of_kind?_cons {t : Tree} {name : Bytes} {k : Key} (h : t.kind? (name :: k) ≠ none) :
    t.kind? k = some .dir := by
  rw [ne_eq, ← node?_eq_none_iff, node?] at h
  unfold kind?
  rcases hk : t.node? k with _ | ⟨content | inner⟩
  · simp [hk] at h
  · simp [hk, Node.child?] at h
  · rfl

theorem isDir_of_suffix {t : Tree} {k l : Key} (hs : k <:+ l) (hne : k ≠ l) (h : t.kind? l ≠ none) :
    t.kind? k = some .dir := by
  obtain ⟨r, rfl⟩ := hs
  induction r with
  | nil => exact absurd rfl hne
  | cons name r ih =>
    have hdir : t.kind? (r ++ k) = some .dir := isDir_of_kind?_cons h
    by_cases hr : k = r ++ k
    · exact hr ▸ hdir
    · exact ih hr (by simp [hdir])

theorem isDir_tail {t : Tree} {k : Key} (h : t.kind? k ≠ none) : t.kind? k.tail = some .dir := by
  cases k with
  | nil => rfl
  | cons name k => exact isDir_of_kind?_cons h

theorem kind?_below_eq_none {t : Tree} {k l : Key} (hs : k <:+ l) (hne : k ≠ l)
    (h : t.kind? k ≠ some .dir) : t.kind? l = none := by
  by_contra hl
  exact h (isDir_of_suffix hs hne hl)

theorem kind?_bare (n : Bytes) (k : Key) : bare.kind? (n :: k) = none := by
  have hnode : ∀ n k, bare.node? (n :: k) = none := by
    intro n k
    induction k generalizing n with
    | nil => rfl
    | cons m k ih => rw [node?, ih m, Option.bind_none]
  rw [kind?, hnode, Option.map_none]

/-! ### Changes -/

theorem kind?_put_below {t : Tree} {name : Bytes} {d : Key} {node : Node} (hnode : node.Distinct)
    (hd : t.kind? d = some .dir) (r : Key) :
    (t.put (name :: d) node hnode).kind? (r ++ name :: d) = (node.descend r).map Node.kind := by
  obtain ⟨inner, hinner⟩ := node?_of_kind?_dir hd
  rw [node?_eq_descend] at hinner
  have hsplit : r ++ name :: d = (r ++ [name]) ++ d := by simp
  rw [kind?, node?_eq_descend, hsplit, Node.descend_append]
  simp only [put, Listing.descend_within, hinner, Option.map_some, Option.bind_some, Node.alter,
    Node.descend_concat, Node.child?, Listing.find?_put, if_pos]

theorem kind?_put_other {t : Tree} {name : Bytes} {d : Key} {node : Node} (hnode : node.Distinct)
    {k : Key} (hk : ¬ name :: d <:+ k) : (t.put (name :: d) node hnode).kind? k = t.kind? k := by
  rw [kind?, kind?, node?_eq_descend, node?_eq_descend]
  refine Listing.kind_descend_within (fun i other hne => ?_) hk t.top
  rw [Listing.find?_put, if_neg (Ne.symm hne)]

theorem kind?_put_bare {t : Tree} {name : Bytes} {d : Key} {node : Node} (hnode : node.Distinct)
    (hbare : ∀ r, r ≠ [] → node.descend r = none) (hd : t.kind? d = some .dir)
    (hold : t.kind? (name :: d) ≠ some .dir) :
    (t.put (name :: d) node hnode).kind? = Function.update t.kind? (name :: d) (some node.kind) := by
  funext k
  by_cases hk : name :: d <:+ k
  · obtain ⟨r, rfl⟩ := hk
    rw [kind?_put_below hnode hd]
    by_cases hr : r = []
    · subst hr
      simp [Node.descend]
    · have hne : name :: d ≠ r ++ name :: d := by simpa using hr
      rw [hbare r hr, Function.update_of_ne (Ne.symm hne),
        kind?_below_eq_none ⟨r, rfl⟩ hne hold]
      rfl
  · have hne : k ≠ name :: d := by
      rintro rfl
      exact hk (List.suffix_refl _)
    rw [kind?_put_other hnode hk, Function.update_of_ne hne]

theorem kind?_putFile {t : Tree} {name : Bytes} {d : Key} (content : Bytes)
    (hd : t.kind? d = some .dir) (hold : t.kind? (name :: d) ≠ some .dir) :
    (t.putFile (name :: d) content).kind?
      = Function.update t.kind? (name :: d) (some (.file content)) :=
  kind?_put_bare (show (Node.file content).Distinct from trivial) (Node.descend_file content) hd hold

theorem kind?_putDir {t : Tree} {name : Bytes} {d : Key} (hd : t.kind? d = some .dir)
    (hold : t.kind? (name :: d) = none) :
    (t.putDir (name :: d)).kind? = Function.update t.kind? (name :: d) (some .dir) := by
  refine kind?_put_bare (show (Node.dir .nil).Distinct from trivial) (fun r hr => ?_) hd
    (by simp [hold])
  obtain ⟨s, other, rfl⟩ := List.eq_nil_or_concat r |>.resolve_left hr
  rw [List.concat_eq_append, Node.descend_concat]
  rfl

theorem kind?_remove {t : Tree} {k : Key} (hk : k ≠ []) (l : Key) :
    (t.remove k).kind? l = if k <:+ l then none else t.kind? l := by
  cases k with
  | nil => exact absurd rfl hk
  | cons name d =>
    split
    · next hs =>
      obtain ⟨r, rfl⟩ := hs
      have hsplit : r ++ name :: d = (r ++ [name]) ++ d := by simp
      rw [kind?, node?_eq_descend, hsplit, Node.descend_append]
      simp only [remove, Listing.descend_within]
      rcases hd : (Node.dir t.top).descend d with _ | ⟨content | inner⟩
      · rfl
      · simp [Node.alter, Node.descend_concat, Node.child?]
      · have hnode : t.node? d = some (.dir inner) := by rw [node?_eq_descend, hd]
        have hdist : inner.Distinct := distinct_of_node? hnode
        simp [Node.alter, Node.descend_concat, Node.child?, Listing.find?_erase hdist]
    · next hs =>
      rw [kind?, kind?, node?_eq_descend, node?_eq_descend]
      refine Listing.kind_descend_within (fun i other hne => ?_) hs t.top
      exact Listing.find?_erase_of_ne hne i

theorem kind?_removeFile {t : Tree} {k : Key} (hk : t.kind? k ≠ some .dir) :
    (t.remove k).kind? = Function.update t.kind? k none := by
  have hne : k ≠ [] := by
    rintro rfl
    exact hk rfl
  funext l
  rw [kind?_remove hne]
  by_cases hl : l = k
  · subst hl
    simp
  · rw [Function.update_of_ne hl]
    split
    · next hs => exact (kind?_below_eq_none hs (Ne.symm hl) hk).symm
    · rfl

theorem kind?_move {t : Tree} {old new : Key} {content : Bytes}
    (hold : t.kind? old = some (.file content)) (hdir : t.kind? new.tail = some .dir)
    (hnew : t.kind? new ≠ some .dir) :
    (t.move old new).kind?
      = Function.update (Function.update t.kind? old none) new (some (.file content)) := by
  have hnode := node?_of_kind?_file hold
  have hnil : new ≠ [] := by
    rintro rfl
    exact hnew rfl
  unfold move
  split
  · next h =>
    rcases h with h | h
    · exact absurd h hnil
    · -- only the file itself lies at or below the key of a file
      have hs : old <:+ new := List.isSuffixOf_iff_suffix.mp h
      have heq : old = new := by
        by_contra hne
        have htail : old <:+ new.tail := by
          obtain ⟨r, rfl⟩ := hs
          cases r with
          | nil => exact absurd rfl hne
          | cons x r => exact ⟨r, rfl⟩
        have h1 : old ≠ new.tail := by
          intro e
          rw [← e, hold] at hdir
          cases hdir
        have h2 := isDir_of_suffix (t := t) htail h1 (by rw [hdir]; simp)
        rw [hold] at h2
        cases h2
      subst heq
      rw [Function.update_idem, ← hold, Function.update_eq_self]
  · next h =>
    split
    · next h' => rw [hnode] at h'; cases h'
    · next node h' =>
      rw [hnode] at h'
      cases h'
      have hne : old ≠ new := by
        rintro rfl
        exact h (Or.inr (List.isSuffixOf_iff_suffix.mpr (List.suffix_refl _)))
      have hfile : t.kind? old ≠ some .dir := by rw [hold]; simp
      obtain ⟨name, d, rfl⟩ := List.exists_cons_of_ne_nil hnil
      have hd : (t.remove old).kind? d = some .dir := by
        rw [kind?_removeFile hfile, Function.update_of_ne]
        · exact hdir
        · rintro rfl
          exact hfile hdir
      have hn : (t.remove old).kind? (name :: d) ≠ some .dir := by
        rw [kind?_removeFile hfile, Function.update_of_ne (Ne.symm hne)]
        exact hnew
      rw [kind?_put_bare _ (Node.descend_file content) hd hn, kind?_removeFile hfile]
      rfl

end Tree

end ContentStore
