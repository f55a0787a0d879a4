import ContentStore.Text.Bytes

/-!
# File trees

A listing is what a directory holds: files and further directories, each under a name, in the order
in which they are listed.  A file tree is a listing, that of its top, in which no directory lists a
name twice; this rule is part of the type, and every change below keeps it.

A key names an entry: it lists the names on the way to it, the innermost first, so that the tail of a
key is the key of the directory.  The top has the blank key.

A name stands for a regular file or for a directory.  Symbolic links, and whatever else a name can stand for,
are left out, so that an entry has one key and is what its path leads to.
-/

namespace ContentStore

/-- The names on the way to an entry, the innermost first. -/
abbrev Key := List Bytes

inductive Listing where
  | nil
  | file (name content : Bytes) (rest : Listing)
  | dir (name : Bytes) (inner rest : Listing)
deriving Repr, DecidableEq

/-- What a name can stand for. -/
inductive Node where
  | file (content : Bytes)
  | dir (inner : Listing)
deriving Repr, DecidableEq

namespace Listing

def names : Listing → List Bytes
  | nil => []
  | file name _ rest => name :: rest.names
  | dir name _ rest => name :: rest.names

def toList : Listing → List (Bytes × Node)
  | nil => []
  | file name content rest => (name, .file content) :: rest.toList
  | dir name inner rest => (name, .dir inner) :: rest.toList

def find? (name : Bytes) : Listing → Option Node
  | nil => none
  | file n content rest => if n = name then some (.file content) else rest.find? name
  | dir n inner rest => if n = name then some (.dir inner) else rest.find? name

def cons (name : Bytes) (node : Node) (rest : Listing) : Listing :=
  match node with
  | .file content => file name content rest
  | .dir inner => dir name inner rest

def erase (name : Bytes) : Listing → Listing
  | nil => nil
  | file n content rest => if n = name then rest else file n content (rest.erase name)
  | dir n inner rest => if n = name then rest else dir n inner (rest.erase name)

def put (name : Bytes) (node : Node) : Listing → Listing
  | nil => cons name node nil
  | file n content rest => if n = name then cons name node rest else file n content (rest.put name node)
  | dir n inner rest => if n = name then cons name node rest else dir n inner (rest.put name node)

/-- Changes the listing of the directory under a name, if there is one. -/
def inside (name : Bytes) (f : Listing → Listing) : Listing → Listing
  | nil => nil
  | file n content rest => if n = name then file n content rest else file n content (rest.inside name f)
  | dir n inner rest => if n = name then dir n (f inner) rest else dir n inner (rest.inside name f)

/-- Changes the listing of the directory with a key, if there is one. -/
def within : Key → (Listing → Listing) → Listing → Listing
  | [], f => f
  | name :: k, f => within k (inside name f)

/-- The files of a listing and all below it, by key, where `k` is the key of the listing. -/
def files (k : Key) : Listing → List (Key × Bytes)
  | nil => []
  | file name content rest => (name :: k, content) :: rest.files k
  | dir name inner rest => inner.files (name :: k) ++ rest.files k

/-- The directories of a listing and all below it, by key, where `k` is the key of the listing. -/
def dirs (k : Key) : Listing → List Key
  | nil => []
  | file _ _ rest => rest.dirs k
  | dir name inner rest => (name :: k) :: (inner.dirs (name :: k) ++ rest.dirs k)

/-! ### No name is listed twice -/

/-- Neither the listing nor one below it lists a name twice. -/
def Distinct : Listing → Prop
  | nil => True
  | file name _ rest => name ∉ rest.names ∧ rest.Distinct
  | dir name inner rest => name ∉ rest.names ∧ inner.Distinct ∧ rest.Distinct

end Listing

def Node.Distinct : Node → Prop
  | .file _ => True
  | .dir inner => inner.Distinct

/-- What a name stands for in a directory; a file has none. -/
def Node.child? (name : Bytes) : Node → Option Node
  | .file _ => none
  | .dir inner => inner.find? name

namespace Listing

theorem distinct_cons {name : Bytes} {node : Node} {rest : Listing} (hname : name ∉ rest.names)
    (hnode : node.Distinct) (hrest : rest.Distinct) : (cons name node rest).Distinct := by
  cases node with
  | file content => exact ⟨hname, hrest⟩
  | dir inner => exact ⟨hname, hnode, hrest⟩

theorem mem_names_of_mem_erase {n name : Bytes} {l : Listing} (h : n ∈ (l.erase name).names) :
    n ∈ l.names := by
  induction l with
  | nil => exact h
  | file m content rest ih =>
    unfold erase at h
    split at h
    · exact List.mem_cons_of_mem _ h
    · exact (List.mem_cons.mp h).elim (fun h => h ▸ List.mem_cons_self)
        fun h => List.mem_cons_of_mem _ (ih h)
  | dir m inner rest _ ih =>
    unfold erase at h
    split at h
    · exact List.mem_cons_of_mem _ h
    · exact (List.mem_cons.mp h).elim (fun h => h ▸ List.mem_cons_self)
        fun h => List.mem_cons_of_mem _ (ih h)

theorem Distinct.erase {l : Listing} (h : l.Distinct) (name : Bytes) : (l.erase name).Distinct := by
  induction l with
  | nil => exact h
  | file n content rest ih =>
    unfold Listing.erase
    split
    · exact h.2
    · exact ⟨fun hn => h.1 (mem_names_of_mem_erase hn), ih h.2⟩
  | dir n inner rest _ ih =>
    unfold Listing.erase
    split
    · exact h.2.2
    · exact ⟨fun hn => h.1 (mem_names_of_mem_erase hn), h.2.1, ih h.2.2⟩

@[simp] theorem names_cons (name : Bytes) (node : Node) (rest : Listing) :
    (cons name node rest).names = name :: rest.names := by
  cases node <;> rfl

theorem mem_names_put {n name : Bytes} {node : Node} {l : Listing}
    (h : n ∈ (l.put name node).names) : n = name ∨ n ∈ l.names := by
  induction l with
  | nil => simpa [put, names] using h
  | file m content rest ih =>
    unfold put at h
    split at h
    · next hm =>
      rw [names_cons, List.mem_cons] at h
      exact h.imp_right (List.mem_cons_of_mem _)
    · rcases List.mem_cons.mp h with h | h
      · exact Or.inr (h ▸ List.mem_cons_self)
      · exact (ih h).imp_right (List.mem_cons_of_mem _)
  | dir m inner rest _ ih =>
    unfold put at h
    split at h
    · next hm =>
      rw [names_cons, List.mem_cons] at h
      exact h.imp_right (List.mem_cons_of_mem _)
    · rcases List.mem_cons.mp h with h | h
      · exact Or.inr (h ▸ List.mem_cons_self)
      · exact (ih h).imp_right (List.mem_cons_of_mem _)

theorem Distinct.put {l : Listing} (h : l.Distinct) (name : Bytes) {node : Node}
    (hnode : node.Distinct) : (l.put name node).Distinct := by
  induction l with
  | nil => exact distinct_cons (by simp [names]) hnode trivial
  | file n content rest ih =>
    unfold Listing.put
    split
    · next hn => exact distinct_cons (hn ▸ h.1) hnode h.2
    · next hn =>
      exact ⟨fun hm => (mem_names_put hm).elim hn h.1, ih h.2⟩
  | dir n inner rest _ ih =>
    unfold Listing.put
    split
    · next hn => exact distinct_cons (hn ▸ h.1) hnode h.2.2
    · next hn =>
      exact ⟨fun hm => (mem_names_put hm).elim hn h.1, h.2.1, ih h.2.2⟩

@[simp] theorem names_inside (name : Bytes) (f : Listing → Listing) (l : Listing) :
    (l.inside name f).names = l.names := by
  induction l with
  | nil => rfl
  | file n content rest ih =>
    unfold inside
    split <;> simp [names, ih]
  | dir n inner rest _ ih =>
    unfold inside
    split <;> simp [names, ih]

theorem Distinct.inside {l : Listing} (h : l.Distinct) (name : Bytes) {f : Listing → Listing}
    (hf : ∀ l : Listing, l.Distinct → (f l).Distinct) : (l.inside name f).Distinct := by
  induction l with
  | nil => exact h
  | file n content rest ih =>
    unfold Listing.inside
    split
    · exact h
    · exact ⟨by rw [names_inside]; exact h.1, ih h.2⟩
  | dir n inner rest _ ih =>
    unfold Listing.inside
    split
    · exact ⟨h.1, hf inner h.2.1, h.2.2⟩
    · exact ⟨by rw [names_inside]; exact h.1, h.2.1, ih h.2.2⟩

theorem Distinct.within {l : Listing} (h : l.Distinct) (k : Key) {f : Listing → Listing}
    (hf : ∀ l : Listing, l.Distinct → (f l).Distinct) : (Listing.within k f l).Distinct := by
  induction k generalizing f with
  | nil => exact hf l h
  | cons name k ih => exact ih fun l hl => hl.inside name hf

theorem Distinct.of_find? {l : Listing} (h : l.Distinct) {name : Bytes} {node : Node}
    (hn : l.find? name = some node) : node.Distinct := by
  induction l with
  | nil => cases hn
  | file n content rest ih =>
    unfold find? at hn
    split at hn
    · cases hn
      trivial
    · exact ih h.2 hn
  | dir n inner rest _ ih =>
    unfold find? at hn
    split at hn
    · cases hn
      exact h.2.1
    · exact ih h.2.2 hn

/-! ### What a name stands for after a change -/

@[simp] theorem find?_cons (name other : Bytes) (node : Node) (rest : Listing) :
    (cons name node rest).find? other = if name = other then some node else rest.find? other := by
  cases node <;> rfl

theorem find?_put (name other : Bytes) (node : Node) (l : Listing) :
    (l.put name node).find? other = if name = other then some node else l.find? other := by
  induction l with
  | nil => rw [put, find?_cons]
  | file n content rest ih =>
    unfold put
    split <;> simp only [find?_cons, find?, ih] <;> grind
  | dir n inner rest _ ih =>
    unfold put
    split <;> simp only [find?_cons, find?, ih] <;> grind

theorem find?_eq_none {l : Listing} {name : Bytes} (h : name ∉ l.names) : l.find? name = none := by
  induction l with
  | nil => rfl
  | file n content rest ih => grind [find?, names]
  | dir n inner rest _ ih => grind [find?, names]

theorem find?_erase {l : Listing} (h : l.Distinct) (name other : Bytes) :
    (l.erase name).find? other = if name = other then none else l.find? other := by
  induction l with
  | nil => simp [erase, find?]
  | file n content rest ih => grind [erase, find?, find?_eq_none h.1, ih h.2]
  | dir n inner rest _ ih => grind [erase, find?, find?_eq_none h.1, ih h.2.2]

end Listing

/-! ### Keys -/

namespace Key

/-- Whether a key lies below `base` or is it. -/
def isUnder (base k : Key) : Bool := base.isSuffixOf k

end Key

/-! ### Trees -/

structure Tree where
  top : Listing
  distinct : top.Distinct

namespace Tree

def bare : Tree := ⟨.nil, trivial⟩

def node? (t : Tree) : Key → Option Node
  | [] => some (.dir t.top)
  | name :: dir => (t.node? dir).bind (Node.child? name)

def content? (t : Tree) (k : Key) : Option Bytes :=
  match t.node? k with
  | some (.file content) => some content
  | _ => none

def isDir (t : Tree) (k : Key) : Bool :=
  match t.node? k with
  | some (.dir _) => true
  | _ => false

def files (t : Tree) : List (Key × Bytes) := t.top.files []

/-- The keys of all directories but the top. -/
def dirs (t : Tree) : List Key := t.top.dirs []

theorem distinct_of_node? {t : Tree} {k : Key} {node : Node} (h : t.node? k = some node) :
    node.Distinct := by
  induction k generalizing node with
  | nil =>
    cases h
    exact t.distinct
  | cons name dir ih =>
    obtain ⟨parent, hparent, hchild⟩ := Option.bind_eq_some_iff.mp h
    have hd := ih hparent
    cases parent with
    | file content => cases hchild
    | dir inner => exact Listing.Distinct.of_find? hd hchild

/-! ### Changes -/

/-- With an entry for a node in place of whatever its key led to, if the key lies in a directory. -/
def put (t : Tree) (k : Key) (node : Node) (h : node.Distinct) : Tree :=
  match k with
  | [] => t
  | name :: dir =>
    { top := Listing.within dir (Listing.put name node) t.top
      distinct := t.distinct.within dir fun _ hl => hl.put name h }

def putFile (t : Tree) (k : Key) (content : Bytes) : Tree := t.put k (.file content) trivial

def putDir (t : Tree) (k : Key) : Tree := t.put k (.dir .nil) trivial

def remove (t : Tree) (k : Key) : Tree :=
  match k with
  | [] => t
  | name :: dir =>
    { top := Listing.within dir (Listing.erase name) t.top
      distinct := t.distinct.within dir fun _ hl => hl.erase name }

/-- With an entry, and all that lies below it, under another key, in place of whatever was there.
Nothing happens to an entry that would go below itself, or that is not there. -/
def move (t : Tree) (old new : Key) : Tree :=
  if new = [] ∨ Key.isUnder old new then t
  else
    match h : t.node? old with
    | none => t
    | some node => (t.remove old).put new node (distinct_of_node? h)

end Tree

end ContentStore
