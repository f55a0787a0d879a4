import ContentStore.Proofs.Answers
import ContentStore.Proofs.Belongs
import ContentStore.Proofs.Confined
import ContentStore.Proofs.Seats

/-!
# Names that begin with one another

A name with fewer digits than the store has levels has its last digit for a file name, and every longer name that
begins with it has this digit for a directory at the same place: `Layout.blocks_of_suffix`.  Nothing else of a chunk is
ever in the way of another one.

* `Session.Reserved`: the sessions in which nobody but one store works below a root, with the names that it has made
  room for so far; what lies below the root is what these names need (`Session.Reserved.stocked`);
* `name_is_free`: a chunk that is not there can be deleted, and stored and read back, unless one of these names is in
  its way.
-/

namespace ContentStore

/-! ### Names that are in the way -/

/-- With so many levels, the file of the first chunk has the name of a directory of the second one. -/
def Blocks (depth : Nat) (a b : Bytes) : Prop := a <+: b ∧ a ≠ b ∧ (Hex.encode a).length ≤ depth

instance (depth : Nat) (a b : Bytes) : Decidable (Blocks depth a b) :=
  inferInstanceAs (Decidable (a <+: b ∧ a ≠ b ∧ (Hex.encode a).length ≤ depth))

namespace Layout

variable {l m : Layout} {a b name : Bytes}

/-- The stem of a chunk is a directory of another one only if the first name blocks the second one. -/
theorem blocks_of_suffix (h : (l.place a).stem :: l.shards a <:+ l.shards b) : Blocks l.depth a b := by
  obtain ⟨pre, hpre⟩ := h
  have hmem : (l.place a).stem ∈ l.shards b := by rw [← hpre]; simp
  obtain ⟨digit, hdigit, -⟩ := mem_shards hmem
  have hprefix : Hex.encode a <+: Hex.encode b := by
    refine ⟨pre.reverse.flatten ++ (l.place b).stem, ?_⟩
    rw [← l.flatten_shards a, ← l.flatten_shards b, ← hpre]
    simp
  have hstem : (l.place a).stem.length = 1 := by rw [hdigit]; rfl
  have hlevels : (Hex.encode a).length - (l.shards a).length = 1 := by
    rw [← hstem, l.length_shards]
    exact (List.length_drop).symm
  have hlen := congrArg List.length hpre
  rw [List.length_append, List.length_cons] at hlen
  have hb := l.length_shards_le b
  refine ⟨Hex.prefix_of_encode hprefix, ?_, by omega⟩
  rintro rfl
  omega

theorem place_eq_of_depth (h : m.depth = l.depth) (name : Bytes) :
    (m.place name).stem = (l.place name).stem ∧ m.shards name = l.shards name := by
  obtain ⟨p, n⟩ := l
  obtain ⟨q, k⟩ := m
  obtain rfl : k = n := h
  exact ⟨rfl, rfl⟩

end Layout

/-! ### What lies below a root -/

namespace Layout

/-- Below the root a key is that of a file of one of the chunks. -/
def FileOf (l : Layout) (used : List Bytes) (k : Key) : Prop := l.root.key <:+ k → k ≠ l.root.key →
  ∃ name ∈ used, name ≠ [] ∧ ∃ (m : Mode) (file : Bytes), m.Names (l.place name).stem file ∧
    k = file :: (l.place name).dir.key

/-- Below the root a key is that of a directory on the way to one of the chunks. -/
def ShardOf (l : Layout) (used : List Bytes) (k : Key) : Prop := l.root.key <:+ k → k ≠ l.root.key →
  ∃ name ∈ used, ∃ j, j <:+ l.shards name ∧ k = j ++ l.root.key

end Layout

/-- Below the root there is nothing but files of the chunks with the given names and directories on the way to
them. -/
structure Stocked (l : Layout) (used : List Bytes) (kinds : Key → Option Kind) : Prop where
  file : ∀ k c, kinds k = some (.file c) → l.FileOf used k
  dir : ∀ k, kinds k = some .dir → l.ShardOf used k

namespace Stocked

variable {l : Layout} {used names : List Bytes} {kinds kinds' : Key → Option Kind} {name : Bytes}

theorem of_empty (h : ∀ k, l.root.key <:+ k → k ≠ l.root.key → kinds k = none) : Stocked l used kinds where
  file k c hk hbelow hne := by
    rw [h k hbelow hne] at hk
    cases hk
  dir k hk hbelow hne := by
    rw [h k hbelow hne] at hk
    cases hk

theorem relaid {m : Layout} (h : Stocked l used kinds) (hroot : m.root.key = l.root.key) (hdepth : m.depth = l.depth) :
    Stocked m used kinds where
  file k c hk hbelow hne := by
    obtain ⟨name, hname, hblank, mode, file, hfile, rfl⟩ := h.file k c hk (hroot ▸ hbelow) (hroot ▸ hne)
    obtain ⟨hstem, hshards⟩ := Layout.place_eq_of_depth hdepth name
    exact ⟨name, hname, hblank, mode, file, hstem ▸ hfile, by rw [l.key_dir_place, m.key_dir_place, hroot, hshards]⟩
  dir k hk hbelow hne := by
    obtain ⟨name, hname, j, hj, rfl⟩ := h.dir k hk (hroot ▸ hbelow) (hroot ▸ hne)
    exact ⟨name, hname, j, (Layout.place_eq_of_depth hdepth name).2 ▸ hj, by rw [hroot]⟩

theorem mono (h : Stocked l used kinds) (hsub : used ⊆ names) : Stocked l names kinds where
  file k c hk hbelow hne := by
    obtain ⟨name, hname, hrest⟩ := h.file k c hk hbelow hne
    exact ⟨name, hsub hname, hrest⟩
  dir k hk hbelow hne := by
    obtain ⟨name, hname, hrest⟩ := h.dir k hk hbelow hne
    exact ⟨name, hsub hname, hrest⟩

theorem veiled (h : Stocked l used kinds) (hv : Veiled (l.FileOf used) (l.ShardOf used) kinds kinds') :
    Stocked l used kinds' where
  file k c hk := by
    by_contra hno
    exact hno (h.file k c ((hv.file k c hno).mp hk))
  dir k hk := (hv.fresh k hk).elim (h.dir k) id

theorem pruned {d : Key} {t u : Tree} (h : Stocked l used t.kind?) (hu : Pruned d t u) : Stocked l used u.kind? where
  file k c hk := by
    rcases hu k with e | ⟨e, -⟩
    · exact h.file k c (e ▸ hk)
    · rw [e] at hk
      cases hk
  dir k hk := by
    rcases hu k with e | ⟨e, -⟩
    · exact h.dir k (e ▸ hk)
    · rw [e] at hk
      cases hk

theorem mem_of_file (h : Stocked l used kinds) {m : Mode} {file c : Bytes} (hname : name ≠ [])
    (hfile : m.Names (l.place name).stem file)
    (hk : kinds (file :: (l.place name).dir.key) = some (.file c)) : name ∈ used := by
  obtain ⟨other, hother, hne, m', g, hg, e⟩ := h.file _ c hk (FileStore.root_suffix_file l name file)
    (l.file_ne_root name file)
  have hsame := Belongs.name_eq (l.belongs hname hfile) (e ▸ l.belongs hne hg)
  exact hsame ▸ hother

/-! ### A chunk that is not blocked -/

theorem free (h : Stocked l used kinds) (hblocks : ∀ other ∈ used, other ≠ [] →
      (l.place other).stem :: l.shards other <:+ l.shards name →
        ∀ c, kinds ((l.place other).stem :: (l.place other).dir.key) ≠ some (.file c)) {k : Key}
    (hk : k <:+ l.shards name) (hroot : kinds l.root.key = some .dir) :
    kinds (k ++ l.root.key) = none ∨ kinds (k ++ l.root.key) = some .dir := by
  rcases hkind : kinds (k ++ l.root.key) with _ | _ | c
  · exact Or.inl rfl
  · exact Or.inr rfl
  · exfalso
    have hne : k ++ l.root.key ≠ l.root.key := by
      intro e
      rw [e, hroot] at hkind
      cases hkind
    obtain ⟨other, hother, hblank, m, file, hfile, e⟩ := h.file _ c hkind ⟨k, rfl⟩ hne
    rw [e] at hkind
    rw [l.key_dir_place, ← List.cons_append] at e
    obtain rfl := List.append_cancel_right e
    obtain ⟨digit, rfl, hdigit⟩ := Layout.mem_shards (hk.subset List.mem_cons_self)
    cases m with
    | plain =>
      have hstem : [digit] = (l.place other).stem := hfile
      rw [hstem] at hk hkind
      exact hblocks other hother hblank hk c hkind
    | counted =>
      obtain ⟨digits, hfile⟩ := hfile
      have hdot : Bytes.dot ∈ [digit] := by rw [hfile]; simp
      exact (Hex.ne_of_isDigit hdigit).1 (List.mem_singleton.mp hdot).symm

theorem shard_of_dir (h : Stocked l used kinds) {n : Bytes} (hk : kinds (n :: (l.place name).dir.key) = some .dir) :
    ∃ other ∈ used, n :: l.shards name <:+ l.shards other := by
  obtain ⟨other, hother, j, hj, e⟩ := h.dir _ hk (FileStore.root_suffix_file l name n) (l.file_ne_root name n)
  rw [l.key_dir_place, ← List.cons_append] at e
  obtain rfl := List.append_cancel_right e
  exact ⟨other, hother, hj⟩

/-- No directory has the name of the file of a plain chunk that does not block another one. -/
theorem noDir (h : Stocked l used kinds) (hblocks : ∀ other ∈ used, ¬ Blocks l.depth name other) :
    kinds ((l.place name).stem :: (l.place name).dir.key) ≠ some .dir := by
  intro hk
  obtain ⟨other, hother, hshards⟩ := h.shard_of_dir hk
  exact hblocks other hother (Layout.blocks_of_suffix hshards)

theorem unhidden (h : Stocked l used kinds) (name : Bytes) (i : Nat) :
    kinds (Staging.hiddenName i :: (l.place name).dir.key) = none := by
  have hhead := Staging.head?_hiddenName i
  rcases hkind : kinds (Staging.hiddenName i :: (l.place name).dir.key) with _ | _ | c
  · rfl
  · exfalso
    obtain ⟨other, -, hshards⟩ := h.shard_of_dir hkind
    obtain ⟨b, hb, hdigit⟩ := Layout.mem_shards (hshards.subset List.mem_cons_self)
    rw [hb, List.head?_cons, Option.some.injEq] at hhead
    exact (Hex.ne_of_isDigit hdigit).1 hhead
  · exfalso
    obtain ⟨other, -, hother, m, file, hfile, e⟩ := h.file _ c hkind
      (FileStore.root_suffix_file l name _) (l.file_ne_root name _)
    obtain ⟨rfl, -⟩ := List.cons.inj e
    exact hfile.head? (l.isStem_place hother) hhead

end Stocked

/-- What a store with the same root and number of levels does for one of the chunks, it does where these may lie. -/
theorem Layout.keeps_of_mem {l m : Layout} {used : List Bytes} {name : Bytes} (hroot : m.root.key = l.root.key)
    (hdepth : m.depth = l.depth) (hname : name ≠ []) (hmem : name ∈ used) (mode : Mode) :
    mode.Keeps (l.FileOf used) (l.ShardOf used) m name := by
  obtain ⟨hstem, hshards⟩ := Layout.place_eq_of_depth hdepth name
  refine ⟨fun file hfile _ _ => ?_, fun k hk => Or.inr fun _ _ => ⟨name, hmem, k, hshards ▸ hk, by rw [hroot]⟩⟩
  refine ⟨name, hmem, hname, mode, file, hstem ▸ hfile, ?_⟩
  rw [m.key_dir_place, l.key_dir_place, hroot, hshards]

section

variable [FileSystem]

/-! ### Operations that make no room for a chunk -/

namespace FileStore

variable {s : FileStore} {l : Layout} {name : Bytes} {w : Workspace}

omit [FileSystem] in
theorem settled_same (op : Operation) (name : Bytes) (a : Attempt FileStore) (h : (a.run w).2.tree = w.tree) :
    (a.settled op name s w).2.tree = w.tree := by
  rcases hr : a.run w with ⟨err | after, x⟩ <;> rw [hr] at h
  · rw [Attempt.settled_of_error hr]
    exact h
  · rw [Attempt.settled_of_ok hr]
    exact h

/-- **A call** of a chunk that is not found changes nothing if it stores nothing, and neither does one with a blank
name. -/
theorem call_unfound (hl : s.layout? = some l) {c : Call} (hname : name ∈ c.name?)
    (hidle : name = [] ∨ c.stored? = none ∧ ∀ e, s.mode.find (l.place name) w.tree ≠ .ok (some e)) :
    (c.run s w).2.tree = w.tree := by
  have hfound : ∀ e, name ≠ [] → c.stored? = none → s.mode.find (l.place name) w.tree ≠ .ok (some e) :=
    fun e hne _ => (hidle.resolve_left hne).2 e
  cases c with
  | store other content =>
    obtain rfl : other = name := Option.some.inj hname
    obtain rfl := hidle.resolve_right fun h => by cases h.1
    refine settled_same .store [] (s.store [] content) ?_
    have hrun := store_run hl [] content w
    rcases hr : (s.store [] content).run w with ⟨r, v⟩
    rw [hr] at hrun
    cases hrun with
    | emptyName => rfl
    | _ => contradiction
  | storeFile other source asked =>
    obtain rfl : other = name := Option.some.inj hname
    obtain rfl := hidle.resolve_right fun h => by cases h.1
    refine settled_same .storeFile [] (s.storeFile [] source asked) ?_
    have hrun := storeFile_run hl [] source asked w
    rcases hr : (s.storeFile [] source asked).run w with ⟨r, v⟩
    rw [hr] at hrun
    cases hrun with
    | emptyName | noSource | emptyContent => rfl
    | _ => contradiction
  | delete other =>
    obtain rfl : other = name := Option.some.inj hname
    refine settled_same .delete other (s.delete other) ?_
    have hrun := delete_run hl other w
    rcases hr : (s.delete other).run w with ⟨r, v⟩
    rw [hr] at hrun
    cases hrun with
    | emptyName | unreadable | absent => rfl
    | refused hname e hfind | dropped hname e hfind | removed hname e hfind =>
      exact absurd hfind (hfound e hname rfl)
  | getToFile other target =>
    obtain rfl : other = name := Option.some.inj hname
    refine (s.getToFile_tree other target w).trans ?_
    have hrun := getToFile_run hl other target w
    rcases hr : (s.getToFile other target).run w with ⟨r, v⟩
    rw [hr] at hrun
    cases hrun with
    | missing => rfl
    | same hname e hfind | uncopied hname e hfind | copied hname e hfind =>
      exact absurd hfind (hfound e hname rfl)
  | get other => exact s.get_tree other w
  | has other => exact s.has_tree other w
  | validate other => exact s.validate_tree other w
  | chunkSize other => exact s.chunkSize_tree other w
  | references other => exact s.references_tree other w
  | size | count | capacity | isEmpty | setCapacity | clear => cases hname

theorem moveTo_unfound (hl : s.layout? = some l)
    (h : name = [] ∨ ∀ e, s.mode.find (l.place name) w.tree ≠ .ok (some e)) (b : AnyStore) :
    (ChunkStore.moveTo s name b w).2.tree = w.tree := by
  have hmove := moveTo_run hl name b w
  rw [moveTo_apply]
  rcases hm : s.moveTo name b w with ⟨⟨r, b'⟩, x⟩
  rw [hm] at hmove
  cases hmove with
  | missing => rfl
  | refused hname e hfind | taken hname e hfind => exact absurd hfind (h.resolve_left hname e)

theorem chunkPath_unmade {create : Bool} (h : name = [] ∨ create = false) :
    (s.chunkPath name create w).2.tree = w.tree := by
  unfold chunkPath
  rw [Attempt.reported_tree, locate]
  rcases hl : s.layout? with _ | l
  · rw [Action.run_bind, run_uninitialized hl]
  · rw [Action.run_bind, run_layout hl]
    dsimp only
    rw [Action.run_bind, Action.run_except]
    by_cases hname : name = []
    · rw [Layout.locate, if_pos hname]
    · obtain rfl := h.resolve_left hname
      rw [locate_eq hname]
      dsimp only
      rw [if_neg Bool.false_ne_true, Action.run_bind, Action.run_file, Action.run_ask]
      rcases s.mode.find (l.place name) w.tree with f | _ | e <;> rfl

end FileStore

namespace AnyStore

variable {name : Bytes} {w : Workspace}

theorem store_blank (b : AnyStore) (content : Bytes) (w : Workspace) :
    (Sink.store b [] content w).2.tree = w.tree := by
  cases b with
  | file f =>
    have hrun : (Sink.store (AnyStore.file f) [] content w).2 = ((Call.store [] content).run f w).2 := rfl
    rw [hrun]
    rcases hl : f.layout? with _ | l
    · exact (FileStore.call_uninitialized hl _ w).2
    · exact FileStore.call_unfound hl rfl (Or.inl rfl)
  | memory m =>
    show (Sink.store m [] content w).2.tree = w.tree
    rw [MemoryStore.settled_store]
    rcases m.store [] content with e | after <;> rfl
  | fixed f => rfl

theorem moveTo_blank (a b : AnyStore) (w : Workspace) : (ChunkStore.moveTo a [] b w).2.tree = w.tree := by
  cases a with
  | file s =>
    rw [moveTo_file]
    rcases hl : s.layout? with _ | l
    · rw [FileStore.moveTo_apply, FileStore.moveTo_uninitialized hl]
      rfl
    · exact FileStore.moveTo_unfound hl (Or.inl rfl) b
  | memory m =>
    rw [moveTo_memory]
    simp only [ChunkStore.moveTo, MemoryStore.moveTo, MemoryStore.get, Action.bind_apply]
    rcases m.find? [] with _ | chunk
    · rfl
    · have hstore := b.store_blank chunk.content w
      rcases hsink : Sink.store b [] chunk.content w with ⟨⟨_ | _, b'⟩, x⟩ <;> rw [hsink] at hstore <;>
        simp only [Action.bind_apply, hsink] <;> exact hstore
  | fixed f => rw [moveTo_fixed]

end AnyStore

/-! ### Sessions -/

namespace Deed

/-- The names of the chunks for which a deed makes a store make room. -/
def makes (id : String) : Deed → List Bytes
  | start .. => []
  | call other c => if other = id then c.stored?.toList else []
  | moveTo source name sink => if sink = id ∧ source ≠ id then [name] else []
  | chunkPath other name create => if other = id ∧ create = true then [name] else []

/-- Nobody but one store takes a root that is not apart from the given one, the store takes it with the given number
of levels, and the paths that calls are given lead elsewhere. -/
def Spares (id : String) (l : Layout) : Deed → Prop
  | start other root depth => root.Avoids l.root.key ∧
      (other = id ∧ root.key = l.root.key ∧ depth = l.depth ∨ root.key.Apart l.root.key)
  | call _ c => ∀ p ∈ c.paths, ¬ l.root.key <:+ p.key
  | moveTo .. => True
  | chunkPath .. => True

end Deed

namespace Session

variable {id : String} {l : Layout} {s : Session} {used : List Bytes} {F D : Key → Prop}

/-- The roots of all stores but one are apart from the given one, and so is that of this one unless it is the given
one with the given number of levels. -/
def Seated (id : String) (l : Layout) (s : Session) : Prop :=
  ∀ other a m l', s.store? other = some a → a.seat? = some (m, l') →
    other = id ∧ l'.root.key = l.root.key ∧ l'.depth = l.depth ∨ l'.root.key.Apart l.root.key

/-- The sessions in which one store has a root for itself that was empty at first, with the names of the chunks that
it has made room for. -/
inductive Reserved (id : String) (l : Layout) : List Bytes → Session → Prop
  | empty {s : Session} (hs : Reach False s) (hseated : s.Seated id l)
      (hempty : ∀ k, l.root.key <:+ k → k ≠ l.root.key → s.workspace.tree.kind? k = none) : Reserved id l [] s
  | step {used : List Bytes} {s : Session} (hs : Reserved id l used s) (d : Deed) (hspares : d.Spares id l)
      (hfits : d.Fits False s) (hbounded : (d.run s).Bounded) : Reserved id l (d.makes id ++ used) (d.run s)

theorem Reserved.reach (h : Reserved id l used s) : Reach False s := by
  induction h with
  | empty hs => exact hs
  | step hs d hspares hfits hbounded ih => exact ih.step d hfits hbounded

theorem Seated.step (h : s.Seated id l) {d : Deed} (hd : d.Spares id l) : (d.run s).Seated id l := by
  intro other a' m l' ha' hl'
  obtain ⟨a, ha, hbecame⟩ := Deed.exists_became ha'
  rcases Deed.seat_of_became hbecame hl' with hl | ⟨rfl, -⟩
  · exact h other a m l' ha hl
  · exact hd.2

theorem Reserved.seated (h : Reserved id l used s) : s.Seated id l := by
  induction h with
  | empty hs hseated => exact hseated
  | step hs d hspares hfits hbounded ih => exact ih.step hspares

/-- What a store does for a chunk, it does at keys of `F` and `D`, as long as these contain all that is not below the
root and what the one store does for the chunk. -/
theorem Seated.keeps_of (h : s.Seated id l) (hgood : s.Good False) (hF : ∀ k, ¬ l.root.key <:+ k → F k)
    (hD : ∀ k, ¬ l.root.key <:+ k → D k) {other : String} {a : AnyStore} {name : Bytes} (ha : s.store? other = some a)
    (hown : ∀ m l', other = id → a.seat? = some (m, l') → l'.root.key = l.root.key → l'.depth = l.depth →
      m.Keeps F D l' name) : a.Keeps F D s.workspace.tree name := by
  intro m l' hl'
  obtain ⟨f, rfl, rfl, hlayout⟩ := AnyStore.file_of_seat hl'
  refine ⟨(hgood.inOrder other _ ha l' hlayout).lead, ?_⟩
  rcases h other _ _ l' ha hl' with ⟨hid, hroot, hdepth⟩ | hapart
  · exact hown f.mode l' hid hl' hroot hdepth
  · exact ⟨fun file _ => hF _ (hapart.not_suffix (FileStore.root_suffix_file l' name file)),
      fun k _ => Or.inr (hD _ (hapart.not_suffix ⟨k, rfl⟩))⟩

/-- What a store does for a chunk, it does where chunks with the given names may lie, as long as it has one of these
or the store has another root. -/
theorem Seated.keeps (h : s.Seated id l) (hgood : s.Good False) {other : String} {a : AnyStore} {name : Bytes}
    (ha : s.store? other = some a) (hname : name ≠ [])
    (hmem : ∀ m l', a.seat? = some (m, l') → l'.root.key = l.root.key → name ∈ used) :
    a.Keeps (l.FileOf used) (l.ShardOf used) s.workspace.tree name :=
  h.keeps_of hgood (fun _ hk hbelow => absurd hbelow hk) (fun _ hk hbelow => absurd hbelow hk) ha
    fun m l' _ hl' hroot hdepth => Layout.keeps_of_mem hroot hdepth hname (hmem m l' hl' hroot) m

/-- Otherwise the chunk is not found, and only the one store looks for it at the root. -/
theorem Seated.unkept (h : s.Seated id l) (hgood : s.Good False) (hstocked : Stocked l used s.workspace.tree.kind?)
    {other : String} {a : AnyStore} {name : Bytes} (ha : s.store? other = some a)
    (hno : ¬ a.Keeps (l.FileOf used) (l.ShardOf used) s.workspace.tree name) :
    ∃ f l', a = .file f ∧ f.layout? = some l' ∧ (name = [] ∨ other = id ∧ name ∉ used ∧
      ∀ e, f.mode.find (l'.place name) s.workspace.tree ≠ .ok (some e)) := by
  by_cases hname : name = []
  · simp only [AnyStore.Keeps, not_forall] at hno
    obtain ⟨m, l', hl', -⟩ := hno
    obtain ⟨f, rfl, -, hlayout⟩ := AnyStore.file_of_seat hl'
    exact ⟨f, l', rfl, hlayout, Or.inl hname⟩
  have hmem := fun hmem => hno (h.keeps hgood ha hname hmem)
  simp only [imp_false, not_forall] at hmem
  obtain ⟨m, l', hl', hroot, hunused⟩ := hmem
  obtain ⟨f, rfl, rfl, hlayout⟩ := AnyStore.file_of_seat hl'
  obtain ⟨hid, -, hdepth⟩ := (h other _ _ l' ha hl').resolve_right fun hapart => hapart.1 (hroot ▸ List.suffix_refl _)
  refine ⟨f, l', rfl, hlayout, Or.inr ⟨hid, hunused, fun e hfind => hunused ?_⟩⟩
  obtain ⟨hstem, hshards⟩ := Layout.place_eq_of_depth hdepth name
  have hlead := (hgood.inOrder other _ ha l' hlayout).lead
  obtain ⟨file, content, found⟩ :=
    Mode.find_eq_some (l'.dir_place_ne_blank (Layout.root_ne_blank hlead) name) (l'.isStem_place hname) hfind
  have hk := found.kind
  rw [l'.key_dir_place, hroot, hshards, ← l.key_dir_place] at hk
  exact hstocked.mem_of_file hname (hstem ▸ found.isFile.names) hk

/-- **One deed** changes files at keys of `F` and makes directories at keys of `D`, or it clears a store.  Whenever a
store that is asked for a chunk does not keep it at such keys, it must be the one with the root, it must not have to
make room for the chunk, and must not find it. -/
theorem Good.veiled_step (hgood : s.Good False) {d : Deed} (hspares : d.Spares id l)
    (hF : ∀ k, ¬ l.root.key <:+ k → F k) (hD : ∀ k, (l.root.key <:+ k → k = l.root.key) → D k)
    (hunkept : ∀ other a name, s.store? other = some a → ¬ a.Keeps F D s.workspace.tree name →
      ∃ f l', a = .file f ∧ f.layout? = some l' ∧ (name = [] ∨ other = id ∧ name ∉ d.makes id ∧
        ∀ e, f.mode.find (l'.place name) s.workspace.tree ≠ .ok (some e))) :
    Veiled F D s.workspace.tree.kind? (d.run s).workspace.tree.kind? ∨
      ∃ k, Pruned k s.workspace.tree (d.run s).workspace.tree := by
  have hsame : ∀ {u : Session}, u.workspace.tree = s.workspace.tree →
      Veiled F D s.workspace.tree.kind? u.workspace.tree.kind? := fun hu => hu ▸ .refl F D _
  have hran := d.ran s
  generalize d.run s = s' at hran ⊢
  cases hran with
  | idle => exact Or.inl (.refl F D _)
  | start other root depth a ha =>
    exact Or.inl (AnyStore.start_veiled (fun k hk => Or.inr (hD k (hspares.1 k hk))) depth)
  | call other c a ha =>
    by_cases hc : c = .clear
    · subst hc
      exact Or.inr (a.clear_pruned hgood.proper)
    left
    by_cases hkeeps : ∀ name ∈ c.name?, a.Keeps F D s.workspace.tree name
    · exact AnyStore.call_veiled hc hkeeps fun q hq => hF _ (hspares q (Call.alters_subset_paths hq))
    · simp only [not_forall] at hkeeps
      obtain ⟨name, hname, hno⟩ := hkeeps
      obtain ⟨f, l', rfl, hl', hidle⟩ := hunkept other a name ha hno
      refine hsame ?_
      rw [Call.run_file]
      refine FileStore.call_unfound hl' hname (hidle.imp_right fun ⟨hid, hunmade, hfind⟩ => ⟨?_, hfind⟩)
      refine (Call.stored?_eq_or hname).resolve_left fun hstored => hunmade ?_
      rw [Deed.makes, if_pos hid, hstored]
      simp
  | moveToSelf id name a ha => exact Or.inl (hsame (a.moveToSelf_tree name s.workspace))
  | moveTo source name sink a b hne ha hb =>
    left
    by_cases hname : name = []
    · subst hname
      exact hsame (a.moveTo_blank b s.workspace)
    by_cases hsource : a.Keeps F D s.workspace.tree name
    · by_cases hsink : b.Keeps F D s.workspace.tree name
      · exact AnyStore.moveTo_veiled hsource hsink
      · obtain ⟨f, l', -, -, hidle⟩ := hunkept sink b name hb hsink
        obtain ⟨rfl, hunmade, -⟩ := hidle.resolve_left hname
        refine absurd ?_ hunmade
        rw [Deed.makes, if_pos ⟨rfl, hne⟩]
        simp
    · obtain ⟨f, l', rfl, hl', hidle⟩ := hunkept source a name ha hsource
      refine hsame ?_
      rw [AnyStore.moveTo_file]
      exact FileStore.moveTo_unfound hl' (hidle.imp_right fun h => h.2.2) b
  | chunkPath other name create a ha =>
    left
    by_cases hkeeps : a.Keeps F D s.workspace.tree name
    · exact AnyStore.chunkPath_veiled hkeeps create
    · obtain ⟨f, l', rfl, -, hidle⟩ := hunkept other a name ha hkeeps
      refine hsame (FileStore.chunkPath_unmade (hidle.imp_right fun ⟨hid, hunmade, _⟩ => ?_))
      cases create with
      | false => rfl
      | true =>
        refine absurd ?_ hunmade
        rw [Deed.makes, if_pos ⟨hid, rfl⟩]
        simp

/-- **One deed** leaves nothing below the root but what the names need. -/
theorem Seated.stocked_step (h : s.Seated id l) (hgood : s.Good False)
    (hstocked : Stocked l used s.workspace.tree.kind?) {d : Deed} (hspares : d.Spares id l)
    (hmakes : d.makes id ⊆ used) : Stocked l used (d.run s).workspace.tree.kind? := by
  have hstep := hgood.veiled_step (F := l.FileOf used) (D := l.ShardOf used) hspares
    (fun k hk hbelow => absurd hbelow hk) (fun k hk hbelow hne => absurd (hk hbelow) hne) fun other a name ha hno => by
      obtain ⟨f, l', hfile, hl', hidle⟩ := h.unkept hgood hstocked ha hno
      exact ⟨f, l', hfile, hl', hidle.imp_right fun ⟨hid, hunused, hfind⟩ =>
        ⟨hid, fun hmade => hunused (hmakes hmade), hfind⟩⟩
  rcases hstep with hveiled | ⟨k, hpruned⟩
  · exact hstocked.veiled hveiled
  · exact hstocked.pruned hpruned

/-- **Every run** leaves nothing below the root but what the names need. -/
theorem Reserved.stocked (h : Reserved id l used s) : Stocked l used s.workspace.tree.kind? := by
  induction h with
  | empty hs hseated hempty => exact .of_empty hempty
  | step hs d hspares hfits hbounded ih =>
    exact hs.seated.stocked_step hs.reach.good (ih.mono (List.subset_append_right _ _)) hspares
      (List.subset_append_left _ _)

end Session

end

/-! ### What can be done with a chunk that is not there -/

/-- If the file of a chunk lies on the way to another one, its path is within the limits if that of the other one
is. -/
theorem Layout.spells_of_suffix {l : Layout} {a b : Bytes} (hb : b ≠ [])
    (h : (l.place a).stem :: l.shards a <:+ l.shards b) (hspells : Mode.plain.Spells (l.place b)) :
    Mode.plain.Spells (l.place a) := by
  have hlong := Mode.spells_dir (l.isStem_place hb) hspells
  rw [l.dir_place] at hlong
  have hshort := Path.isTooLong_below (fun x hx => (isName_of_mem_shards hx).1) h hlong
  rw [Path.below, ← l.dir_place] at hshort
  exact ⟨hshort, (isName_of_mem_shards (h.subset List.mem_cons_self)).2.2⟩

namespace FileStore

variable {s : FileStore} {l : Layout} {used : List Bytes} {name content : Bytes} {t : Tree} {w : Workspace}

/-- A chunk that a plain store does not hold, with a path within the limits, of whose names that block it the store
holds none. -/
structure Wanting (s : FileStore) (l : Layout) (used : List Bytes) (t : Tree) (name : Bytes) : Prop where
  layout : s.layout? = some l
  plain : s.mode = .plain
  lead : t.leadsToDir l.root = true
  stocked : Stocked l used t.kind?
  ne_blank : name ≠ []
  spells : Mode.plain.Spells (l.place name)
  absent : s.held? t name = none
  blocks : ∀ other ∈ used, Blocks l.depth other name → s.held? t other = none

namespace Wanting

theorem noFile (h : Wanting s l used t name) {other : Bytes} (hother : other ≠ [])
    (hspells : Mode.plain.Spells (l.place other)) (hnone : s.held? t other = none) (c : Bytes) :
    t.kind? ((l.place other).stem :: (l.place other).dir.key) ≠ some (.file c) := by
  intro hk
  have hsingle : s.mode.Single l.root.key t.kind? := h.plain ▸ Mode.single_plain _ _
  have hholds : s.mode.Holds (l.place other) t.kind? ⟨c, 1⟩ := by
    rw [h.plain]
    exact ⟨hspells, _, ⟨rfl, rfl⟩, hk⟩
  rw [(held?_eq_some_iff h.layout hother h.lead hsingle).mpr hholds] at hnone
  cases hnone

theorem free (h : Wanting s l used t name) {k : Key} (hk : k <:+ l.shards name) :
    t.kind? (k ++ l.root.key) = none ∨ t.kind? (k ++ l.root.key) = some .dir := by
  refine h.stocked.free (fun other hused hother hsuffix => ?_) hk (Tree.leadsToDir_iff.mp h.lead).2.2
  exact h.noFile hother (Layout.spells_of_suffix h.ne_blank hsuffix h.spells)
    (h.blocks other hused (Layout.blocks_of_suffix hsuffix))

theorem find (h : Wanting s l used t name) : s.mode.find (l.place name) t = .ok none := by
  refine Layout.find_of_free h.lead h.ne_blank (by rw [h.plain]; exact h.spells) ?_ fun _ => h.free
  rw [h.plain]
  rintro file count content ⟨rfl, -⟩
  exact h.noFile h.ne_blank h.spells h.absent content

theorem delete [FileSystem] (h : Wanting s l used w.tree name) : (ChunkStore.delete s name w).1.1 = true := by
  have hrun := delete_run h.layout name w
  rcases hr : (s.delete name).run w with ⟨r, v⟩
  rw [hr] at hrun
  have hfind := h.find
  cases hrun with
  | emptyName hname => exact absurd hname h.ne_blank
  | absent => exact congrArg (fun x => x.1.1) (Attempt.settled_of_ok hr)
  | unreadable hname f h0 => simp [hfind] at h0
  | refused hname e h0 | dropped hname e h0 | removed hname e h0 => simp [hfind] at h0

/-- It is stored, if it blocks none of the others and nothing below the root is shut. -/
theorem store [FileSystem] (h : Wanting s l used w.tree name) (hopen : FileSystem.Free l.root.key)
    (hblocks : ∀ other ∈ used, ¬ Blocks l.depth name other)
    (hhidden : ((l.place name).dir.join (Staging.hiddenName 0)).isTooLong = false) (hcontent : content ≠ [])
    (hroom : s.tracker.ensureRoom content.length = .ok ()) :
    ∃ s' v, (s.store name content).run w = (.ok s', v) := by
  have hlong := Mode.spells_dir (l.isStem_place h.ne_blank) h.spells
  obtain ⟨x, hmade, hdir⟩ := Layout.makeDirs_of_free hopen h.lead hlong fun _ => h.free
  have hstocked : Stocked l (name :: used) x.tree.kind? :=
    (h.stocked.mono (List.subset_cons_self name used)).veiled
      (grown_veiled (Layout.keeps_of_mem rfl rfl h.ne_blank List.mem_cons_self s.mode) h.lead (makeDirs_grown hmade))
  have hno : x.tree.kind? ((l.place name).stem :: (l.place name).dir.key) ≠ some .dir := by
    refine hstocked.noDir fun other hother => ?_
    rcases List.mem_cons.mp hother with rfl | hother
    · exact fun hself => hself.2.1 rfl
    · exact hblocks other hother
  have htarget : x.tree.Admits (s.mode.path (l.place name) 1) := by
    rw [h.plain]
    exact Layout.admits_of_noDir hdir h.ne_blank h.spells.1 h.spells.2 hno
  have hplace := Layout.admits_hidden_of_none hdir hhidden (hstocked.unhidden name 0)
  have haccepts := Accepts.of_none h.ne_blank (hopen _ (root_suffix_dir l name)).1 h.find hroom hmade hplace htarget
  exact haccepts.store h.layout (Layout.root_ne_blank h.lead) h.ne_blank
    hcontent

theorem get [FileSystem] (h : Wanting s l used w.tree name) {s' : FileStore} {v : Workspace}
    (hstore : (s.store name content).run w = (.ok s', v)) : (ChunkStore.get s' name v).1 = content := by
  have hroot := Layout.root_ne_blank h.lead
  obtain ⟨-, -, htook⟩ := store_took h.layout hroot hstore
  have hsettings := store_settings hstore
  have hl' : s'.layout? = some l := by rw [hsettings]; exact h.layout
  have hrooted : s'.Rooted := by
    intro k hk
    rw [hl'] at hk
    cases hk
    exact hroot
  have hlead' := Tree.leadsToDir_mono h.lead (htook.frame h.ne_blank).dir
  have hsingle : ∀ kinds, s.mode.Single l.root.key kinds := fun kinds => h.plain ▸ Mode.single_plain _ kinds
  have hheld := htook.held_self h.layout h.ne_blank h.lead (hsingle _)
    (fun e hmode => by rw [h.plain] at hmode; cases hmode) hlead' (hsingle _) fun _ _ _ _ => Iff.rfl
  rw [get_answer hrooted (legible_plain hrooted (by rw [hsettings]; exact h.plain) name v.tree), hheld, h.absent]
  rfl

end Wanting

end FileStore

/-! ### Sessions -/

namespace Session

variable {id : String} {l m : Layout} {s : Session} {used : List Bytes} {f : FileStore} {name : Bytes}

theorem call_file [FileSystem] (hf : s.store? id = some (.file f)) (c : Call) :
    call id c s = (some (c.run f s.workspace).1.1,
      ({ s with workspace := (c.run f s.workspace).2 } : Session).put id (.file (c.run f s.workspace).1.2)) := by
  rw [call, runOn_apply _ hf, Call.run_file]

/-- What a store with a root for itself wants of a chunk that it does not hold. -/
theorem Reserved.wanting [FileSystem] (h : Reserved id l used s) (hf : s.store? id = some (.file f))
    (hm : f.layout? = some m)
    (hroot : m.root.key = l.root.key) (hplain : f.mode = .plain) (hname : name ≠ [])
    (hspells : Mode.plain.Spells (m.place name)) (habsent : (ChunkStore.has f name s.workspace).1 = false)
    (hblocks : ∀ other ∈ used, Blocks m.depth other name → (ChunkStore.has f other s.workspace).1 = false) :
    f.Wanting m used s.workspace.tree name := by
  have hlead := (h.reach.good.inOrder id _ hf m hm).lead
  have hrooted : f.Rooted := by
    intro k hk
    rw [hm] at hk
    cases hk
    exact Layout.root_ne_blank hlead
  have hheld : ∀ other, (ChunkStore.has f other s.workspace).1 = false → f.held? s.workspace.tree other = none := by
    intro other hno
    rw [FileStore.has_answer hrooted, Option.isSome_eq_false_iff, Option.isNone_iff_eq_none] at hno
    exact hno
  obtain ⟨-, -, hdepth⟩ := (h.seated id _ f.mode m hf (AnyStore.seat_file hm)).resolve_right fun hapart =>
    hapart.1 (hroot ▸ List.suffix_refl _)
  exact ⟨hm, hplain, hlead, h.stocked.relaid hroot hdepth, hname, hspells, hheld name habsent,
    fun other hother hblock => hheld other (hblocks other hother hblock)⟩

theorem Reserved.bare [FileSystem] (id : String) (l : Layout) (counting : Bool) (hasher : Hasher) :
    Reserved id l [] ⟨[(id, .file (.new counting hasher))], .bare⟩ := by
  have hstore : ∀ other a, store? ⟨[(id, .file (.new counting hasher))], .bare⟩ other = some a →
      a = .file (.new counting hasher) := by
    intro other a ha
    have hmem := Table.mem_of_lookup ha
    simp only [List.mem_singleton, Prod.mk.injEq] at hmem
    exact hmem.2
  refine .empty (.fresh (fun other a ha => ?_) fun n k hn => absurd (Tree.kind?_bare n k) hn) ?_ ?_
  · rw [hstore other a ha]
    exact ⟨_, _, rfl⟩
  · intro other a m l' ha hl'
    rw [hstore other a ha] at hl'
    cases hl'
  · intro k hk hne
    cases k with
    | nil => exact absurd (List.suffix_nil.mp hk).symm hne
    | cons n k => exact Tree.kind?_bare n k

end Session

/-- **A chunk depends on its name alone, but for names in its way.**  Take a plain store with unlimited capacity that
has a root for itself which was empty at first, after any run, and a name that is not blank, that the store does not
have, and whose paths are within the limits.  If the store has no chunk whose name blocks this one, deleting the chunk
is answered with yes.  If moreover this name blocks none that the store has ever made room for, and nothing below the
root is shut, a content can be stored under it and is read back. -/
theorem name_is_free [FileSystem] {id : String} {l m : Layout} {used : List Bytes} {s : Session}
    (h : Session.Reserved id l used s) {f : FileStore} (hf : s.store? id = some (.file f)) (hm : f.layout? = some m)
    (hroot : m.root.key = l.root.key) (hplain : f.mode = .plain) (hcapacity : ChunkStore.capacity f = 0)
    {name : Bytes} (hname : name ≠ []) (habsent : (ChunkStore.has f name s.workspace).1 = false)
    (hspells : Mode.plain.Spells (m.place name))
    (hhidden : ((m.place name).dir.join (Staging.hiddenName 0)).isTooLong = false)
    (hblocks : ∀ other ∈ used, Blocks m.depth other name → (ChunkStore.has f other s.workspace).1 = false) :
    (Session.call id (.delete name) s).1 = some (.truth true) ∧
      (FileSystem.Free l.root.key → (∀ other ∈ used, ¬ Blocks m.depth name other) → ∀ content, content ≠ [] →
        (Session.call id (.store name content) s).1 = some (.truth true) ∧
          (Session.call id (.get name) (Session.call id (.store name content) s).2).1 = some (.bytes content)) := by
  have hwanting := h.wanting hf hm hroot hplain hname hspells habsent hblocks
  refine ⟨?_, fun hopen hfree content hcontent => ?_⟩
  · rw [Session.call_file hf]
    exact congrArg (some ∘ Answer.truth) hwanting.delete
  · have hroom : f.tracker.ensureRoom content.length = .ok () := by
      have hzero : f.tracker.capacity = 0 := hcapacity
      simp [Tracker.ensureRoom, Tracker.hasRoom, hzero]
    obtain ⟨f', v, hstore⟩ := hwanting.store (hroot ▸ hopen) hfree hhidden hcontent hroom
    have hrun : (Call.store name content).run f s.workspace = ((.truth true, f'), v) := by
      show Call.changing (Attempt.settled .store name f (f.store name content)) s.workspace = _
      rw [Call.changing, Action.bind_apply, Attempt.settled_of_ok hstore]
      rfl
    have hafter : (({ s with workspace := v } : Session).put id (.file f')).store? id = some (.file f') := by
      rw [Session.store?_put, if_pos rfl]
    rw [Session.call_file hf, hrun, Session.call_file hafter]
    exact ⟨rfl, congrArg (some ∘ Answer.bytes) (hwanting.get hstore)⟩

namespace Trial

/-- A new plain store. -/
def bareShelf : Session := ⟨[("p", .file (.new false (.ofDigest id)))], .bare⟩

/-- It has a root with five levels, has stored a chunk with a name of one byte, and one with a name of two bytes that
it has deleted again. -/
def shelved : Session :=
  [.start "p" (Path.ofText "r") 5, .call "p" (.store [171] [120]), .call "p" (.store [205, 239] [121]),
    .call "p" (.delete [205, 239])].foldl Deed.run bareShelf

theorem bareShelf_reserved : Session.Reserved "p" ⟨Path.ofText "r", 5⟩ [] bareShelf := .bare "p" _ false _

theorem shelved_reserved : Session.Reserved "p" ⟨Path.ofText "r", 5⟩ [[205, 239], [171]] shelved := by
  have hspares : ∀ c : Call, c.paths = [] → Deed.Spares "p" ⟨Path.ofText "r", 5⟩ (.call "p" c) := by
    intro c hc p hp
    rw [hc] at hp
    cases hp
  have hrooted := bareShelf_reserved.step (.start "p" (Path.ofText "r") 5)
    ⟨by decide +kernel, Or.inl ⟨rfl, rfl, rfl⟩⟩
    (Session.fits_start False 5 (FileSystem.free_lenient _) (by decide +kernel) (by decide +kernel) (by decide +kernel))
    (Session.bounded_of_forall (by decide +kernel))
  have hone := hrooted.step (.call "p" (.store [171] [120])) (hspares _ rfl)
    (Session.fits_store False _ (by decide +kernel)) (Session.bounded_of_forall (by decide +kernel))
  have htwo := hone.step (.call "p" (.store [205, 239] [121])) (hspares _ rfl)
    (Session.fits_store False _ (by decide +kernel)) (Session.bounded_of_forall (by decide +kernel))
  exact htwo.step (.call "p" (.delete [205, 239])) (hspares _ rfl)
    ⟨fun _ _ _ _ hp => absurd hp List.not_mem_nil, fun _ _ _ h => absurd h (by simp [Call.stored?])⟩
    (Session.bounded_of_forall (by decide +kernel))

end Trial

/-- A plain store with five levels has a chunk with the name `ab`, in hexadecimal, and has deleted one with the name
`cdef`.  Neither is in the way of the name `ef01`. -/
theorem name_is_free_trial :
    (Session.call "p" (.delete [239, 1]) Trial.shelved).1 = some (.truth true) ∧
    (Session.call "p" (.store [239, 1] [122]) Trial.shelved).1 = some (.truth true) ∧
    (Session.call "p" (.get [239, 1]) (Session.call "p" (.store [239, 1] [122]) Trial.shelved).2).1 =
      some (.bytes [122]) := by
  obtain ⟨f, hf, hm⟩ := Session.file_of_layout
    (show (Trial.shelved.store? "p").bind AnyStore.layout? = some ⟨Path.ofText "r", 5⟩ by decide +kernel)
  have hmode : (Trial.shelved.store? "p").bind AnyStore.mode? = some .plain := by decide +kernel
  have hcapacity : ∀ a ∈ Trial.shelved.store? "p", ChunkStore.capacity a = 0 := by decide +kernel
  have habsent : ∀ a ∈ Trial.shelved.store? "p", (ChunkStore.has a [239, 1] Trial.shelved.workspace).1 = false := by
    decide +kernel
  rw [hf] at hmode
  obtain ⟨hdelete, hstore⟩ := name_is_free Trial.shelved_reserved hf hm rfl (Option.some.inj hmode)
    (hcapacity _ hf) (by decide) (habsent _ hf) (by decide +kernel) (by decide +kernel) fun other hother hblock =>
      absurd hblock ((by decide +kernel :
        ∀ other ∈ ([[205, 239], [171]] : List Bytes), ¬ Blocks 5 other [239, 1]) other hother)
  exact ⟨hdelete, hstore (FileSystem.free_lenient _) (by decide +kernel) [122] (by decide)⟩

/-- A chunk whose name blocks another one keeps it from being deleted and stored; one whose name blocks another one
that was stored and deleted cannot be stored. -/
theorem name_is_blocked :
    Session.Reserved "p" ⟨Path.ofText "r", 5⟩ [[205, 239], [171]] Trial.shelved ∧
    (Session.call "p" (.has [171, 205]) Trial.shelved).1 = some (.truth false) ∧
    (Session.call "p" (.delete [171, 205]) Trial.shelved).1 = some (.truth false) ∧
    (Session.call "p" (.store [171, 205] [122]) Trial.shelved).1 = some (.truth false) ∧
    (Session.call "p" (.has [205]) Trial.shelved).1 = some (.truth false) ∧
    (Session.call "p" (.store [205] [122]) Trial.shelved).1 = some (.truth false) :=
  ⟨Trial.shelved_reserved, by decide +kernel, by decide +kernel, by decide +kernel, by decide +kernel,
    by decide +kernel⟩

end ContentStore
