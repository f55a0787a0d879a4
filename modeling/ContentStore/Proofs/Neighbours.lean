import ContentStore.Proofs.Confined
import ContentStore.Proofs.Undisturbed

/-!
# Neighbours below one root

Stores that count references and stores that do not may share a root (`Neighbours`).  As long as each name has more
digits than there are levels, the chunk files of one side are foreign for the other (`ChunkKey.foreign`), and they
are never where a directory has to be (`ChunkKey.not_shardKey`).  What a deed of one side relies on is therefore
kept free by the other side, and the side reckons with what the deed does (`Fits.clear`, `Fits.within`), so that
each side goes on as if it were alone (`Abreast.step`).  With that the main result, `others_unnoticed`, covers files
of strangers and stores of the other mode.
-/

namespace ContentStore

/-! ### Where chunks and the directories above them may be -/

/-- The file of a chunk may be at a key below a directory, where the names of the directories between them and the
stem have more than `n` digits together. -/
def Mode.ChunkKey (m : Mode) (d : Key) (n : Nat) (k : Key) : Prop :=
  ∃ j stem file, isStem stem = true ∧ m.Names stem file ∧ n < j.length + stem.length ∧ k = file :: (j ++ d)

/-- One of the directories of single digits may be at a key, at most `n` levels below a directory. -/
def ShardKey (d : Key) (n : Nat) (k : Key) : Prop :=
  ∃ j, j ≠ [] ∧ j.length ≤ n ∧ (∀ x ∈ j, x.length = 1) ∧ k = j ++ d

namespace Mode

variable {m m' : Mode} {d k : Key} {n : Nat}

theorem length_le_of_names {stem file : Bytes} (h : m.Names stem file) : stem.length ≤ file.length := by
  cases m with
  | plain =>
    obtain rfl : file = stem := h
    exact Nat.le_refl _
  | counted =>
    obtain ⟨digits, rfl⟩ := h
    simp

theorem ChunkKey.below (h : m.ChunkKey d n k) : d <:+ k ∧ k ≠ d := by
  obtain ⟨j, stem, file, -, -, -, rfl⟩ := h
  refine ⟨⟨file :: j, rfl⟩, fun e => ?_⟩
  have hlen := congrArg List.length e
  rw [List.length_cons, List.length_append] at hlen
  omega

/-- No chunk file is where a directory may be: its name would be one digit, and there are too few of them above. -/
theorem ChunkKey.not_shardKey (h : m.ChunkKey d n k) : ¬ ShardKey d n k := by
  rintro ⟨i, -, hdeep, hsingle, hi⟩
  obtain ⟨j, stem, file, -, hnames, hlong, rfl⟩ := h
  obtain rfl : file :: j = i := List.append_cancel_right hi
  have hfile := hsingle file List.mem_cons_self
  have hstem := length_le_of_names hnames
  rw [List.length_cons] at hdeep
  omega

/-- A chunk file of one mode is foreign for the other. -/
theorem ChunkKey.foreign (h : m.ChunkKey d n k) (hne : m ≠ m') (e : Key) : m'.Foreign e k := by
  obtain ⟨j, stem, file, hs, hnames, -, rfl⟩ := h
  intro _ x hx
  obtain rfl : file = x := Option.some.inj hx
  by_contra hclassify
  obtain ⟨count, hcount⟩ := Option.ne_none_iff_exists'.mp hclassify
  obtain ⟨stem', hs', hfile⟩ := classify_eq_some_iff.mp hcount
  exact hne (Names.inj hs hs' hnames hfile.names).1

end Mode

namespace Layout

variable {l : Layout} {name file : Bytes} {m : Mode} {d j : Key} {n : Nat}

theorem length_shards_add (l : Layout) (name : Bytes) :
    (l.shards name).length + (l.place name).stem.length = (Hex.encode name).length := by
  simp only [shards, place, List.length_reverse, List.length_map, List.length_take, List.length_drop]
  omega

theorem ne_nil_of_long (h : n < (Hex.encode name).length) : name ≠ [] := by
  rintro rfl
  exact absurd h (Nat.not_lt_zero n)

theorem chunkKey (hroot : l.root.key = d) (hlong : n < (Hex.encode name).length)
    (hnames : m.Names (l.place name).stem file) : m.ChunkKey d n (file :: (l.place name).dir.key) :=
  ⟨l.shards name, _, file, l.isStem_place (ne_nil_of_long hlong), hnames, by rwa [l.length_shards_add],
    by rw [l.key_dir_place, hroot]⟩

theorem shardKey (hdepth : l.depth ≤ n) (hj : j <:+ l.shards name) (hne : j ≠ []) : ShardKey d n (j ++ d) := by
  refine ⟨j, hne, hj.length_le.trans ((l.length_shards_le name).trans hdepth), fun x hx => ?_, rfl⟩
  obtain ⟨b, rfl, -⟩ := mem_shards (hj.subset hx)
  rfl

end Layout

/-! ### Two sides -/

/-- Stores that share a root: the mode of each of them, which says on which side it is, the keys of the files that
each side is given and may change, the root, below which nothing is shut, and the number of levels of directories
that no store exceeds.  A file that is given and lies below the root is no chunk for the other side, and is not where
a directory may be. -/
structure Neighbours [FileSystem] where
  side : String → Mode
  given : Mode → Key → Prop
  root : Key
  levels : Nat
  free : FileSystem.Free root
  apart : ∀ m k, given m k → root <:+ k →
    k ≠ root ∧ ¬ ShardKey root levels k ∧ ∀ m', m' ≠ m → m'.Foreign root k

section

variable [FileSystem]

namespace Neighbours

variable (N : Neighbours) {m m' : Mode} {l : Layout} {name : Bytes} {k : Key}

/-- The stores on a side. -/
def own (m : Mode) (id : String) : Prop := N.side id = m

/-- Where a side may change files: its chunks, and what it is given. -/
def Has (m : Mode) (k : Key) : Prop := N.given m k ∨ m.ChunkKey N.root N.levels k

/-- Where the other side may change files. -/
def files (m : Mode) (k : Key) : Prop := ∃ m', m' ≠ m ∧ N.Has m' k

/-- Where both sides may make directories. -/
def dirs (k : Key) : Prop := ShardKey N.root N.levels k

/-- A store on a side has the mode of the side, the root, and no more than the levels. -/
structure Sits (side m : Mode) (l : Layout) : Prop where
  mode : m = side
  root : l.root.key = N.root
  depth : l.depth ≤ N.levels

variable {N}

theorem foreign (hk : N.files m k) : m.Foreign N.root k := by
  obtain ⟨m', hne, hgiven | hchunk⟩ := hk
  · exact fun hbelow => (N.apart m' k hgiven hbelow).2.2 m (Ne.symm hne) hbelow
  · exact hchunk.foreign hne N.root

theorem not_dir_of_files (hk : N.files m k) (hbelow : N.root <:+ k) : k ≠ N.root ∧ ¬ N.dirs k := by
  obtain ⟨m', -, hgiven | hchunk⟩ := hk
  · exact ⟨(N.apart m' k hgiven hbelow).1, (N.apart m' k hgiven hbelow).2.1⟩
  · exact ⟨hchunk.below.2, hchunk.not_shardKey⟩

/-- **What a store needs is kept free** by the other side. -/
theorem Sits.reserves (h : N.Sits m m' l) (hlong : N.levels < (Hex.encode name).length)
    (hspells : m'.Spells (l.place name)) : m'.Reserves (N.files m) N.dirs l name where
  shard j hj hfile := by
    rw [h.root] at hfile
    obtain ⟨hroot, hdir⟩ := not_dir_of_files hfile ⟨j, rfl⟩
    by_cases hne : j = []
    · exact hroot (by rw [hne, List.nil_append])
    · exact hdir (Layout.shardKey h.depth hj hne)
  level := Or.inr ⟨hspells, h.root ▸ N.free⟩
  file file n hfile := by
    refine ⟨fun hother => ?_, (Layout.chunkKey h.root hlong hfile.names).not_shardKey⟩
    have hforeign := foreign hother
    rw [← h.mode, ← h.root] at hforeign
    exact hforeign.ne (FileStore.root_suffix_dir l name) (l.isStem_place (Layout.ne_nil_of_long hlong)) hfile rfl

/-- **What a store does for a chunk** the other side reckons with. -/
theorem Sits.keeps {other : Mode} (h : N.Sits m m' l) (hne : m ≠ other)
    (hlong : N.levels < (Hex.encode name).length) : m'.Keeps (N.files other) N.dirs l name where
  file file hnames := ⟨m', h.mode ▸ hne, Or.inr (Layout.chunkKey h.root hlong hnames)⟩
  shard j hj := by
    by_cases hnil : j = []
    · exact Or.inl hnil
    · rw [h.root]
      exact Or.inr (Layout.shardKey h.depth hj hnil)

end Neighbours

/-! ### Deeds of two sides -/

namespace Deed

/-- The store that a deed is asked of. -/
def actor : Deed → String
  | start id _ _ | call id _ | moveTo id _ _ | chunkPath id _ _ => id

variable {own : String → Prop} {F D : Key → Prop} {s : Session} {d : Deed}

theorem store?_run (hd : d.Clear own F D s) {id : String} (hid : ¬ own id) (u : Session) :
    (d.run u).store? id = u.store? id := by
  have hne : ∀ {other}, own other → id ≠ other := fun hother e => hid (e ▸ hother)
  have hput : ∀ {other} (v : Session) (a : AnyStore), own other → (v.put other a).store? id = v.store? id :=
    fun v a hother => (Session.store?_put v _ _ a).trans (if_neg (hne hother))
  have hran := d.ran u
  generalize d.run u = u' at hran ⊢
  cases hran with
  | idle => rfl
  | start | call | moveToSelf | chunkPath => exact hput _ _ hd.1
  | moveTo => exact (hput _ _ hd.2.1).trans (hput _ _ hd.1)

end Deed

namespace Neighbours

variable (N : Neighbours)

/-- All stores on a side that have a root sit at the one that is shared. -/
def Seated (m : Mode) (s : Session) : Prop :=
  ∀ id a m' l, N.own m id → s.store? id = some a → a.seat? = some (m', l) → N.Sits m m' l

/-- The name of a chunk has more digits than there are levels, and the chunk can be looked for. -/
def Suits (s : Session) (id : String) (name : Bytes) : Prop :=
  N.levels < (Hex.encode name).length ∧
    ∀ a m l, s.store? id = some a → a.seat? = some (m, l) → m.Spells (l.place name)

/-- What a deed of one of the sides relies on.  A root that is taken is the one that is shared, it is there, and no
directory below it holds two files of one chunk.  The paths that are given pass nothing that the other side may change
and no directory that may not be there, files that are changed are such as this side may change, and no chunk is
written to a file that this side knows for one.  A reference that is taken can be counted. -/
def Fits (s : Session) : Deed → Prop
  | .start id root depth => root.key = N.root ∧ depth ≤ N.levels ∧
      s.workspace.tree.leadsToDir root = true ∧ ∀ f, s.store? id = some (.file f) →
        f.mode = N.side id ∧ f.mode.Single N.root s.workspace.tree.kind?
  | .call id c => c ≠ .clear ∧
      (∀ q ∈ c.paths, q.Clear (N.files (N.side id)) N.dirs s.workspace.tree.kind? ∧ ¬ N.files (N.side id) q.key) ∧
      (∀ q ∈ c.alters, N.Has (N.side id) q.key) ∧ (∀ q ∈ c.target?, (N.side id).Foreign N.root q.key) ∧
      (∀ name ∈ c.name?, N.Suits s id name) ∧
        ∀ a, s.store? id = some a → ∀ name ∈ c.stored?, a.CanShare s.workspace.tree name
  | .moveTo id name sinkId => N.side sinkId = N.side id ∧ N.Suits s id name ∧ N.Suits s sinkId name ∧
      (id ≠ sinkId → ∀ b, s.store? sinkId = some b → b.CanShare s.workspace.tree name)
  | .chunkPath id name _ => N.Suits s id name

variable {N} {m : Mode} {s u : Session} {d : Deed} {id : String} {name : Bytes} {a : AnyStore}

theorem Suits.reserves (h : N.Suits s id name) (hseated : N.Seated (N.side id) s) (ha : s.store? id = some a) :
    a.Reserves (N.files (N.side id)) N.dirs name := by
  rintro f l rfl hl -
  have hseat := AnyStore.seat_file hl
  exact (hseated id _ _ l rfl ha hseat).reserves h.1 (h.2 _ _ l ha hseat)

theorem Suits.keeps {other : Mode} (h : N.Suits s id name) (hseated : N.Seated (N.side id) s)
    (hs : s.Secluded (N.own (N.side id)) (N.files (N.side id))) (hne : N.side id ≠ other)
    (ha : s.store? id = some a) : a.Keeps (N.files other) N.dirs s.workspace.tree name := by
  intro m l hl
  exact ⟨(hs id a rfl ha m l hl).1, (hseated id a m l rfl ha hl).keeps hne h.1⟩

/-- **What a deed relies on** is kept free by the other side. -/
theorem Fits.clear (h : N.Fits s d) (hseated : N.Seated (N.side d.actor) s) :
    d.Clear (N.own (N.side d.actor)) (N.files (N.side d.actor)) N.dirs s := by
  cases d with
  | start id root depth =>
    obtain ⟨hroot, -, hlead, hfile⟩ := h
    refine ⟨rfl, fun k hk => Or.inl (Tree.isDir_of_leadsToDir hlead hk), fun f hf => ?_⟩
    obtain ⟨hmode, hsingle⟩ := hfile f hf
    rw [hroot]
    refine ⟨fun k hk => ?_, hsingle⟩
    rw [hmode]
    exact foreign hk
  | call id c =>
    obtain ⟨hc, hpaths, -, htarget, hname, hshare⟩ := h
    refine ⟨rfl, hc, hpaths, fun q hq m e => ?_,
      fun a ha => ⟨fun name hn => (hname name hn).reserves hseated ha, hshare a ha⟩⟩
    rintro ⟨other, a, l, hother, ha, hl, rfl⟩
    have hsits := hseated other a m l hother ha hl
    rw [hsits.mode, hsits.root]
    exact htarget q hq
  | moveTo id name sinkId =>
    obtain ⟨hside, hsuits, hsinkSuits, hshare⟩ := h
    refine ⟨rfl, hside, fun a ha => hsuits.reserves hseated ha, fun hne b hb => ⟨?_, hshare hne b hb⟩⟩
    have hreserves := hsinkSuits.reserves (a := b) (by rwa [hside]) hb
    rwa [hside] at hreserves
  | chunkPath id name create => exact ⟨rfl, fun a ha => h.reserves hseated ha⟩

/-- **What a deed does** the other side reckons with. -/
theorem Fits.within {other : Mode} (h : N.Fits s d) (hseated : N.Seated (N.side d.actor) s)
    (hs : s.Secluded (N.own (N.side d.actor)) (N.files (N.side d.actor))) (hne : N.side d.actor ≠ other) :
    d.Within (N.files other) N.dirs s := by
  cases d with
  | start id root depth =>
    exact fun k hk => Or.inl (Tree.isDir_of_leadsToDir h.2.2.1 hk)
  | call id c =>
    obtain ⟨hc, -, halters, -, hname, -⟩ := h
    exact ⟨hc, fun q hq => ⟨_, hne, halters q hq⟩,
      fun a ha name hn => (hname name hn).keeps hseated hs hne ha⟩
  | moveTo id name sinkId =>
    obtain ⟨hside, hsuits, hsinkSuits, -⟩ := h
    intro other a hother ha
    rcases hother with rfl | rfl
    · exact hsuits.keeps hseated hs hne ha
    · exact hsinkSuits.keeps (by rwa [hside]) (by rwa [hside]) (by rwa [hside]) ha
  | chunkPath id name create => exact fun a ha => h.keeps hseated hs hne ha

theorem Fits.seated (h : N.Fits s d) (hseated : N.Seated (N.side d.actor) s)
    (hs : s.Secluded (N.own (N.side d.actor)) (N.files (N.side d.actor))) :
    N.Seated (N.side d.actor) (d.run s) := by
  intro id a m l hid ha hl
  rcases (d.settled hs (h.clear hseated)).seat id a m l hid ha hl with ⟨b, hb, hsame⟩ | ⟨htakes, -⟩
  · exact hseated id b m l hid hb hsame
  · cases d with
    | start other root depth =>
      obtain ⟨rfl, rfl, f, hf, rfl⟩ := htakes
      obtain ⟨hroot, hdepth, -, hfile⟩ := h
      exact ⟨(hfile f hf).1, hroot, hdepth⟩
    | call | moveTo | chunkPath => cases htakes

/-! ### Runs of two sides -/

/-- Each side alone, and both together. -/
structure Abreast (N : Neighbours) (s : Mode → Session) (u : Session) : Prop where
  beside : ∀ m, (s m).Beside (N.own m) (N.files m) N.dirs u
  secluded : ∀ m, (s m).Secluded (N.own m) (N.files m)
  seated : ∀ m, N.Seated m (s m)

namespace Abreast

variable {s : Mode → Session}

section

variable (h : N.Abreast s u) (hd : N.Fits (s (N.side d.actor)) d)
  (hroom : Staging.Spacious (s (N.side d.actor)).workspace.tree.kind?)
  (hroom' : Staging.Spacious u.workspace.tree.kind?)
include h hd hroom hroom'

theorem aside (hne : N.side d.actor ≠ m) : u.Beside (N.own m) (N.files m) N.dirs (d.run u) := by
  have hclear := hd.clear (h.seated _)
  obtain ⟨-, -, hstep⟩ := d.beside (h.beside _) (h.secluded _) hclear hroom hroom'
  refine ⟨fun id hid => (Deed.store?_run hclear (fun hown => hne (hown.symm.trans hid)) u).symm, ?_⟩
  exact hstep.confined (h.beside _).veiled (Deed.veiled (hd.within (h.seated _) (h.secluded _) hne))

/-- **One deed** of one of the sides. -/
theorem step : N.Abreast (Function.update s (N.side d.actor) (d.run (s (N.side d.actor)))) (d.run u) := by
  have hclear := hd.clear (h.seated _)
  refine ⟨fun m => ?_, fun m => ?_, fun m => ?_⟩
  · by_cases hm : m = N.side d.actor
    · subst hm
      rw [Function.update_self]
      exact (d.beside (h.beside _) (h.secluded _) hclear hroom hroom').2.1
    · rw [Function.update_of_ne hm]
      exact (h.beside m).trans (h.aside hd hroom hroom' (Ne.symm hm))
  · by_cases hm : m = N.side d.actor
    · subst hm
      rw [Function.update_self]
      exact d.secluded (h.secluded _) hclear
    · rw [Function.update_of_ne hm]
      exact h.secluded m
  · by_cases hm : m = N.side d.actor
    · subst hm
      rw [Function.update_self]
      exact hd.seated (h.seated _) (h.secluded _)
    · rw [Function.update_of_ne hm]
      exact h.seated m

end

end Abreast

/-- Deeds of both sides, with what each of them relies on. -/
def AllFit (N : Neighbours) (s : Mode → Session) (u : Session) : List Deed → Prop
  | [] => True
  | d :: ds => N.Fits (s (N.side d.actor)) d ∧ Staging.Spacious (s (N.side d.actor)).workspace.tree.kind? ∧
      Staging.Spacious u.workspace.tree.kind? ∧
        AllFit N (Function.update s (N.side d.actor) (d.run (s (N.side d.actor)))) (d.run u) ds

/-- A deed as one of the sides sees it. -/
def turn (N : Neighbours) (m : Mode) (d : Deed) : Turn := if N.side d.actor = m then .deed d else .aside d.run

theorem run_turn (N : Neighbours) (m : Mode) (d : Deed) (s : Session) : (N.turn m d).run s = d.run s := by
  unfold turn
  split <;> rfl

theorem foldl_turn (N : Neighbours) (m : Mode) (ds : List Deed) (s : Session) :
    (ds.map (N.turn m)).foldl Turn.run s = ds.foldl Deed.run s := by
  rw [List.foldl_map]
  simp only [run_turn]

theorem deeds_turn (N : Neighbours) (m : Mode) (ds : List Deed) :
    Turn.deeds (ds.map (N.turn m)) = ds.filter fun d => N.side d.actor = m := by
  induction ds with
  | nil => rfl
  | cons d ds ih =>
    rw [List.map_cons, List.filter_cons, turn]
    by_cases hm : N.side d.actor = m
    · rw [if_pos hm, if_pos (decide_eq_true hm), Turn.deeds, ih]
    · rw [if_neg hm, if_neg (by simpa using hm), Turn.deeds, ih]

/-- **For each side** the deeds of the other one are what others may do. -/
theorem Abreast.fit {s : Mode → Session} (h : N.Abreast s u) (ds : List Deed) (hfits : N.AllFit s u ds) (m : Mode) :
    Turn.Fit (N.own m) (N.files m) N.dirs (s m) u (ds.map (N.turn m)) := by
  induction ds generalizing s u with
  | nil => trivial
  | cons d ds ih =>
    obtain ⟨hd, hroom, hroom', hrest⟩ := hfits
    have hnext := ih (h.step hd hroom hroom') hrest
    rw [List.map_cons, turn]
    by_cases hm : N.side d.actor = m
    · subst hm
      rw [if_pos rfl]
      rw [Function.update_self] at hnext
      exact ⟨hd.clear (h.seated _), hroom, hroom', hnext⟩
    · rw [if_neg hm]
      rw [Function.update_of_ne (Ne.symm hm)] at hnext
      exact ⟨h.aside hd hroom hroom' hm, hnext⟩

/-- The stores on both sides that have a root share it; it is a directory, and no directory below it holds two files
of one chunk. -/
def Shared (N : Neighbours) (s : Session) : Prop :=
  ∀ id a m l, s.store? id = some a → a.seat? = some (m, l) →
    N.Sits (N.side id) m l ∧ s.workspace.tree.leadsToDir l.root = true ∧ m.Single N.root s.workspace.tree.kind?

theorem Shared.abreast (h : N.Shared s) : N.Abreast (fun _ => s) s where
  beside m := .refl _ _ _ s
  secluded m := by
    rintro id a rfl ha m' l hl
    obtain ⟨hsits, hlead, hsingle⟩ := h id a m' l ha hl
    refine ⟨hlead, fun k hk => ?_, by rwa [hsits.root]⟩
    rw [hsits.root, hsits.mode]
    exact foreign hk
  seated m := by
    rintro id a m' l rfl ha hl
    exact (h id a m' l ha hl).1

end Neighbours

end

/-! ### Two stores to try it on -/

theorem Session.of_seats {s : Session} {p : String → Mode → Layout → Prop}
    (h : ∀ e ∈ s.stores, ∀ x ∈ e.2.seat?, p e.1 x.1 x.2) {id : String} {a : AnyStore} {m : Mode} {l : Layout}
    (ha : s.store? id = some a) (hl : a.seat? = some (m, l)) : p id m l :=
  h _ (Table.mem_of_lookup ha) _ hl

theorem Neighbours.suits_of_forall [FileSystem] {N : Neighbours} {s : Session} {id : String} {name : Bytes}
    (hlong : N.levels < (Hex.encode name).length)
    (h : ∀ e ∈ s.stores, ∀ x ∈ e.2.seat?, x.1.Spells (x.2.place name)) : N.Suits s id name :=
  ⟨hlong, fun _ _ _ ha hl => Session.of_seats (p := fun _ m l => m.Spells (l.place name)) h ha hl⟩

namespace Trial

/-- A store that counts references and has stored a chunk twice, and one beside it that does not count them, on two
sides; no paths are given. -/
def sides : Neighbours where
  side id := if id = "b" then .plain else .counted
  given _ _ := False
  root := (Path.ofText "r").key
  levels := 1
  free := FileSystem.free_lenient _
  apart _ _ h := h.elim

/-- The other store keeps a chunk of the same name, the first one takes its root again, and is asked for the
references. -/
def inTurns : List Deed :=
  [.call "b" (.store [107] [98]), .start "a" (Path.ofText "r") 0, .call "a" (.references [107])]

/-- A file that is no chunk comes to stand below the root, and the first store takes one more reference. -/
def amongStrangers : List Turn :=
  [.aside fun s => { s with workspace := ((Request.write (Path.ofText "r/x") [1]).run s.workspace).2 },
    .deed (.call "a" (.store [107] [97, 98]))]

theorem shared_sides : sides.Shared shared := by
  intro id a m l ha hl
  obtain ⟨hmode, hroot, hdepth, hlead⟩ := Session.of_seats
    (p := fun id m l => m = sides.side id ∧ l.root.key = sides.root ∧ l.depth ≤ sides.levels ∧
      shared.workspace.tree.leadsToDir l.root = true) (by decide +kernel) ha hl
  exact ⟨⟨hmode, hroot, hdepth⟩, hlead, sharing.shared.common.single m⟩

theorem inTurns_fit : sides.AllFit (fun _ => shared) shared inTurns := by
  refine ⟨⟨by simp, by simp [Call.paths], by simp [Call.alters], by simp [Call.target?], fun name hn => ?_,
      fun a ha name hn => ?_⟩,
    Staging.spacious_of_omits (by decide +kernel), Staging.spacious_of_omits (by decide +kernel),
    ⟨rfl, by decide, by decide +kernel, fun f hf => ?_⟩,
    Staging.spacious_of_omits (by decide +kernel), Staging.spacious_of_omits (by decide +kernel),
    ⟨by simp, by simp [Call.paths], by simp [Call.alters], by simp [Call.target?], fun name hn => ?_,
      fun a ha name hn => by cases hn⟩,
    Staging.spacious_of_omits (by decide +kernel), Staging.spacious_of_omits (by decide +kernel), trivial⟩
  · cases hn
    exact Neighbours.suits_of_forall (by decide) (by decide +kernel)
  · cases hn
    have hshare : ∀ a ∈ shared.store? "b", a.CanShare shared.workspace.tree [107] := by decide +kernel
    exact hshare a ha
  · have hmode : ∀ a ∈ shared.store? "a", a.mode? = some Mode.counted := by decide +kernel
    exact ⟨Option.some.inj (hmode _ hf), sharing.shared.common.single f.mode⟩
  · cases hn
    exact Neighbours.suits_of_forall (by decide) (by decide +kernel)

/-- Where the file stands that is no chunk. -/
def stray (k : Key) : Prop := k = (Path.ofText "r/x").key

theorem foreign_stray (m : Mode) (d : Key) {k : Key} (hk : stray k) : m.Foreign d k := by
  obtain rfl : k = (Path.ofText "r/x").key := hk
  intro _ n hn
  cases hn
  cases m <;> decide +kernel

theorem seat_shared {m : Mode} {l : Layout} {a : AnyStore} (ha : shared.store? "a" = some a)
    (hl : a.seat? = some (m, l)) : m = .counted ∧ l = ⟨Path.ofText "r", 0⟩ :=
  Session.of_seats (p := fun id m l => id = "a" → m = .counted ∧ l = ⟨Path.ofText "r", 0⟩) (by decide +kernel) ha hl
    rfl

theorem secluded_shared : shared.Secluded (· = "a") stray := by
  rintro id a rfl ha m l hl
  obtain ⟨rfl, rfl⟩ := seat_shared ha hl
  exact ⟨by decide +kernel, fun k => foreign_stray _ _, sharing.shared.common.single _⟩

theorem amongStrangers_fit : Turn.Fit (· = "a") stray (fun _ => False) shared shared amongStrangers := by
  refine ⟨⟨fun _ _ => rfl, ?_⟩, ⟨rfl, by simp, fun q hq => absurd hq List.not_mem_nil, fun q hq => (by cases hq),
    fun a ha => ⟨fun name hn => ?_, fun name hn => ?_⟩⟩, Staging.spacious_of_omits (by decide +kernel),
    Staging.spacious_of_omits (by decide +kernel), trivial⟩
  · show Veiled stray _ _ ((Request.write (Path.ofText "r/x") [1]).run shared.workspace).2.tree.kind?
    rcases Request.write_spec (Path.ofText "r/x") [1] shared.workspace with ⟨f, -, hrun⟩ | ⟨cs, hrun, -, hplaced⟩ <;>
      rw [hrun]
    · exact .refl _ _ _
    · rw [hplaced.kinds]
      refine .update (show stray _ from rfl) hplaced.admits.noDir ?_
      simp
  · cases hn
    rintro f l rfl hl hname
    obtain ⟨hmode, rfl⟩ := seat_shared ha (AnyStore.seat_file hl)
    refine ⟨fun k hk => ?_, Or.inl fun _ _ => id, fun file n hfile => ⟨fun hstray => ?_, id⟩⟩
    · obtain rfl := List.suffix_nil.mp hk
      have hroot : (Path.ofText "r").key ≠ (Path.ofText "r/x").key := by decide +kernel
      exact hroot
    · exact (foreign_stray f.mode _ hstray).ne (FileStore.root_suffix_dir _ _)
        (Layout.isStem_place _ hname) hfile rfl
  · cases hn
    have hshare : ∀ a ∈ shared.store? "a", a.CanShare shared.workspace.tree [107] := by decide +kernel
    exact hshare a ha

end Trial

/-- **Others are not noticed.**  Do any deeds of the stores on one side, but for clearing one, and let others add,
change or remove files and make directories between them, at keys where these stores neither look for a chunk nor pass
on the way to their roots or to what they are given.  Every deed is answered as in the run without the others, the
stores and the files of their chunks are the same at the end, and no deed touches a file of the others.

So it is for the stores of either mode, when stores of both modes share a root, which is there and below which nothing
is shut, and are given
different paths, while the names of all chunks have more digits than any store has levels. -/
theorem others_unnoticed [FileSystem] :
    (∀ (own : String → Prop) (F D : Key → Prop) (s u : Session) (ts : List Turn), s.Beside own F D u →
      s.Secluded own F → Turn.Fit own F D s u ts → Turn.Unnoticed own F s u ts) ∧
    ∀ (N : Neighbours) (s : Session) (ds : List Deed), N.Shared s → N.AllFit (fun _ => s) s ds → ∀ m : Mode,
      Turn.replies s (ds.map (N.turn m)) = Turn.replies s ((ds.filter fun d => N.side d.actor = m).map .deed) ∧
      (∀ id, N.side id = m → (ds.foldl Deed.run s).store? id =
        ((ds.filter fun d => N.side d.actor = m).foldl Deed.run s).store? id) ∧
      ((ds.filter fun d => N.side d.actor = m).foldl Deed.run s).SameChunks (N.own m) (ds.foldl Deed.run s) := by
  refine ⟨fun own F D s u ts h hs hfit => Turn.unnoticed h hs hfit, fun N s ds hshared hfits m => ?_⟩
  have h := hshared.abreast
  obtain ⟨hreplies, hstore, hchunks, -⟩ := Turn.unnoticed (h.beside m) (h.secluded m) (h.fit ds hfits m)
  rw [N.deeds_turn] at hreplies hstore hchunks
  rw [N.foldl_turn] at hstore hchunks
  exact ⟨hreplies, hstore, hchunks⟩

/-- A counted store `a` and a plain store `b` share the root `r`, and `a` has two references to a chunk.  It takes
one more while a file that is no chunk appears below the root, and it still has two after `b` has stored a chunk of the
same name, both as if nothing else had happened. -/
theorem others_unnoticed_trial :
    Turn.replies Trial.shared Trial.amongStrangers = [some (.answer (.truth true))] ∧
    Turn.Unnoticed (· = "a") Trial.stray Trial.shared Trial.shared Trial.amongStrangers ∧
    Turn.replies Trial.shared (Trial.inTurns.map (Trial.sides.turn .counted)) =
      [some (.truth true), some (.answer (.number 2))] ∧
    Turn.replies Trial.shared (Trial.inTurns.map (Trial.sides.turn .counted)) =
      Turn.replies Trial.shared ((Trial.inTurns.filter fun d => Trial.sides.side d.actor = .counted).map .deed) :=
  ⟨by decide +kernel,
    others_unnoticed.1 _ _ _ _ _ _ (.refl _ _ _ _) Trial.secluded_shared Trial.amongStrangers_fit,
    by decide +kernel, (others_unnoticed.2 _ _ _ Trial.shared_sides Trial.inTurns_fit .counted).1⟩

namespace Trial

/-- Two stores of different modes, with the same root and one level. -/
def level : Session :=
  [.start "a" (Path.ofText "r") 1, .start "b" (Path.ofText "r") 1].foldl Deed.run
    ⟨[("a", .file (.new false (.ofDigest id))), ("b", .file (.new true (.ofDigest id)))], .bare⟩

/-- A chunk is deleted whose stem is too long for a file. -/
def longest : Deed := .call "a" (.delete (List.replicate 200 107))

end Trial

/-- While the directory of a chunk is missing the chunk is just not there; when another store has made the directory,
the name of the chunk is too long to be looked for. -/
theorem other_noticed_long_name :
    1 < (Hex.encode (List.replicate 200 107)).length ∧ 1 < (Hex.encode [107]).length ∧
    (Deed.call "b" (.store [107] [97])).reply Trial.level = some (.answer (.truth true)) ∧
    Trial.longest.reply Trial.level = some (.answer (.truth true)) ∧
    Trial.longest.reply (Deed.run Trial.level (.call "b" (.store [107] [97]))) = some (.answer (.truth false)) := by
  decide +kernel

end ContentStore
