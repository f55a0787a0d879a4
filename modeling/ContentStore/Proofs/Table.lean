import ContentStore.Proofs.Held
import ContentStore.Store.Memory

/-!
# What a memory store holds

A memory store is sound if its table has no name twice, no chunk without a reference, and as many chunks
and bytes as it counts.  Storing and deleting change what is held under one name, in the same way as a file
store does (`store_ok`, `delete_spec`), and keep the store sound (`Sound.store`, `Sound.delete`).
-/

namespace ContentStore

/-! ### Tables -/

namespace Table

variable {α β : Type} [BEq α] [LawfulBEq α] [DecidableEq α]

theorem lookup_cons (key other : α) (x : β) (xs : List (α × β)) :
    ((key, x) :: xs).lookup other = if other = key then some x else xs.lookup other := by
  rw [List.lookup_cons]
  by_cases h : other = key
  · simp [h]
  · rw [if_neg h, beq_false_of_ne h]

theorem lookup_filter_ne (key other : α) (xs : List (α × β)) :
    (xs.filter fun e => e.1 ≠ key).lookup other = if other = key then none else xs.lookup other := by
  induction xs with
  | nil => simp
  | cons e xs ih =>
    obtain ⟨k, x⟩ := e
    by_cases hkey : k = key
    · subst hkey
      rw [List.filter_cons_of_neg (by simp), ih, lookup_cons]
      split <;> rfl
    · rw [List.filter_cons_of_pos (by simpa using hkey), lookup_cons, lookup_cons, ih]
      by_cases ho : other = k
      · rw [if_pos ho, if_neg (ho ▸ hkey), if_pos ho]
      · rw [if_neg ho, if_neg ho]

theorem lookup_put (key other : α) (x : β) (xs : List (α × β)) :
    ((key, x) :: xs.filter fun e => e.1 ≠ key).lookup other =
      if other = key then some x else xs.lookup other := by
  rw [lookup_cons, lookup_filter_ne]
  split <;> rfl

theorem mem_of_lookup {key : α} {x : β} {xs : List (α × β)} (h : xs.lookup key = some x) :
    (key, x) ∈ xs := by
  induction xs with
  | nil => cases h
  | cons e xs ih =>
    obtain ⟨k, y⟩ := e
    rw [lookup_cons] at h
    split at h
    · next hkey =>
      cases h
      exact hkey ▸ List.mem_cons_self
    · exact List.mem_cons_of_mem _ (ih h)

theorem notMem_of_lookup {key : α} {xs : List (α × β)} (h : xs.lookup key = none) :
    key ∉ xs.map Prod.fst := by
  induction xs with
  | nil => simp
  | cons e xs ih =>
    obtain ⟨k, x⟩ := e
    rw [lookup_cons] at h
    split at h
    · cases h
    · next hkey => simp [hkey, ih h]

end Table

namespace MemoryStore

open Table (lookup_cons lookup_filter_ne lookup_put mem_of_lookup notMem_of_lookup)

variable {m m' : MemoryStore} {name content : Bytes} {chunk : Held} {cs ds : List (Bytes × Held)}

/-- The number of chunks in a table and the number of their bytes. -/
def tally (cs : List (Bytes × Held)) : Totals :=
  ⟨cs.length, cs.foldr (fun c sum => c.2.content.length + sum) 0⟩

/-- A table is in order and agrees with the counts. -/
structure Sound (m : MemoryStore) : Prop where
  nodup : (m.chunks.map Prod.fst).Nodup
  carries : ∀ c ∈ m.chunks, 0 < c.2.count ∧ (m.mode = .plain → c.2.count = 1)
  totals : m.tracker.totals = tally m.chunks

theorem tally_cons (c : Bytes × Held) (cs : List (Bytes × Held)) :
    tally (c :: cs) = (Totals.one c.2.content.length).add (tally cs) := by
  simp only [tally, Totals.one, Totals.add, List.length_cons, List.foldr_cons, Nat.add_comm]

theorem tally_perm (h : cs.Perm ds) : tally cs = tally ds := by
  induction h with
  | nil => rfl
  | cons c _ ih => rw [tally_cons, tally_cons, ih]
  | swap c d cs => simp only [tally_cons, Totals.add_left_comm]
  | trans _ _ ih ih' => exact ih.trans ih'

theorem sound_new (counting : Bool) (h : Hasher) : (new counting h).Sound :=
  ⟨List.nodup_nil, by simp [new], rfl⟩

theorem perm_without (hnodup : (cs.map Prod.fst).Nodup) (h : cs.lookup name = some chunk) :
    cs.Perm ((name, chunk) :: cs.filter fun c => c.1 ≠ name) := by
  induction cs with
  | nil => cases h
  | cons c cs ih =>
    obtain ⟨key, other⟩ := c
    rw [List.map_cons, List.nodup_cons] at hnodup
    rw [lookup_cons] at h
    by_cases hkey : name = key
    · subst hkey
      rw [if_pos rfl] at h
      cases h
      have hrest : (cs.filter fun c => c.1 ≠ name) = cs := by
        refine List.filter_eq_self.mpr fun c hc => ?_
        have hne : c.1 ≠ name := fun e => hnodup.1 (List.mem_map.mpr ⟨c, hc, e⟩)
        simpa using hne
      rw [List.filter_cons_of_neg (by simp), hrest]
    · rw [if_neg hkey] at h
      rw [List.filter_cons_of_pos (by simpa using Ne.symm hkey)]
      exact ((ih hnodup.2 h).cons _).trans (List.Perm.swap _ _ _)

theorem nodup_without (h : (cs.map Prod.fst).Nodup) (name : Bytes) :
    ((cs.filter fun c => c.1 ≠ name).map Prod.fst).Nodup :=
  h.sublist (List.filter_sublist.map _)

theorem notMem_without (name : Bytes) (cs : List (Bytes × Held)) :
    name ∉ (cs.filter fun c => c.1 ≠ name).map Prod.fst :=
  notMem_of_lookup (by rw [lookup_filter_ne, if_pos rfl])

/-- One chunk in a table is replaced by one with as many bytes. -/
theorem Sound.replace (h : m.Sound) (hfind : m.find? name = some chunk) {count : Nat} (hpos : 0 < count)
    (hplain : m.mode = .plain → count = 1) :
    Sound { m with chunks := (name, { chunk with count := count }) :: m.without name } where
  nodup := List.nodup_cons.mpr ⟨notMem_without name m.chunks, nodup_without h.nodup name⟩
  carries c hc := by
    rcases List.mem_cons.mp hc with rfl | hc
    · exact ⟨hpos, hplain⟩
    · exact h.carries c (List.mem_of_mem_filter hc)
  totals := by
    show m.tracker.totals = _
    rw [h.totals, tally_perm (perm_without h.nodup hfind), tally_cons, tally_cons]
    rfl

/-! ### Storing -/

inductive Stored (m : MemoryStore) (name content : Bytes) : MemoryStore → Prop
  | kept (held : Held) (hmode : m.mode = .plain) (hfind : m.find? name = some held) : Stored m name content m
  | shared (held : Held) (hmode : m.mode = .counted) (hfind : m.find? name = some held) :
      Stored m name content
        { m with chunks := (name, { held with count := held.count + 1 }) :: m.without name }
  | added (hfind : m.find? name = none) (hroom : m.tracker.ensureRoom content.length = .ok ()) :
      Stored m name content
        { m with chunks := (name, ⟨content, 1⟩) :: m.chunks, tracker := m.tracker.add content.length }

theorem mode_cases (mode : Mode) :
    (mode = .plain ∧ mode.isCounted = false) ∨ (mode = .counted ∧ mode.isCounted = true) := by
  cases mode
  · exact Or.inl ⟨rfl, rfl⟩
  · exact Or.inr ⟨rfl, rfl⟩

/-- A content is stored unless its name or the content is blank, or there is no room for a new chunk. -/
theorem store_spec (m : MemoryStore) (name content : Bytes) :
    (name = [] ∧ m.store name content = .error .emptyName) ∨
    (name ≠ [] ∧ content = [] ∧ m.store name content = .error .emptyContent) ∨
    (name ≠ [] ∧ content ≠ [] ∧ m.find? name = none ∧ ∃ e, m.tracker.ensureRoom content.length = .error e ∧
      m.store name content = .error e) ∨
    (name ≠ [] ∧ content ≠ [] ∧ ∃ m', m.store name content = .ok m' ∧ Stored m name content m') := by
  by_cases hname : name = []
  · exact Or.inl ⟨hname, by simp [store, hname]⟩
  by_cases hcontent : content = []
  · exact Or.inr (Or.inl ⟨hname, hcontent, by simp [store, hname, hcontent]⟩)
  rcases hfind : m.find? name with _ | held
  · rcases hroom : m.tracker.ensureRoom content.length with e | u
    · exact Or.inr (Or.inr (Or.inl ⟨hname, hcontent, rfl, e, rfl, by
        simp [store, hname, hcontent, hfind, hroom]⟩))
    · exact Or.inr (Or.inr (Or.inr ⟨hname, hcontent, _, by
        simp [store, hname, hcontent, hfind, hroom], .added hfind hroom⟩))
  · refine Or.inr (Or.inr (Or.inr ⟨hname, hcontent, ?_⟩))
    rcases mode_cases m.mode with ⟨hmode, hb⟩ | ⟨hmode, hb⟩
    · exact ⟨m, by simp [store, hname, hcontent, hfind, hb], .kept held hmode hfind⟩
    · exact ⟨_, by simp [store, hname, hcontent, hfind, hb], .shared held hmode hfind⟩

theorem store_ok (h : m.store name content = .ok m') :
    name ≠ [] ∧ content ≠ [] ∧ Stored m name content m' := by
  rcases store_spec m name content with ⟨-, he⟩ | ⟨-, -, he⟩ | ⟨-, -, -, e, -, he⟩ |
    ⟨hname, hcontent, n, hok, hstored⟩
  · rw [h] at he; cases he
  · rw [h] at he; cases he
  · rw [h] at he; cases he
  · rw [h] at hok
    cases hok
    exact ⟨hname, hcontent, hstored⟩

/-- Storing a content changes what is held as it does in a file store. -/
theorem Stored.held (h : Stored m name content m') :
    m'.mode = m.mode ∧ m'.find? name = some (m.mode.taken content (m.find? name)) ∧
      ∀ other, other ≠ name → m'.find? other = m.find? other := by
  cases h with
  | kept held hmode hfind =>
    refine ⟨rfl, ?_, fun _ _ => rfl⟩
    rw [hfind, Mode.taken, if_neg (by simp [Mode.isCounted, hmode])]
  | shared held hmode hfind =>
    refine ⟨rfl, ?_, fun other hne => ?_⟩
    · rw [hfind, Mode.taken, if_pos (by simp [Mode.isCounted, hmode])]
      exact (lookup_put name name _ m.chunks).trans (if_pos rfl)
    · exact (lookup_put name other _ m.chunks).trans (if_neg hne)
  | added hfind hroom =>
    refine ⟨rfl, ?_, fun other hne => ?_⟩
    · rw [hfind]
      exact (lookup_cons name name _ m.chunks).trans (if_pos rfl)
    · exact (lookup_cons name other _ m.chunks).trans (if_neg hne)

/-- Storing keeps a store sound, as long as the bytes can be counted. -/
theorem Sound.stored (h : m.Sound) (hstored : Stored m name content m')
    (hsize : (tally m'.chunks).size < Decimal.wordLimit) : m'.Sound := by
  cases hstored with
  | kept => exact h
  | shared held hmode hfind =>
    exact h.replace hfind (Nat.succ_pos _) fun hp => by rw [hmode] at hp; cases hp
  | added hfind hroom =>
    refine ⟨List.nodup_cons.mpr ⟨notMem_of_lookup hfind, h.nodup⟩, fun c hc => ?_, ?_⟩
    · rcases List.mem_cons.mp hc with rfl | hc
      · exact ⟨Nat.one_pos, fun _ => rfl⟩
      · exact h.carries c hc
    · rw [tally_cons, ← h.totals] at hsize ⊢
      exact Tracker.totals_add (by rwa [Nat.add_comm])

/-! ### Deleting -/

inductive Deleted (m : MemoryStore) (name : Bytes) : MemoryStore → Prop
  | absent (hfind : m.find? name = none) : Deleted m name m
  | shared (held : Held) (hmode : m.mode = .counted) (hcount : 1 < held.count)
      (hfind : m.find? name = some held) :
      Deleted m name { m with chunks := (name, { held with count := held.count - 1 }) :: m.without name }
  | removed (held : Held) (hcount : ¬ (m.mode.isCounted ∧ 1 < held.count))
      (hfind : m.find? name = some held) :
      Deleted m name
        { m with chunks := m.without name, tracker := m.tracker.remove held.content.length }

theorem delete_spec (m : MemoryStore) (name : Bytes) : Deleted m name (m.delete name) := by
  unfold delete
  rcases hfind : m.find? name with _ | held
  · exact .absent hfind
  · dsimp only
    split
    · next h =>
      rcases mode_cases m.mode with ⟨-, hb⟩ | ⟨hmode, -⟩
      · rw [hb] at h
        cases h.1
      · exact .shared held hmode h.2 hfind
    · next h => exact .removed held h hfind

theorem Deleted.held (h : Deleted m name m') :
    m'.mode = m.mode ∧ m'.find? name = (m.find? name).bind m.mode.dropped ∧
      ∀ other, other ≠ name → m'.find? other = m.find? other := by
  cases h with
  | absent hfind => exact ⟨rfl, by rw [hfind]; rfl, fun _ _ => rfl⟩
  | shared held hmode hcount hfind =>
    refine ⟨rfl, ?_, fun other hne => ?_⟩
    · rw [hfind, Option.bind_some, Mode.dropped, if_pos ⟨by simp [Mode.isCounted, hmode], hcount⟩]
      exact (lookup_put name name _ m.chunks).trans (if_pos rfl)
    · exact (lookup_put name other _ m.chunks).trans (if_neg hne)
  | removed held hcount hfind =>
    refine ⟨rfl, ?_, fun other hne => ?_⟩
    · rw [hfind, Option.bind_some, Mode.dropped, if_neg hcount]
      exact (lookup_filter_ne name name m.chunks).trans (if_pos rfl)
    · exact (lookup_filter_ne name other m.chunks).trans (if_neg hne)

theorem Sound.deleted (h : m.Sound) (hdeleted : Deleted m name m') : m'.Sound := by
  cases hdeleted with
  | absent => exact h
  | shared held hmode hcount hfind =>
    exact h.replace hfind (Nat.sub_pos_of_lt hcount) fun hp => by rw [hmode] at hp; cases hp
  | removed held hcount hfind =>
    refine ⟨nodup_without h.nodup name, fun c hc => h.carries c (List.mem_of_mem_filter hc), ?_⟩
    refine Tracker.totals_remove ?_
    rw [h.totals, tally_perm (perm_without h.nodup hfind), tally_cons]
    rfl

end MemoryStore

end ContentStore
