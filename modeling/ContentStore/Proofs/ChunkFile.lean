import ContentStore.Chunk.Ledger
import ContentStore.Proofs.Join
import Mathlib.Data.List.TakeWhile

/-!
# The files of chunks

The path of a chunk is spelled by names that no path takes for anything else, so the file of a chunk has
the key that the root, the shards, the stem and the count say.

* which names a store takes for chunk files: `Mode.IsFile`, `Mode.classify_eq_some_iff`;
* where a chunk lives: `Layout.key_path`, and no two chunks live in one place: `Layout.place_injective`.
-/

namespace ContentStore

open Bytes (dot slash)

namespace Bytes

theorem splitLast_eq_none_iff {sep : UInt8} {bs : Bytes} : splitLast sep bs = none ↔ sep ∉ bs := by
  induction bs with
  | nil => simp [splitLast]
  | cons b bs ih =>
    unfold splitLast
    rcases h : splitLast sep bs with _ | ⟨before, after⟩
    · have hbs := ih.mp h
      by_cases hb : b = sep
      · simp [hb]
      · simp [hb, hbs, Ne.symm hb]
    · have hbs : sep ∈ bs := by
        by_contra hm
        rw [ih.mpr hm] at h
        cases h
      simp [hbs]

theorem splitLast_eq_some_iff {sep : UInt8} {bs before after : Bytes} :
    splitLast sep bs = some (before, after) ↔ bs = before ++ sep :: after ∧ sep ∉ after := by
  induction bs generalizing before with
  | nil => simp [splitLast]
  | cons b bs ih =>
    unfold splitLast
    rcases h : splitLast sep bs with _ | ⟨front, rest⟩
    · have hbs := splitLast_eq_none_iff.mp h
      by_cases hb : b = sep
      · subst hb
        cases before with
        | nil => grind
        | cons x before => grind
      · cases before with
        | nil => grind
        | cons x before => grind
    · have hbs : sep ∈ bs := by
        by_contra hm
        rw [splitLast_eq_none_iff.mpr hm] at h
        cases h
      have hsplit := fun front => @ih front
      rw [h] at hsplit
      cases before with
      | nil =>
        simp only [Option.some.injEq, Prod.mk.injEq, List.cons_ne_nil, false_and, List.nil_append,
          List.cons.injEq, false_iff, not_and, Decidable.not_not, and_imp]
        rintro - rfl
        exact hbs
      | cons x before =>
        have hx := hsplit before
        simp only [Option.some.injEq, Prod.mk.injEq] at hx
        simp only [Option.some.injEq, Prod.mk.injEq, List.cons.injEq, List.cons_append, and_assoc, hx]

end Bytes

theorem Hex.ne_of_isDigit {b : UInt8} (h : Hex.isDigit b = true) : b ≠ dot ∧ b ≠ slash ∧ b ≠ 0 := by
  refine ⟨?_, ?_, ?_⟩ <;> rintro rfl <;> revert h <;> decide

theorem Decimal.ne_of_isDigit {b : UInt8} (h : Decimal.isDigit b = true) :
    b ≠ dot ∧ b ≠ slash ∧ b ≠ 0 := by
  refine ⟨?_, ?_, ?_⟩ <;> rintro rfl <;> revert h <;> decide

theorem isStem_iff {stem : Bytes} :
    isStem stem = true ↔ stem ≠ [] ∧ ∀ b ∈ stem, Hex.isDigit b = true := by
  simp [isStem]

theorem dot_notMem_stem {stem : Bytes} (h : isStem stem = true) : dot ∉ stem :=
  fun hm => (Hex.ne_of_isDigit ((isStem_iff.mp h).2 _ hm)).1 rfl

theorem slash_notMem_stem {stem : Bytes} (h : isStem stem = true) : slash ∉ stem :=
  fun hm => (Hex.ne_of_isDigit ((isStem_iff.mp h).2 _ hm)).2.1 rfl

theorem zero_notMem_stem {stem : Bytes} (h : isStem stem = true) : (0 : UInt8) ∉ stem :=
  fun hm => (Hex.ne_of_isDigit ((isStem_iff.mp h).2 _ hm)).2.2 rfl

theorem head?_stem {stem : Bytes} (h : isStem stem = true) (rest : Bytes) :
    (stem ++ rest).head? ≠ some dot := by
  intro e
  obtain ⟨hne, hd⟩ := isStem_iff.mp h
  cases stem with
  | nil => exact hne rfl
  | cons b stem =>
    cases e
    exact (Hex.ne_of_isDigit (hd _ List.mem_cons_self)).1 rfl

namespace Mode

/-- A name is that of a file of a chunk with the given stem and number of references. -/
def IsFile (m : Mode) (stem : Bytes) (count : Nat) (name : Bytes) : Prop :=
  match m with
  | .plain => name = stem ∧ count = 1
  | .counted => ∃ digits, name = stem ++ dot :: digits ∧ digits ≠ [] ∧
      digits.all Decimal.isDigit = true ∧ Decimal.ofDigits digits = count ∧ 0 < count ∧
      count < Decimal.wordLimit

theorem leadingNumber_of_all {digits : Bytes} (h : digits.all Decimal.isDigit = true) :
    Decimal.leadingNumber digits =
      if Decimal.ofDigits digits < Decimal.wordLimit then Decimal.ofDigits digits else 0 := by
  unfold Decimal.leadingNumber
  rw [List.takeWhile_eq_self_iff.mpr (List.all_eq_true.mp h)]

/-- **Names of chunk files.**  A store takes for chunk files those that have a stem and, if it counts, a
number of references that is a word above zero. -/
theorem classify_eq_some_iff {m : Mode} {name : Bytes} {count : Nat} :
    m.classify name = some count ↔ ∃ stem, isStem stem = true ∧ m.IsFile stem count name := by
  unfold classify
  cases m with
  | plain =>
    simp only [IsFile]
    constructor
    · intro h
      split at h
      · cases h
      · split at h
        · next hs => exact ⟨name, hs, rfl, by simpa using h.symm⟩
        · cases h
    · rintro ⟨stem, hs, rfl, rfl⟩
      have hhead := head?_stem hs []
      rw [List.append_nil] at hhead
      rw [if_neg hhead, if_pos hs]
  | counted =>
    simp only [IsFile]
    constructor
    · intro h
      split at h
      · cases h
      · rcases hsplit : Bytes.splitLast dot name with _ | ⟨stem, digits⟩
        · rw [hsplit] at h
          cases h
        · obtain ⟨rfl, -⟩ := Bytes.splitLast_eq_some_iff.mp hsplit
          simp only [hsplit] at h
          split at h
          · next hd =>
            refine ⟨stem, hd.2.2, digits, rfl, hd.1, hd.2.1, ?_⟩
            have hnumber := leadingNumber_of_all hd.2.1
            split at h
            · cases h
            · next n hn =>
              cases h
              rw [hnumber] at hn ⊢
              split <;> grind
          · cases h
    · rintro ⟨stem, hs, digits, rfl, hne, hall, rfl, hpos, hlt⟩
      have hdot : dot ∉ digits := fun hm =>
        (Decimal.ne_of_isDigit (List.all_eq_true.mp hall _ hm)).1 rfl
      have hsplit : Bytes.splitLast dot (stem ++ dot :: digits) = some (stem, digits) :=
        Bytes.splitLast_eq_some_iff.mpr ⟨rfl, hdot⟩
      have hnumber : Decimal.leadingNumber digits = Decimal.ofDigits digits := by
        rw [leadingNumber_of_all hall, if_pos hlt]
      rw [if_neg (head?_stem hs _)]
      rw [hsplit]
      dsimp only
      rw [if_pos (show digits ≠ [] ∧ digits.all Decimal.isDigit = true ∧ isStem stem = true from
        ⟨hne, hall, hs⟩)]
      split
      · omega
      · rw [hnumber]

theorem IsFile.inj {m : Mode} {stem stem' : Bytes} {count count' : Nat} {name : Bytes}
    (h : m.IsFile stem count name) (h' : m.IsFile stem' count' name) : stem = stem' ∧ count = count' := by
  cases m with
  | plain => exact ⟨h.1.symm.trans h'.1, h.2.trans h'.2.symm⟩
  | counted =>
    obtain ⟨digits, rfl, -, hall, rfl, -⟩ := h
    obtain ⟨digits', hname, -, hall', rfl, -⟩ := h'
    have hdot : ∀ ds : Bytes, ds.all Decimal.isDigit = true → dot ∉ ds := fun ds hds hm =>
      (Decimal.ne_of_isDigit (List.all_eq_true.mp hds _ hm)).1 rfl
    have hsplit := Bytes.splitLast_eq_some_iff.mpr ⟨hname, hdot _ hall'⟩
    rw [Bytes.splitLast_eq_some_iff.mpr ⟨rfl, hdot _ hall⟩] at hsplit
    cases hsplit
    exact ⟨rfl, rfl⟩

theorem isName_stem {stem : Bytes} (hs : isStem stem = true) :
    Path.IsName stem ∧ (0 : UInt8) ∉ stem := by
  obtain ⟨hne, hd⟩ := isStem_iff.mp hs
  obtain ⟨b, hb⟩ := List.exists_mem_of_ne_nil _ hne
  exact ⟨Path.isName_of_mem hb (Hex.ne_of_isDigit (hd b hb)).1 (slash_notMem_stem hs),
    zero_notMem_stem hs⟩

theorem isName_counted {stem digits : Bytes} (hs : isStem stem = true)
    (hall : digits.all Decimal.isDigit = true) :
    Path.IsName (stem ++ dot :: digits) ∧ (0 : UInt8) ∉ stem ++ dot :: digits := by
  obtain ⟨hne, hd⟩ := isStem_iff.mp hs
  obtain ⟨b, hb⟩ := List.exists_mem_of_ne_nil _ hne
  have hdigit : ∀ c ∈ digits, c ≠ slash ∧ c ≠ 0 := fun c hc =>
    (Decimal.ne_of_isDigit (List.all_eq_true.mp hall c hc)).2
  refine ⟨Path.isName_of_mem (List.mem_append_left _ hb) (Hex.ne_of_isDigit (hd b hb)).1 fun hm => ?_,
    fun hm => ?_⟩
  · rcases List.mem_append.mp hm with hm | hm
    · exact slash_notMem_stem hs hm
    · rcases List.mem_cons.mp hm with e | hm
      · exact absurd e (by decide)
      · exact (hdigit _ hm).1 rfl
  · rcases List.mem_append.mp hm with hm | hm
    · exact zero_notMem_stem hs hm
    · rcases List.mem_cons.mp hm with e | hm
      · exact absurd e (by decide)
      · exact (hdigit _ hm).2 rfl

theorem IsFile.isName {m : Mode} {stem : Bytes} (hs : isStem stem = true) {count : Nat} {name : Bytes}
    (h : m.IsFile stem count name) : Path.IsName name ∧ (0 : UInt8) ∉ name := by
  cases m with
  | plain =>
    obtain ⟨rfl, -⟩ := h
    exact isName_stem hs
  | counted =>
    obtain ⟨digits, rfl, -, hall, -⟩ := h
    exact isName_counted hs hall

def fileName (m : Mode) (stem : Bytes) (count : Nat) : Bytes :=
  match m with
  | .plain => stem
  | .counted => stem ++ dot :: Decimal.render count

theorem path_eq (m : Mode) (l : Location) (count : Nat) :
    m.path l count = l.dir.join (m.fileName l.stem count) := by
  cases m <;> rfl

theorem isName_fileName (m : Mode) {stem : Bytes} (hs : isStem stem = true) (count : Nat) :
    Path.IsName (m.fileName stem count) ∧ (0 : UInt8) ∉ m.fileName stem count := by
  cases m with
  | plain => exact isName_stem hs
  | counted =>
    exact isName_counted hs (List.all_eq_true.mpr fun _ hb => Decimal.isDigit_of_mem_render hb)

/-- Whether a file name can carry a number of references. -/
def Carries (m : Mode) (count : Nat) : Prop :=
  match m with
  | .plain => count = 1
  | .counted => 0 < count ∧ count < Decimal.wordLimit

theorem isFile_fileName {m : Mode} (stem : Bytes) {count : Nat} (h : m.Carries count) :
    m.IsFile stem count (m.fileName stem count) := by
  cases m with
  | plain => exact ⟨rfl, h⟩
  | counted =>
    exact ⟨_, rfl, Decimal.render_ne_nil _,
      List.all_eq_true.mpr fun _ hb => Decimal.isDigit_of_mem_render hb, Decimal.ofDigits_render _, h.1, h.2⟩

theorem carries_one (m : Mode) : m.Carries 1 := by
  cases m with
  | plain => rfl
  | counted => exact ⟨Nat.one_pos, by decide⟩

theorem IsFile.carries {m : Mode} {stem : Bytes} {count : Nat} {name : Bytes}
    (h : m.IsFile stem count name) : m.Carries count := by
  cases m with
  | plain => exact h.2
  | counted =>
    obtain ⟨-, -, -, -, -, hpos, hlt⟩ := h
    exact ⟨hpos, hlt⟩

theorem IsFile.carries_fewer {m : Mode} {stem : Bytes} {count : Nat} {name : Bytes} (hm : m = .counted)
    (h : m.IsFile stem count name) (hgt : 1 < count) : m.Carries (count - 1) := by
  subst hm
  exact ⟨Nat.sub_pos_of_lt hgt, lt_of_le_of_lt (Nat.sub_le _ _) h.carries.2⟩

/-- A name that a store may give to a file of the chunk with a stem. -/
def Names (m : Mode) (stem file : Bytes) : Prop :=
  match m with
  | .plain => file = stem
  | .counted => ∃ digits, file = stem ++ dot :: digits

theorem IsFile.names {m : Mode} {stem : Bytes} {count : Nat} {file : Bytes} (h : m.IsFile stem count file) :
    m.Names stem file := by
  cases m with
  | plain => exact h.1
  | counted =>
    obtain ⟨digits, hfile, -⟩ := h
    exact ⟨digits, hfile⟩

theorem Names.head? {m : Mode} {stem file : Bytes} (hs : isStem stem = true) (h : m.Names stem file) :
    file.head? ≠ some dot := by
  cases m with
  | plain =>
    obtain rfl : file = stem := h
    simpa using head?_stem hs []
  | counted =>
    obtain ⟨digits, rfl⟩ := h
    exact head?_stem hs _

theorem names_fileName (m : Mode) (stem : Bytes) (count : Nat) : m.Names stem (m.fileName stem count) := by
  cases m with
  | plain => rfl
  | counted => exact ⟨_, rfl⟩

/-- Stores of different modes name no file alike, nor do files of different chunks share a name. -/
theorem Names.inj {m m' : Mode} {stem stem' file : Bytes} (hs : isStem stem = true)
    (hs' : isStem stem' = true) (h : m.Names stem file) (h' : m'.Names stem' file) : m = m' ∧ stem = stem' := by
  have hdot := dot_notMem_stem hs
  have hdot' := dot_notMem_stem hs'
  cases m with
  | plain =>
    obtain rfl : file = stem := h
    cases m' with
    | plain => exact ⟨rfl, h'⟩
    | counted =>
      obtain ⟨digits, rfl⟩ := h'
      exact absurd (by simp) hdot
  | counted =>
    obtain ⟨digits, rfl⟩ := h
    cases m' with
    | plain =>
      obtain rfl := h'
      exact absurd (by simp) hdot'
    | counted =>
      obtain ⟨digits', h'⟩ := h'
      refine ⟨rfl, ?_⟩
      -- a stem is what stands before the first dot
      have htake := congrArg (List.takeWhile (· ≠ dot)) h'
      have hall : ∀ stem : Bytes, dot ∉ stem → ∀ digits,
          (stem ++ dot :: digits).takeWhile (· ≠ dot) = stem := by
        intro stem hdot digits
        have hne : ∀ b ∈ stem, decide (b ≠ dot) = true := fun b hb => decide_eq_true fun e => hdot (e ▸ hb)
        rw [List.takeWhile_append_of_pos hne]
        simp
      rwa [hall stem hdot, hall stem' hdot'] at htake

theorem classify_hidden (m : Mode) {n : Bytes} (h : n.head? = some dot) : m.classify n = none := by
  rcases hc : m.classify n with _ | count
  · rfl
  · obtain ⟨stem, hs, hfile⟩ := classify_eq_some_iff.mp hc
    exact absurd h (hfile.names.head? hs)

end Mode

/-! ### Where a chunk lives -/

namespace Layout

/-- The names of the directories from the root to a chunk, the innermost first. -/
def shards (l : Layout) (name : Bytes) : Key :=
  (((Hex.encode name).take (l.levels (Hex.encode name))).map fun digit => [digit]).reverse

theorem foldl_join_eq_below (p : Path) (digits : Bytes) :
    digits.foldl (fun dir digit => dir.join [digit]) p =
      p.below ((digits.map fun digit => [digit]).reverse) := by
  rw [← List.foldr_reverse, ← List.map_reverse]
  induction digits.reverse with
  | nil => rfl
  | cons digit digits ih =>
    rw [List.foldr_cons, ih]
    rfl

theorem dir_place (l : Layout) (name : Bytes) : (l.place name).dir = l.root.below (l.shards name) :=
  foldl_join_eq_below l.root _

theorem mem_shards {l : Layout} {name x : Bytes} (h : x ∈ l.shards name) :
    ∃ b, x = [b] ∧ Hex.isDigit b = true := by
  simp only [shards, List.mem_reverse, List.mem_map] at h
  obtain ⟨b, hb, rfl⟩ := h
  exact ⟨b, rfl, Hex.isDigit_of_mem_encode (List.mem_of_mem_take hb)⟩

theorem isStem_of_digit {b : UInt8} (h : Hex.isDigit b = true) : isStem [b] = true :=
  isStem_iff.mpr ⟨by simp, by simpa using h⟩

theorem isName_of_mem_shards {l : Layout} {name x : Bytes} (h : x ∈ l.shards name) :
    Path.IsName x ∧ (0 : UInt8) ∉ x ∧ x.length ≤ nameLimit := by
  obtain ⟨b, rfl, hb⟩ := mem_shards h
  have hfile : Mode.plain.IsFile [b] 1 [b] := ⟨rfl, rfl⟩
  obtain ⟨hname, h0⟩ := hfile.isName (isStem_of_digit hb)
  exact ⟨hname, h0, by simp [nameLimit]⟩

/-- The names of the directories of a chunk can be joined to the root, if their path is not too long. -/
theorem joins_shards {l : Layout} {name : Bytes} (hlong : (l.root.below (l.shards name)).isTooLong = false) :
    l.root.Joins (l.shards name) where
  names _ hx := (isName_of_mem_shards hx).1
  nonzero _ hx := (isName_of_mem_shards hx).2.1
  length _ hx := (isName_of_mem_shards hx).2.2
  short := hlong

theorem isStem_place (l : Layout) {name : Bytes} (h : name ≠ []) :
    isStem (l.place name).stem = true := by
  have hlen : 0 < name.length := List.length_pos_iff.mpr h
  refine isStem_iff.mpr ⟨?_, fun b hb => Hex.isDigit_of_mem_encode (List.mem_of_mem_drop hb)⟩
  simp only [place, ne_eq, List.drop_eq_nil_iff, Hex.length_encode, levels]
  omega

theorem key_dir_place (l : Layout) (name : Bytes) :
    (l.place name).dir.key = l.shards name ++ l.root.key := by
  rw [dir_place, Path.key_below fun x hx => (isName_of_mem_shards hx).1]

theorem file_ne_root (l : Layout) (name file : Bytes) : file :: (l.place name).dir.key ≠ l.root.key := by
  intro e
  have hlen := congrArg List.length e
  rw [l.key_dir_place, List.length_cons, List.length_append] at hlen
  omega

theorem key_path (m : Mode) (l : Layout) {name : Bytes} (hname : name ≠ []) (count : Nat) :
    (m.path (l.place name) count).key =
      m.fileName (l.place name).stem count :: (l.place name).dir.key := by
  rw [Mode.path_eq, Path.key_join _ (m.isName_fileName (l.isStem_place hname) count).1]

/-- The shards and the stem of a chunk spell its name. -/
theorem flatten_shards (l : Layout) (name : Bytes) :
    (l.shards name).reverse.flatten ++ (l.place name).stem = Hex.encode name := by
  have hsingle : ∀ ds : Bytes, (ds.map fun d => [d]).flatten = ds := by
    intro ds
    induction ds with
    | nil => rfl
    | cons d ds ih => simp [ih]
  rw [shards, List.reverse_reverse, hsingle]
  exact List.take_append_drop _ _

/-- **No two chunks live in one place**, whatever the numbers of levels. -/
theorem place_injective {l m : Layout} {a b : Bytes} (hshards : l.shards a = m.shards b)
    (hstem : (l.place a).stem = (m.place b).stem) : a = b := by
  apply Hex.encode_injective
  rw [← l.flatten_shards a, ← m.flatten_shards b, hshards, hstem]

end Layout

end ContentStore
