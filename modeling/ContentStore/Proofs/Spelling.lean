import ContentStore.Proofs.ChunkFile
import Mathlib.Data.List.Basic
import Mathlib.Data.List.Induction
import Mathlib.Data.Nat.Digits.Defs

/-!
# Names and paths of chunks

The path of a chunk consists of the root, one directory for each of the first digits of its name, and a file
name that begins with the other digits.

* The path can be read back (`Mode.digitsOf?`), so that two chunks never share one:
  `chunk_paths_spell_names`.
* A file name is taken for that of a chunk just if it can be written for one:
  `recognised_iff_written`.
-/

namespace ContentStore

open Bytes (dot)

/-! ### The steps of a path -/

namespace Path

/-- The pieces that lead somewhere.  Two spellings of one path have the same steps. -/
def steps (p : Path) : List Bytes := p.pieces.filter fun piece => !isIdle piece

/-- The steps of a path that are left without those of a root. -/
def beneath? (root p : Path) : Option (List Bytes) := p.steps.dropPrefix? root.steps

theorem steps_eq_base (p : Path) : p.steps = p.base.filter fun piece => !isIdle piece := by
  rcases p.pieces_eq_base with h | h
  · rw [steps, h]
  · rw [steps, h, List.filter_append]
    simp [isIdle]

theorem steps_join (p : Path) {x : Bytes} (hx : IsName x) : (p.join x).steps = p.steps ++ [x] := by
  rw [steps_eq_base, base_join p hx, List.filter_append, ← steps_eq_base]
  simp [hx.isIdle]

theorem steps_below {p : Path} {k : Key} (h : ∀ x ∈ k, IsName x) :
    (p.below k).steps = p.steps ++ k.reverse := by
  induction k with
  | nil => simp [below]
  | cons name k ih =>
    rw [below, steps_join _ (h name List.mem_cons_self), ih fun x hx => h x (List.mem_cons_of_mem _ hx)]
    simp

theorem beneath?_of_append {root p : Path} {names : List Bytes} (h : p.steps = root.steps ++ names) :
    root.beneath? p = some names :=
  List.dropPrefix?_eq_some_iff.mpr ⟨root.steps, h, beq_self_eq_true _⟩

theorem fileName?_join (p : Path) {x : Bytes} (hx : IsName x) : (p.join x).fileName? = some x := by
  have hup : x ≠ [dot, dot] := hx.ne_up
  have htrim : ∀ before, trimEnd (x :: before) = x :: before := by
    intro before
    cases before with
    | nil => rfl
    | cons y before => simp [trimEnd, hx.isIdle]
  rw [fileName?, pieces_join p hx, List.reverse_append, List.reverse_singleton, List.singleton_append, htrim]
  simp [hx.isIdle, hup]

end Path

/-! ### Reading the path of a chunk -/

namespace Mode

/-- The stem of a file name: what stands before the count, if there is one. -/
def stemOf? (m : Mode) (file : Bytes) : Option Bytes :=
  match m with
  | .plain => some file
  | .counted => (Bytes.splitLast dot file).map Prod.fst

/-- What the path of a chunk spells below a root, without the count. -/
def digitsOf? (m : Mode) (root p : Path) : Option Bytes := do
  let names ← root.beneath? p
  let file ← names.getLast?
  let stem ← m.stemOf? file
  return names.dropLast.flatten ++ stem

theorem stemOf?_fileName (m : Mode) (stem : Bytes) (count : Nat) :
    m.stemOf? (m.fileName stem count) = some stem := by
  cases m with
  | plain => rfl
  | counted =>
    have hdot : dot ∉ Decimal.render count := fun h =>
      (Decimal.ne_of_isDigit (Decimal.isDigit_of_mem_render h)).1 rfl
    have hsplit : Bytes.splitLast dot (stem ++ dot :: Decimal.render count) =
        some (stem, Decimal.render count) := Bytes.splitLast_eq_some_iff.mpr ⟨rfl, hdot⟩
    rw [stemOf?, fileName, hsplit]
    rfl

variable {m : Mode} {l : Layout} {name : Bytes} {count : Nat}

theorem steps_path (hname : name ≠ []) :
    (m.path (l.place name) count).steps =
      l.root.steps ++ ((l.shards name).reverse ++ [m.fileName (l.place name).stem count]) := by
  rw [path_eq, Path.steps_join _ (m.isName_fileName (l.isStem_place hname) count).1, l.dir_place,
    Path.steps_below fun x hx => (Layout.isName_of_mem_shards hx).1, List.append_assoc]

/-- **The path of a chunk reads back** as the digits of its name. -/
theorem digitsOf?_path (hname : name ≠ []) :
    m.digitsOf? l.root (m.path (l.place name) count) = some (Hex.encode name) := by
  have hbeneath : l.root.beneath? (m.path (l.place name) count) = _ := Path.beneath?_of_append (m.steps_path hname)
  rw [digitsOf?, hbeneath]
  simp only [Option.bind_eq_bind, Option.bind_some, List.getLast?_concat, List.dropLast_concat,
    stemOf?_fileName, l.flatten_shards name]
  rfl

/-- **No two chunks share a path**, whatever the numbers of levels, the modes and the counts. -/
theorem path_injective {root : Path} {d e : Nat} {a b : Bytes} {m n : Mode} {j k : Nat} (ha : a ≠ [])
    (hb : b ≠ [])
    (h : (m.path (Layout.place ⟨root, d⟩ a) j).steps = (n.path (Layout.place ⟨root, e⟩ b) k).steps) :
    a = b ∧ m = n ∧ (m = .counted → j = k) := by
  rw [steps_path ha, steps_path hb] at h
  obtain ⟨hshards, hfile⟩ := List.append_inj' (List.append_cancel_left h) rfl
  have hfile := List.singleton_inj.mp hfile
  have hstems := Layout.isStem_place ⟨root, d⟩ ha
  have hstemt := Layout.isStem_place ⟨root, e⟩ hb
  obtain ⟨rfl, hstem⟩ := Names.inj hstems hstemt (names_fileName m _ j) (hfile ▸ names_fileName n _ k)
  refine ⟨Layout.place_injective (List.reverse_inj.mp hshards) hstem, rfl, ?_⟩
  rintro rfl
  have hcount : dot :: Decimal.render j = dot :: Decimal.render k := by
    rw [← hstem] at hfile
    exact List.append_cancel_left hfile
  exact Decimal.render_injective (List.cons.inj hcount).2

end Mode

/-- **Paths of chunks spell names.**  Every name that is not blank has a place under every root.  Two chunks
have paths with the same steps only if their names, their modes and, with counts, their numbers of references
are the same.  The path of a chunk reads back as the digits of its name: there is a directory for each of the
first digits, as many as the depth asks for but leaving at least one digit, and the others are the stem. -/
theorem chunk_paths_spell_names (root : Path) {a b : Bytes} (ha : a ≠ []) (hb : b ≠ []) (d e : Nat)
    (m n : Mode) (j k : Nat) :
    ∃ p q, Layout.locate ⟨root, d⟩ a = .ok p ∧ Layout.locate ⟨root, e⟩ b = .ok q ∧
      ((m.path p j).steps = (n.path q k).steps → a = b ∧ m = n ∧ (m = .counted → j = k)) ∧
      m.digitsOf? root (m.path p j) = some (Hex.encode a) ∧
      ∃ levels : Bytes, p.dir = levels.foldl (fun dir digit => dir.join [digit]) root ∧
        (m.path p j).steps = root.steps ++ levels.map (fun digit => [digit]) ++ [m.fileName p.stem j] ∧
        levels ++ p.stem = Hex.encode a ∧ levels.length = min d (2 * a.length - 1) ∧ p.stem ≠ [] ∧
        ∀ b ∈ levels ++ p.stem, Hex.isDigit b = true := by
  refine ⟨Layout.place ⟨root, d⟩ a, Layout.place ⟨root, e⟩ b, if_neg ha, if_neg hb,
    Mode.path_injective ha hb, m.digitsOf?_path (l := ⟨root, d⟩) ha,
    (Hex.encode a).take (Layout.levels ⟨root, d⟩ (Hex.encode a)), rfl, ?_, ?_, ?_, ?_, ?_⟩
  · rw [Mode.steps_path ha, Layout.shards, List.reverse_reverse, List.append_assoc]
  · exact List.take_append_drop _ _
  · simp [Layout.levels]
  · exact (isStem_iff.mp (Layout.isStem_place ⟨root, d⟩ ha)).1
  · intro b hb
    rw [Layout.place, List.take_append_drop] at hb
    exact Hex.isDigit_of_mem_encode hb

/-- The same name at two depths, and two names that only a directory keeps apart, under a root that ends in a
slash. -/
theorem chunk_paths_spell_names_shared_digits :
    ([0x61, 0x62] : Bytes) ≠ [] ∧ ([0x62] : Bytes) ≠ [] ∧
    ∃ p q, Layout.locate ⟨Path.ofText "r/", 2⟩ [0x61, 0x62] = .ok p ∧
      Layout.locate ⟨Path.ofText "r/", 0⟩ [0x62] = .ok q ∧ p.stem = q.stem ∧
      (Mode.counted.path p 12).steps ≠ (Mode.counted.path q 12).steps ∧
      Mode.counted.path p 12 = Path.ofText "r/6/1/62.12" ∧
      Mode.counted.digitsOf? (Path.ofText "r/") (Path.ofText "r/6/1/62.12") = some (Hex.encode [0x61, 0x62]) := by
  have ha : ([0x61, 0x62] : Bytes) ≠ [] := by decide
  have hb : ([0x62] : Bytes) ≠ [] := by decide
  obtain ⟨p, q, hp, hq, hinj, hread, -⟩ :=
    chunk_paths_spell_names (Path.ofText "r/") ha hb 2 0 .counted .counted 12 12
  obtain rfl := Except.ok.inj hp
  obtain rfl := Except.ok.inj hq
  have hpath : Mode.counted.path (Layout.place ⟨Path.ofText "r/", 2⟩ [0x61, 0x62]) 12 =
      Path.ofText "r/6/1/62.12" := by decide +kernel
  exact ⟨ha, hb, _, _, hp, hq, by decide +kernel, fun h => absurd (hinj h).1 (by decide), hpath,
    hpath ▸ hread⟩

/-! ### Reading the name of a file -/

/-- The digits stand for the number that they have in the decimal system. -/
theorem Decimal.ofDigits_eq (digits : Bytes) :
    Decimal.ofDigits digits = Nat.ofDigits 10 (digits.reverse.map fun d => d.toNat - 48) := by
  induction digits using List.reverseRecOn with
  | nil => rfl
  | append_singleton digits d ih =>
    rw [Decimal.ofDigits_append_digit, ih]
    simp [Nat.ofDigits_cons, Nat.add_comm]

/-- Some store gives some chunk this stem. -/
def IsPlaced (stem : Bytes) : Prop :=
  ∃ (l : Layout) (name : Bytes) (place : Location), l.locate name = .ok place ∧ place.stem = stem

theorem Layout.locate_eq_ok_iff {l : Layout} {name : Bytes} {place : Location} :
    l.locate name = .ok place ↔ name ≠ [] ∧ l.place name = place := by
  unfold locate
  split <;> simp_all

/-- **Every run of digits is the stem of a chunk**: of a flat one if there is an even number of them, and
otherwise of one whose first digit is a directory. -/
theorem isPlaced_iff {stem : Bytes} : IsPlaced stem ↔ isStem stem = true := by
  constructor
  · rintro ⟨l, name, place, hplace, rfl⟩
    obtain ⟨hname, rfl⟩ := Layout.locate_eq_ok_iff.mp hplace
    exact l.isStem_place hname
  · intro h
    obtain ⟨hne, hd⟩ := isStem_iff.mp h
    have hlen := List.length_pos_iff.mpr hne
    rcases Nat.mod_two_eq_zero_or_one stem.length with heven | hodd
    · obtain ⟨name, rfl⟩ := Hex.exists_encode hd heven
      have hname : name ≠ [] := by
        rintro rfl
        exact hne rfl
      exact ⟨⟨.blank, 0⟩, name, _, if_neg hname, by simp [Layout.place, Layout.levels]⟩
    · have hdigits : ∀ d ∈ Hex.digit 0 :: stem, Hex.isDigit d = true := by simpa using ⟨Hex.isDigit_digit 0, hd⟩
      obtain ⟨name, hname⟩ := Hex.exists_encode hdigits (by rw [List.length_cons]; omega)
      have hne' : name ≠ [] := by
        rintro rfl
        cases hname
      have hlevels : Layout.levels ⟨.blank, 1⟩ (Hex.digit 0 :: stem) = 1 := by
        simp only [Layout.levels, List.length_cons]
        omega
      refine ⟨⟨.blank, 1⟩, name, _, if_neg hne', ?_⟩
      rw [Layout.place, hname, hlevels]
      rfl

theorem Decimal.wordLimit_eq : Decimal.wordLimit = 2 ^ 64 := by decide

namespace Mode

theorem plain_classify_eq_some_iff {file : Bytes} {n : Nat} :
    Mode.plain.classify file = some n ↔ IsPlaced file ∧ n = 1 := by
  rw [classify_eq_some_iff, isPlaced_iff]
  constructor
  · rintro ⟨stem, hs, rfl, rfl⟩
    exact ⟨hs, rfl⟩
  · rintro ⟨hs, rfl⟩
    exact ⟨file, hs, rfl, rfl⟩

theorem counted_classify_eq_some_iff {file : Bytes} {n : Nat} :
    Mode.counted.classify file = some n ↔ ∃ stem digits, file = stem ++ dot :: digits ∧ IsPlaced stem ∧
      digits ≠ [] ∧ (∀ b ∈ digits, Decimal.isDigit b = true) ∧
      Nat.ofDigits 10 (digits.reverse.map fun d => d.toNat - 48) = n ∧ 1 ≤ n ∧ n ≤ 2 ^ 64 - 1 := by
  rw [classify_eq_some_iff]
  constructor
  · rintro ⟨stem, hs, digits, rfl, hne, hall, rfl, hpos, hlt⟩
    rw [Decimal.wordLimit_eq] at hlt
    exact ⟨stem, digits, rfl, isPlaced_iff.mpr hs, hne, List.all_eq_true.mp hall,
      (Decimal.ofDigits_eq digits).symm, hpos, Nat.le_sub_one_of_lt hlt⟩
  · rintro ⟨stem, digits, rfl, hs, hne, hall, rfl, hpos, hle⟩
    rw [← Decimal.ofDigits_eq] at hpos hle ⊢
    refine ⟨stem, isPlaced_iff.mp hs, digits, rfl, hne, List.all_eq_true.mpr hall, rfl, hpos, ?_⟩
    rw [Decimal.wordLimit_eq]
    omega

/-- The number of references that stands in the name of a file that holds `count` of them. -/
def counts (m : Mode) (count : Nat) : Nat := if m.isCounted then count else 1

theorem carries_counts (m : Mode) {count : Nat} (hpos : 1 ≤ count) (hle : count ≤ 2 ^ 64 - 1) :
    m.Carries (m.counts count) := by
  cases m with
  | plain => rfl
  | counted =>
    refine ⟨hpos, ?_⟩
    rw [Decimal.wordLimit_eq]
    simp only [counts, isCounted, decide_true, if_true]
    omega

/-- **What is written is recognised.** -/
theorem classify_fileName (m : Mode) {stem : Bytes} (hs : isStem stem = true) {count : Nat} (hpos : 1 ≤ count)
    (hle : count ≤ 2 ^ 64 - 1) : m.classify (m.fileName stem count) = some (m.counts count) := by
  have hfile := isFile_fileName stem (m.carries_counts hpos hle)
  have hname : m.fileName stem (m.counts count) = m.fileName stem count := by
    cases m <;> rfl
  exact classify_eq_some_iff.mpr ⟨stem, hs, hname ▸ hfile⟩

/-- No file name belongs to both modes. -/
theorem classify_disjoint (file : Bytes) :
    Mode.plain.classify file = none ∨ Mode.counted.classify file = none := by
  by_contra h
  obtain ⟨hp, hc⟩ := not_or.mp h
  obtain ⟨n, hn⟩ := Option.ne_none_iff_exists'.mp hp
  obtain ⟨k, hk⟩ := Option.ne_none_iff_exists'.mp hc
  obtain ⟨stem, hs, hfile⟩ := classify_eq_some_iff.mp hn
  obtain ⟨stem', hs', hfile'⟩ := classify_eq_some_iff.mp hk
  exact absurd (Names.inj hs hs' hfile.names hfile'.names).1 (by decide)

end Mode

/-- **A file name is recognised just if it is written for some chunk.**  Without counts, these are the stems of
all chunks in all layouts; with counts, a dot and a decimal number between one and the largest word follow, and
zeros may stand before the number.  So the file name of a chunk says how many references it holds, no file
belongs to both modes, and no hidden file belongs to one. -/
theorem recognised_iff_written (file : Bytes) :
    (∀ n, Mode.plain.classify file = some n ↔ IsPlaced file ∧ n = 1) ∧
    (∀ n, Mode.counted.classify file = some n ↔ ∃ stem digits, file = stem ++ dot :: digits ∧
      IsPlaced stem ∧ digits ≠ [] ∧ (∀ b ∈ digits, Decimal.isDigit b = true) ∧
      Nat.ofDigits 10 (digits.reverse.map fun d => d.toNat - 48) = n ∧ 1 ≤ n ∧ n ≤ 2 ^ 64 - 1) ∧
    (∀ (m : Mode) (place : Location) (n : Nat), IsPlaced place.stem → 1 ≤ n → n ≤ 2 ^ 64 - 1 →
      ∃ name, (m.path place n).fileName? = some name ∧ m.classify name = some (m.counts n)) ∧
    (Mode.plain.classify file = none ∨ Mode.counted.classify file = none) ∧
    (file.head? = some dot → ∀ m : Mode, m.classify file = none) := by
  refine ⟨fun n => Mode.plain_classify_eq_some_iff, fun n => Mode.counted_classify_eq_some_iff,
    fun m place n hplaced hpos hle => ?_, Mode.classify_disjoint file, fun h m => m.classify_hidden h⟩
  have hs := isPlaced_iff.mp hplaced
  refine ⟨m.fileName place.stem n, ?_, m.classify_fileName hs hpos hle⟩
  rw [Mode.path_eq, Path.fileName?_join _ (m.isName_fileName hs n).1]

/-- A stem of three digits, a count with zeros before it, and the largest count. -/
theorem recognised_iff_written_odd_stem :
    Mode.counted.classify (Bytes.ofText "abc.007") = some 7 ∧
    Mode.plain.classify (Bytes.ofText "abc.007") = none ∧
    Mode.counted.classify (Bytes.ofText ".abc.007") = none ∧
    IsPlaced (Bytes.ofText "abc") ∧
    ∃ name, (Mode.counted.path ⟨Path.ofText "r", Bytes.ofText "abc"⟩ (2 ^ 64 - 1)).fileName? = some name ∧
      Mode.counted.classify name = some (2 ^ 64 - 1) := by
  have hplaced : IsPlaced (Bytes.ofText "abc") :=
    ⟨⟨.blank, 1⟩, [0x0a, 0xbc], _, rfl, by decide +kernel⟩
  obtain ⟨-, hcounted, hnames, hdisjoint, -⟩ := recognised_iff_written (Bytes.ofText "abc.007")
  have hseven : Mode.counted.classify (Bytes.ofText "abc.007") = some 7 :=
    (hcounted 7).mpr ⟨Bytes.ofText "abc", Bytes.ofText "007", by decide +kernel, hplaced, by decide +kernel,
      by decide +kernel, by decide +kernel, by decide, by decide⟩
  refine ⟨hseven, ?_, (recognised_iff_written (Bytes.ofText ".abc.007")).2.2.2.2 (by decide +kernel) _, hplaced,
    hnames .counted ⟨Path.ofText "r", Bytes.ofText "abc"⟩ (2 ^ 64 - 1) hplaced (by decide) le_rfl⟩
  rcases hdisjoint with h | h
  · exact h
  · rw [hseven] at h
    cases h

end ContentStore
