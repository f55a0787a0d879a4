import ContentStore.Proofs.Handover
import ContentStore.Proofs.Bystander
import Mathlib.Algebra.Group.Nat.Defs

/-!
# Dropping one of several references

A smaller number is not longer (`length_render_le`), so the name with one reference less fits wherever the
old one does.  If no directory has that name the reference can be dropped: `release_shared`.
-/

namespace ContentStore

open FileSystem (shut Free Moves)

namespace Decimal

theorem ofDigits_lt {ds : Bytes} (h : ds.all isDigit = true) : ofDigits ds < 10 ^ ds.length := by
  induction ds using List.reverseRecOn with
  | nil => decide
  | append_singleton ds d ih =>
    rw [List.all_append, Bool.and_eq_true] at h
    have hd : isDigit d = true := by simpa using h.2
    have hlt : d.toNat - 48 < 10 := by
      have : d ≤ 57 := by
        unfold isDigit at hd
        rw [Bool.and_eq_true, decide_eq_true_eq, decide_eq_true_eq] at hd
        exact hd.2
      have := UInt8.le_iff_toNat_le.mp this
      have h57 : (57 : UInt8).toNat = 57 := rfl
      omega
    have ih := ih h.1
    rw [ofDigits_append_digit, List.length_append, List.length_singleton, pow_succ]
    omega

theorem length_render_le_of_lt {n k : Nat} (hk : 0 < k) (h : n < 10 ^ k) : (render n).length ≤ k := by
  induction k generalizing n with
  | zero => omega
  | succ k ih =>
    unfold render
    split
    · simp
    · next hn =>
      have hk : 0 < k := by
        rcases Nat.eq_zero_or_pos k with rfl | hk
        · exact absurd h hn
        · exact hk
      have hdiv : n / 10 < 10 ^ k := by
        rw [pow_succ] at h
        omega
      rw [List.length_append, List.length_singleton]
      exact Nat.succ_le_succ (ih hk hdiv)

theorem length_render_le {ds : Bytes} (hne : ds ≠ []) (hall : ds.all isDigit = true) {n : Nat}
    (h : n ≤ ofDigits ds) : (render n).length ≤ ds.length :=
  length_render_le_of_lt (List.length_pos_iff.mpr hne) (lt_of_le_of_lt h (ofDigits_lt hall))

end Decimal

theorem Path.isTooLong_join_mono {p : Path} {x y : Bytes} (hx : IsName x) (hy : IsName y)
    (hlen : x.length ≤ y.length) (h : (p.join y).isTooLong = false) : (p.join x).isTooLong = false := by
  unfold isTooLong join at *
  rw [hx.isAbsolute, if_neg (by simp)]
  rw [hy.isAbsolute, if_neg (by simp)] at h
  split at h <;> split <;>
    simp only [List.length_append, List.length_cons, decide_eq_false_iff_not, Nat.not_le] at h ⊢ <;>
      omega

namespace Mode

variable {m : Mode} {l : Location} {t : Tree} {e : Entry} {file content : Bytes} {w v : Workspace}

theorem length_fileName_le {stem : Bytes} {n k : Nat} (hfile : m.IsFile stem k file) (hn : n ≤ k) :
    (m.fileName stem n).length ≤ file.length := by
  cases m with
  | plain => exact (congrArg List.length hfile.1).ge
  | counted =>
    obtain ⟨digits, rfl, hne, hall, hof, -⟩ := hfile
    have hle : n ≤ Decimal.ofDigits digits := by rw [hof]; exact hn
    have := Decimal.length_render_le hne hall hle
    simp only [fileName, List.length_append, List.length_cons]
    omega

/-- A file with fewer references can be put where the file of the chunk can. -/
theorem admits_fewer (hdir : l.dir ≠ .blank) (hs : isStem l.stem = true) (found : m.Found l t e file content)
    (hold : t.Admits e.path) {n : Nat} (hn : n ≤ e.count)
    (hno : t.kind? (m.fileName l.stem n :: l.dir.key) ≠ some .dir) : t.Admits (m.path l n) := by
  have hname := found.isFile.isName hs
  obtain ⟨hnew, h0⟩ := m.isName_fileName hs n
  have hlen := length_fileName_le found.isFile hn
  obtain ⟨x, d, hx, -⟩ := hold
  rw [found.path] at hx
  have hlong := (Path.check_eq_ok_iff.mp hx.check).2.2
  obtain ⟨rfl, -⟩ := hx.of_join hname.1 hdir
  rw [path_eq]
  refine Tree.admits_join hnew (Path.check_join hnew ?_ h0 (Path.isTooLong_join_mono hnew hname.1 hlen hlong))
    (hlen.trans hx.length) found.dir hno
  exact Path.zero_notMem_of_check (Tree.leadsToDir_iff.mp found.dir).1

/-- A chunk file that could be put where it is can be looked at. -/
theorem Found.stat (hdir : l.dir ≠ .blank) (hs : isStem l.stem = true) (found : m.Found l t e file content)
    (hold : t.Admits e.path) : t.stat e.path = .ok (.file content) := by
  have hcheck := hold.check
  obtain ⟨x, d, hx, -⟩ := hold
  rw [found.path] at hx hcheck ⊢
  obtain ⟨rfl, -⟩ := hx.of_join (found.isFile.isName hs).1 hdir
  exact Tree.stat_join (found.isFile.isName hs).1 hcheck hx.length found.dir found.kind

/-- **One of several references is dropped**, if no directory has the name that the file takes and the one of
the chunk is not shut. -/
theorem release_shared [FileSystem] (hopen : shut l.dir.key = false) (hdir : l.dir ≠ .blank)
    (hs : isStem l.stem = true)
    (found : m.Found l w.tree e file content) (hold : w.tree.Admits e.path) (hcount : 1 < e.count)
    (hno : w.tree.kind? (m.fileName l.stem (e.count - 1) :: l.dir.key) ≠ some .dir) :
    ∃ v, (m.release l e).run w = (.ok (e.count - 1), v) := by
  have hmode : m = .counted := by
    cases m with
    | plain =>
      have hone : e.count = 1 := found.isFile.carries
      omega
    | counted => rfl
  have hrun := release_run (m := m) (l := l) (by rw [found.key hs]; exact found.kind)
  rcases hr : (m.release l e).run w with ⟨r, v⟩
  rw [hr] at hrun
  cases hrun with
  | renamed => exact ⟨v, rfl⟩
  | refused f h hcount hrefused =>
    have hmoves : Moves e.path.key (m.path l (e.count - 1)).key := by
      rw [found.key hs, path_eq, Path.key_join _ (m.isName_fileName hs _).1]
      exact FileSystem.moves_within hopen _ _
    exact absurd ⟨hold, admits_fewer hdir hs found hold (Nat.sub_le _ _) hno, hmoves⟩ hrefused
  | kept f hnot => exact absurd ⟨hmode, hcount⟩ hnot
  | removed hnot => exact absurd ⟨hmode, hcount⟩ hnot

end Mode

/-- Where only digits name directories, no directory has the name of a counted chunk. -/
theorem Tidy.not_counted {l : Layout} {name : Bytes} {kinds : Key → Option Kind} (h : Tidy l.root.key kinds)
    (hname : name ≠ []) (n : Nat) :
    kinds (Mode.counted.fileName (l.place name).stem n :: (l.place name).dir.key) ≠ some .dir := by
  intro hdir
  obtain ⟨b, hb, -⟩ := h _ _ ⟨l.shards name, (l.key_dir_place name).symm⟩ hdir
  have hstem := (isStem_iff.mp (l.isStem_place hname)).1
  have hlen := congrArg List.length hb
  have hpos := List.length_pos_iff.mpr hstem
  simp only [Mode.fileName, List.length_append, List.length_cons, List.length_nil] at hlen
  omega

variable [FileSystem]

/-- One of several references to a chunk that was handed over is dropped, where only digits name
directories and nothing is shut. -/
theorem FileStore.letGo_fewer {s : FileStore} {l : Layout} {name file old : Bytes} {e : Entry}
    {w : Workspace} (before : Entry) (hname : name ≠ []) (hroot : l.root ≠ .blank)
    (hfind : s.mode.find (l.place name) w.tree = .ok (some e))
    (found : s.mode.Found (l.place name) w.tree e file old) (hold : w.tree.Admits e.path) (hgt : 1 < e.count)
    (htidy : Tidy l.root.key w.tree.kind?) (hfree : Free l.root.key) :
    ∃ v, (s.letGo name (l.place name) before).run w = (.ok s, v) ∧
      Dropped s l name w.tree s v.tree.kind? := by
  have hmode : s.mode = .counted := by
    by_contra hplain
    exact absurd (count_of_not_shared found fun h => hplain h.1) hgt.ne'
  obtain ⟨x, hrelease⟩ := Mode.release_shared (hfree.shut_dir name) (l.dir_place_ne_blank hroot name)
    (l.isStem_place hname) found hold
    hgt (by rw [hmode]; exact htidy.not_counted hname _)
  have hrun := letGo_run s name (l.place name) before w
  rcases hr : (s.letGo name (l.place name) before).run w with ⟨r, v⟩
  rw [hr] at hrun
  cases hrun with
  | unreadable f hfind' | gone hfind' =>
    rw [hfind] at hfind'
    cases hfind'
  | kept e' hfind' hplain =>
    rw [hmode] at hplain
    cases hplain
  | refused e' hfind' _ err u hrefused =>
    rw [hfind] at hfind'
    cases hfind'
    rw [hrelease] at hrefused
    cases hrefused
  | dropped e' hfind' _ n u y hdrop hn hlast =>
    refine ⟨v, rfl, ?_⟩
    rw [hlast.tree, Workspace.commits_nil]
    rcases dropped_of_release hname hroot hfind' hdrop with ⟨-, hd⟩ | ⟨h0, -⟩
    · exact hd
    · exact absurd h0 hn
  | removed e' hfind' _ u y hdrop =>
    rw [hfind] at hfind'
    cases hfind'
    rw [hrelease] at hdrop
    have hzero : e.count - 1 = 0 := by simpa using congrArg (fun r => r.1) hdrop
    omega

end ContentStore
