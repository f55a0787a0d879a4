import ContentStore.Proofs.Request
import Mathlib.Data.List.Nodup
import Mathlib.Data.List.Perm.Subperm

/-!
# What a staged file does to the tree

A content is first filled into a hidden file and then renamed.  `write_spec` and `copy_spec` give every
change that is made on the way, and say that in the end the target has the content and all else is as
before, or that everything is as before.
-/

namespace ContentStore

open FileSystem (shut Between Moves)

namespace Staging

/-! ### Hidden names -/

theorem ofDigits_zeros (k : Nat) (ds : Bytes) :
    Decimal.ofDigits (List.replicate k 48 ++ ds) = Decimal.ofDigits ds := by
  induction k with
  | zero => rfl
  | succ k ih =>
    rw [← ih, List.replicate_succ, List.cons_append]
    simp [Decimal.ofDigits]

theorem hiddenName_injective : Function.Injective hiddenName := by
  intro m n h
  have h := congrArg (List.drop (Bytes.ofText ".tmp").length) h
  simp only [hiddenName, List.append_assoc, List.drop_left] at h
  have h := congrArg Decimal.ofDigits h
  simpa only [ofDigits_zeros, Decimal.ofDigits_render] using h

theorem freeName_eq (taken : List Bytes) : ∃ n, freeName taken = hiddenName n ∧ hiddenName n ∉ taken := by
  unfold freeName
  rcases hf : ((List.range (taken.length + 1)).map hiddenName).find? fun name => !taken.contains name
    with _ | name
  · -- more hidden names than taken ones, so not all of them are taken
    exfalso
    have hall : (List.range (taken.length + 1)).map hiddenName ⊆ taken := by
      intro x hx
      have := List.find?_eq_none.mp hf x hx
      simpa using this
    have hnodup : ((List.range (taken.length + 1)).map hiddenName).Nodup :=
      (List.nodup_range).map hiddenName_injective
    have hlength := (List.subperm_of_subset hnodup hall).length_le
    simp only [List.length_map, List.length_range] at hlength
    omega
  · obtain ⟨n, -, rfl⟩ := List.mem_map.mp (List.mem_of_find?_eq_some hf)
    refine ⟨n, rfl, ?_⟩
    have := List.find?_some hf
    simpa using this

theorem freeName_of_notMem {taken : List Bytes} (h : hiddenName 0 ∉ taken) :
    freeName taken = hiddenName 0 := by
  unfold freeName
  rw [List.range_succ_eq_map, List.map_cons, List.find?_cons_of_pos (by simpa using h)]
  rfl

theorem head?_hiddenName (n : Nat) : (hiddenName n).head? = some Bytes.dot := rfl

theorem mem_hiddenName {n : Nat} {b : UInt8} (h : b ∈ hiddenName n) :
    b ∈ Bytes.ofText ".tmp" ∨ Decimal.isDigit b = true := by
  simp only [hiddenName, List.mem_append] at h
  rcases h with (h | h) | h
  · exact Or.inl h
  · rw [List.eq_of_mem_replicate h]
    exact Or.inr rfl
  · exact Or.inr (Decimal.isDigit_of_mem_render h)

theorem isName_hiddenName (n : Nat) : Path.IsName (hiddenName n) := by
  have htext : Bytes.ofText ".tmp" = [46, 116, 109, 112] := by decide +kernel
  refine Path.isName_of_mem (b := 116) ?_ (by decide) ?_
  · simp [hiddenName, htext]
  · intro h
    rcases mem_hiddenName h with h | h
    · rw [htext] at h
      revert h
      decide
    · revert h
      decide

theorem zero_notMem_hiddenName (n : Nat) : (0 : UInt8) ∉ hiddenName n := by
  have htext : Bytes.ofText ".tmp" = [46, 116, 109, 112] := by decide +kernel
  intro h
  rcases mem_hiddenName h with h | h
  · rw [htext] at h
    revert h
    decide
  · revert h
    decide

/-! ### The parts of a staged file -/

/-- The names that the directory at a path lists. -/
def taken (t : Tree) (dir : Path) : List Bytes :=
  match t.list dir with
  | .ok inner => inner.names
  | .error _ => []

/-- The path of a new hidden file in the directory at a path. -/
def hiddenPath (t : Tree) (dir : Path) : Path := dir.join (freeName (taken t dir))

theorem newHidden_eq [FileSystem] (dir : Path) (w : Workspace) :
    (newHidden dir).run w = match w.tree.planCreate (hiddenPath w.tree dir) with
      | .ok k => (.ok ⟨hiddenPath w.tree dir, k⟩, w.commits [.create k])
      | .error f => (.error f, w) := by
  unfold newHidden hiddenPath taken
  simp only [Action.run_bind, Action.run_tree, Action.run_ask]
  cases w.tree.list dir <;> dsimp only <;> cases w.tree.planCreate _ <;> rfl

theorem mem_taken_iff {t : Tree} {dir : Path} (h : t.leadsToDir dir = true) {x : Bytes} :
    x ∈ taken t dir ↔ t.kind? (x :: dir.key) ≠ none := by
  obtain ⟨hc, hw, hd⟩ := Tree.leadsToDir_iff.mp h
  obtain ⟨inner, hinner⟩ := Tree.node?_of_kind?_dir hd
  have hlist : t.list dir = .ok inner :=
    Tree.list_eq_ok_iff.mpr (Tree.stat_eq_ok_iff.mpr ⟨hc, hw, hinner⟩)
  have htaken : taken t dir = inner.names := by rw [taken, hlist]
  have hfind : t.node? (x :: dir.key) = inner.find? x := by
    rw [Tree.node?, hinner]
    rfl
  rw [htaken, ne_eq, ← Tree.node?_eq_none_iff, hfind, Listing.find?_eq_none_iff, not_not]

theorem kind?_free {t : Tree} {dir : Path} (h : t.leadsToDir dir = true) :
    t.kind? (freeName (taken t dir) :: dir.key) = none := by
  obtain ⟨i, hi, hfree⟩ := freeName_eq (taken t dir)
  rw [← hi, mem_taken_iff h] at hfree
  simpa using hfree

/-- A new hidden file is a new and empty file in its directory, under a hidden name. -/
theorem newHidden_spec [FileSystem] {dir : Path} (hdir : dir ≠ .blank) (w : Workspace) :
    (∃ f, ¬ (w.tree.Admits (hiddenPath w.tree dir) ∧ shut dir.key = false) ∧
      (newHidden dir).run w = (.error f, w)) ∨
    ∃ h : Hidden, (newHidden dir).run w = (.ok h, w.commits [.create h.key]) ∧ h.path.key = h.key ∧
      (∃ i, h.key = hiddenName i :: dir.key) ∧ shut dir.key = false ∧ w.tree.Admits h.path ∧
      w.tree.kind? h.key = none ∧
      (w.commits [.create h.key]).tree.kind? =
        Function.update w.tree.kind? h.key (some (.file [])) := by
  rw [newHidden_eq]
  obtain ⟨i, hi, -⟩ := freeName_eq (taken w.tree dir)
  have hname : Path.IsName (freeName (taken w.tree dir)) := hi ▸ isName_hiddenName i
  have hkey : (hiddenPath w.tree dir).key = freeName (taken w.tree dir) :: dir.key := dir.key_join hname
  have hnew : w.tree.Admits (hiddenPath w.tree dir) → w.tree.kind? (hiddenPath w.tree dir).key = none := by
    rintro ⟨n, d, hn, -⟩
    obtain ⟨rfl, rfl, hlead⟩ := Tree.Names.of_join hname hdir hn
    rw [hkey]
    exact kind?_free (Tree.leadsToDir_iff.mpr hlead)
  rcases hplan : w.tree.planCreate (hiddenPath w.tree dir) with f | k
  · refine Or.inl ⟨f, fun ⟨h, hopen⟩ => ?_, rfl⟩
    rw [Tree.planCreate_eq_ok_iff.mpr
      ⟨h, ⟨fun _ => by rw [hkey]; exact hopen, fun hsome => absurd (hnew h) hsome⟩, rfl⟩] at hplan
    cases hplan
  · obtain ⟨hadmits, hopens, rfl⟩ := Tree.planCreate_eq_ok_iff.mp hplan
    have hopen := hopens.made (hnew hadmits)
    rw [hkey] at hopen
    refine Or.inr ⟨_, rfl, rfl, ⟨i, hi ▸ hkey⟩, hopen, hadmits, hnew hadmits, ?_⟩
    obtain ⟨n, d, hn, -, hk⟩ := hadmits
    show (w.tree.putFile (hiddenPath w.tree dir).key []).kind? = _
    rw [hn.key]
    exact Tree.kind?_putFile [] hn.dir hk

/-- A hidden file can be made in a directory unless its path or its name is too long. -/
theorem admits_hiddenPath {t : Tree} {dir : Path} (h : t.leadsToDir dir = true)
    (hlong : (hiddenPath t dir).isTooLong = false)
    (hlen : (freeName (taken t dir)).length ≤ nameLimit) : t.Admits (hiddenPath t dir) := by
  obtain ⟨i, hi, -⟩ := freeName_eq (taken t dir)
  have hname : Path.IsName (freeName (taken t dir)) := hi ▸ isName_hiddenName i
  have hzero : (0 : UInt8) ∉ freeName (taken t dir) := hi ▸ zero_notMem_hiddenName i
  have hc := Path.zero_notMem_of_check (Tree.leadsToDir_iff.mp h).1
  refine Tree.admits_join hname (Path.check_join hname hc hzero hlong) hlen h ?_
  rw [kind?_free h]
  simp

theorem foldl_append_spec {t : Tree} {k : Key} {before : Bytes} (hk : t.kind? k = some (.file before))
    (pieces : List Bytes) :
    ((pieces.map (Change.append k)).foldl Tree.apply t).kind? =
      Function.update t.kind? k (some (.file (before ++ pieces.flatten))) := by
  induction pieces generalizing t before with
  | nil => simp [← hk]
  | cons piece pieces ih =>
    obtain ⟨name, d, rfl⟩ : ∃ name d, k = name :: d := by
      cases k with
      | nil => simp at hk
      | cons name d => exact ⟨name, d, rfl⟩
    have hd : t.kind? d = some .dir := Tree.isDir_of_kind?_cons (by rw [hk]; simp)
    have happly : t.apply (.append (name :: d) piece) = t.putFile (name :: d) (before ++ piece) := by
      simp only [Tree.apply, Tree.content?_eq_some_iff.mpr hk]
    have hput := Tree.kind?_putFile (before ++ piece) hd (by rw [hk]; simp)
    rw [List.map_cons, List.foldl_cons, happly, ih (by rw [hput, Function.update_self]), hput,
      Function.update_idem, List.flatten_cons, List.append_assoc]

/-- The changes that fill a file. -/
def fillings (k : Key) (content : Bytes) : List Change :=
  (content.inPieces Bytes.pieceSize).map (Change.append k)

theorem fill_eq (k : Key) (content : Bytes) (w : Workspace) :
    Request.fill k content w = ((), w.commits (fillings k content)) :=
  Action.forM_commit (Change.append k) _ w

theorem kind?_fillings {w : Workspace} {k : Key} (hk : w.tree.kind? k = some (.file []))
    (content : Bytes) : (w.commits (fillings k content)).tree.kind? =
      Function.update w.tree.kind? k (some (.file content)) := by
  unfold fillings
  have := foldl_append_spec hk (content.inPieces Bytes.pieceSize)
  rwa [List.nil_append, Bytes.flatten_inPieces] at this

theorem finish_eq [FileSystem] (h : Hidden) (target : Path) (w : Workspace) :
    (finish h target).run w = match w.tree.planRename h.path target with
      | .ok c => (.ok (), w.commits [c])
      | .error f => (.error (.persist f), w.commits [.remove h.key]) := by
  unfold finish
  rw [Action.run_bind, Attempt.run_tree]
  dsimp only
  cases w.tree.planRename h.path target <;> rfl

/-! ### The whole of a staged file -/

/-- The changes by which a content appears at a key by way of a hidden file. -/
def stages (hidden : Key) (content : Bytes) (target : Key) : List Change :=
  .create hidden :: (fillings hidden content ++ [.rename hidden target])

/-- A file can be put at a path, and when it is there all else is as before. -/
structure Placed (t : Tree) (target : Path) (content : Bytes) (u : Tree) : Prop where
  admits : t.Admits target
  kinds : u.kind? = Function.update t.kind? target.key (some (.file content))

/-- A hidden file that is filled and finished is at the target, or nowhere. -/
theorem fill_finish_spec [FileSystem] {w : Workspace} {h : Hidden} (hkey : h.path.key = h.key)
    (hadmits : w.tree.Admits h.path) (hnone : w.tree.kind? h.key = none)
    (hkinds : (w.commits [.create h.key]).tree.kind? =
      Function.update w.tree.kind? h.key (some (.file []))) (target : Path) (content : Bytes) :
    (∃ f cs, ¬ (w.tree.Admits target ∧ Moves h.key target.key) ∧
      (finish h target).run ((w.commits [.create h.key]).commits (fillings h.key content)) =
        (.error (.persist f), w.commits cs) ∧ (w.commits cs).tree.kind? = w.tree.kind?) ∨
    ((finish h target).run ((w.commits [.create h.key]).commits (fillings h.key content)) =
        (.ok (), w.commits (stages h.key content target.key)) ∧ Moves h.key target.key ∧
      Placed w.tree target content (w.commits (stages h.key content target.key)).tree) := by
  have hfilled : ((w.commits [.create h.key]).commits (fillings h.key content)).tree.kind? =
      Function.update w.tree.kind? h.key (some (.file content)) := by
    rw [kind?_fillings (by rw [hkinds, Function.update_self]), hkinds, Function.update_idem]
  generalize hv : (w.commits [.create h.key]).commits (fillings h.key content) = v at hfilled ⊢
  have hfile : v.tree.kind? h.path.key = some (.file content) := by
    rw [hkey, hfilled, Function.update_self]
  have hdirs : ∀ k, w.tree.kind? k = some .dir ↔ v.tree.kind? k = some .dir := by
    intro k
    rw [hfilled]
    by_cases hk : k = h.key
    · subst hk
      simp [hnone]
    · rw [Function.update_of_ne hk]
  have hcommits : ∀ c, v.commits [c] = w.commits (.create h.key :: (fillings h.key content ++ [c])) := by
    intro c
    rw [← hv, ← Workspace.commits_append, ← Workspace.commits_append]
    rfl
  rw [finish_eq]
  rcases hplan : v.tree.planRename h.path target with f | c
  · refine Or.inl ⟨f, _, fun ⟨ht, hmoves⟩ => ?_, by rw [hcommits], ?_⟩
    · have hok := (Tree.planRename_eq_ok_iff hfile).mpr
        ⟨(Tree.admits_congr hdirs).mp hadmits, (Tree.admits_congr hdirs).mp ht, hkey ▸ hmoves, rfl⟩
      rw [hok] at hplan
      cases hplan
    · rw [← hcommits, Workspace.tree_commits_one]
      show (v.tree.remove h.key).kind? = _
      rw [Tree.kind?_removeFile (by rw [← hkey, hfile]; simp), hfilled, Function.update_idem, ← hnone,
        Function.update_eq_self]
  · obtain ⟨-, ht, hmoves, rfl⟩ := (Tree.planRename_eq_ok_iff hfile).mp hplan
    refine Or.inr ⟨by rw [hkey]; exact Prod.ext rfl (hcommits _), hkey ▸ hmoves, ⟨(Tree.admits_congr hdirs).mpr ht, ?_⟩⟩
    rw [stages, ← hcommits, Workspace.tree_commits_one]
    show (v.tree.move h.key target.key).kind? = _
    rw [← hkey, Tree.kind?_move hfile ht.dir ht.noDir, hkey, hfilled, Function.update_idem, ← hnone,
      Function.update_eq_self]

theorem moves_hidden_iff [FileSystem] {i : Nat} {dir hidden : Key} (hi : hidden = hiddenName i :: dir)
    (hopen : shut dir = false) (target : Key) : Moves hidden target ↔ Between dir target.tail := by
  subst hi
  exact FileSystem.moves_iff hopen

/-- **A staged file.**  A content that is written is whole at its target, or nothing has changed. -/
theorem write_spec [FileSystem] {dir : Path} (hdir : dir ≠ .blank) (target : Path) (content : Bytes)
    (w : Workspace) :
    (∃ e cs, ¬ (w.tree.Admits (hiddenPath w.tree dir) ∧ w.tree.Admits target ∧
        Between dir.key target.key.tail) ∧ e.isFault = true ∧
      (write dir target content).run w = (.error e, w.commits cs) ∧
      (w.commits cs).tree.kind? = w.tree.kind?) ∨
    ∃ hidden, (write dir target content).run w = (.ok (), w.commits (stages hidden content target.key)) ∧
      Between dir.key target.key.tail ∧
      Placed w.tree target content (w.commits (stages hidden content target.key)).tree := by
  unfold write
  rw [Action.run_bind, Action.run_file]
  rcases newHidden_spec hdir w with
    ⟨f, hno, hrun⟩ | ⟨h, hrun, hkey, ⟨i, hi⟩, hopen, hadmits, hnone, hkinds⟩
  · rw [hrun]
    exact Or.inl ⟨_, [], fun ha => hno ⟨ha.1, ha.2.2.1⟩, rfl, by rw [Workspace.commits_nil], by simp⟩
  · rw [hrun]
    simp only [Action.run_bind, Attempt.run_lift, fill_eq]
    have hmoves := moves_hidden_iff hi hopen target.key
    rcases fill_finish_spec hkey hadmits hnone hkinds target content with
      ⟨f, cs, hno, hfinish, hsame⟩ | ⟨hfinish, hbetween, hplaced⟩
    · exact Or.inl ⟨_, cs, fun ha => hno ⟨ha.2.1, hmoves.mpr ha.2.2⟩, rfl, hfinish, hsame⟩
    · exact Or.inr ⟨h.key, hfinish, hmoves.mp hbetween, hplaced⟩

/-- A file that is copied is whole at its target, or nothing has changed. -/
theorem copy_spec [FileSystem] {dir : Path} (hdir : dir ≠ .blank) (source target : Path) (w : Workspace) :
    (∃ e cs, ¬ ((∃ content, w.tree.stat source = .ok (.file content)) ∧
        w.tree.Admits (hiddenPath w.tree dir) ∧ w.tree.Admits target ∧ Between dir.key target.key.tail) ∧
      e.isFault = true ∧
      (copy dir source target).run w = (.error e, w.commits cs) ∧
      (w.commits cs).tree.kind? = w.tree.kind?) ∨
    ∃ content hidden, w.tree.stat source = .ok (.file content) ∧
      (copy dir source target).run w =
        (.ok content.length, w.commits (stages hidden content target.key)) ∧
      Between dir.key target.key.tail ∧
      Placed w.tree target content (w.commits (stages hidden content target.key)).tree := by
  unfold copy
  rw [Action.run_bind, Action.run_file, Action.run_ask]
  rcases hstat : w.tree.stat source with f | node
  · exact Or.inl ⟨_, [], by simp, rfl, by rw [Workspace.commits_nil], by simp⟩
  · dsimp only
    rw [Action.run_bind, Action.run_file]
    rcases newHidden_spec hdir w with
      ⟨f, hno, hrun⟩ | ⟨h, hrun, hkey, ⟨i, hi⟩, hopen, hadmits, hnone, hkinds⟩
    · rw [hrun]
      exact Or.inl ⟨_, [], fun ha => hno ⟨ha.2.1, ha.2.2.2.1⟩, rfl, by rw [Workspace.commits_nil], by simp⟩
    · rw [hrun]
      cases node with
      | dir inner =>
        simp only [Action.run_bind, Attempt.run_commit, Action.run_throw]
        refine Or.inl ⟨_, _, by simp, rfl, by rw [Workspace.commits_concat], ?_⟩
        show ((w.commits [.create h.key]).tree.remove h.key).kind? = _
        rw [Tree.kind?_removeFile (by rw [hkinds, Function.update_self]; simp), hkinds,
          Function.update_idem, ← hnone, Function.update_eq_self]
      | file content =>
        simp only [Action.run_bind, Attempt.run_lift, fill_eq]
        have hmoves := moves_hidden_iff hi hopen target.key
        rcases fill_finish_spec hkey hadmits hnone hkinds target content with
          ⟨f, cs, hno, hfinish, hsame⟩ | ⟨hfinish, hbetween, hplaced⟩
        · rw [hfinish]
          exact Or.inl ⟨_, cs, fun ha => hno ⟨ha.2.2.1, hmoves.mpr ha.2.2.2⟩, rfl, rfl, hsame⟩
        · rw [hfinish]
          exact Or.inr ⟨content, h.key, rfl, rfl, hmoves.mp hbetween, hplaced⟩

end Staging

variable [FileSystem]

/-- A file that is written in place has the content, or nothing has changed. -/
theorem Request.write_spec (target : Path) (content : Bytes) (w : Workspace) :
    (∃ f, ¬ (w.tree.Admits target ∧ w.tree.Opens target) ∧
      (Request.write target content).run w = (.error f, w)) ∨
    ∃ cs, (Request.write target content).run w = (.ok (), w.commits cs) ∧ w.tree.Opens target ∧
      Staging.Placed w.tree target content (w.commits cs).tree := by
  unfold Request.write
  rw [Action.run_bind, Action.run_ask]
  rcases hplan : w.tree.planCreate target with f | k
  · refine Or.inl ⟨f, fun h => ?_, rfl⟩
    rw [Tree.planCreate_eq_ok_iff.mpr ⟨h.1, h.2, rfl⟩] at hplan
    cases hplan
  · obtain ⟨hadmits, hopen, rfl⟩ := Tree.planCreate_eq_ok_iff.mp hplan
    obtain ⟨n, d, hn, -, hk⟩ := id hadmits
    have hkinds : (w.commits [.create target.key]).tree.kind? =
        Function.update w.tree.kind? target.key (some (.file [])) := by
      rw [hn.key]
      exact Tree.kind?_putFile [] hn.dir hk
    refine Or.inr ⟨.create target.key :: Staging.fillings target.key content, ?_, hopen, hadmits, ?_⟩
    · dsimp only
      rw [Action.run_bind, Action.run_commit]
      dsimp only
      rw [Action.run_lift, Staging.fill_eq, ← Workspace.commits_append]
      rfl
    · rw [← List.singleton_append, Workspace.commits_append,
        Staging.kind?_fillings (by rw [hkinds, Function.update_self]), hkinds, Function.update_idem]

end ContentStore
