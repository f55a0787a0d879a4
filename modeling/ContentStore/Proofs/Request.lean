import ContentStore.Proofs.Plan
import ContentStore.Staging

/-!
# What a request does to the tree

Every request either changes nothing that can be found by a key or changes what stands at one or two
keys.  `Workspace.commits` is a workspace after some changes; each theorem below gives the changes of a
request one by one, because whoever looks in between sees them one by one, and the kinds that they come
to together:

* `unlink_spec`, `rename_spec` for a single change;
* `newHidden_spec`, `fill_eq`, `finish_spec` for the parts of a staged file;
* `Staging.write_spec`, `Staging.copy_spec` for the whole: the target has the content, or nothing has
  changed.
-/

namespace ContentStore

namespace Workspace

/-- The workspace after some changes. -/
def commits (w : Workspace) (cs : List Change) : Workspace :=
  { w with tree := cs.foldl Tree.apply w.tree, changes := w.changes ++ cs }

@[simp] theorem commits_nil (w : Workspace) : w.commits [] = w := by
  simp [commits]

theorem commits_append (w : Workspace) (cs ds : List Change) :
    w.commits (cs ++ ds) = (w.commits cs).commits ds := by
  simp [commits]

theorem commits_concat (w : Workspace) (cs : List Change) (c : Change) :
    (w.commits cs).commits [c] = w.commits (cs ++ [c]) := (commits_append w cs [c]).symm

theorem tree_commits_one (w : Workspace) (c : Change) : (w.commits [c]).tree = w.tree.apply c := rfl

/-- A workspace has come out of another one by some changes, whatever was reported on the way. -/
structure After (w : Workspace) (cs : List Change) (v : Workspace) : Prop where
  tree : v.tree = (w.commits cs).tree
  changes : v.changes = w.changes ++ cs

namespace After

variable {u v w : Workspace} {cs ds : List Change}

theorem refl (w : Workspace) : w.After [] w := ⟨rfl, by simp⟩

theorem commits (w : Workspace) (cs : List Change) : w.After cs (w.commits cs) := ⟨rfl, rfl⟩

theorem trans (h : w.After cs v) (h' : v.After ds u) : w.After (cs ++ ds) u where
  tree := by
    rw [h'.tree]
    simp only [Workspace.commits, h.tree, List.foldl_append]
  changes := by rw [h'.changes, h.changes, List.append_assoc]

theorem report (h : w.After cs v) (e : Event) : w.After cs (Action.report e v).2 := ⟨h.tree, h.changes⟩

end After

end Workspace

namespace Action

theorem run_commit {ε : Type} (c : Change) (w : Workspace) :
    (liftM (commit c) : ExceptT ε Action Unit).run w = (.ok (), w.commits [c]) := rfl

theorem run_tree {ε : Type} (w : Workspace) :
    (liftM tree : ExceptT ε Action Tree).run w = (.ok w.tree, w) := rfl

theorem forM_commit {α : Type} (f : α → Change) (xs : List α) (w : Workspace) :
    (xs.forM fun x => commit (f x)) w = ((), w.commits (xs.map f)) := by
  induction xs generalizing w with
  | nil => rw [List.map_nil, Workspace.commits_nil]; rfl
  | cons x xs ih =>
    show (xs.forM fun x => commit (f x)) (w.commits [f x]) = _
    rw [ih, ← Workspace.commits_append]
    rfl

end Action

namespace Attempt

/-! An action takes its way into an attempt by way of a request. -/

theorem run_lift {α : Type} (a : Action α) (w : Workspace) :
    (liftM a : Attempt α).run w = (.ok (a w).1, (a w).2) := rfl

theorem run_tree (w : Workspace) : (liftM Action.tree : Attempt Tree).run w = (.ok w.tree, w) := rfl

theorem run_commit (c : Change) (w : Workspace) :
    (liftM (Action.commit c) : Attempt Unit).run w = (.ok (), w.commits [c]) := rfl

end Attempt

namespace Request

theorem perform_eq (plan : Tree → Except Fault Change) (w : Workspace) :
    (perform plan).run w = match plan w.tree with
      | .ok c => (.ok (), w.commits [c])
      | .error f => (.error f, w) := by
  unfold perform
  rw [Action.run_bind, Action.run_ask]
  cases plan w.tree <;> rfl

theorem eq_of_perform_error {plan : Tree → Except Fault Change} {w v : Workspace} {f : Fault}
    (h : (perform plan).run w = (.error f, v)) : v = w := by
  rw [perform_eq] at h
  rcases hplan : plan w.tree with g | c <;> rw [hplan] at h <;> cases h
  rfl

variable [FileSystem]

open FileSystem (shut Moves)

theorem unlink_spec (p : Path) (w : Workspace) :
    (∃ f, ¬ (w.tree.Admits p ∧ (∃ content, w.tree.kind? p.key = some (.file content)) ∧
        shut p.key.tail = false) ∧ (unlink p).run w = (.error f, w)) ∨
    ∃ content, w.tree.Admits p ∧ w.tree.kind? p.key = some (.file content) ∧ shut p.key.tail = false ∧
      (unlink p).run w = (.ok (), w.commits [.remove p.key]) ∧
      (w.commits [.remove p.key]).tree.kind? = Function.update w.tree.kind? p.key none := by
  unfold unlink
  rw [perform_eq]
  rcases hplan : w.tree.planUnlink p with f | c
  · refine Or.inl ⟨f, fun ⟨hadmits, hfile, hopen⟩ => ?_, rfl⟩
    rw [Tree.planUnlink_eq_ok_iff.mpr ⟨hadmits, hfile, hopen, rfl⟩] at hplan
    cases hplan
  · obtain ⟨hadmits, ⟨content, hfile⟩, hopen, rfl⟩ := Tree.planUnlink_eq_ok_iff.mp hplan
    exact Or.inr ⟨content, hadmits, hfile, hopen, rfl, Tree.kind?_removeFile (by rw [hfile]; simp)⟩

/-- A file that is renamed leaves its key and takes the new one, where no directory stood. -/
theorem rename_spec {old : Path} {w : Workspace} {content : Bytes}
    (hfile : w.tree.kind? old.key = some (.file content)) (new : Path) :
    (∃ f, ¬ (w.tree.Admits old ∧ w.tree.Admits new ∧ Moves old.key new.key) ∧
      w.tree.planRename old new = .error f ∧ (rename old new).run w = (.error f, w)) ∨
    (w.tree.Admits old ∧ w.tree.Admits new ∧ Moves old.key new.key ∧
      w.tree.planRename old new = .ok (.rename old.key new.key) ∧
      (rename old new).run w = (.ok (), w.commits [.rename old.key new.key]) ∧
      (w.commits [.rename old.key new.key]).tree.kind? =
        Function.update (Function.update w.tree.kind? old.key none) new.key (some (.file content))) := by
  unfold rename
  rw [perform_eq]
  rcases hplan : w.tree.planRename old new with f | c
  · refine Or.inl ⟨f, fun ⟨ho, hn, hm⟩ => ?_, rfl, rfl⟩
    rw [(Tree.planRename_eq_ok_iff hfile).mpr ⟨ho, hn, hm, rfl⟩] at hplan
    cases hplan
  · obtain ⟨ho, hn, hm, rfl⟩ := (Tree.planRename_eq_ok_iff hfile).mp hplan
    exact Or.inr ⟨ho, hn, hm, rfl, rfl, Tree.kind?_move hfile hn.dir hn.noDir⟩

end Request

end ContentStore
