import ContentStore.Proofs.Answers
import ContentStore.Proofs.Veil

/-!
# Actions in two trees at once

An action that runs in two workspaces agrees in them if it answers the same and both trees take the same step:
`Action.Agrees`.  An attempt may fail for different reasons (`Attempt.Concurs`), because the hidden file that a
content is staged in has a name of its own in each tree.  A request agrees in two trees that have the same on the
way of its paths: `makeDirs_concurs`, `unlink_concurs`, `rename_concurs`, `write_concurs`, `copy_concurs`.
-/

namespace ContentStore

open Function (update)

/-! ### Actions -/

/-- An action answers the same in two workspaces, and both trees take the same step. -/
structure Action.Agrees {α : Type} (F : Key → Prop) (a : Action α) (w v : Workspace) : Prop where
  answer : (a w).1 = (a v).1
  step : InStep F w.tree.kind? v.tree.kind? (a w).2.tree.kind? (a v).2.tree.kind?

namespace Action.Agrees

variable {F : Key → Prop} {α β : Type} {a : Action α} {f : α → Action β} {w v : Workspace}

theorem idle (hanswer : (a w).1 = (a v).1) (hw : (a w).2.tree = w.tree) (hv : (a v).2.tree = v.tree) :
    Agrees F a w v where
  answer := hanswer
  step := by
    rw [hw, hv]
    exact .refl _ _ _

theorem pure (x : α) : Agrees F (Pure.pure x) w v := .idle rfl rfl rfl

theorem report (e : Event) : Agrees F (Action.report e) w v := .idle rfl rfl rfl

theorem bind (ha : Agrees F a w v) (hf : Agrees F (f (a w).1) (a w).2 (a v).2) : Agrees F (a >>= f) w v where
  answer := by
    rw [bind_apply, bind_apply, ← ha.answer]
    exact hf.answer
  step := by
    rw [bind_apply, bind_apply, ← ha.answer]
    exact ha.step.trans hf.step

end Action.Agrees

/-! ### Attempts -/

/-- An attempt succeeds with the same result in two workspaces or fails in both, and both trees take the same
step. -/
structure Attempt.Concurs {ε α : Type} (F : Key → Prop) (a : ExceptT ε Action α) (w v : Workspace) : Prop where
  answer : (a.run w).1.toOption = (a.run v).1.toOption
  step : InStep F w.tree.kind? v.tree.kind? (a.run w).2.tree.kind? (a.run v).2.tree.kind?

namespace Attempt.Concurs

variable {F : Key → Prop} {ε α β : Type} {a : ExceptT ε Action α} {f : α → ExceptT ε Action β}
  {w v x y : Workspace}

theorem of_ok {r : α} (hw : a.run w = (.ok r, x)) (hv : a.run v = (.ok r, y))
    (hstep : InStep F w.tree.kind? v.tree.kind? x.tree.kind? y.tree.kind?) : Concurs F a w v :=
  ⟨by rw [hw, hv], by rw [hw, hv]; exact hstep⟩

theorem of_error {e e' : ε} (hw : a.run w = (.error e, x)) (hv : a.run v = (.error e', y))
    (hstep : InStep F w.tree.kind? v.tree.kind? x.tree.kind? y.tree.kind?) : Concurs F a w v :=
  ⟨by rw [hw, hv]; rfl, by rw [hw, hv]; exact hstep⟩

theorem of_run {b : ExceptT ε Action α} (hb : Concurs F b w v) (hw : a.run w = b.run w) (hv : a.run v = b.run v) :
    Concurs F a w v :=
  ⟨by rw [hw, hv]; exact hb.answer, by rw [hw, hv]; exact hb.step⟩

theorem pure (r : α) : Concurs F (Pure.pure r : ExceptT ε Action α) w v := .of_ok rfl rfl (.refl _ _ _)

theorem throw (e : ε) : Concurs F (MonadExcept.throw e : ExceptT ε Action α) w v :=
  .of_error rfl rfl (.refl _ _ _)

theorem except (r : Except ε α) : Concurs F (liftM r : ExceptT ε Action α) w v := by
  refine ⟨?_, ?_⟩
  · rw [Action.run_except, Action.run_except]
  · rw [Action.run_except, Action.run_except]
    exact .refl _ _ _

theorem lift {a : Action α} (ha : Action.Agrees F a w v) : Concurs F (liftM a : ExceptT ε Action α) w v :=
  .of_ok (Action.run_lift a w) ((Action.run_lift a v).trans (by rw [ha.answer])) ha.step

theorem bind (ha : Concurs F a w v)
    (hf : ∀ r, (a.run w).1 = .ok r → (a.run v).1 = .ok r → Concurs F (f r) (a.run w).2 (a.run v).2) :
    Concurs F (a >>= f) w v := by
  have hanswer := ha.answer
  have hstep := ha.step
  rcases hw : a.run w with ⟨e | r, x⟩ <;> rcases hv : a.run v with ⟨e' | r', y⟩ <;>
    rw [hw, hv] at hanswer hstep
  · exact .of_error (by rw [Action.run_bind, hw]) (by rw [Action.run_bind, hv]) hstep
  · cases hanswer
  · cases hanswer
  · cases hanswer
    have hrest := hf r (by rw [hw]) (by rw [hv])
    rw [hw, hv] at hrest
    exact ⟨by rw [Action.run_bind, Action.run_bind, hw, hv]; exact hrest.answer,
      by rw [Action.run_bind, Action.run_bind, hw, hv]; exact hstep.trans hrest.step⟩

theorem ask {f : Tree → Except Fault α} (h : f w.tree = f v.tree) : Concurs F (Request.ask f) w v := by
  refine ⟨?_, ?_⟩
  · rw [Action.run_ask, Action.run_ask, h]
  · rw [Action.run_ask, Action.run_ask]
    exact .refl _ _ _

theorem file {r : Request α} (hr : Concurs F r w v) : Concurs F (liftM r : Attempt α) w v := by
  have hanswer := hr.answer
  have hstep := hr.step
  rcases hw : r.run w with ⟨e | x, w'⟩ <;> rcases hv : r.run v with ⟨e' | x', v'⟩ <;>
    rw [hw, hv] at hanswer hstep
  · exact .of_error (by rw [Action.run_file, hw]) (by rw [Action.run_file, hv]) hstep
  · cases hanswer
  · cases hanswer
  · cases hanswer
    exact .of_ok (by rw [Action.run_file, hw]) (by rw [Action.run_file, hv]) hstep

theorem throw_bind (e : ε) (f : α → ExceptT ε Action β) : Concurs F (MonadExcept.throw e >>= f) w v :=
  .of_error rfl rfl (.refl _ _ _)

theorem except_bind {r : Except ε α} (h : ∀ x, r = .ok x → Concurs F (f x) w v) :
    Concurs F ((liftM r : ExceptT ε Action α) >>= f) w v := by
  rcases r with e | x
  · exact .of_error rfl rfl (.refl _ _ _)
  · exact (h x rfl).of_run (by rw [Action.run_bind, Action.run_except]) (by rw [Action.run_bind, Action.run_except])

/-- What both trees answer alike is used. -/
theorem ask_bind {g : Tree → Except Fault α} {f : α → Attempt β} (hg : g w.tree = g v.tree)
    (h : ∀ x, g w.tree = .ok x → Concurs F (f x) w v) :
    Concurs F ((liftM (Request.ask g) : Attempt α) >>= f) w v := by
  rcases hw : g w.tree with e | x
  · have hfail : ((liftM (Request.ask g) : Attempt α) >>= f).run w = (.error (.file e), w) := by
      rw [Action.run_bind, Action.run_file, Action.run_ask, hw]
    have hfail' : ((liftM (Request.ask g) : Attempt α) >>= f).run v = (.error (.file e), v) := by
      rw [Action.run_bind, Action.run_file, Action.run_ask, ← hg, hw]
    exact .of_error hfail hfail' (.refl _ _ _)
  · refine (h x hw).of_run ?_ ?_
    · rw [Action.run_bind, Action.run_file, Action.run_ask, hw]
    · rw [Action.run_bind, Action.run_file, Action.run_ask, ← hg, hw]

/-- Both trees are looked at and come to the same. -/
theorem tree_bind {f : Tree → Attempt β} (hf : f w.tree = f v.tree) (h : Concurs F (f w.tree) w v) :
    Concurs F ((liftM Action.tree : Attempt Tree) >>= f) w v :=
  h.of_run rfl (show (f v.tree).run v = (f w.tree).run v by rw [hf])

theorem granted {r : Request Unit} (hr : Concurs F r w v) : Action.Agrees F (Attempt.granted r) w v where
  answer := by
    have hsome : ∀ x : Except Fault Unit, x.isOk = x.toOption.isSome := fun x => by cases x <;> rfl
    rw [granted_apply, granted_apply, hsome, hsome, hr.answer]
  step := hr.step

/-- It is asked whether a request is granted, which changes nothing if it is refused. -/
theorem granted_bind {r : Request Unit} {f : Bool → Attempt β} (hr : Concurs F r w v)
    (hsame : ∀ x y : Workspace, ∀ fault, r.run x = (.error fault, y) → y = x) (hno : Concurs F (f false) w v)
    (hyes : ∀ x y : Workspace, InStep F w.tree.kind? v.tree.kind? x.tree.kind? y.tree.kind? →
      Concurs F (f true) x y) : Concurs F ((liftM (Attempt.granted r) : Attempt Bool) >>= f) w v := by
  have hanswer := hr.answer
  have hstep := hr.step
  have hrun : ∀ x : Workspace, ((liftM (Attempt.granted r) : Attempt Bool) >>= f).run x =
      (f (r.run x).1.isOk).run (r.run x).2 := fun _ => rfl
  rcases hw : r.run w with ⟨e | ⟨⟩, x⟩ <;> rcases hv : r.run v with ⟨e' | ⟨⟩, y⟩ <;> rw [hw, hv] at hanswer hstep
  · obtain rfl := hsame _ _ _ hw
    obtain rfl := hsame _ _ _ hv
    exact hno.of_run (by rw [hrun, hw]; rfl) (by rw [hrun, hv]; rfl)
  · cases hanswer
  · cases hanswer
  · have hnext := hyes x y hstep
    have hleft : ((liftM (Attempt.granted r) : Attempt Bool) >>= f).run w = (f true).run x := by rw [hrun, hw]; rfl
    have hright : ((liftM (Attempt.granted r) : Attempt Bool) >>= f).run v = (f true).run y := by rw [hrun, hv]; rfl
    exact ⟨by rw [hleft, hright]; exact hnext.answer, by rw [hleft, hright]; exact hstep.trans hnext.step⟩

theorem reported {a : Attempt α} (ha : Concurs F a w v) (op : Operation) (name : Bytes) :
    Action.Agrees F (a.reported op name) w v where
  answer := by
    rw [reported_answer, reported_answer]
    exact ha.answer
  step := by
    rw [reported_tree, reported_tree]
    exact ha.step

theorem settled {σ : Type} {a : Attempt σ} (ha : Concurs F a w v) (op : Operation) (name : Bytes) (s : σ) :
    Action.Agrees F (a.settled op name s) w v := by
  refine (ha.reported op name).bind ?_
  cases (a.reported op name w).1 with
  | none => exact .pure _
  | some after => exact .pure _

end Attempt.Concurs

/-! ### Requests -/

namespace Path

theorem Alike.parents {p q : Path} {t u : Key → Option Kind} (h : p.Alike t u) (hq : q ∈ p.parents) :
    q.Alike t u := fun _ hk => h _ (visits_of_mem_parents hq hk)

theorem Alike.stagingDir {p : Path} {t u : Tree} (h : p.Alike t.kind? u.kind?) :
    (FileStore.stagingDir p).Alike t.kind? u.kind? := by
  have hhere : here.Alike t.kind? u.kind? := by
    intro k hk
    have hnil : k = [] := by
      simpa [visits, pieces, here, Bytes.splitOn, Bytes.dot, Bytes.slash, Key.visits, Key.step, isIdle] using hk
    rw [hnil]
    rfl
  unfold FileStore.stagingDir
  rcases hp : p.parent? with _ | q
  · exact hhere
  · dsimp only
    split
    · exact hhere
    · exact h.parents (List.mem_of_head? hp)

end Path

section

variable [FileSystem]

namespace Request

open Attempt (Concurs)

variable {F : Key → Prop} {p q : Path} {w v : Workspace}

theorem makeUnlessDir_concurs (h : p.Alike w.tree.kind? v.tree.kind?) : Concurs F (makeUnlessDir p) w v := by
  have hplan := h.planMakeDir
  rcases hw : w.tree.planMakeDir p with f | c
  · have hv : v.tree.planMakeDir p = .error f := hplan ▸ hw
    have hrun := makeUnlessDir_eq p w
    have hrun' := makeUnlessDir_eq p v
    rw [hw] at hrun
    rw [hv] at hrun'
    dsimp only at hrun hrun'
    rw [← h.leadsToDir] at hrun'
    by_cases hlead : w.tree.leadsToDir p = true
    · rw [if_pos hlead] at hrun hrun'
      exact .of_ok hrun hrun' (.refl _ _ _)
    · rw [if_neg hlead] at hrun hrun'
      exact .of_error hrun hrun' (.refl _ _ _)
  · have hv : v.tree.planMakeDir p = .ok c := hplan ▸ hw
    have hrun := makeUnlessDir_eq p w
    have hrun' := makeUnlessDir_eq p v
    rw [hw] at hrun
    rw [hv] at hrun'
    obtain ⟨n, d, hn, hk, -, rfl⟩ := Tree.planMakeDir_eq_ok_iff.mp hw
    obtain ⟨m, e, hm, hk', -, heq⟩ := Tree.planMakeDir_eq_ok_iff.mp hv
    cases heq
    refine .of_ok hrun hrun' ?_
    rw [Workspace.tree_commits_one, Workspace.tree_commits_one]
    show InStep F _ _ (w.tree.putDir (n :: d)).kind? (v.tree.putDir (n :: d)).kind?
    rw [Tree.kind?_putDir hn.dir hk, Tree.kind?_putDir hm.dir hk']
    exact .makeDir (Or.inl hk) (Or.inl hk')

theorem makeDirFrom_concurs (parents : List Path)
    (h : ∀ q ∈ p :: parents, q.Alike w.tree.kind? v.tree.kind?) : Concurs F (makeDirFrom p parents) w v := by
  induction parents generalizing p with
  | nil =>
    unfold makeDirFrom
    split
    · exact .pure _
    · exact makeUnlessDir_concurs (h p List.mem_cons_self)
  | cons parent parents ih =>
    have hp := h p List.mem_cons_self
    have hfirst : Concurs F (makeDirFrom parent parents) w v := ih fun q hq => h q (List.mem_cons_of_mem _ hq)
    by_cases hplan : w.tree.planMakeDir p = .error .notFound
    · have hboth : Concurs F (makeDirFrom parent parents >>= fun _ => makeUnlessDir p) w v :=
        hfirst.bind fun _ _ _ => makeUnlessDir_concurs (hp.step hfirst.step)
      have hrun : ∀ x : Workspace, x.tree.planMakeDir p = .error .notFound →
          (makeDirFrom p (parent :: parents)).run x =
            (makeDirFrom parent parents >>= fun _ => makeUnlessDir p).run x := by
        intro x hx
        rw [makeDirFrom_cons, if_pos hx, Action.run_bind]
        rcases (makeDirFrom parent parents).run x with ⟨f | r, y⟩ <;> rfl
      exact hboth.of_run (hrun w hplan) (hrun v (hp.planMakeDir ▸ hplan))
    · have hrun := makeDirFrom_cons p parent parents w
      have hrun' := makeDirFrom_cons p parent parents v
      rw [← hp.planMakeDir] at hrun'
      rw [if_neg hplan] at hrun hrun'
      exact (makeUnlessDir_concurs hp).of_run hrun hrun'

/-- **Making directories** on the way of a path on which both trees have the same. -/
theorem makeDirs_concurs (h : p.Alike w.tree.kind? v.tree.kind?) : Concurs F (makeDirs p) w v :=
  makeDirFrom_concurs p.parents fun q hq => by
    rcases List.mem_cons.mp hq with rfl | hq
    · exact h
    · exact h.parents hq

/-- **Removing a file** that both trees have. -/
theorem unlink_concurs (h : p.Alike w.tree.kind? v.tree.kind?) (hF : ¬ F p.key) : Concurs F (unlink p) w v := by
  rcases unlink_spec p w with ⟨f, hno, hrun⟩ | ⟨c, hadmits, hk, hopen, hrun, hkinds⟩ <;>
    rcases unlink_spec p v with ⟨f', hno', hrun'⟩ | ⟨c', hadmits', hk', hopen', hrun', hkinds'⟩
  · exact .of_error hrun hrun' (.refl _ _ _)
  · exact absurd ⟨h.symm.admits hadmits', ⟨c', h.key ▸ hk'⟩, hopen'⟩ hno
  · exact absurd ⟨h.admits hadmits, ⟨c, h.key ▸ hk⟩, hopen⟩ hno'
  · refine .of_ok hrun hrun' ?_
    rw [hkinds, hkinds']
    exact .update hF hadmits.noDir hadmits'.noDir none

/-- **Renaming a file** that both trees have. -/
theorem rename_concurs {content : Bytes} (h : p.Alike w.tree.kind? v.tree.kind?)
    (hq : q.Alike w.tree.kind? v.tree.kind?) (hfile : w.tree.kind? p.key = some (.file content))
    (hF : ¬ F p.key) (hF' : ¬ F q.key) : Concurs F (rename p q) w v := by
  rcases rename_spec hfile q with ⟨f, hno, -, hrun⟩ | ⟨hold, hnew, hmoves, -, hrun, hkinds⟩ <;>
    rcases rename_spec (h.key ▸ hfile) q with ⟨f', hno', -, hrun'⟩ | ⟨hold', hnew', hmoves', -, hrun', hkinds'⟩
  · exact .of_error hrun hrun' (.refl _ _ _)
  · exact absurd ⟨h.symm.admits hold', hq.symm.admits hnew', hmoves'⟩ hno
  · exact absurd ⟨h.admits hold, hq.admits hnew, hmoves⟩ hno'
  · refine .of_ok hrun hrun' ?_
    rw [hkinds, hkinds']
    have hdir : ∀ t : Key → Option Kind, t q.key ≠ some .dir → update t p.key none q.key ≠ some .dir := by
      intro t ht
      rw [Function.update_apply]
      split
      · simp
      · exact ht
    exact (InStep.update hF hold.noDir hold'.noDir none).trans
      (.update hF' (hdir _ hnew.noDir) (hdir _ hnew'.noDir) _)

end Request

end

/-- Both trees have got all directories down to one, where no file was in the way. -/
theorem InStep.withDirs {F : Key → Prop} {t u : Tree} {d k : Key}
    (ht : ∀ l, l <:+ k → t.kind? (l ++ d) = none ∨ t.kind? (l ++ d) = some .dir)
    (hu : ∀ l, l <:+ k → u.kind? (l ++ d) = none ∨ u.kind? (l ++ d) = some .dir) :
    InStep F t.kind? u.kind? (Request.withDirs t d k) (Request.withDirs u d k) := by
  induction k with
  | nil => exact .refl _ _ _
  | cons x k ih =>
    have hsub : ∀ l, l <:+ k → l <:+ x :: k := fun l hl => hl.trans (List.suffix_cons _ _)
    have hself : ∀ t : Tree, (∀ l, l <:+ x :: k → t.kind? (l ++ d) = none ∨ t.kind? (l ++ d) = some .dir) →
        Request.withDirs t d k (x :: k ++ d) = none ∨ Request.withDirs t d k (x :: k ++ d) = some .dir := by
      intro t ht
      rw [Request.withDirs_of_forall_ne]
      · exact ht _ (List.suffix_refl _)
      · intro l hl _ heq
        have hlen := hl.length_le
        rw [← List.append_cancel_right heq, List.length_cons] at hlen
        omega
    exact (ih (fun l hl => ht l (hsub l hl)) fun l hl => hu l (hsub l hl)).trans
      (.makeDir (hself t ht) (hself u hu))

/-! ### Names that are used nowhere -/

/-- Neither a listing nor one below it lists a name. -/
def Listing.omits (x : Bytes) : Listing → Bool
  | nil => true
  | file name _ rest => name != x && rest.omits x
  | dir name inner rest => name != x && inner.omits x && rest.omits x

theorem Listing.omits_find? {x name : Bytes} {l : Listing} (h : l.omits x = true) {node : Node}
    (hfind : l.find? name = some node) : name ≠ x ∧ ∀ inner, node = .dir inner → inner.omits x = true := by
  induction l with
  | nil => cases hfind
  | file n content rest ih =>
    simp only [omits, Bool.and_eq_true, bne_iff_ne] at h
    rw [find?] at hfind
    split at hfind
    · next e =>
      cases hfind
      exact ⟨e ▸ h.1, fun _ hnode => by cases hnode⟩
    · exact ih h.2 hfind
  | dir n inner rest _ ih =>
    simp only [omits, Bool.and_eq_true, bne_iff_ne] at h
    rw [find?] at hfind
    split at hfind
    · next e =>
      cases hfind
      exact ⟨e ▸ h.1.1, fun _ hnode => by
        cases hnode
        exact h.1.2⟩
    · exact ih h.2 hfind

theorem Tree.omits_node? {t : Tree} {x : Bytes} (h : t.top.omits x = true) {k : Key} {node : Node}
    (hnode : t.node? k = some node) : k.head? ≠ some x ∧ ∀ inner, node = .dir inner → inner.omits x = true := by
  induction k generalizing node with
  | nil =>
    cases hnode
    exact ⟨by simp, fun inner hinner => by
      cases hinner
      exact h⟩
  | cons name d ih =>
    obtain ⟨parent, hparent, hchild⟩ := Option.bind_eq_some_iff.mp hnode
    cases parent with
    | file content => cases hchild
    | dir inner =>
      obtain ⟨hne, hinner⟩ := Listing.omits_find? ((ih hparent).2 inner rfl) hchild
      exact ⟨by simpa using hne, hinner⟩

/-! ### Staged files -/

namespace Staging

open Attempt (Concurs)
open FileSystem (Between)

variable {F : Key → Prop} {dir source target : Path} {content : Bytes} {t u : Tree} {w v : Workspace}

/-- One of the hidden names with six digits is free in a directory. -/
def Roomy (d : Key) (kinds : Key → Option Kind) : Prop := ∃ n, n < 10 ^ 6 ∧ kinds (hiddenName n :: d) = none

/-- Every directory has such a name to spare. -/
def Spacious (kinds : Key → Option Kind) : Prop := ∀ d, Roomy d kinds

theorem spacious_of_omits {t : Tree} (h : t.top.omits (hiddenName 0) = true) : Spacious t.kind? := by
  refine fun d => ⟨0, by decide, ?_⟩
  rcases hnode : t.node? (hiddenName 0 :: d) with _ | node
  · rw [Tree.kind?, hnode]
    rfl
  · exact absurd rfl (Tree.omits_node? h hnode).1

theorem length_hiddenName {n : Nat} (h : n < 10 ^ 6) : (hiddenName n).length = (hiddenName 0).length := by
  have hrender := Decimal.length_render_le_of_lt (by omega : 0 < 6) h
  have hzero : (hiddenName 0).length = 10 := by decide +kernel
  have htmp : (Bytes.ofText ".tmp").length = 4 := by decide +kernel
  rw [hzero]
  simp only [hiddenName, List.length_append, List.length_replicate, htmp]
  omega

theorem freeName_first {taken : List Bytes} {n : Nat} (h : hiddenName n ∉ taken) :
    ∃ m, m ≤ n ∧ freeName taken = hiddenName m := by
  obtain ⟨j, hj, hnew⟩ := freeName_eq taken
  unfold freeName at hj ⊢
  rw [List.find?_map] at hj ⊢
  rcases hfind : (List.range (taken.length + 1)).find? ((fun name => !taken.contains name) ∘ hiddenName)
    with _ | k
  · have hzero : hiddenName 0 = hiddenName j := by
      rw [hfind] at hj
      exact hj
    have htaken := List.find?_eq_none.mp hfind 0 (by simp)
    rw [← hzero] at hnew
    simp [hnew] at htaken
  · refine ⟨k, ?_, rfl⟩
    -- the names are tried in order, so none before the one that is used is free
    by_contra hlt
    have hbefore := (List.find?_range_eq_some.mp hfind).2.2 n (by omega)
    simp [h] at hbefore

/-- Where there is room the hidden file has a name of six digits. -/
theorem length_freeName (hlead : t.leadsToDir dir = true) (h : Roomy dir.key t.kind?) :
    (freeName (taken t dir)).length = (hiddenName 0).length := by
  obtain ⟨n, hn, hfree⟩ := h
  obtain ⟨m, hle, hm⟩ := freeName_first fun hmem => (mem_taken_iff hlead).mp hmem hfree
  rw [hm]
  exact length_hiddenName (by omega)

/-- A hidden file can be made in both trees or in neither. -/
theorem admits_hiddenPath_alike (hdir : dir ≠ .blank) (h : dir.Alike t.kind? u.kind?)
    (ht : Roomy dir.key t.kind?) (hu : Roomy dir.key u.kind?) (hadmits : t.Admits (hiddenPath t dir)) :
    u.Admits (hiddenPath u dir) := by
  obtain ⟨i, hi, -⟩ := freeName_eq (taken t dir)
  obtain ⟨j, hj, -⟩ := freeName_eq (taken u dir)
  have hname : Path.IsName (freeName (taken t dir)) := hi ▸ isName_hiddenName i
  have hname' : Path.IsName (freeName (taken u dir)) := hj ▸ isName_hiddenName j
  have hlong := (Path.check_eq_ok_iff.mp hadmits.check).2.2
  obtain ⟨n, d, hn, -⟩ := hadmits
  have hlead : t.leadsToDir dir = true := Tree.leadsToDir_iff.mpr (hn.of_join hname hdir).2.2
  have hlead' : u.leadsToDir dir = true := h.leadsToDir ▸ hlead
  have hlen := length_freeName hlead ht
  have hlen' := length_freeName hlead' hu
  refine admits_hiddenPath hlead' (Path.isTooLong_join_mono hname' hname (by omega) hlong) ?_
  rw [hlen']
  decide +kernel

theorem admits_of_newHidden [FileSystem] {hidden : Hidden} {x : Workspace}
    (h : (newHidden dir).run w = (.ok hidden, x)) :
    w.tree.Admits (hiddenPath w.tree dir) := by
  rw [newHidden_eq] at h
  rcases hplan : w.tree.planCreate (hiddenPath w.tree dir) with f | k
  · rw [hplan] at h
    cases h
  · exact (Tree.planCreate_eq_ok_iff.mp hplan).1

/-- A content is written exactly if the hidden file and the target can be there, and a file can be moved
from one to the other. -/
theorem write_ok_iff [FileSystem] (hdir : dir ≠ .blank) (target : Path) (content : Bytes) (w : Workspace) :
    (∃ x, (write dir target content).run w = (.ok (), x)) ↔
      w.tree.Admits (hiddenPath w.tree dir) ∧ w.tree.Admits target ∧ Between dir.key target.key.tail := by
  have hspec := write_spec hdir target content w
  constructor
  · rintro ⟨x, hrun⟩
    refine ⟨?_, ?_⟩
    · unfold write at hrun
      rw [Action.run_bind, Action.run_file] at hrun
      rcases hhidden : (newHidden dir).run w with ⟨f | hidden, y⟩
      · rw [hhidden] at hrun
        cases hrun
      · exact admits_of_newHidden hhidden
    · rcases hspec with ⟨e, cs, -, -, hno, -⟩ | ⟨hidden, -, hbetween, hplaced⟩
      · rw [hno] at hrun
        cases hrun
      · exact ⟨hplaced.admits, hbetween⟩
  · intro hadmits
    rcases hspec with ⟨e, cs, hno, -⟩ | ⟨hidden, hrun, -⟩
    · exact absurd hadmits hno
    · exact ⟨_, hrun⟩

/-- A file is copied exactly if it can be looked at, the hidden file and the target can be there, and a file
can be moved from one to the other. -/
theorem copy_ok_iff [FileSystem] (hdir : dir ≠ .blank) (source target : Path) (w : Workspace) :
    (∃ n x, (copy dir source target).run w = (.ok n, x)) ↔ (∃ content, w.tree.stat source = .ok (.file content)) ∧
      w.tree.Admits (hiddenPath w.tree dir) ∧ w.tree.Admits target ∧ Between dir.key target.key.tail := by
  have hspec := copy_spec hdir source target w
  constructor
  · rintro ⟨n, x, hrun⟩
    rcases hspec with ⟨e, cs, -, -, hno, -⟩ | ⟨content, hidden, hstat, -, hbetween, hplaced⟩
    · rw [hno] at hrun
      cases hrun
    refine ⟨⟨content, hstat⟩, ?_, hplaced.admits, hbetween⟩
    unfold copy at hrun
    rw [Action.run_bind, Action.run_file, Action.run_ask, hstat] at hrun
    dsimp only at hrun
    rw [Action.run_bind, Action.run_file] at hrun
    rcases hhidden : (newHidden dir).run w with ⟨f | hidden, y⟩
    · rw [hhidden] at hrun
      cases hrun
    · exact admits_of_newHidden hhidden
  · intro hall
    rcases hspec with ⟨e, cs, hno, -⟩ | ⟨content, hidden, -, hrun, -⟩
    · exact absurd hall hno
    · exact ⟨_, _, hrun⟩

section

variable (hdir : dir ≠ .blank) (h : dir.Alike w.tree.kind? v.tree.kind?)
  (htarget : target.Alike w.tree.kind? v.tree.kind?) (hF : ¬ F target.key)
  (hw : Roomy dir.key w.tree.kind?) (hv : Roomy dir.key v.tree.kind?)
include hdir h htarget hF hw hv

/-- **Writing a content** at a path on which both trees have the same. -/
theorem write_concurs [FileSystem] : Concurs F (write dir target content) w v := by
  have hiff : (∃ x, (write dir target content).run w = (.ok (), x)) ↔
      ∃ x, (write dir target content).run v = (.ok (), x) := by
    rw [write_ok_iff hdir, write_ok_iff hdir]
    exact and_congr ⟨admits_hiddenPath_alike hdir h hw hv, admits_hiddenPath_alike hdir h.symm hv hw⟩
      (and_congr ⟨htarget.admits, htarget.symm.admits⟩ Iff.rfl)
  rcases write_spec hdir target content w with ⟨e, cs, -, -, hrun, hkinds⟩ | ⟨hidden, hrun, -, hplaced⟩ <;>
    rcases write_spec hdir target content v with ⟨e', cs', -, -, hrun', hkinds'⟩ | ⟨hidden', hrun', -, hplaced'⟩
  · refine .of_error hrun hrun' ?_
    rw [hkinds, hkinds']
    exact .refl _ _ _
  · obtain ⟨x, hx⟩ := hiff.mpr ⟨_, hrun'⟩
    rw [hrun] at hx
    cases hx
  · obtain ⟨x, hx⟩ := hiff.mp ⟨_, hrun⟩
    rw [hrun'] at hx
    cases hx
  · refine .of_ok hrun hrun' ?_
    rw [hplaced.kinds, hplaced'.kinds]
    exact .update hF hplaced.admits.noDir hplaced'.admits.noDir _

/-- **Copying a file** from one path to another, on both of which the trees have the same. -/
theorem copy_concurs [FileSystem] (hsource : source.Alike w.tree.kind? v.tree.kind?) :
    Concurs F (copy dir source target) w v := by
  have hiff : (∃ n x, (copy dir source target).run w = (.ok n, x)) ↔
      ∃ n x, (copy dir source target).run v = (.ok n, x) := by
    rw [copy_ok_iff hdir, copy_ok_iff hdir]
    refine and_congr ?_ (and_congr ⟨admits_hiddenPath_alike hdir h hw hv, admits_hiddenPath_alike hdir h.symm hv hw⟩
      (and_congr ⟨htarget.admits, htarget.symm.admits⟩ Iff.rfl))
    exact ⟨fun ⟨c, hc⟩ => ⟨c, hsource.stat_file hc⟩, fun ⟨c, hc⟩ => ⟨c, hsource.symm.stat_file hc⟩⟩
  rcases copy_spec hdir source target w with ⟨e, cs, -, -, hrun, hkinds⟩ | ⟨c, hidden, hstat, hrun, -, hplaced⟩ <;>
    rcases copy_spec hdir source target v with
      ⟨e', cs', -, -, hrun', hkinds'⟩ | ⟨c', hidden', hstat', hrun', -, hplaced'⟩
  · refine .of_error hrun hrun' ?_
    rw [hkinds, hkinds']
    exact .refl _ _ _
  · obtain ⟨n, x, hx⟩ := hiff.mpr ⟨_, _, hrun'⟩
    rw [hrun] at hx
    cases hx
  · obtain ⟨n, x, hx⟩ := hiff.mp ⟨_, _, hrun⟩
    rw [hrun'] at hx
    cases hx
  · rw [hsource.stat_file hstat] at hstat'
    cases hstat'
    refine .of_ok hrun hrun' ?_
    rw [hplaced.kinds, hplaced'.kinds]
    exact .update hF hplaced.admits.noDir hplaced'.admits.noDir _

end

end Staging

/-- **Writing a file** in place, at a path on which both trees have the same. -/
theorem Request.write_concurs [FileSystem] {F : Key → Prop} {target : Path} {content : Bytes} {w v : Workspace}
    (h : target.Alike w.tree.kind? v.tree.kind?) (hF : ¬ F target.key) :
    Attempt.Concurs F (Request.write target content) w v := by
  rcases Request.write_spec target content w with ⟨f, hno, hrun⟩ | ⟨cs, hrun, hopen, hplaced⟩ <;>
    rcases Request.write_spec target content v with ⟨f', hno', hrun'⟩ | ⟨cs', hrun', hopen', hplaced'⟩
  · exact .of_error hrun hrun' (.refl _ _ _)
  · exact absurd ⟨h.symm.admits hplaced'.admits, hopen'.of_eq h.key⟩ hno
  · exact absurd ⟨h.admits hplaced.admits, hopen.of_eq h.key.symm⟩ hno'
  · refine .of_ok hrun hrun' ?_
    rw [hplaced.kinds, hplaced'.kinds]
    exact .update hF hplaced.admits.noDir hplaced'.admits.noDir _

end ContentStore
