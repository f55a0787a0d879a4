import ContentStore.Proofs.Confined
import ContentStore.Proofs.Outside

/-!
# One change after the other

What an operation comes to in the end does not say what the tree is like on the way, when the process may stop
after any of the changes.  `Workspace.By` follows the changes themselves: each of them has some property in the
tree that it is made in.  `Tree.Alters` is the property that counts: a change makes a directory, or makes, fills,
renames or removes files with certain keys.

* `Each.veiled`: on the way nothing but these files and new directories differs;
* `Action.Does`: what an action does in every workspace, part by part;
* `write_staged`, `copy_staged`: a staged file is prepared under a hidden name, and then renamed at once.
-/

namespace ContentStore

open Function (update)

namespace Tree

/-- Each of some changes has a property in the tree that it is made in. -/
def Each (p : Tree → Change → Prop) : Tree → List Change → Prop
  | _, [] => True
  | t, c :: cs => p t c ∧ Each p (t.apply c) cs

/-- A change makes a directory, or makes, fills, renames or removes files with keys in `S`.  A file is given a new
key only if `R` allows it. -/
inductive Alters (S : Key → Prop) (R : Tree → Key → Prop) (t : Tree) : Change → Prop
  | makeDir {n : Bytes} {d : Key} (hd : t.kind? d = some .dir) (hk : t.kind? (n :: d) = none) :
      Alters S R t (.makeDir (n :: d))
  | create {n : Bytes} {d : Key} (hS : S (n :: d)) (hd : t.kind? d = some .dir)
      (hk : t.kind? (n :: d) ≠ some .dir) : Alters S R t (.create (n :: d))
  | append {k : Key} {content : Bytes} (bytes : Bytes) (hS : S k) (hk : t.kind? k = some (.file content)) :
      Alters S R t (.append k bytes)
  | rename {old new : Key} {content : Bytes} (hold : S old) (hnew : S new)
      (hfile : t.kind? old = some (.file content)) (hd : t.kind? new.tail = some .dir)
      (hk : t.kind? new ≠ some .dir) (hR : R t new) : Alters S R t (.rename old new)
  | remove {k : Key} {content : Bytes} (hS : S k) (hk : t.kind? k = some (.file content)) :
      Alters S R t (.remove k)

/-- No file is given a new key. -/
def Fixed (_ : Tree) (_ : Key) : Prop := False

def Vacant (K : Prop) (t : Tree) (k : Key) : Prop := K → t.kind? k = none

variable {S S' : Key → Prop} {R R' : Tree → Key → Prop} {p q : Tree → Change → Prop} {t : Tree} {c : Change}
  {cs ds : List Change}

theorem each_append : t.Each p (cs ++ ds) ↔ t.Each p cs ∧ (cs.foldl Tree.apply t).Each p ds := by
  induction cs generalizing t with
  | nil => simp [Each]
  | cons c cs ih => simp only [List.cons_append, Each, List.foldl_cons, ih, and_assoc]

theorem Each.mono (hpq : ∀ t c, p t c → q t c) (h : t.Each p cs) : t.Each q cs := by
  induction cs generalizing t with
  | nil => trivial
  | cons c cs ih => exact ⟨hpq t c h.1, ih h.2⟩

theorem Alters.mono (hS : ∀ k, S k → S' k) (hR : ∀ t k, S k → R t k → R' t k) (h : t.Alters S R c) :
    t.Alters S' R' c := by
  cases h with
  | makeDir hd hk => exact .makeDir hd hk
  | create h hd hk => exact .create (hS _ h) hd hk
  | append bytes h hk => exact .append bytes (hS _ h) hk
  | rename hold hnew hfile hd hk h => exact .rename (hS _ hold) (hS _ hnew) hfile hd hk (hR _ _ hnew h)
  | remove h hk => exact .remove (hS _ h) hk

/-- **One change** leaves all other files and all directories. -/
theorem Alters.veiled (h : t.Alters S R c) : Veiled S (fun _ => True) t.kind? (t.apply c).kind? := by
  cases h with
  | makeDir hd hk =>
    show Veiled S _ t.kind? (t.putDir _).kind?
    rw [kind?_putDir hd hk]
    refine ⟨fun k c _ => ?_, fun k hk' => ?_, fun _ _ => Or.inr trivial⟩
    · rw [Function.update_apply]
      split
      · next e => simp [e, hk]
      · rfl
    · rw [Function.update_apply]
      split
      · rfl
      · exact hk'
  | create hS hd hk =>
    show Veiled S _ t.kind? (t.putFile _ []).kind?
    rw [kind?_putFile [] hd hk]
    exact .update hS hk (by simp)
  | @append k content bytes hS hk =>
    obtain ⟨name, d, rfl⟩ : ∃ name d, k = name :: d := by
      cases k with
      | nil => simp at hk
      | cons name d => exact ⟨name, d, rfl⟩
    have happly : t.apply (.append (name :: d) bytes) = t.putFile (name :: d) (content ++ bytes) := by
      simp only [Tree.apply, content?_eq_some_iff.mpr hk]
    rw [happly, kind?_putFile _ (isDir_of_kind?_cons (by rw [hk]; simp)) (by rw [hk]; simp)]
    exact .update hS (by rw [hk]; simp) (by simp)
  | @rename old new content hold hnew hfile hd hk =>
    show Veiled S _ t.kind? (t.move old new).kind?
    rw [kind?_move hfile hd hk]
    refine .trans (.update hold (by rw [hfile]; simp) (by simp)) (.update hnew ?_ (by simp))
    rw [Function.update_apply]
    split
    · simp
    · exact hk
  | @remove k content hS hk =>
    show Veiled S _ t.kind? (t.remove k).kind?
    rw [kind?_removeFile (by rw [hk]; simp)]
    exact .update hS (by rw [hk]; simp) (by simp)

/-- **On the way** all other files and all directories stay. -/
theorem Each.veiled (h : t.Each (Alters S R) cs) :
    Veiled S (fun _ => True) t.kind? (cs.foldl Tree.apply t).kind? := by
  induction cs generalizing t with
  | nil => exact .refl ..
  | cons c cs ih => exact h.1.veiled.trans (ih h.2)

end Tree

namespace Workspace

open Tree (Alters Each)

variable {S S' : Key → Prop} {R R' : Tree → Key → Prop} {p q : Tree → Change → Prop} {u v w x : Workspace}
  {c : Change}

/-- One workspace becomes another by changes that each have a property in the tree that they are made in. -/
def By (p : Tree → Change → Prop) (w v : Workspace) : Prop := ∃ cs, w.After cs v ∧ w.tree.Each p cs

/-- One workspace becomes another by one such change, or by none. -/
def Turns (p : Tree → Change → Prop) (w v : Workspace) : Prop :=
  w.After [] v ∨ ∃ c, p w.tree c ∧ w.After [c] v

theorem By.still (h : w.After [] v) : w.By p v := ⟨[], h, trivial⟩

theorem By.refl (w : Workspace) : w.By p w := .still (.refl w)

theorem By.one (hc : p w.tree c) (h : w.After [c] v) : w.By p v := ⟨[c], h, hc, trivial⟩

theorem By.trans (h : w.By p v) (h' : v.By p u) : w.By p u := by
  obtain ⟨cs, hafter, heach⟩ := h
  obtain ⟨ds, hafter', heach'⟩ := h'
  refine ⟨cs ++ ds, hafter.trans hafter', Tree.each_append.mpr ⟨heach, ?_⟩⟩
  rw [hafter.tree] at heach'
  exact heach'

theorem By.mono (hpq : ∀ t c, p t c → q t c) (h : w.By p v) : w.By q v := by
  obtain ⟨cs, hafter, heach⟩ := h
  exact ⟨cs, hafter, heach.mono hpq⟩

theorem By.widen (h : w.By (Alters S R) v) (hS : ∀ k, S k → S' k) (hR : ∀ t k, S k → R t k → R' t k) :
    w.By (Alters S' R') v := h.mono fun _ _ hc => hc.mono hS hR

theorem By.veiled (h : w.By (Alters S R) v) : Veiled S (fun _ => True) w.tree.kind? v.tree.kind? := by
  obtain ⟨cs, hafter, heach⟩ := h
  rw [hafter.tree]
  exact heach.veiled

theorem Turns.refl (w : Workspace) : w.Turns p w := Or.inl (.refl w)

theorem Turns.one (hc : p w.tree c) (h : w.After [c] v) : w.Turns p v := Or.inr ⟨c, hc, h⟩

theorem Turns.by (h : w.Turns p v) : w.By p v := by
  rcases h with h | ⟨c, hc, h⟩
  · exact .still h
  · exact .one hc h

theorem Turns.still (h : w.Turns p v) (h' : v.After [] u) : w.Turns p u := by
  rcases h with h | ⟨c, hc, h⟩
  · exact Or.inl (h.trans h')
  · exact Or.inr ⟨c, hc, h.trans h'⟩

theorem Turns.mono (hpq : ∀ t c, p t c → q t c) (h : w.Turns p v) : w.Turns q v :=
  h.imp_right fun ⟨c, hc, h⟩ => ⟨c, hpq _ c hc, h⟩

end Workspace

/-! ### Actions -/

/-- Whatever workspace an action runs in, each change it makes has a property in the tree that it is made in. -/
def Action.Does {α : Type} (p : Tree → Change → Prop) (a : Action α) : Prop := ∀ w : Workspace, w.By p (a w).2

namespace Action.Does

variable {ε α β : Type} {p : Tree → Change → Prop}

theorem pure (x : α) : Does p (Pure.pure x) := fun w => .refl w

theorem bind {a : Action α} {f : α → Action β} (ha : Does p a) (hf : ∀ x, Does p (f x)) : Does p (a >>= f) :=
  fun w => (ha w).trans (hf _ _)

theorem commit {c : Change} (hc : ∀ t, p t c) : Does p (Action.commit c) := fun w =>
  .one (hc w.tree) (.commits w [c])

theorem report (e : Event) : Does p (Action.report e) := fun w => .still (.report (.refl w) e)

theorem tree : Does p Action.tree := fun w => .refl w

theorem forM {f : α → Action PUnit} (hf : ∀ x, Does p (f x)) (xs : List α) : Does p (xs.forM f) := by
  induction xs with
  | nil => exact pure _
  | cons x xs ih => exact bind (hf x) fun _ => ih

theorem run_pure (x : α) : Does p (Pure.pure x : ExceptT ε Action α).run := fun w => .refl w

theorem run_throw (e : ε) : Does p (throw e : ExceptT ε Action α).run := fun w => .refl w

theorem run_bind {a : ExceptT ε Action α} {f : α → ExceptT ε Action β} (ha : Does p a.run)
    (hf : ∀ x, Does p (f x).run) : Does p (a >>= f).run := by
  intro w
  have hw := ha w
  rw [Action.run_bind]
  rcases hrun : a.run w with ⟨e | x, v⟩ <;> rw [hrun] at hw
  · exact hw
  · exact hw.trans (hf x v)

theorem run_lift {a : Action α} (ha : Does p a) : Does p (liftM a : ExceptT ε Action α).run := fun w => by
  rw [Action.run_lift]
  exact ha w

theorem run_except (x : Except ε α) : Does p (liftM x : ExceptT ε Action α).run := fun w => by
  rw [Action.run_except]
  exact .refl w

theorem run_ask (f : Tree → Except Fault α) : Does p (Request.ask f).run := fun w => by
  rw [Action.run_ask]
  exact .refl w

theorem run_file {r : Request α} (hr : Does p r.run) : Does p (liftM r : Attempt α).run := by
  intro w
  have hw := hr w
  rw [Action.run_file]
  rcases hrun : r.run w with ⟨e | x, v⟩ <;> rw [hrun] at hw <;> exact hw

theorem run_forM {f : α → ExceptT ε Action PUnit} (hf : ∀ x, Does p (f x).run) (xs : List α) :
    Does p (xs.forM f).run := by
  induction xs with
  | nil => exact run_pure _
  | cons x xs ih => exact run_bind (hf x) fun _ => ih

theorem outcome (op : Operation) (name : Bytes) (r : Except StoreError α) :
    Does p (Attempt.outcome op name r) := by
  cases r with
  | ok x => exact pure _
  | error e => exact bind (report _) fun _ => pure _

theorem reported {a : Attempt α} (ha : Does p a.run) (op : Operation) (name : Bytes) :
    Does p (a.reported op name) := bind ha fun _ => outcome op name _

theorem scan (m : Mode) (root : Path) : Does p (Scan.run m root) := by
  unfold Scan.run
  refine bind tree fun t => ?_
  split
  · exact bind (report _) fun _ => pure _
  · exact bind (forM report _) fun _ => bind (report _) fun _ => pure _

end Action.Does

/-- An action that makes no change whatever leaves the tree and adds no change. -/
theorem Workspace.By.none {w v : Workspace} (h : w.By (fun _ _ => False) v) : w.After [] v := by
  obtain ⟨_ | ⟨c, cs⟩, hafter, heach⟩ := h
  · exact hafter
  · exact heach.1.elim

variable [FileSystem]

/-! ### Directories and staged files -/

namespace Request

open Tree (Alters)

variable {S : Key → Prop} {R : Tree → Key → Prop} {w v : Workspace}

theorem makeUnlessDir_by {p : Path} {r : Except Fault Unit} (h : (makeUnlessDir p).run w = (r, v)) :
    w.By (Alters S R) v := by
  rw [makeUnlessDir_eq] at h
  rcases hplan : w.tree.planMakeDir p with f | c
  · rw [hplan] at h
    dsimp only at h
    split at h <;> cases h <;> exact .refl w
  · rw [hplan] at h
    cases h
    obtain ⟨n, d, hn, hk, -, rfl⟩ := Tree.planMakeDir_eq_ok_iff.mp hplan
    exact .one (.makeDir hn.dir hk) (.commits w _)

theorem makeDirFrom_by {p : Path} {parents : List Path} {r : Except Fault Unit}
    (h : (makeDirFrom p parents).run w = (r, v)) : w.By (Alters S R) v := by
  induction parents generalizing p r v with
  | nil =>
    unfold makeDirFrom at h
    split at h
    · cases h
      exact .refl w
    · exact makeUnlessDir_by h
  | cons parent parents ih =>
    rw [makeDirFrom_cons] at h
    split at h
    · rcases hrun : (makeDirFrom parent parents).run w with ⟨f | _, x⟩
      · rw [hrun] at h
        cases h
        exact ih hrun
      · rw [hrun] at h
        exact (ih hrun).trans (makeUnlessDir_by h)
    · exact makeUnlessDir_by h

theorem makeDirs_by {p : Path} {r : Except Fault Unit} (h : (makeDirs p).run w = (r, v)) :
    w.By (Alters S R) v := makeDirFrom_by h

theorem makeDirs_does (p : Path) : Action.Does (Alters S R) (makeDirs p).run := fun _ => makeDirs_by rfl

section

open Action (Does)

variable {p : Tree → Change → Prop} (hp : ∀ t k, p t (.remove k))
include hp

theorem removeAll_does (k : Key) (inner : Listing) : Does p (removeAll k inner).run := by
  refine .run_bind (.run_lift (.forM (fun _ => .commit fun t => hp t _) _)) fun _ => ?_
  split
  · exact .run_throw _
  · exact .run_pure _

theorem removeDir_does (q : Path) : Does p (removeDir q).run := by
  unfold removeDir
  refine .run_bind (.run_ask _) fun s => ?_
  split
  · exact .run_bind (removeAll_does hp _ _) fun _ => .run_throw _
  · refine .run_bind (.run_lift .tree) fun t => ?_
    split
    · exact .run_bind (removeAll_does hp _ _) fun _ => .run_throw _
    · exact .run_throw _
  · refine .run_bind (.run_ask _) fun node => ?_
    split
    · exact .run_throw _
    · exact .run_throw _
    · exact removeAll_does hp _ _

theorem unlink_does (q : Path) : Does p (unlink q).run := by
  intro w
  rcases unlink_spec q w with ⟨f, -, hrun⟩ | ⟨content, -, -, -, hrun, -⟩ <;> rw [hrun]
  · exact .refl w
  · exact .one (hp _ _) (.commits w _)

theorem emptyDir_does (q : Path) : Does p (emptyDir q).run := by
  unfold emptyDir
  refine .run_bind (.run_ask _) fun inner => .run_forM (fun e => ?_) _
  obtain ⟨name, node⟩ := e
  cases node with
  | dir => exact removeDir_does hp _
  | file => exact unlink_does hp _

end

end Request

namespace Staging

open Tree (Alters Fixed)

/-- A key of a hidden file in a directory. -/
def HiddenIn (dir k : Key) : Prop := ∃ i, k = hiddenName i :: dir

variable {S : Key → Prop} {R : Tree → Key → Prop} {w v : Workspace} {dir source target : Path} {k : Key}

omit [FileSystem] in
theorem each_fillings {t : Tree} {before : Bytes} (hS : S k) (hk : t.kind? k = some (.file before))
    (content : Bytes) : t.Each (Alters S R) (fillings k content) := by
  unfold fillings
  generalize content.inPieces Bytes.pieceSize = pieces
  induction pieces generalizing t before with
  | nil => trivial
  | cons piece pieces ih =>
    have hgrown := foldl_append_spec hk [piece]
    rw [List.map_singleton, List.foldl_cons, List.foldl_nil, List.flatten_singleton] at hgrown
    have hnext : (t.apply (.append k piece)).kind? k = some (.file (before ++ piece)) := by
      rw [hgrown, Function.update_self]
    exact ⟨.append piece hS hk, ih hnext⟩

/-- What staging a file comes to: nothing but a hidden file that is gone again, or one that is renamed. -/
inductive Staged (dir target : Path) (w v : Workspace) : Prop
  | undone (h : w.By (Alters (HiddenIn dir.key) Fixed) v)
  | placed (x : Workspace) (h : w.By (Alters (HiddenIn dir.key) Fixed) x) (hidden : Key) (content : Bytes)
      (hhidden : HiddenIn dir.key hidden) (hfile : x.tree.kind? hidden = some (.file content))
      (admits : x.tree.Admits target) (hlast : x.After [.rename hidden target.key] v)

omit [FileSystem] in
theorem created_by {h : Hidden} (hhidden : HiddenIn dir.key h.key) (hkey : h.path.key = h.key)
    (hadmits : w.tree.Admits h.path) (hnone : w.tree.kind? h.key = none) :
    w.By (Alters (HiddenIn dir.key) Fixed) (w.commits [.create h.key]) := by
  obtain ⟨i, hi⟩ := id hhidden
  have hd := hadmits.dir
  refine .one ?_ (.commits w _)
  rw [hkey] at hd
  rw [hi] at hd hnone hhidden ⊢
  exact .create hhidden hd (by rw [hnone]; simp)

theorem fill_finish_staged {h : Hidden} {content : Bytes} (hhidden : HiddenIn dir.key h.key)
    (hkey : h.path.key = h.key) (hadmits : w.tree.Admits h.path) (hnone : w.tree.kind? h.key = none)
    (hkinds : (w.commits [.create h.key]).tree.kind? = update w.tree.kind? h.key (some (.file [])))
    {r : Except StoreError Unit}
    (hrun : (finish h target).run ((w.commits [.create h.key]).commits (fillings h.key content)) = (r, v)) :
    Staged dir target w v := by
  have hempty : (w.commits [.create h.key]).tree.kind? h.key = some (.file []) := by
    rw [hkinds, Function.update_self]
  have hfilled := (created_by hhidden hkey hadmits hnone).trans
    ⟨_, .commits _ _, each_fillings hhidden hempty content⟩
  have hfile : ((w.commits [.create h.key]).commits (fillings h.key content)).tree.kind? h.key =
      some (.file content) := by
    rw [kind?_fillings hempty, Function.update_self]
  generalize (w.commits [.create h.key]).commits (fillings h.key content) = x at hrun hfilled hfile
  rw [finish_eq] at hrun
  rcases hplan : x.tree.planRename h.path target with f | c <;> rw [hplan] at hrun <;> cases hrun
  · exact .undone (hfilled.trans (.one (.remove hhidden hfile) (.commits x _)))
  · obtain ⟨-, ht, -, rfl⟩ := (Tree.planRename_eq_ok_iff (by rw [hkey]; exact hfile)).mp hplan
    rw [hkey]
    exact .placed x hfilled h.key content hhidden hfile ht (.commits x _)

/-- **A content that is written** is prepared under a hidden name. -/
theorem write_staged (hdir : dir ≠ .blank) {content : Bytes} {r : Except StoreError Unit}
    (h : (write dir target content).run w = (r, v)) : Staged dir target w v := by
  unfold write at h
  rw [Action.run_bind, Action.run_file] at h
  rcases newHidden_spec hdir w with ⟨f, -, hrun⟩ | ⟨hidden, hrun, hkey, hhidden, -, hadmits, hnone, hkinds⟩
  · rw [hrun] at h
    cases h
    exact .undone (.refl w)
  · rw [hrun] at h
    simp only [Action.run_bind, Attempt.run_lift, fill_eq] at h
    exact fill_finish_staged hhidden hkey hadmits hnone hkinds h

/-- **A file that is copied** is prepared under a hidden name. -/
theorem copy_staged (hdir : dir ≠ .blank) {r : Except StoreError Nat}
    (h : (copy dir source target).run w = (r, v)) : Staged dir target w v := by
  unfold copy at h
  rw [Action.run_bind, Action.run_file, Action.run_ask] at h
  rcases hstat : w.tree.stat source with f | node
  · rw [hstat] at h
    cases h
    exact .undone (.refl w)
  · rw [hstat] at h
    dsimp only at h
    rw [Action.run_bind, Action.run_file] at h
    rcases newHidden_spec hdir w with ⟨f, -, hrun⟩ | ⟨hidden, hrun, hkey, hhidden, -, hadmits, hnone, hkinds⟩
    · rw [hrun] at h
      cases h
      exact .undone (.refl w)
    · rw [hrun] at h
      cases node with
      | dir inner =>
        simp only [Action.run_bind, Attempt.run_commit, Action.run_throw] at h
        cases h
        have hempty : (w.commits [.create hidden.key]).tree.kind? hidden.key = some (.file []) := by
          rw [hkinds, Function.update_self]
        exact .undone ((created_by hhidden hkey hadmits hnone).trans
          (.one (.remove hhidden hempty) (.commits _ _)))
      | file content =>
        simp only [Action.run_bind, Attempt.run_lift, fill_eq] at h
        rcases hfinish : (finish hidden target).run
          ((w.commits [.create hidden.key]).commits (fillings hidden.key content)) with ⟨e | _, x⟩ <;>
          rw [hfinish] at h <;> cases h <;>
          exact fill_finish_staged hhidden hkey hadmits hnone hkinds hfinish

end Staging

end ContentStore
