import ContentStore.Proofs.References
import ContentStore.Proofs.Staged
import ContentStore.Store.File

/-!
# The ways in which an operation of a file store can end

Each operation is a chain of requests, and any of them may be refused.  `StoreRun`, `StoreFileRun`,
`DeleteRun`, `LetGoRun` and `GetToFileRun` list the ways in which an operation can end, with the requests
that were made on the way; `store_run` and the others say that there is no further way.
-/

namespace ContentStore

open Workspace

namespace Attempt

theorem granted_apply (r : Request Unit) (w : Workspace) :
    granted r w = ((r.run w).1.isOk, (r.run w).2) := rfl

end Attempt

open FileSystem (shut)

namespace FileStore

variable {s : FileStore} {l : Layout}

theorem run_layout (hl : s.layout? = some l) (w : Workspace) :
    (liftM s.layout : Attempt Layout).run w = (.ok l, w) := by
  rw [layout, hl]
  rfl

theorem locate_eq {name : Bytes} (hname : name ≠ []) : l.locate name = .ok (l.place name) := by
  rw [Layout.locate, if_neg hname]

/-! ### Looking for a chunk -/

theorem find_eq (hl : s.layout? = some l) (name : Bytes) (w : Workspace) :
    (s.find name).run w =
      if name = [] then (.error .emptyName, w)
      else match s.mode.find (l.place name) w.tree with
        | .ok entry => (.ok (l.place name, entry), w)
        | .error f => (.error (.file f), w) := by
  unfold find
  rw [Action.run_bind, run_layout hl]
  dsimp only
  by_cases hname : name = []
  · rw [if_pos hname, Layout.locate, if_pos hname]
    rfl
  · rw [if_neg hname, locate_eq hname, Action.run_bind, Action.run_except]
    dsimp only
    rw [Action.run_bind, Action.run_file, Action.run_ask]
    rcases s.mode.find (l.place name) w.tree with f | entry <;> rfl

inductive RequireRun (s : FileStore) (l : Layout) (name : Bytes) (w : Workspace) :
    Except StoreError (Location × Entry) × Workspace → Prop
  | emptyName (hname : name = []) : RequireRun s l name w (.error .emptyName, w)
  | unreadable (hname : name ≠ []) (f : Fault) (hfind : s.mode.find (l.place name) w.tree = .error f) :
      RequireRun s l name w (.error (.file f), w)
  | absent (hname : name ≠ []) (hfind : s.mode.find (l.place name) w.tree = .ok none) :
      RequireRun s l name w (.error (.missing name), w)
  | present (hname : name ≠ []) (e : Entry)
      (hfind : s.mode.find (l.place name) w.tree = .ok (some e)) :
      RequireRun s l name w (.ok (l.place name, e), w)

theorem require_run (hl : s.layout? = some l) (name : Bytes) (w : Workspace) :
    RequireRun s l name w ((s.require name).run w) := by
  unfold require
  rw [Action.run_bind, find_eq hl]
  by_cases hname : name = []
  · rw [if_pos hname]
    exact .emptyName hname
  · rw [if_neg hname]
    rcases hfind : s.mode.find (l.place name) w.tree with f | _ | e
    · exact .unreadable hname f hfind
    · exact .absent hname hfind
    · exact .present hname e hfind

theorem sourceSize_spec (source : Path) (w : Workspace) :
    (∃ content, w.tree.stat source = .ok (.file content) ∧
      (sourceSize source).run w = (.ok content.length, w)) ∨
    ∃ err, (∀ content, w.tree.stat source ≠ .ok (.file content)) ∧
      (sourceSize source).run w = (.error err, w) := by
  unfold sourceSize
  rw [Action.run_bind, Attempt.run_tree]
  dsimp only
  rcases w.tree.stat source with f | ⟨content | inner⟩
  · cases f <;> exact Or.inr ⟨_, by simp, rfl⟩
  · exact Or.inl ⟨content, rfl, rfl⟩
  · exact Or.inr ⟨_, by simp, rfl⟩

theorem stagingDir_ne_blank (target : Path) : stagingDir target ≠ .blank := by
  unfold stagingDir
  have hhere : Path.here ≠ .blank := by decide
  split
  · split
    · exact hhere
    · assumption
  · exact hhere

variable [FileSystem]

/-! ### Storing a content -/

theorem store_emptyName (hl : s.layout? = some l) (content : Bytes) (w : Workspace) :
    (s.store [] content).run w = (.error .emptyName, w) := by
  unfold store
  rw [Action.run_bind, run_layout hl]
  rfl

theorem store_emptyContent (hl : s.layout? = some l) {name : Bytes} (hname : name ≠ []) (w : Workspace) :
    (s.store name []).run w = (.error .emptyContent, w) := by
  unfold store
  rw [Action.run_bind, run_layout hl]
  dsimp only
  rw [if_neg hname]
  rfl

/-- Storing a content, step by step. -/
theorem store_eq (hl : s.layout? = some l) {name content : Bytes} (hname : name ≠ []) (hcontent : content ≠ [])
    (w : Workspace) :
    (s.store name content).run w = match s.mode.find (l.place name) w.tree with
      | .error f => (.error (.file f), w)
      | .ok (some e) => match (s.mode.acquire (l.place name) e).run w with
        | (.error err, v) => (.error err, v)
        | (.ok _, v) => (.ok s, v)
      | .ok none => match s.tracker.ensureRoom content.length with
        | .error err => (.error err, w)
        | .ok () => match (Request.makeDirs (l.place name).dir).run w with
          | (.error f, v) => (.error (.file f), v)
          | (.ok (), v) =>
            match (Staging.write (l.place name).dir (s.mode.path (l.place name) 1) content).run v with
            | (.error err, u) => (.error err, u)
            | (.ok (), u) => (.ok { s with tracker := s.tracker.add content.length },
                (Action.report (.stored name content.length) u).2) := by
  unfold store
  rw [Action.run_bind, run_layout hl]
  dsimp only
  rw [if_neg hname, if_neg hcontent, locate_eq hname, Action.run_bind, Action.run_except]
  dsimp only
  rw [Action.run_bind, Action.run_file, Action.run_ask]
  rcases s.mode.find (l.place name) w.tree with f | _ | e
  · rfl
  · dsimp only
    rw [Action.run_bind, Action.run_except]
    rcases s.tracker.ensureRoom content.length with err | x
    · rfl
    · dsimp only
      rw [Action.run_bind, Action.run_file]
      rcases (Request.makeDirs (l.place name).dir).run w with ⟨f | x, v⟩
      · rfl
      · dsimp only
        rw [Action.run_bind]
        rcases (Staging.write (l.place name).dir (s.mode.path (l.place name) 1) content).run v with
          ⟨err | x, u⟩ <;> rfl
  · dsimp only
    rw [Action.run_bind]
    rcases (s.mode.acquire (l.place name) e).run w with ⟨err | n, v⟩ <;> rfl

inductive StoreRun (s : FileStore) (l : Layout) (name content : Bytes) (w : Workspace) :
    Except StoreError FileStore × Workspace → Prop
  | emptyName (hname : name = []) : StoreRun s l name content w (.error .emptyName, w)
  | emptyContent (hname : name ≠ []) (hcontent : content = []) :
      StoreRun s l name content w (.error .emptyContent, w)
  | unreadable (hname : name ≠ []) (hcontent : content ≠ []) (f : Fault)
      (hfind : s.mode.find (l.place name) w.tree = .error f) :
      StoreRun s l name content w (.error (.file f), w)
  | unshared (hname : name ≠ []) (hcontent : content ≠ []) (e : Entry)
      (hfind : s.mode.find (l.place name) w.tree = .ok (some e)) (err : StoreError) (v : Workspace)
      (hacquire : (s.mode.acquire (l.place name) e).run w = (.error err, v)) :
      StoreRun s l name content w (.error err, v)
  | shared (hname : name ≠ []) (hcontent : content ≠ []) (e : Entry)
      (hfind : s.mode.find (l.place name) w.tree = .ok (some e)) (n : Nat) (v : Workspace)
      (hacquire : (s.mode.acquire (l.place name) e).run w = (.ok n, v)) :
      StoreRun s l name content w (.ok s, v)
  | full (hname : name ≠ []) (hcontent : content ≠ [])
      (hfind : s.mode.find (l.place name) w.tree = .ok none) (err : StoreError)
      (hroom : s.tracker.ensureRoom content.length = .error err) :
      StoreRun s l name content w (.error err, w)
  | noDir (hname : name ≠ []) (hcontent : content ≠ [])
      (hfind : s.mode.find (l.place name) w.tree = .ok none)
      (hroom : s.tracker.ensureRoom content.length = .ok ()) (f : Fault) (v : Workspace)
      (hdirs : (Request.makeDirs (l.place name).dir).run w = (.error f, v)) :
      StoreRun s l name content w (.error (.file f), v)
  | unwritten (hname : name ≠ []) (hcontent : content ≠ [])
      (hfind : s.mode.find (l.place name) w.tree = .ok none)
      (hroom : s.tracker.ensureRoom content.length = .ok ()) (v : Workspace)
      (hdirs : (Request.makeDirs (l.place name).dir).run w = (.ok (), v)) (err : StoreError)
      (u : Workspace) (hwrite : (Staging.write (l.place name).dir (s.mode.path (l.place name) 1) content).run v =
        (.error err, u)) : StoreRun s l name content w (.error err, u)
  | stored (hname : name ≠ []) (hcontent : content ≠ [])
      (hfind : s.mode.find (l.place name) w.tree = .ok none)
      (hroom : s.tracker.ensureRoom content.length = .ok ()) (v : Workspace)
      (hdirs : (Request.makeDirs (l.place name).dir).run w = (.ok (), v)) (u x : Workspace)
      (hwrite : (Staging.write (l.place name).dir (s.mode.path (l.place name) 1) content).run v =
        (.ok (), u)) (hlast : u.After [] x) :
      StoreRun s l name content w (.ok { s with tracker := s.tracker.add content.length }, x)

theorem store_run (hl : s.layout? = some l) (name content : Bytes) (w : Workspace) :
    StoreRun s l name content w ((s.store name content).run w) := by
  by_cases hname : name = []
  · subst hname
    rw [store_emptyName hl]
    exact .emptyName rfl
  by_cases hcontent : content = []
  · subst hcontent
    rw [store_emptyContent hl hname]
    exact .emptyContent hname rfl
  rw [store_eq hl hname hcontent]
  rcases hfind : s.mode.find (l.place name) w.tree with f | _ | e
  · exact .unreadable hname hcontent f hfind
  · dsimp only
    rcases hroom : s.tracker.ensureRoom content.length with err | u
    · exact .full hname hcontent hfind err hroom
    · dsimp only
      rcases hdirs : (Request.makeDirs (l.place name).dir).run w with ⟨f | u, v⟩
      · exact .noDir hname hcontent hfind hroom f v hdirs
      · dsimp only
        rcases hwrite : (Staging.write (l.place name).dir (s.mode.path (l.place name) 1) content).run v
          with ⟨err | u, x⟩
        · exact .unwritten hname hcontent hfind hroom v hdirs err x hwrite
        · exact .stored hname hcontent hfind hroom v hdirs x _ hwrite (.report (.refl x) _)
  · dsimp only
    rcases hacquire : (s.mode.acquire (l.place name) e).run w with ⟨err | n, v⟩
    · exact .unshared hname hcontent e hfind err v hacquire
    · exact .shared hname hcontent e hfind n v hacquire

/-! ### Storing the content of a file -/

theorem storeFile_emptyName (hl : s.layout? = some l) (source : Path) (asked : Bool) (w : Workspace) :
    (s.storeFile [] source asked).run w = (.error .emptyName, w) := by
  unfold storeFile
  rw [Action.run_bind, run_layout hl]
  rfl

/-- What becomes of a source that may be removed. -/
inductive Discarded (asked : Bool) (source : Path) (w : Workspace) : Workspace → Prop
  | unasked (h : asked = false) : Discarded asked source w w
  | kept (h : asked = true)
      (hno : shut source.key.tail = false → ∀ content, w.tree.stat source ≠ .ok (.file content)) (v : Workspace)
      (after : w.After [] v) : Discarded asked source w v
  | gone (h : asked = true) (hopen : shut source.key.tail = false) (content : Bytes)
      (hfile : w.tree.kind? source.key = some (.file content))
      (v : Workspace) (after : w.After [.remove source.key] v)
      (kinds : v.tree.kind? = Function.update w.tree.kind? source.key none) : Discarded asked source w v

theorem discard_run (asked : Bool) (name : Bytes) (source : Path) (w : Workspace) :
    Discarded asked source w (if asked then (discard name source w).2 else w) := by
  cases asked with
  | false => exact .unasked rfl
  | true =>
    rw [if_pos rfl, discard, Action.bind_apply, Attempt.granted_apply]
    rcases Request.unlink_spec source w with ⟨f, hno, hrun⟩ | ⟨content, -, hfile, hopen, hrun, hkinds⟩
    · rw [hrun]
      refine .kept rfl (fun hopen content hstat => hno ⟨Tree.admits_of_stat hstat, ⟨content, ?_⟩, hopen⟩) _
        (.report (.refl w) _)
      exact Tree.kind?_of_node? (Tree.stat_eq_ok_iff.mp hstat).2.2
    · rw [hrun]
      exact .gone rfl hopen content hfile _ (.commits _ _) hkinds

inductive StoreFileRun (s : FileStore) (l : Layout) (name : Bytes) (source : Path) (asked : Bool)
    (w : Workspace) : Except StoreError FileStore × Workspace → Prop
  | emptyName (hname : name = []) : StoreFileRun s l name source asked w (.error .emptyName, w)
  | noSource (err : StoreError) (hno : ∀ content, w.tree.stat source ≠ .ok (.file content))
      (hsize : (sourceSize source).run w = (.error err, w)) :
      StoreFileRun s l name source asked w (.error err, w)
  | emptyContent (hsource : w.tree.stat source = .ok (.file [])) :
      StoreFileRun s l name source asked w (.error .emptyContent, w)
  | unreadable (hname : name ≠ []) (content : Bytes)
      (hsource : w.tree.stat source = .ok (.file content)) (hcontent : content ≠ []) (f : Fault)
      (hfind : s.mode.find (l.place name) w.tree = .error f) :
      StoreFileRun s l name source asked w (.error (.file f), w)
  | unshared (hname : name ≠ []) (content : Bytes)
      (hsource : w.tree.stat source = .ok (.file content)) (hcontent : content ≠ []) (e : Entry)
      (hfind : s.mode.find (l.place name) w.tree = .ok (some e)) (err : StoreError) (v : Workspace)
      (hacquire : (s.mode.acquire (l.place name) e).run w = (.error err, v)) :
      StoreFileRun s l name source asked w (.error err, v)
  | shared (hname : name ≠ []) (content : Bytes)
      (hsource : w.tree.stat source = .ok (.file content)) (hcontent : content ≠ []) (e : Entry)
      (hfind : s.mode.find (l.place name) w.tree = .ok (some e)) (n : Nat) (v x : Workspace)
      (hacquire : (s.mode.acquire (l.place name) e).run w = (.ok n, v))
      (hlast : Discarded (asked && !w.tree.sameFile e.path source) source v x) :
      StoreFileRun s l name source asked w (.ok s, x)
  | full (hname : name ≠ []) (content : Bytes)
      (hsource : w.tree.stat source = .ok (.file content)) (hcontent : content ≠ [])
      (hfind : s.mode.find (l.place name) w.tree = .ok none) (err : StoreError)
      (hroom : s.tracker.ensureRoom content.length = .error err) :
      StoreFileRun s l name source asked w (.error err, w)
  | noDir (hname : name ≠ []) (content : Bytes)
      (hsource : w.tree.stat source = .ok (.file content)) (hcontent : content ≠ [])
      (hfind : s.mode.find (l.place name) w.tree = .ok none)
      (hroom : s.tracker.ensureRoom content.length = .ok ()) (f : Fault) (v : Workspace)
      (hdirs : (Request.makeDirs (l.place name).dir).run w = (.error f, v)) :
      StoreFileRun s l name source asked w (.error (.file f), v)
  | renamed (hname : name ≠ []) (content : Bytes)
      (hsource : w.tree.stat source = .ok (.file content)) (hcontent : content ≠ [])
      (hfind : s.mode.find (l.place name) w.tree = .ok none)
      (hroom : s.tracker.ensureRoom content.length = .ok ()) (v : Workspace)
      (hdirs : (Request.makeDirs (l.place name).dir).run w = (.ok (), v)) (hasked : asked = true)
      (u x : Workspace)
      (hrename : (Request.rename source (s.mode.path (l.place name) 1)).run v = (.ok (), u))
      (hlast : u.After [] x) :
      StoreFileRun s l name source asked w
        (.ok { s with tracker := s.tracker.add content.length }, x)
  | uncopied (hname : name ≠ []) (content : Bytes)
      (hsource : w.tree.stat source = .ok (.file content)) (hcontent : content ≠ [])
      (hfind : s.mode.find (l.place name) w.tree = .ok none)
      (hroom : s.tracker.ensureRoom content.length = .ok ()) (v : Workspace)
      (hdirs : (Request.makeDirs (l.place name).dir).run w = (.ok (), v))
      (hasked : asked = true →
        ∃ f, (Request.rename source (s.mode.path (l.place name) 1)).run v = (.error f, v))
      (err : StoreError) (u : Workspace)
      (hcopy : (Staging.copy (l.place name).dir source (s.mode.path (l.place name) 1)).run v =
        (.error err, u)) : StoreFileRun s l name source asked w (.error err, u)
  | copied (hname : name ≠ []) (content : Bytes)
      (hsource : w.tree.stat source = .ok (.file content)) (hcontent : content ≠ [])
      (hfind : s.mode.find (l.place name) w.tree = .ok none)
      (hroom : s.tracker.ensureRoom content.length = .ok ()) (v : Workspace)
      (hdirs : (Request.makeDirs (l.place name).dir).run w = (.ok (), v))
      (hasked : asked = true →
        ∃ f, (Request.rename source (s.mode.path (l.place name) 1)).run v = (.error f, v))
      (n : Nat) (u x y : Workspace)
      (hcopy : (Staging.copy (l.place name).dir source (s.mode.path (l.place name) 1)).run v = (.ok n, u))
      (after : u.After [] x) (hlast : Discarded asked source x y) :
      StoreFileRun s l name source asked w (.ok { s with tracker := s.tracker.add n }, y)

theorem storeFile_run (hl : s.layout? = some l) (name : Bytes) (source : Path) (asked : Bool)
    (w : Workspace) :
    StoreFileRun s l name source asked w ((s.storeFile name source asked).run w) := by
  unfold storeFile
  rw [Action.run_bind, run_layout hl]
  dsimp only
  by_cases hname : name = []
  · rw [Layout.locate, if_pos hname]
    exact .emptyName hname
  rw [locate_eq hname, Action.run_bind, Action.run_except]
  dsimp only
  rw [Action.run_bind]
  rcases sourceSize_spec source w with ⟨content, hsource, hsize⟩ | ⟨err, hno, hsize⟩
  · rw [hsize]
    dsimp only
    by_cases hcontent : content = []
    · subst hcontent
      exact .emptyContent hsource
    rw [if_neg (by simpa using hcontent), Action.run_bind, Action.run_file, Action.run_ask]
    rcases hfind : s.mode.find (l.place name) w.tree with f | _ | e
    · exact .unreadable hname content hsource hcontent f hfind
    · dsimp only
      rw [Action.run_bind, Action.run_except]
      rcases hroom : s.tracker.ensureRoom content.length with err | u
      · exact .full hname content hsource hcontent hfind err hroom
      · dsimp only
        rw [Action.run_bind, Action.run_file]
        rcases hdirs : (Request.makeDirs (l.place name).dir).run w with ⟨f | u, v⟩
        · exact .noDir hname content hsource hcontent hfind hroom f v hdirs
        · dsimp only
          cases asked with
          | false =>
            rw [if_neg (by simp), Action.run_bind, Action.run_pure]
            dsimp only
            rw [if_neg (by simp), Action.run_bind]
            rcases hcopy : (Staging.copy (l.place name).dir source (s.mode.path (l.place name) 1)).run v
              with ⟨err | n, u⟩
            · exact .uncopied hname content hsource hcontent hfind hroom v hdirs (by simp) err u hcopy
            · exact .copied hname content hsource hcontent hfind hroom v hdirs (by simp) n u _ _ hcopy
                (.report (.refl u) _) (.unasked rfl)
          | true =>
            rw [if_pos rfl, Action.run_bind, Attempt.run_lift, Attempt.granted_apply]
            rcases hrename : (Request.rename source (s.mode.path (l.place name) 1)).run v with ⟨f | u, x⟩
            · obtain rfl := Request.eq_of_perform_error hrename
              dsimp only [Except.isOk, Except.toBool]
              rw [if_neg (by simp), Action.run_bind]
              rcases hcopy : (Staging.copy (l.place name).dir source (s.mode.path (l.place name) 1)).run x
                with ⟨err | n, u⟩
              · exact .uncopied hname content hsource hcontent hfind hroom x hdirs (fun _ => ⟨f, hrename⟩)
                  err u hcopy
              · exact .copied hname content hsource hcontent hfind hroom x hdirs (fun _ => ⟨f, hrename⟩)
                  n u _ _ hcopy (.report (.refl u) _) (discard_run true name source _)
            · exact .renamed hname content hsource hcontent hfind hroom v hdirs rfl x _ hrename
                (.report (.refl x) _)
    · dsimp only
      rw [Action.run_bind, Attempt.run_tree]
      dsimp only
      rw [Action.run_bind]
      rcases hacquire : (s.mode.acquire (l.place name) e).run w with ⟨err | n, v⟩
      · exact .unshared hname content hsource hcontent e hfind err v hacquire
      · dsimp only
        have hlast := discard_run (asked && !w.tree.sameFile e.path source) name source v
        have h := StoreFileRun.shared hname content hsource hcontent e hfind n v _ hacquire hlast
        cases hb : asked && !w.tree.sameFile e.path source <;> rw [hb] at h <;> exact h
  · rw [hsize]
    exact .noSource err hno hsize

/-! ### Dropping references -/

inductive DeleteRun (s : FileStore) (l : Layout) (name : Bytes) (w : Workspace) :
    Except StoreError FileStore × Workspace → Prop
  | emptyName (hname : name = []) : DeleteRun s l name w (.ok s, w)
  | unreadable (hname : name ≠ []) (f : Fault) (hfind : s.mode.find (l.place name) w.tree = .error f) :
      DeleteRun s l name w (.error (.file f), w)
  | absent (hname : name ≠ []) (hfind : s.mode.find (l.place name) w.tree = .ok none) :
      DeleteRun s l name w (.ok s, w)
  | refused (hname : name ≠ []) (e : Entry) (hfind : s.mode.find (l.place name) w.tree = .ok (some e))
      (err : StoreError) (v : Workspace)
      (hrelease : (s.mode.release (l.place name) e).run w = (.error err, v)) :
      DeleteRun s l name w (.error err, v)
  | dropped (hname : name ≠ []) (e : Entry) (hfind : s.mode.find (l.place name) w.tree = .ok (some e))
      (n : Nat) (v : Workspace) (hrelease : (s.mode.release (l.place name) e).run w = (.ok n, v))
      (hn : n ≠ 0) : DeleteRun s l name w (.ok s, v)
  | removed (hname : name ≠ []) (e : Entry) (hfind : s.mode.find (l.place name) w.tree = .ok (some e))
      (v x : Workspace) (hrelease : (s.mode.release (l.place name) e).run w = (.ok 0, v))
      (hlast : v.After [] x) :
      DeleteRun s l name w (.ok { s with tracker := s.tracker.remove e.size }, x)

theorem delete_run (hl : s.layout? = some l) (name : Bytes) (w : Workspace) :
    DeleteRun s l name w ((s.delete name).run w) := by
  unfold delete
  rw [Action.run_bind, run_layout hl]
  dsimp only
  by_cases hname : name = []
  · rw [if_pos hname]
    exact .emptyName hname
  rw [if_neg hname, locate_eq hname, Action.run_bind, Action.run_except]
  dsimp only
  rw [Action.run_bind, Action.run_file, Action.run_ask]
  rcases hfind : s.mode.find (l.place name) w.tree with f | _ | e
  · exact .unreadable hname f hfind
  · exact .absent hname hfind
  · dsimp only
    rw [Action.run_bind]
    rcases hrelease : (s.mode.release (l.place name) e).run w with ⟨err | n, v⟩
    · exact .refused hname e hfind err v hrelease
    · dsimp only
      by_cases hn : n = 0
      · subst hn
        exact .removed hname e hfind v _ hrelease (.report (.refl v) _)
      · rw [if_neg hn]
        exact .dropped hname e hfind n v hrelease hn

/-- What dropping the reference to a chunk that was handed over comes to. -/
inductive LetGoRun (s : FileStore) (location : Location) (entry : Entry) (w : Workspace) :
    Except StoreError FileStore × Workspace → Prop
  | unreadable (f : Fault) (hfind : s.mode.find location w.tree = .error f) :
      LetGoRun s location entry w (.error (.file f), w)
  | gone (hfind : s.mode.find location w.tree = .ok none) (x : Workspace) (hlast : w.After [] x) :
      LetGoRun s location entry w (.ok { s with tracker := s.tracker.remove entry.size }, x)
  | kept (e : Entry) (hfind : s.mode.find location w.tree = .ok (some e)) (hmode : s.mode = .plain)
      (x : Workspace) (hlast : w.After [] x) : LetGoRun s location entry w (.ok s, x)
  | refused (e : Entry) (hfind : s.mode.find location w.tree = .ok (some e)) (hmode : s.mode = .counted)
      (err : StoreError) (v : Workspace)
      (hrelease : (s.mode.release location e).run w = (.error err, v)) :
      LetGoRun s location entry w (.error err, v)
  | dropped (e : Entry) (hfind : s.mode.find location w.tree = .ok (some e)) (hmode : s.mode = .counted)
      (n : Nat) (v x : Workspace) (hrelease : (s.mode.release location e).run w = (.ok n, v))
      (hn : n ≠ 0) (hlast : v.After [] x) : LetGoRun s location entry w (.ok s, x)
  | removed (e : Entry) (hfind : s.mode.find location w.tree = .ok (some e)) (hmode : s.mode = .counted)
      (v x : Workspace) (hrelease : (s.mode.release location e).run w = (.ok 0, v))
      (hlast : v.After [] x) :
      LetGoRun s location entry w (.ok { s with tracker := s.tracker.remove e.size }, x)

theorem letGo_run (s : FileStore) (name : Bytes) (location : Location) (entry : Entry) (w : Workspace) :
    LetGoRun s location entry w ((s.letGo name location entry).run w) := by
  unfold letGo
  rw [Action.run_bind, Action.run_file, Action.run_ask]
  rcases hfind : s.mode.find location w.tree with f | _ | e
  · exact .unreadable f hfind
  · exact .gone hfind _ (.report (.refl w) _)
  · dsimp only
    cases hcounted : s.mode.isCounted with
    | false =>
      rw [if_neg (by simp)]
      have hmode : s.mode = .plain := by
        revert hcounted
        cases s.mode <;> decide
      exact .kept e hfind hmode _ (.report (.refl w) _)
    | true =>
      have hmode : s.mode = .counted := of_decide_eq_true hcounted
      rw [if_pos rfl, Action.run_bind]
      rcases hrelease : (s.mode.release location e).run w with ⟨err | n, v⟩
      · exact .refused e hfind hmode err v hrelease
      · dsimp only
        by_cases hn : n = 0
        · subst hn
          exact .removed e hfind hmode v _ hrelease (.report (.refl v) _)
        · rw [if_neg hn]
          exact .dropped e hfind hmode n v _ hrelease hn (.report (.refl v) _)

/-! ### Reading into a file -/

inductive GetToFileRun (s : FileStore) (l : Layout) (name : Bytes) (target : Path) (w : Workspace) :
    Except StoreError Unit × Workspace → Prop
  | missing (err : StoreError) (hrequire : (s.require name).run w = (.error err, w)) :
      GetToFileRun s l name target w (.error err, w)
  | same (hname : name ≠ []) (e : Entry) (hfind : s.mode.find (l.place name) w.tree = .ok (some e))
      (hsame : w.tree.sameFile e.path target = true) : GetToFileRun s l name target w (.ok (), w)
  | uncopied (hname : name ≠ []) (e : Entry) (hfind : s.mode.find (l.place name) w.tree = .ok (some e))
      (hsame : w.tree.sameFile e.path target = false) (err : StoreError) (v : Workspace)
      (hcopy : (Staging.copy (stagingDir target) e.path target).run w = (.error err, v)) :
      GetToFileRun s l name target w (.error err, v)
  | copied (hname : name ≠ []) (e : Entry) (hfind : s.mode.find (l.place name) w.tree = .ok (some e))
      (hsame : w.tree.sameFile e.path target = false) (n : Nat) (v : Workspace)
      (hcopy : (Staging.copy (stagingDir target) e.path target).run w = (.ok n, v)) :
      GetToFileRun s l name target w (.ok (), v)

theorem getToFile_run (hl : s.layout? = some l) (name : Bytes) (target : Path) (w : Workspace) :
    GetToFileRun s l name target w ((s.getToFile name target).run w) := by
  unfold getToFile
  rw [Action.run_bind]
  have hrun := require_run hl name w
  rcases hrequire : (s.require name).run w with ⟨err | ⟨location, e⟩, v⟩
  · rw [hrequire] at hrun
    cases hrun <;> exact .missing _ hrequire
  · rw [hrequire] at hrun
    cases hrun with
    | present hname e hfind =>
      dsimp only
      rw [Action.run_bind, Attempt.run_tree]
      dsimp only
      cases hsame : w.tree.sameFile e.path target with
      | true => exact .same hname e hfind hsame
      | false =>
        rw [if_neg (by simp), Action.run_bind]
        rcases hcopy : (Staging.copy (stagingDir target) e.path target).run w with ⟨err | n, v⟩
        · exact .uncopied hname e hfind hsame err v hcopy
        · exact .copied hname e hfind hsame n v hcopy

end FileStore

end ContentStore
