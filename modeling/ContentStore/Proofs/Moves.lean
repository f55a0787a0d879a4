import ContentStore.Proofs.Sinks

/-!
# What a move does

A chunk that a file store hands over either loses its last reference with its file, which the sink has taken,
or loses one as it does when it is deleted (`Handed`); a memory store deletes it from its table.  A file that
could not be removed is not looked at again by a plain store, which keeps it.  Whatever happens, both stores
stay in order, and nothing happens in a directory beside both: `moveTo_worked`.
-/

namespace ContentStore

variable [FileSystem]

open Function (update)
open FileSystem (shut)

namespace FileStore

variable {s s' : FileStore} {l : Layout} {name : Bytes} {tidy : Prop} {b b' : AnyStore} {taken : Bool}
  {t u : Tree} {e : Entry} {w v x : Workspace}

/-- What comes of offering the file of a chunk. -/
def Offers (b : AnyStore) (name : Bytes) (e : Entry) (t : Tree) (taken : Bool) (b' : AnyStore) (u : Tree) :
    Prop :=
  b.Offered name [e.path] (fun c => t.stat e.path = .ok (.file c))
    (fun kinds => if e.count ≤ 1 ∧ shut e.path.key.tail = false then update kinds e.path.key none else kinds)
    t taken b' u

/-- What handing over a chunk of a file store comes to. -/
inductive Handed (s : FileStore) (l : Layout) (name : Bytes) (b : AnyStore) (t : Tree) :
    Bool → FileStore → AnyStore → Tree → Prop
  | missing {u : Tree} (hu : u = t) : Handed s l name b t false s b u
  | refused (hname : name ≠ []) (e : Entry) (hfind : s.mode.find (l.place name) t = .ok (some e))
      {b' : AnyStore} {u : Tree} (hoffers : Offers b name e t false b' u) :
      Handed s l name b t false s b' u
  /-- The sink has taken the file of the last reference. -/
  | emptied (hname : name ≠ []) (e : Entry) (file content : Bytes)
      (hfind : s.mode.find (l.place name) t = .ok (some e))
      (found : s.mode.Found (l.place name) t e file content)
      (hstat : t.stat e.path = .ok (.file content)) (hlast : e.count = 1)
      (hopen : shut e.path.key.tail = false) {b' : AnyStore}
      {kinds : Key → Option Kind} (htook : AnyStore.Took name content t b b' kinds) {u : Tree}
      (hu : u.kind? = update kinds e.path.key none) :
      Handed s l name b t true { s with tracker := s.tracker.remove content.length } b' u
  /-- The sink has taken the chunk, but the reference to it could not be dropped. -/
  | stuck (hname : name ≠ []) (e : Entry) (hfind : s.mode.find (l.place name) t = .ok (some e))
      {b' : AnyStore} {v : Workspace} (hoffers : Offers b name e t true b' v.tree)
      (hsame : Untouched l.root.key t.kind? v.tree.kind?) (err : StoreError)
      (hletGo : (s.letGo name (l.place name) e).run v = (.error err, v)) :
      Handed s l name b t false s b' v.tree
  /-- The sink says that it has taken the chunk, but the file is still there: the sink keeps no chunks, or
  could not remove the file. -/
  | kept (hname : name ≠ []) (e : Entry) (hfind : s.mode.find (l.place name) t = .ok (some e))
      (hmode : s.mode = .plain) (hleft : b.mode? = none ∨ shut e.path.key.tail = true) {b' : AnyStore}
      {u : Tree} (hoffers : Offers b name e t true b' u) (hsame : Untouched l.root.key t.kind? u.kind?) :
      Handed s l name b t true s b' u
  /-- The sink has taken the chunk, and the reference to it was dropped. -/
  | dropped (hname : name ≠ []) (e : Entry) (hfind : s.mode.find (l.place name) t = .ok (some e))
      {s' : FileStore} {b' : AnyStore} {v u : Tree} (hoffers : Offers b name e t true b' v)
      (hsame : Untouched l.root.key t.kind? v.kind?) (hdropped : Dropped s l name v s' u.kind?) :
      Handed s l name b t true s' b' u

/-- Letting go of a chunk fails and changes nothing, or finds no file of it, or has nothing to do, or drops one
reference. -/
theorem letGo_cases (hname : name ≠ []) (hroot : l.root ≠ .blank) {r : Except StoreError FileStore}
    (hrun : (s.letGo name (l.place name) e).run v = (r, x)) :
    (∃ err, r = .error err ∧ x = v) ∨
      (s.mode.find (l.place name) v.tree = .ok none ∧ r = .ok { s with tracker := s.tracker.remove e.size } ∧
        x.tree = v.tree) ∨
      (s.mode = .plain ∧ r = .ok s ∧ x.tree = v.tree) ∨
      ∃ s', r = .ok s' ∧ Dropped s l name v.tree s' x.tree.kind? := by
  have h := letGo_run s name (l.place name) e v
  rw [hrun] at h
  cases h with
  | unreadable f hfind => exact Or.inl ⟨_, rfl, rfl⟩
  | refused e' hfind hmode err u hrelease =>
    exact Or.inl ⟨_, rfl, (release_error hname hroot hfind hrelease).2⟩
  | gone hnone u hlast => exact Or.inr (Or.inl ⟨hnone, rfl, by rw [hlast.tree, Workspace.commits_nil]⟩)
  | kept e' hfind hmode u hlast =>
    exact Or.inr (Or.inr (Or.inl ⟨hmode, rfl, by rw [hlast.tree, Workspace.commits_nil]⟩))
  | dropped e' hfind hmode n u y hrelease hn hlast =>
    refine Or.inr (Or.inr (Or.inr ⟨s, rfl, ?_⟩))
    rw [hlast.tree, Workspace.commits_nil]
    rcases dropped_of_release hname hroot hfind hrelease with ⟨-, hd⟩ | ⟨h0, -⟩
    · exact hd
    · exact absurd h0 hn
  | removed e' hfind hmode u y hrelease hlast =>
    refine Or.inr (Or.inr (Or.inr ⟨_, rfl, ?_⟩))
    rw [hlast.tree, Workspace.commits_nil]
    rcases dropped_of_release hname hroot hfind hrelease with ⟨h0, -⟩ | ⟨-, hd⟩
    · exact absurd rfl h0
    · exact hd

theorem letGo_after {before : Entry} (hname : name ≠ []) (hlead : t.leadsToDir l.root = true)
    (hfind : s.mode.find (l.place name) t = .ok (some before))
    (hsame : Untouched l.root.key t.kind? v.tree.kind?) {r : Except StoreError FileStore}
    (hrun : (s.letGo name (l.place name) e).run v = (r, x)) :
    (∃ err, r = .error err ∧ x = v) ∨ (s.mode = .plain ∧ r = .ok s ∧ x.tree = v.tree) ∨
      ∃ s', r = .ok s' ∧ Dropped s l name v.tree s' x.tree.kind? := by
  have hroot := Layout.root_ne_blank hlead
  rcases letGo_cases hname hroot hrun with herr | ⟨hnone, -⟩ | hrest
  · exact Or.inl herr
  · exfalso
    obtain ⟨file, old, found⟩ :=
      Mode.find_eq_some (l.dir_place_ne_blank hroot name) (l.isStem_place hname) hfind
    refine Layout.lacks_of_find (Tree.leadsToDir_mono hlead hsame.dir) hname hnone file _ old found.isFile ?_
    exact (hsame.file _ _ (root_suffix_file l name file)).mpr found.kind
  · exact Or.inr hrest

theorem moveTo_apply {τ : Type} [Sink τ] (s : FileStore) (name : Bytes) (sink : τ) (w : Workspace) :
    ChunkStore.moveTo s name sink w = match s.moveTo name sink w with
      | ((.ok after, sink'), v) => ((true, after, sink'), v)
      | ((.error err, sink'), v) =>
        ((false, s, sink'), (Action.report (.ofError .moveTo name err) v).2) := by
  simp only [ChunkStore.moveTo, Action.bind_apply]
  rcases s.moveTo name sink w with ⟨⟨err | after, sink'⟩, v⟩ <;> rfl

/-- Hands over a chunk that has been found. -/
def handOver {τ : Type} [Sink τ] (s : FileStore) (name : Bytes) (location : Location) (entry : Entry) (sink : τ) :
    Action (Bool × FileStore × τ) := do
  let (taken, sink) ← Sink.storeFile sink name entry.path (entry.count ≤ 1)
  if taken then
    match ← (s.letGo name location entry).reported .moveTo name with
    | some after => return (true, after, sink)
    | none => return (false, s, sink)
  else
    Action.report (.ofError .moveTo name (.refused name))
    return (false, s, sink)

theorem moveTo_eq {τ : Type} [Sink τ] (s : FileStore) (name : Bytes) (sink : τ) :
    ChunkStore.moveTo s name sink = (do
      match ← (s.require name).reported .moveTo name with
      | none => return (false, s, sink)
      | some (location, entry) => s.handOver name location entry sink) := by
  funext w
  rw [moveTo_apply]
  unfold moveTo handOver Attempt.reported
  simp only [Action.bind_apply]
  rcases (s.require name).run w with ⟨err | ⟨location, e⟩, x⟩
  · rfl
  · simp only [Attempt.outcome, Action.pure_apply, Action.bind_apply]
    rcases Sink.storeFile sink name e.path (e.count ≤ 1) x with ⟨⟨_ | _, sink'⟩, y⟩
    · rfl
    · simp only [Action.bind_apply, if_true]
      rcases (s.letGo name location e).run y with ⟨err | after, z⟩ <;> rfl

/-- **Handing a chunk over.** -/
theorem moveTo_handed (hl : s.layout? = some l) (h : s.InOrder tidy l w.tree) (hb : b.InOrder tidy w.tree)
    (hclear : b.ClearOf l.root.key) (hrun : ChunkStore.moveTo s name b w = ((taken, s', b'), x)) :
    Handed s l name b w.tree taken s' b' x.tree := by
  have hroot := Layout.root_ne_blank h.lead
  have hmove := moveTo_run hl name b w
  rw [moveTo_apply] at hrun
  have hoffers : ∀ e, name ≠ [] → s.mode.find (l.place name) w.tree = .ok (some e) → ∀ b' taken v,
      Sink.storeFile b name e.path (e.count ≤ 1) w = ((taken, b'), v) →
        Offers b name e w.tree taken b' v.tree := by
    intro e hname hfind b' taken v hsink
    have h := AnyStore.offered_storeFile hb.rooted (fun p hp => (hclear p hp).1.symm.not_suffix
      (entry_below hname hroot hfind)) hsink
    simpa only [Offers, Bool.and_eq_true, decide_eq_true_eq, Bool.not_eq_true'] using h
  rcases hm : s.moveTo name b w with ⟨⟨r, b''⟩, y⟩
  rw [hm] at hmove hrun
  cases hmove with
  | missing err hrequire =>
    cases hrun
    exact .missing rfl
  | refused hname e hfind b'' y hsink =>
    have hrefused := hoffers e hname hfind _ _ _ hsink
    cases hrun
    exact .refused hname e hfind hrefused
  | taken hname e hfind b'' v hsink r y hletGo =>
    have hoffer := hoffers e hname hfind _ _ _ hsink
    obtain ⟨file, old, found⟩ :=
      Mode.find_eq_some (l.dir_place_ne_blank hroot name) (l.isStem_place hname) hfind
    -- the file is still there
    have hstay : Untouched l.root.key w.tree.kind? v.tree.kind? →
        (s.mode = .plain → b.mode? = none ∨ shut e.path.key.tail = true) →
        Handed s l name b w.tree taken s' b' x.tree := by
      intro hsame hplain
      rcases letGo_after hname h.lead hfind hsame hletGo with ⟨err, rfl, rfl⟩ | ⟨hmode, rfl, htree⟩ |
        ⟨after, rfl, hdropped⟩
      · have hstuck := Handed.stuck hname e hfind hoffer hsame err hletGo
        cases hrun
        exact hstuck
      · cases hrun
        exact .kept hname e hfind hmode (hplain hmode) (htree ▸ hoffer) (htree ▸ hsame)
      · cases hrun
        exact .dropped hname e hfind hoffer hsame hdropped
    cases id hoffer with
    | fixed hfixed hv =>
      subst hfixed
      exact hstay (hv ▸ .refl _ _) fun _ => Or.inl rfl
    | took _ hstat htook hv haside =>
      have hkinds := htook.untouched hname hclear
      by_cases hlast : e.count ≤ 1 ∧ shut e.path.key.tail = false
      · rw [if_pos hlast] at hv
        have hgone := find_after_handover hname hroot hfind h.accounts.single hkinds.toSpared hv
        obtain ⟨rfl, hstill⟩ := letGo_gone hgone hletGo
        have htree : y.tree = v.tree := hstill.tree
        have hone : e.count = 1 := count_of_not_shared found fun hc => absurd hc.2 (by omega)
        have hold : old = _ := Kind.file.inj (Option.some.inj (found.kind.symm.trans
          (by rw [← found.key (l.isStem_place hname)]; exact kind?_of_stat hstat)))
        subst hold
        cases hrun
        rw [found.size]
        exact .emptied hname e file _ hfind found hstat hone hlast.2 htook (by rw [htree, hv])
      · rw [if_neg hlast] at hv
        refine hstay (hv ▸ hkinds) fun hmode => Or.inr ?_
        have hcarries := found.isFile.carries
        rw [hmode] at hcarries
        simpa [Nat.le_of_eq hcarries] using hlast

end FileStore

/-! ### Moves out of memory -/

namespace MemoryStore

variable {m m' : MemoryStore} {name : Bytes} {b b' : AnyStore} {taken : Bool} {tidy : Prop} {w x : Workspace}

/-- What handing over a chunk of a memory store comes to. -/
inductive Handed (m : MemoryStore) (name : Bytes) (b : AnyStore) (t : Tree) :
    Bool → MemoryStore → AnyStore → Tree → Prop
  | missing {u : Tree} (hu : u = t) : Handed m name b t false m b u
  | refused (chunk : Held) (hfind : m.find? name = some chunk) {b' : AnyStore} {u : Tree}
      (hoffered : b.Offered name [] (· = chunk.content) id t false b' u) : Handed m name b t false m b' u
  | deleted (chunk : Held) (hfind : m.find? name = some chunk) {b' : AnyStore} {u : Tree}
      (hoffered : b.Offered name [] (· = chunk.content) id t true b' u) :
      Handed m name b t true (m.delete name) b' u

/-- **Handing a chunk over.** -/
theorem moveTo_handed (hb : b.Rooted)
    (hrun : ChunkStore.moveTo m name b w = ((taken, m', b'), x)) :
    Handed m name b w.tree taken m' b' x.tree := by
  simp only [ChunkStore.moveTo, moveTo, get, Action.bind_apply] at hrun
  rcases hfind : m.find? name with _ | chunk
  · rw [hfind] at hrun
    cases hrun
    exact .missing rfl
  · rw [hfind] at hrun
    rcases hsink : Sink.store b name chunk.content w with ⟨⟨_ | _, b''⟩, y⟩
    all_goals
      have hoffered := AnyStore.offered_store hb hsink
      simp only [Action.bind_apply, hsink] at hrun
      cases hrun
    · exact .refused chunk hfind hoffered
    · exact .deleted chunk hfind hoffered

end MemoryStore

/-! ### Moves between stores of any kind -/

namespace AnyStore

variable {a a' b b' : AnyStore} {name : Bytes} {taken : Bool} {tidy : Prop} {t u v : Tree} {w x : Workspace}

/-- The work of two stores on one chunk: both stay in order, and a directory beside both is left alone. -/
structure WorkedBoth (tidy : Prop) (a b : AnyStore) (t : Tree) (a' b' : AnyStore) (u : Tree) : Prop where
  root : a'.root? = a.root?
  sinkRoot : b'.root? = b.root?
  inOrder : a'.Bounded u → a'.InOrder tidy u
  sinkInOrder : b'.Bounded u → b'.InOrder tidy u
  others : ∀ d, a.ClearOf d → b.ClearOf d → Untouched d t.kind? u.kind?
  proper : Proper t.kind? → Proper u.kind?

namespace WorkedBoth

theorem of_offered {outside : List Path} {offer : Bytes → Prop}
    {rest : (Key → Option Kind) → Key → Option Kind}
    (hb : b.InOrder tidy t) (hself : ∀ q, b.root? = some q → q.Avoids q.key) (hshare : b.CanShare t name)
    (hout : ∀ q, b.root? = some q → ∀ p ∈ outside, ¬ q.key <:+ p.key)
    (hfar : ∀ d, a.ClearOf d → ∀ p ∈ outside, ¬ d <:+ p.key)
    (h : b.Offered name outside offer rest t taken b' v) (hroot : a'.root? = a.root?)
    (hbeside : ∀ q, b.root? = some q → Untouched q.key v.kind? u.kind?)
    (hothers : ∀ d, a.ClearOf d → Untouched d v.kind? u.kind?) (hproper : Proper v.kind? → Proper u.kind?)
    (ha' : a'.Bounded u → a'.InOrder tidy u) : WorkedBoth tidy a b t a' b' u where
  root := hroot
  sinkRoot := h.root
  inOrder := ha'
  sinkInOrder := h.inOrder hb hself hshare hout hbeside
  others d had hbd := (h.untouched hbd (hfar d had)).trans (hothers d had)
  proper ht := hproper (h.proper ht)

end WorkedBoth

end AnyStore

namespace FileStore

open AnyStore (WorkedBoth)

variable {s s' : FileStore} {l : Layout} {name content : Bytes} {tidy : Prop} {b b' : AnyStore}
  {taken : Bool} {t u : Tree} {e : Entry} {kinds : Key → Option Kind}

theorem offers_of_emptied (hname : name ≠ []) (hclear : b.ClearOf l.root.key)
    (hbelow : l.root.key <:+ e.path.key) (hstat : t.stat e.path = .ok (.file content)) (hlast : e.count = 1)
    (hopen : shut e.path.key.tail = false) (htook : AnyStore.Took name content t b b' kinds)
    (hu : u.kind? = update kinds e.path.key none) :
    Offers b name e t true b' u := by
  have hgone : e.count ≤ 1 ∧ shut e.path.key.tail = false := ⟨hlast.le, hopen⟩
  have hfile : kinds e.path.key = some (.file content) :=
    ((htook.untouched hname hclear).file _ _ hbelow).mpr (kind?_of_stat hstat)
  refine .took hname hstat htook (by rw [if_pos hgone]; exact hu) ?_
  have haside : AnyStore.Aside [e.path] kinds (if true = true then update kinds e.path.key none else kinds) :=
    AnyStore.aside_offered hfile
  rw [hu]
  exact haside

omit [FileSystem] in
theorem InOrder.emptied (h : s.InOrder tidy l t) (hname : name ≠ []) {file : Bytes}
    (found : s.mode.Found (l.place name) t e file content) (hstat : t.stat e.path = .ok (.file content))
    (hsame : Untouched l.root.key t.kind? kinds) (hu : u.kind? = update kinds e.path.key none) :
    InOrder tidy { s with tracker := s.tracker.remove content.length } l u := by
  have hkey := found.key (l.isStem_place hname)
  have hfile := (hsame.file _ _ (root_suffix_file l name file)).mpr found.kind
  have hlong := (Path.check_eq_ok_iff.mp (Tree.stat_eq_ok_iff.mp hstat).1).2.2
  rw [found.path] at hlong
  have hdir : ∀ k, t.kind? k = some .dir → u.kind? k = some .dir := by
    intro k hk
    have hk := hsame.dir k hk
    have hne : k ≠ e.path.key := by
      rintro rfl
      rw [hkey, hfile] at hk
      cases hk
    rw [hu, Function.update_of_ne hne, hk]
  refine ⟨Tree.leadsToDir_mono h.lead hdir, ?_, fun ht => ?_⟩
  · rw [hu, hkey]
    exact (h.accounts.congr hsame.file).forget hname found.isFile hlong hfile
  · intro n k hk hn
    refine h.tidy ht |>.untouched hsame n k hk ?_
    rw [hu, Function.update_apply] at hn
    split at hn
    · cases hn
    · exact hn

/-- **A move out of a file store.** -/
theorem Handed.worked (h : Handed s l name b t taken s' b' u) (hl : s.layout? = some l)
    (hs : s.InOrder tidy l t) (hself : l.root.Avoids l.root.key) (hb : b.InOrder tidy t)
    (hbself : ∀ q, b.root? = some q → q.Avoids q.key) (hbeside : ∀ q, b.root? = some q → q.Beside l.root)
    (hshare : b.CanShare t name) : WorkedBoth tidy (.file s) b t (.file s') b' u := by
  have hroot := Layout.root_ne_blank hs.lead
  have hclear : b.ClearOf l.root.key := fun q hq => ⟨(hbeside q hq).apart, (hbeside q hq).avoids⟩
  -- the offered file lies below the root, where no other store looks
  have hout : ∀ e, name ≠ [] → s.mode.find (l.place name) t = .ok (some e) →
      ∀ q, b.root? = some q → ∀ p ∈ [e.path], ¬ q.key <:+ p.key := by
    intro e hname hfind q hq p hp
    rw [List.mem_singleton.mp hp]
    exact (hbeside q hq).apart.symm.not_suffix (entry_below hname hroot hfind)
  have hfar : ∀ e, name ≠ [] → s.mode.find (l.place name) t = .ok (some e) →
      ∀ d, (AnyStore.file s).ClearOf d → ∀ p ∈ [e.path], ¬ d <:+ p.key := by
    intro e hname hfind d hd p hp
    rw [List.mem_singleton.mp hp]
    exact (hd _ (root_eq hl)).1.not_suffix (entry_below hname hroot hfind)
  cases h with
  | missing hu =>
    subst hu
    exact ⟨rfl, rfl, fun _ => inOrder_of hl hs, fun _ => hb, fun _ _ _ => .refl _ _, id⟩
  | refused hname e hfind hoffers =>
    exact .of_offered hb hbself hshare (hout e hname hfind) (hfar e hname hfind) hoffers rfl
      (fun _ _ => .refl _ _) (fun _ _ => .refl _ _) id
      fun _ => inOrder_of hl (hs.untouched (hoffers.untouched_of_refused hclear))
  | emptied hname e file content hfind found hstat hlast hopen htook hu =>
    have hoffers := offers_of_emptied hname hclear (entry_below hname hroot hfind) hstat hlast hopen htook hu
    refine .of_offered hb hbself hshare (hout e hname hfind) (hfar e hname hfind) hoffers rfl
      (fun _ _ => .refl _ _) (fun _ _ => .refl _ _) id fun _ => ?_
    exact inOrder_of (s := { s with tracker := s.tracker.remove content.length }) hl
      (hs.emptied hname found hstat (htook.untouched hname hclear) hu)
  | stuck hname e hfind hoffers hsame | kept hname e hfind _ _ hoffers hsame =>
    exact .of_offered hb hbself hshare (hout e hname hfind) (hfar e hname hfind) hoffers rfl
      (fun _ _ => .refl _ _) (fun _ _ => .refl _ _) id fun _ => inOrder_of hl (hs.untouched hsame)
  | dropped hname e hfind hoffers hsame hdropped =>
    have hlayout := hdropped.same.1
    have hframe := hdropped.frame hname
    have hleft : ∀ d, (AnyStore.file s).ClearOf d → Untouched d _ u.kind? := fun d hd =>
      hframe.untouched (hd _ (root_eq hl)).1
        (Layout.avoids_place (hd _ (root_eq hl)).2 (hd _ (root_eq hl)).1 name)
    refine .of_offered hb hbself hshare (hout e hname hfind) (hfar e hname hfind) hoffers
      (root_congr hlayout) (fun q hq => hleft _ fun p hp => ?_) hleft hframe.proper fun _ => ?_
    · rw [root_eq hl] at hp
      cases hp
      exact ⟨(hbeside q hq).apart.symm, (hbeside q hq).avoided⟩
    · exact inOrder_of (hlayout.trans hl) ((hs.untouched hsame).dropped hself hname hdropped rfl)

end FileStore

namespace MemoryStore

variable {m m' : MemoryStore} {name : Bytes} {b b' : AnyStore} {taken : Bool} {tidy : Prop} {t u : Tree}

/-- **A move out of a memory store.** -/
theorem Handed.worked (h : Handed m name b t taken m' b' u) (hm : m.Sound) (hb : b.InOrder tidy t)
    (hbself : ∀ q, b.root? = some q → q.Avoids q.key) (hshare : b.CanShare t name) :
    AnyStore.WorkedBoth tidy (.memory m) b t (.memory m') b' u := by
  cases h with
  | missing hu =>
    subst hu
    exact ⟨rfl, rfl, fun _ => hm, fun _ => hb, fun _ _ _ => .refl _ _, id⟩
  | refused chunk hfind hoffered =>
    exact .of_offered hb hbself hshare (by simp) (by simp) hoffered rfl (fun _ _ => .refl _ _)
      (fun _ _ => .refl _ _) id fun _ => hm
  | deleted chunk hfind hoffered =>
    exact .of_offered hb hbself hshare (by simp) (by simp) hoffered rfl (fun _ _ => .refl _ _)
      (fun _ _ => .refl _ _) id fun _ => hm.deleted (m.delete_spec name)

end MemoryStore

namespace AnyStore

variable {a b : AnyStore} {tidy : Prop} {w : Workspace}

theorem moveTo_file (s : FileStore) (name : Bytes) (b : AnyStore) (w : Workspace) :
    ChunkStore.moveTo (AnyStore.file s) name b w =
      (((ChunkStore.moveTo s name b w).1.1, .file (ChunkStore.moveTo s name b w).1.2.1,
        (ChunkStore.moveTo s name b w).1.2.2), (ChunkStore.moveTo s name b w).2) := rfl

theorem moveTo_memory (m : MemoryStore) (name : Bytes) (b : AnyStore) (w : Workspace) :
    ChunkStore.moveTo (AnyStore.memory m) name b w =
      (((ChunkStore.moveTo m name b w).1.1, .memory (ChunkStore.moveTo m name b w).1.2.1,
        (ChunkStore.moveTo m name b w).1.2.2), (ChunkStore.moveTo m name b w).2) := rfl

theorem moveTo_fixed (f : FixedStore) (name : Bytes) (b : AnyStore) (w : Workspace) :
    ChunkStore.moveTo (AnyStore.fixed f) name b w = ((f.answer, .fixed f, b), w) := rfl

/-- **A move.**  It leaves both stores in order. -/
theorem moveTo_worked (ha : a.InOrder tidy w.tree) (hself : ∀ p, a.root? = some p → p.Avoids p.key)
    (hb : b.InOrder tidy w.tree) (hbself : ∀ q, b.root? = some q → q.Avoids q.key)
    (hbeside : ∀ p q, a.root? = some p → b.root? = some q → q.Beside p) {name : Bytes}
    (hshare : b.CanShare w.tree name) :
    WorkedBoth tidy a b w.tree (ChunkStore.moveTo a name b w).1.2.1 (ChunkStore.moveTo a name b w).1.2.2
      (ChunkStore.moveTo a name b w).2.tree := by
  cases a with
  | file s =>
    rw [moveTo_file]
    rcases hl : s.layout? with _ | l
    · rw [FileStore.moveTo_apply, FileStore.moveTo_uninitialized hl]
      exact ⟨rfl, rfl, fun _ => ha, fun _ => hb, fun _ _ _ => .refl _ _, id⟩
    · have hroot := FileStore.root_eq hl
      exact (FileStore.moveTo_handed hl (ha l hl) hb
        (fun q hq => ⟨(hbeside _ q hroot hq).apart, (hbeside _ q hroot hq).avoids⟩) rfl).worked hl (ha l hl)
          (hself _ hroot) hb hbself (fun q hq => hbeside _ q hroot hq) hshare
  | memory m =>
    rw [moveTo_memory]
    exact (MemoryStore.moveTo_handed hb.rooted rfl).worked ha hb hbself hshare
  | fixed f =>
    rw [moveTo_fixed]
    exact ⟨rfl, rfl, fun _ => ha, fun _ => hb, fun _ _ _ => .refl _ _, id⟩

end AnyStore

end ContentStore
