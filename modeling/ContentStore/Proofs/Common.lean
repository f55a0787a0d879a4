import ContentStore.Proofs.Moves

/-!
# A directory in common

Stores may share a root, in one mode or in both, and with different numbers of levels.  Whatever they do there,
what lies below the root stays readable for all of them (`Common`): no directory holds two files of one chunk,
the files of chunks are named as a store names them, and nothing but digits names a directory.

* `Took.common`, `Dropped.common`: one reference more or less;
* `Imprint.common`: any call of a store that works there or beside;
* `Offered.common`: any chunk that such a store is offered.
-/

namespace ContentStore

open Function (update)

/-- The files of chunks below a directory have the names that stores give them. -/
def Canonical (d : Key) (kinds : Key → Option Kind) : Prop :=
  ∀ (m : Mode) (k : Key) (stem file c : Bytes) (n : Nat), d <:+ k → isStem stem = true →
    m.IsFile stem n file → kinds (file :: k) = some (.file c) → file = m.fileName stem n

/-- All files below a directory are files of chunks, under names that stores give them. -/
def Named (d : Key) (kinds : Key → Option Kind) : Prop :=
  ∀ (k : Key) (file c : Bytes), d <:+ k → kinds (file :: k) = some (.file c) →
    ∃ (m : Mode) (stem : Bytes) (n : Nat), isStem stem = true ∧ m.Carries n ∧ file = m.fileName stem n

/-- What stores that share a directory find there, whatever their modes. -/
structure Common (d : Key) (kinds : Key → Option Kind) : Prop where
  proper : Proper kinds
  tidy : Tidy d kinds
  single : ∀ m : Mode, m.Single d kinds
  named : Named d kinds

namespace Common

variable {d e k : Key} {kinds kinds' : Key → Option Kind} {t u : Tree} {l : Layout} {name : Bytes}

theorem canonical (h : Common d kinds) : Canonical d kinds := by
  intro m k stem file c n hk hs hfile hf
  obtain ⟨m', stem', n', hs', hcarries, rfl⟩ := h.named k file c hk hf
  obtain ⟨rfl, rfl⟩ := Mode.Names.inj hs hs' hfile.names (m'.names_fileName stem' n')
  rw [(hfile.inj (Mode.isFile_fileName stem hcarries)).2]

theorem of_empty (hproper : Proper kinds) (h : ∀ k, d <:+ k → k ≠ d → kinds k = none) : Common d kinds := by
  have hnone : ∀ n k, d <:+ k → kinds (n :: k) = none := by
    intro n k hk
    refine h _ (hk.trans (List.suffix_cons n k)) fun e => ?_
    have hlen := hk.length_le
    rw [← e, List.length_cons] at hlen
    omega
  refine ⟨hproper, fun n k hk hdir => ?_, fun m k stem f g i j x y hk _ _ _ hf => ?_,
    fun k f c hk hf => ?_⟩
  · rw [hnone n k hk] at hdir
    cases hdir
  · rw [hnone f k hk] at hf
    cases hf
  · rw [hnone f k hk] at hf
    cases hf

theorem fewer (h : Common d kinds) (hproper : Proper kinds') (htidy : Tidy d kinds')
    (hsub : ∀ k c, d <:+ k → kinds' k = some (.file c) → kinds k = some (.file c)) : Common d kinds' where
  proper := hproper
  tidy := htidy
  single m := (h.single m).mono hsub
  named k file c hk hf := h.named k file c hk (hsub _ _ (hk.trans (List.suffix_cons _ _)) hf)

theorem untouched (h : Common d kinds) (hu : Untouched d kinds kinds') (hproper : Proper kinds') :
    Common d kinds' :=
  h.fewer hproper (h.tidy.untouched hu) fun k c hk => (hu.file k c hk).mp

theorem pruned (h : Common d t.kind?) (hu : Pruned e t u) : Common d u.kind? := by
  refine h.fewer (hu.proper h.proper) (h.tidy.pruned hu) fun k c _ hk => ?_
  rcases hu k with same | ⟨hnone, -⟩
  · rw [← same, hk]
  · rw [hnone] at hk
    cases hk

theorem remove (h : Common d kinds) (k : Key) : Common d (update kinds k none) := by
  refine h.fewer (h.proper.update fun hk => absurd rfl hk) (fun n j hj hdir => ?_) fun j c _ hj => ?_
  · rw [Function.update_apply] at hdir
    split at hdir
    · cases hdir
    · exact h.tidy n j hj hdir
  · rw [Function.update_apply] at hj
    split at hj
    · cases hj
    · exact hj

theorem grown (h : Common d t.kind?) (hd : l.root.key = d) (hself : l.root.Avoids d)
    (hu : Grown (l.place name).dir t u) : Common d u.kind? := by
  subst hd
  have hframe := Frame.of_grown hu l.root.key
  exact h.fewer (hframe.proper h.proper) (hframe.tidy hself h.tidy) fun k c _ => (hu.file_iff k c).mp

theorem put (h : Common d kinds) {m : Mode} {stem : Bytes} {n : Nat} (hs : isStem stem = true)
    (hcarries : m.Carries n)
    (hno : ∀ other i c, m.IsFile stem i other → kinds (other :: k) ≠ some (.file c)) (c : Bytes) :
    Common d (update kinds (m.fileName stem n :: k) (some (.file c))) where
  proper := h.proper.update fun _ x hx => Option.some.inj hx ▸ (m.isName_fileName hs n).1
  tidy x j hj hdir := by
    rw [Function.update_apply] at hdir
    split at hdir
    · cases hdir
    · exact h.tidy x j hj hdir
  single m' := (h.single m').put_any hs (Mode.isFile_fileName stem hcarries) hno c
  named j file c' hj hc := by
    rw [Function.update_apply] at hc
    split at hc
    · next e => exact ⟨m, stem, n, hs, hcarries, (List.cons.inj e).1⟩
    · exact h.named j file c' hj hc

end Common

/-! ### Roots in the directory or beside it -/

/-- A path leads to a directory or to one beside it, and passes nothing below it. -/
structure Path.Sides (d : Key) (p : Path) : Prop where
  avoids : p.Avoids d
  key : p.key = d ∨ p.key.Apart d

namespace FileStore

variable {s s' : FileStore} {l : Layout} {name content : Bytes} {d : Key} {t u : Tree}
  {kinds : Key → Option Kind} {outside : List Path} {named stored : Option Bytes}

/-- A reference to a chunk can be counted if one more reference to what is held can. -/
theorem countable_of_canShare (hl : s.layout? = some l) (hroot : l.root ≠ .blank) (hname : name ≠ [])
    (hshare : (AnyStore.file s).CanShare t name) (e : Entry) (_ : s.mode = .counted)
    (hfind : s.mode.find (l.place name) t = .ok (some e)) : e.count + 1 < Decimal.wordLimit := by
  obtain ⟨file, old, found⟩ :=
    Mode.find_eq_some (l.dir_place_ne_blank hroot name) (l.isStem_place hname) hfind
  exact hshare _ (held?_of_found hl hname hfind found)

/-- **Taking a chunk in** keeps what stores have in common. -/
theorem Took.common [FileSystem] (h : Common d t.kind?) (hl : s.layout? = some l) (hside : l.root.Sides d)
    (hlead : t.leadsToDir l.root = true) (hname : name ≠ []) (hshare : (AnyStore.file s).CanShare t name)
    (htook : Took s l name content t s' kinds) : Common d kinds := by
  have hroot := Layout.root_ne_blank hlead
  have hs := l.isStem_place hname
  rcases hside.key with rfl | hapart
  · cases htook with
    | kept => exact h
    | recounted e file old hmode hfind found hold admits =>
      have hcarries : s.mode.Carries (e.count + 1) := by
        rw [hmode]
        exact ⟨Nat.succ_pos _, countable_of_canShare hl hroot hname hshare e hmode hfind⟩
      exact (h.remove _).put hs hcarries (lacks_of_remove hname (h.single _) found.isFile found.kind) old
    | added hfind hroom w v htree hdirs grown admits =>
      refine (h.grown rfl hside.avoids grown).put hs s.mode.carries_one (fun other i c hother hk => ?_) content
      exact Layout.lacks_of_find hlead hname hfind other i c hother ((grown.file_iff _ _).mp hk)
  · have hframe := htook.frame hname
    exact h.untouched (hframe.untouched hapart (Layout.avoids_place hside.avoids hapart name))
      (hframe.proper h.proper)

/-- **Dropping a reference** keeps what stores have in common. -/
theorem Dropped.common (h : Common d t.kind?) (hside : l.root.Sides d) (hname : name ≠ [])
    (hdropped : Dropped s l name t s' kinds) : Common d kinds := by
  have hs := l.isStem_place hname
  rcases hside.key with rfl | hapart
  · cases hdropped with
    | absent => exact h
    | recounted e file old hmode hgt hfind found =>
      exact (h.remove _).put hs (found.isFile.carries_fewer hmode hgt)
        (lacks_of_remove hname (h.single _) found.isFile found.kind) old
    | removed => exact h.remove _
  · have hframe := hdropped.frame hname
    exact h.untouched (hframe.untouched hapart (Layout.avoids_place hside.avoids hapart name))
      (hframe.proper h.proper)

theorem grown_common (h : Common d t.kind?) (hside : l.root.Sides d) (hu : Grown (l.place name).dir t u) :
    Common d u.kind? := by
  rcases hside.key with hd | hapart
  · exact h.grown hd hside.avoids hu
  · have hframe := Frame.of_grown hu l.root.key
    exact h.untouched (hframe.untouched hapart (Layout.avoids_place hside.avoids hapart name))
      (hframe.proper h.proper)

end FileStore

theorem AnyStore.Aside.common {d : Key} {outside : List Path} {t u : Key → Option Kind} (h : Common d t)
    (haside : AnyStore.Aside outside t u) (hout : ∀ q ∈ outside, ¬ d <:+ q.key) : Common d u :=
  h.untouched (haside.untouched hout) (haside.proper h.proper)

theorem AnyStore.Aside.dir {outside : List Path} {t u : Key → Option Kind} (haside : AnyStore.Aside outside t u)
    {k : Key} (hk : t k = some .dir) : u k = some .dir := by
  cases haside with
  | same => exact hk
  | changed q _ hdir kind =>
    have hne : k ≠ q.key := fun e => hdir (e ▸ hk)
    rw [Function.update_of_ne hne, hk]

variable [FileSystem]

namespace FileStore

variable {s s' : FileStore} {l : Layout} {name content : Bytes} {d : Key} {t u : Tree}
  {kinds : Key → Option Kind} {outside : List Path} {named stored : Option Bytes}

/-- **Any call** of a store that works there or beside keeps what stores have in common. -/
theorem Imprint.common (himprint : Imprint s l outside named stored t s' u) (h : Common d t.kind?)
    (hl : s.layout? = some l) (hside : l.root.Sides d) (hlead : t.leadsToDir l.root = true)
    (hout : ∀ q ∈ outside, ¬ d <:+ q.key)
    (hshare : ∀ name ∈ stored, (AnyStore.file s).CanShare t name) : Common d u.kind? := by
  cases himprint with
  | aside _ _ _ haside => exact haside.common h hout
  | grown _ hu => exact grown_common h hside hu
  | took hname _ hstored htook haside =>
    exact haside.common (htook.common h hl hside hlead hname (hshare _ hstored)) hout
  | dropped hname _ hdropped => exact hdropped.common h hside hname
  | pruned _ hu => exact h.pruned hu

/-- A path that passes nothing below the root of a store leads where it led, whatever the store does. -/
theorem Imprint.lead (himprint : Imprint s l outside named stored t s' u) {p : Path} (hp : p.Avoids l.root.key)
    (hlead : t.leadsToDir p = true) : u.leadsToDir p = true := by
  cases himprint with
  | aside _ _ _ haside => exact Tree.leadsToDir_mono hlead fun _ => haside.dir
  | grown _ hu => exact Tree.leadsToDir_mono hlead fun _ => hu.dir
  | took hname _ _ htook haside =>
    exact Tree.leadsToDir_mono hlead fun k hk => haside.dir ((htook.frame hname).dir k hk)
  | dropped hname _ hdropped => exact Tree.leadsToDir_mono hlead (hdropped.frame hname).dir
  | pruned _ hu => exact hu.leadsToDir hp hlead

end FileStore

/-! ### Chunks that are offered -/

namespace AnyStore

variable {a a' b b' : AnyStore} {name : Bytes} {d : Key} {t u : Tree} {taken : Bool} {outside : List Path}
  {offer : Bytes → Prop} {rest : (Key → Option Kind) → Key → Option Kind}

/-- **A chunk that a store is offered** from elsewhere keeps what stores have in common, and leaves all
directories where they are. -/
theorem Offered.common (h : Common d t.kind?) (hoffered : a.Offered name outside offer rest t taken a' u)
    (hside : ∀ p, a.root? = some p → p.Sides d ∧ t.leadsToDir p = true) (hshare : a.CanShare t name)
    (hrest : ∀ kinds, Common d kinds → Common d (rest kinds)) : Common d u.kind? := by
  cases hoffered with
  | idle hu | fixed ha hu => exact hu ▸ h
  | grown ha hl hu =>
    subst ha
    exact FileStore.grown_common h (hside _ (FileStore.root_eq hl)).1 hu
  | withheld ha hname hoffer hstored hshut hu => rw [hu]; exact h
  | took hname hoffer htook hu haside =>
    rw [hu]
    refine hrest _ ?_
    cases htook with
    | file hl htook =>
      obtain ⟨hsides, hlead⟩ := hside _ (FileStore.root_eq hl)
      exact htook.common h hl hsides hlead hname hshare
    | memory hstored => exact h

theorem Offered.dir (hoffered : a.Offered name outside offer rest t taken a' u) {k : Key}
    (hk : t.kind? k = some .dir) : u.kind? k = some .dir := by
  cases hoffered with
  | idle hu | fixed ha hu => exact hu ▸ hk
  | grown ha hl hu => exact hu.dir hk
  | withheld ha hname hoffer hstored hshut hu => rw [hu]; exact hk
  | took hname hoffer htook hu haside =>
    refine haside.dir ?_
    cases htook with
    | file hl htook => exact (htook.frame hname).dir k hk
    | memory hstored => exact hk

end AnyStore

end ContentStore
