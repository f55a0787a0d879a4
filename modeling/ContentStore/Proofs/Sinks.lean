import ContentStore.Proofs.Calls

/-!
# Offering a chunk to a store

A chunk is offered as a content or as a file.  Both come to the same (`offered_store`, `offered_storeFile`):
the store takes the chunk in or refuses it, and the file that was offered has gone or is as it was.  A store
in memory that cannot remove the file that it was asked to remove has the chunk and says that it has not.

* `Offered.inOrder`: the store stays in order;
* `Offered.untouched`: nothing happens in a directory beside it;
* `Took.held`: the chunk is held, with one more reference or a first one, and no other chunk has changed.
-/

namespace ContentStore

variable [FileSystem]

open Function (update)
open FileSystem (shut)

namespace AnyStore

/-- How the files of a store that holds chunks are named. -/
def mode? : AnyStore → Option Mode
  | .file s => some s.mode
  | .memory m => some m.mode
  | .fixed _ => none

/-- A store keeps its chunks apart from a directory, and makes no directories in there. -/
def ClearOf (d : Key) (a : AnyStore) : Prop := ∀ p, a.root? = some p → p.key.Apart d ∧ p.Avoids d

/-- A store that holds chunks has taken one in: the store after it, and what stands at each key. -/
inductive Took (name content : Bytes) (t : Tree) : AnyStore → AnyStore → (Key → Option Kind) → Prop
  | file {s s' : FileStore} {l : Layout} {kinds : Key → Option Kind} (hl : s.layout? = some l)
      (h : s.Took l name content t s' kinds) : Took name content t (.file s) (.file s') kinds
  | memory {m m' : MemoryStore} (h : m.Stored name content m') :
      Took name content t (.memory m) (.memory m') t.kind?

/-- What comes of offering a chunk to a store.  The content is one of those that are offered, and `rest`
says what becomes of the file that was offered. -/
inductive Offered (a : AnyStore) (name : Bytes) (outside : List Path) (offer : Bytes → Prop)
    (rest : (Key → Option Kind) → Key → Option Kind) (t : Tree) : Bool → AnyStore → Tree → Prop
  | idle {u : Tree} (hu : u = t) : Offered a name outside offer rest t false a u
  | grown {s : FileStore} {l : Layout} {u : Tree} (ha : a = .file s) (hl : s.layout? = some l)
      (hu : Grown (l.place name).dir t u) : Offered a name outside offer rest t false a u
  | fixed {f : FixedStore} {taken : Bool} {u : Tree} (ha : a = .fixed f) (hu : u = t) :
      Offered a name outside offer rest t taken a u
  | withheld {content : Bytes} {m m' : MemoryStore} {u : Tree} (ha : a = .memory m) (hname : name ≠ [])
      (hoffer : offer content) (hstored : m.Stored name content m')
      (hshut : ∃ q ∈ outside, shut q.key.tail = true) (hu : u.kind? = t.kind?) :
      Offered a name outside offer rest t false (.memory m') u
  | took {content : Bytes} {kinds : Key → Option Kind} {a' : AnyStore} {u : Tree} (hname : name ≠ [])
      (hoffer : offer content) (h : Took name content t a a' kinds) (hu : u.kind? = rest kinds)
      (haside : Aside outside kinds u.kind?) : Offered a name outside offer rest t true a' u

variable {tidy : Prop} {a a' : AnyStore} {name content : Bytes} {outside : List Path}
  {offer : Bytes → Prop} {rest : (Key → Option Kind) → Key → Option Kind} {t u x : Tree} {taken : Bool}
  {kinds : Key → Option Kind} {d : Key} {w v : Workspace}

omit [FileSystem] in
theorem InOrder.untouched (ha : a.InOrder tidy t)
    (hu : ∀ p, a.root? = some p → Untouched p.key t.kind? u.kind?) : a.InOrder tidy u := by
  cases a with
  | file s => exact fun l hl => (ha l hl).untouched (hu _ (FileStore.root_eq hl))
  | memory m => exact ha
  | fixed f => trivial

def Rooted (a : AnyStore) : Prop := ∀ p, a.root? = some p → p ≠ .blank

omit [FileSystem] in
theorem Rooted.file {s : FileStore} {l : Layout} (h : Rooted (.file s)) (hl : s.layout? = some l) :
    l.root ≠ .blank :=
  h _ (FileStore.root_eq hl)

omit [FileSystem] in
theorem InOrder.rooted (ha : a.InOrder tidy t) : a.Rooted := by
  intro p hp
  cases a with
  | file s =>
    obtain ⟨l, hl, rfl⟩ := Option.map_eq_some_iff.mp hp
    exact Layout.root_ne_blank (ha l hl).lead
  | memory m => cases hp
  | fixed f => cases hp

/-! ### What is offered is taken in or refused -/

theorem offered_store (ha : a.Rooted)
    (h : Sink.store a name content w = ((taken, a'), v)) :
    a.Offered name [] (· = content) id w.tree taken a' v.tree := by
  cases a with
  | file s =>
    have h : after .file (Attempt.settled .store name s (s.store name content)) w = ((taken, a'), v) := h
    unfold after at h
    rw [Action.bind_apply] at h
    rcases hr : (s.store name content).run w with ⟨e | s', y⟩
    · rw [Attempt.settled_of_error hr] at h
      cases h
      rcases hl : s.layout? with _ | l
      · rw [FileStore.store_uninitialized hl] at hr
        cases hr
        exact .idle rfl
      · exact .grown rfl hl (FileStore.store_error hl (ha.file hl) hr).grown
    · rw [Attempt.settled_of_ok hr] at h
      cases h
      rcases hl : s.layout? with _ | l
      · rw [FileStore.store_uninitialized hl] at hr
        cases hr
      · obtain ⟨hname, -, htook⟩ := FileStore.store_took hl (ha.file hl) hr
        exact .took hname rfl (.file hl htook) rfl .same
  | memory m =>
    have h : after .memory (Sink.store m name content) w = ((taken, a'), v) := h
    unfold after at h
    rw [Action.bind_apply, MemoryStore.settled_store] at h
    rcases hs : m.store name content with e | m'
    · rw [hs] at h
      cases h
      exact .idle rfl
    · rw [hs] at h
      cases h
      obtain ⟨hname, -, hstored⟩ := MemoryStore.store_ok hs
      exact .took hname rfl (.memory hstored) rfl .same
  | fixed f =>
    cases h
    exact .fixed rfl rfl

omit [FileSystem] in
theorem aside_offered {source : Path} {gone : Bool} (hfile : kinds source.key = some (.file content)) :
    Aside [source] kinds (if gone then Function.update kinds source.key none else kinds) := by
  cases gone with
  | false => exact .same
  | true => exact .changed source List.mem_cons_self (by rw [hfile]; simp) none (by simp) (by simp)

theorem offered_storeFile {source : Path} {asked : Bool} (ha : a.Rooted)
    (hout : ∀ p, a.root? = some p → ¬ p.key <:+ source.key)
    (h : Sink.storeFile a name source asked w = ((taken, a'), v)) :
    a.Offered name [source] (fun c => w.tree.stat source = .ok (.file c))
      (fun kinds => if asked && !shut source.key.tail then Function.update kinds source.key none else kinds) w.tree
      taken a' v.tree := by
  cases a with
  | file s =>
    obtain ⟨s', rfl, hrun⟩ := sink_file_inv h
    rcases hl : s.layout? with _ | l
    · obtain ⟨rfl, rfl, htree⟩ := FileStore.sink_uninitialized hl hrun
      exact .idle htree
    · have hroot := ha.file hl
      have hout := hout _ (FileStore.root_eq hl)
      rcases FileStore.sink_file hl hroot hrun with ⟨rfl, rfl, hgrown⟩ | ⟨rfl, hr⟩
      · exact .grown rfl hl hgrown
      · obtain ⟨hname, content, kinds, -, hstat, htook, hkinds⟩ := FileStore.storeFile_took hl hroot hout hr
        have hfile := ((htook.frame hname).file _ _ hout).mpr (FileStore.kind?_of_stat hstat)
        exact .took hname hstat (.file hl htook) hkinds (by rw [hkinds]; exact aside_offered hfile)
  | memory m =>
    obtain ⟨m', rfl, hrun⟩ := sink_memory_inv h
    rcases MemoryStore.sink_memory hrun with ⟨rfl, rfl, htree, -⟩ | ⟨content, rfl, hstat, hstore, hkinds⟩
    · exact .idle htree
    · obtain ⟨hname, -, hstored⟩ := MemoryStore.store_ok hstore
      by_cases hkept : (asked && shut source.key.tail) = true
      · obtain ⟨rfl, hshut⟩ := Bool.and_eq_true_iff.mp hkept
        simp only [hshut, Bool.true_and, Bool.not_true, Bool.false_eq_true, if_false] at hkinds ⊢
        exact .withheld rfl hname hstat hstored ⟨source, List.mem_cons_self, hshut⟩ hkinds
      · simp only [hkept, Bool.not_false]
        exact .took hname hstat (.memory hstored) hkinds
          (by rw [hkinds]; exact aside_offered (FileStore.kind?_of_stat hstat))
  | fixed f =>
    cases h
    exact .fixed rfl rfl

/-! ### What is left alone -/

theorem Took.root (h : Took name content t a a' kinds) : a'.root? = a.root? := by
  cases h with
  | file hl h => exact FileStore.root_congr h.same.1
  | memory h => rfl

theorem Took.untouched (h : Took name content t a a' kinds) (hname : name ≠ []) (hd : a.ClearOf d) :
    Untouched d t.kind? kinds := by
  cases h with
  | file hl h =>
    obtain ⟨hapart, havoids⟩ := hd _ (FileStore.root_eq hl)
    exact (h.frame hname).untouched hapart (Layout.avoids_place havoids hapart name)
  | memory h => exact .refl _ _

theorem Took.proper (h : Took name content t a a' kinds) (hname : name ≠ []) (ht : Proper t.kind?) :
    Proper kinds := by
  cases h with
  | file hl h => exact (h.frame hname).proper ht
  | memory h => exact ht

namespace Offered

theorem root (h : a.Offered name outside offer rest t taken a' u) : a'.root? = a.root? := by
  cases h with
  | idle | grown | fixed => rfl
  | withheld ha => rw [ha]; rfl
  | took hname hoffer h => exact h.root

/-- A store that refuses a chunk is the same as before, if the file that it was offered can be removed. -/
theorem same (h : a.Offered name outside offer rest t false a' u)
    (hopen : ∀ q ∈ outside, shut q.key.tail = false) : a' = a := by
  cases h with
  | idle | grown | fixed => rfl
  | withheld ha hname hoffer hstored hshut =>
    obtain ⟨q, hq, hshut⟩ := hshut
    rw [hopen q hq] at hshut
    cases hshut

/-- A store that refuses a chunk leaves alone what lies in a directory beside it. -/
theorem untouched_of_refused (h : a.Offered name outside offer rest t false a' u) (hd : a.ClearOf d) :
    Untouched d t.kind? u.kind? := by
  cases h with
  | idle hu => exact hu ▸ .refl _ _
  | grown ha hl hu =>
    subst ha
    obtain ⟨hapart, havoids⟩ := hd _ (FileStore.root_eq hl)
    exact (Frame.of_grown hu _).untouched hapart (Layout.avoids_place havoids hapart name)
  | fixed ha hu => exact hu ▸ .refl _ _
  | withheld ha hname hoffer hstored hshut hu => exact hu ▸ .refl _ _

theorem untouched (h : a.Offered name outside offer rest t taken a' u) (hd : a.ClearOf d)
    (hout : ∀ q ∈ outside, ¬ d <:+ q.key) : Untouched d t.kind? u.kind? := by
  cases taken with
  | false => exact h.untouched_of_refused hd
  | true =>
    cases h with
    | fixed ha hu => exact hu ▸ .refl _ _
    | took hname hoffer h hu haside => exact (h.untouched hname hd).trans (haside.untouched hout)

theorem proper (h : a.Offered name outside offer rest t taken a' u) (ht : Proper t.kind?) :
    Proper u.kind? := by
  cases h with
  | idle hu | fixed ha hu => exact hu ▸ ht
  | grown ha hl hu => exact (Frame.of_grown hu []).proper ht
  | withheld ha hname hoffer hstored hshut hu => rw [hu]; exact ht
  | took hname hoffer h hu haside => exact haside.proper (h.proper hname ht)

/-! ### The store itself -/

/-- **The store stays in order**, also when its own root is left alone for a while after. -/
theorem inOrder (h : a.Offered name outside offer rest t taken a' u) (ha : a.InOrder tidy t)
    (hself : ∀ p, a.root? = some p → p.Avoids p.key) (hshare : a.CanShare t name)
    (hout : ∀ p, a.root? = some p → ∀ q ∈ outside, ¬ p.key <:+ q.key)
    (hx : ∀ p, a.root? = some p → Untouched p.key u.kind? x.kind?) (hbounded : a'.Bounded x) :
    a'.InOrder tidy x := by
  cases h with
  | idle hu =>
    subst hu
    exact ha.untouched hx
  | grown ha' hl hu =>
    subst ha'
    have hroot := FileStore.root_eq hl
    exact FileStore.inOrder_of hl (((ha _ hl).grown (hself _ hroot) hu).untouched (hx _ hroot))
  | fixed ha' hu =>
    subst ha'
    trivial
  | withheld ha' hname hoffer hstored =>
    subst ha'
    exact MemoryStore.Sound.stored ha hstored hbounded
  | took hname hoffer h hu haside =>
    cases h with
    | file hl htook =>
      obtain ⟨hlayout, hmode⟩ := htook.same
      have hroot := FileStore.root_eq hl
      have hl' := hlayout.trans hl
      refine FileStore.inOrder_of hl' ((ha _ hl).took (hself _ hroot) hname htook (fun e _ hfind => ?_)
        ((haside.untouched (hout _ hroot)).trans (hx _ hroot)) ?_)
      · obtain ⟨file, old, found⟩ := Mode.find_eq_some
          (Layout.dir_place_ne_blank (Layout.root_ne_blank (ha _ hl).lead) name)
          (Layout.isStem_place _ hname) hfind
        exact hshare _ (FileStore.held?_of_found hl hname hfind found)
      · rw [← hmode]
        exact hbounded _ hl'
    | memory hstored => exact MemoryStore.Sound.stored ha hstored hbounded

end Offered

end AnyStore

end ContentStore
