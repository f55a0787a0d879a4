import ContentStore.Proofs.Halfway
import ContentStore.Proofs.Seats

/-!
# Stores that are interrupted

Whatever a store or two stores do for a chunk, there is at most one change that the one store can see, and one that
the other one can see (`Hands`).  So wherever the process stops, a store that takes one of the roots then has all
that was there before, or all that would have been there in the end; and a chunk that was being moved is in one of
the two stores: `interrupted_before_or_after`.
-/

namespace ContentStore

open FileSystem (shut)
open Tree (Alters Fixed)

namespace Workspace

/-- Two stores make changes, at keys of `B` and at keys of `A`.  Hidden files and directories are prepared, and then
there is one change, or there is one change of the first store and then one of the second store; each may be missing. -/
inductive Hands (B A : Key → Prop) (w v : Workspace) : Prop
  | once (x y : Workspace) (hbefore : w.By (Alters Key.Hidden Fixed) x)
      (hturn : x.Turns (Alters (fun _ => True) fun _ _ => True) y) (hlast : y.By (Alters Key.Hidden Fixed) v) :
      Hands B A w v
  | twice (x y : Workspace) (hbefore : w.By (Alters Key.Hidden Fixed) x)
      (hfirst : x.Turns (Alters B fun _ _ => True) y) (hsecond : y.Turns (Alters A fun _ _ => True) v) :
      Hands B A w v

namespace Hands

variable {A B F G : Key → Prop} {u v w : Workspace}

theorem still (h : w.Hands B A v) (h' : v.After [] u) : w.Hands B A u := by
  cases h with
  | once x y hbefore hturn hlast => exact .once x y hbefore hturn (hlast.trans (.still h'))
  | twice x y hbefore hfirst hsecond => exact .twice x y hbefore hfirst (hsecond.still h')

theorem quiet (h : w.By (Alters Key.Hidden Fixed) v) : w.Hands B A v := .once w w (.refl w) (.refl w) h

theorem cut (h : w.Hands B A v) (hF : ∀ k : Key, k.Hidden → F k) (hG : ∀ k : Key, k.Hidden → G k)
    (hone : (∀ k, B k → F k) ∨ ∀ k, A k → G k) : Cut F G w v := by
  cases h with
  | once x y hbefore hturn hlast =>
    exact .prepared (hbefore.widen hF fun _ _ _ => id) (.finished (.turn hturn) (hlast.widen hG fun _ _ _ => id))
  | twice x y hbefore hfirst hsecond =>
    refine .prepared (hbefore.widen hF fun _ _ _ => id) ?_
    rcases hone with hB | hA
    · exact .prepared (hfirst.by.widen hB fun _ _ _ => id) (.turn hsecond)
    · exact .finished (.turn hfirst) (hsecond.by.widen hA fun _ _ _ => id)

end Hands

end Workspace

namespace AnyStore

variable {tidy : Prop} {a b b' : AnyStore} {name : Bytes} {source : Path} {asked taken : Bool} {t : Tree}
  {v w x : Workspace}

def Covers (a : AnyStore) (k : Key) : Prop := ∃ p, a.root? = some p ∧ p.key <:+ k

theorem InOrder.cares (ha : a.InOrder tidy t) (name : Bytes) (stored : Option Bytes) :
    a.Cares (fun k => k.Hidden ∨ a.Covers k) (fun _ _ => True) name stored t := by
  rintro s l rfl hl
  exact ⟨(ha l hl).lead, fun k hk => Or.inr ⟨l.root, FileStore.root_eq hl, hk.suffix⟩, fun _ _ _ _ => trivial⟩

/-- What a store does when it is offered a file: it takes the file itself, or it makes one change or none and may
then remove the file; it does neither to a file that it may not remove. -/
inductive Received (b : AnyStore) (source : Path) (gone : Bool) (w v : Workspace) : Prop
  | taken (x : Workspace) (hbefore : w.By (Alters Key.Hidden Fixed) x) (hgone : gone = true)
      (hlast : x.Turns (Alters (fun _ => True) fun _ _ => True) v) : Received b source gone w v
  | kept (x y : Workspace) (hbefore : w.By (Alters Key.Hidden Fixed) x)
      (hturn : x.Turns (Alters b.Covers fun _ _ => True) y)
      (hlast : y.After [] v ∨ gone = true ∧ y.Turns (Alters (· = source.key) fun _ _ => True) v) :
      Received b source gone w v

theorem Received.hands {gone : Bool} (h : Received b source gone w v) {A : Key → Prop} (hA : A source.key) :
    w.Hands b.Covers A v := by
  cases h with
  | taken x hbefore hgone hlast => exact .once x v hbefore hlast (.refl v)
  | kept x y hbefore hturn hlast =>
    refine .twice x y hbefore hturn ?_
    rcases hlast with h | ⟨-, h⟩
    · exact Or.inl h
    · exact h.mono fun _ _ hc => hc.mono (fun k (hk : k = source.key) => hk ▸ hA) fun _ _ _ _ => trivial

theorem Received.then (h : Received b source false w v) {A : Key → Prop}
    (hlast : v.Turns (Alters A fun _ _ => True) x) : w.Hands b.Covers A x := by
  cases h with
  | taken _ _ hgone => cases hgone
  | kept y z hbefore hturn hstill =>
    rcases hstill with h | ⟨hgone, -⟩
    · exact .twice y v hbefore (hturn.still h) hlast
    · cases hgone

theorem exists_fixed (b : AnyStore) (h : b.mode? = none) : ∃ f, b = .fixed f := by
  cases b with
  | fixed f => exact ⟨f, rfl⟩
  | file | memory => cases h

theorem InOrder.apartFrom (hb : b.InOrder tidy t) {d : Key} (hapart : ∀ q, b.root? = some q → q.key.Apart d)
    {m : Mode} (hm : b.mode? = some m) : b.ApartFrom d := by
  cases b with
  | file f => exact ⟨fun l hl => hb.rooted _ (FileStore.root_eq hl), fun l hl => hapart _ (FileStore.root_eq hl)⟩
  | memory m => trivial
  | fixed f => cases hm

variable [FileSystem]

theorem sinkStoreFile_received (hb : b.InOrder tidy w.tree)
    (hsink : Sink.storeFile b name source asked w = ((taken, b'), v)) :
    Received b source (asked && !shut source.key.tail) w v := by
  have hv : v = ((Call.storeFile name source asked).run b w).2 := (congrArg Prod.snd hsink).symm
  have hidle : w.After [] v → Received b source (asked && !shut source.key.tail) w v :=
    fun h => .kept w w (.refl w) (.refl w) (Or.inl h)
  have hboth : asked = true → shut source.key.tail = false → (asked && !shut source.key.tail) = true :=
    fun hasked hopen => by rw [hasked, hopen]; rfl
  cases b with
  | file s =>
    rw [Call.run_file] at hv
    rcases hl : s.layout? with _ | l
    · exact hidle (hv ▸ FileStore.call_unrooted hl _ w)
    rcases hrun : (s.storeFile name source asked).run w with ⟨r, y⟩
    have hlast : y.After [] v := hv ▸ Attempt.settled_after .storeFile name s hrun
    cases FileStore.storeFile_trace (K := False) hl (hb l hl).lead False.elim hrun with
    | taken hname x hbefore content hfile hadmits hvacant hasked hopen hrename =>
      exact .taken x (FileStore.by_hidden hbefore) (hboth hasked hopen) (.one (.rename trivial trivial hfile hadmits.dir
        hadmits.noDir trivial) (hrename.trans hlast))
    | kept x z hbefore hturn gone hgone hdiscarded =>
      have hcovers := hturn.mono fun _ _ hc => hc.mono
        (fun k hk => (⟨l.root, FileStore.root_eq hl, hk.suffix⟩ : (AnyStore.file s).Covers k)) fun _ _ _ _ => trivial
      refine .kept x z (FileStore.by_hidden hbefore) hcovers ?_
      cases hdiscarded with
      | unasked => exact Or.inl hlast
      | kept _ _ _ hafter => exact Or.inl (hafter.trans hlast)
      | gone h hopen content hfile _ hafter =>
        exact Or.inr ⟨hboth (hgone h) hopen, (Workspace.Turns.one (.remove rfl hfile) hafter).still hlast⟩
  | memory m =>
    rw [Call.run_memory] at hv
    have hlast : (m.storeFile name source asked w).2.After [] v := by
      rw [hv]
      exact Attempt.outcome_after .storeFile name _ _
    rcases MemoryStore.storeFile_turns m name source asked w with h | ⟨hasked, hopen, h⟩
    · exact hidle (h.trans hlast)
    · exact .kept w w (.refl w) (.refl w) (Or.inr ⟨hboth hasked hopen,
        (h.mono fun _ _ hc => hc.mono (fun _ => id) fun _ _ _ _ => trivial).still hlast⟩)
  | fixed f =>
    rw [Call.run_fixed, (f.call_idle _ w).2] at hv
    exact hidle (hv ▸ .refl w)

/-- The source lets go of a chunk that the sink has taken: at the last reference its file has gone with what the sink
has done, unless a stub has left it or its directory is shut. -/
theorem letGo_hands {s : FileStore} {r : Except StoreError FileStore} {e : Entry} (hl : s.layout? = some l)
    (hs : s.InOrder tidy l w.tree) (hb : b.InOrder tidy w.tree)
    (hapart : ∀ q, b.root? = some q → q.key.Apart l.root.key) (hname : name ≠ [])
    (hfind : s.mode.find (l.place name) w.tree = .ok (some e))
    (hsink : Sink.storeFile b name e.path (e.count ≤ 1) w = ((true, b'), v))
    (hletGo : (s.letGo name (l.place name) e).run v = (r, x)) : w.Hands b.Covers (AnyStore.file s).Covers x := by
  have hroot := Layout.root_ne_blank hs.lead
  have hcovers : ∀ k, l.root.key <:+ k → (AnyStore.file s).Covers k := fun k hk => ⟨l.root, FileStore.root_eq hl, hk⟩
  have hbelow := FileStore.entry_below hname hroot hfind
  have hreceived := sinkStoreFile_received hb hsink
  have hturn : v.Turns (Alters (AnyStore.file s).Covers fun _ _ => True) x :=
    (FileStore.letGo_trace (K := False) hname hroot False.elim hletGo).mono fun _ _ hc =>
      hc.mono (fun k hk => hcovers k (FileStore.Owns.suffix (Or.inl hk))) fun _ _ _ _ => trivial
  by_cases hlast : e.count ≤ 1 ∧ shut e.path.key.tail = false
  · rcases hm : b.mode? with _ | m
    · obtain ⟨f, rfl⟩ := b.exists_fixed hm
      obtain rfl : w = v := congrArg Prod.snd hsink
      exact .twice w w (.refl w) (.refl w) hturn
    · rcases sink_spared (hb.apartFrom hapart hm) hbelow hsink with ⟨h, -⟩ | ⟨-, content, kinds, -, hspared, hkinds⟩
      · cases h
      · rw [if_pos (by simpa using hlast)] at hkinds
        have hgone := FileStore.find_after_handover hname hroot hfind hs.accounts.single hspared hkinds
        exact (hreceived.hands (hcovers _ hbelow)).still (FileStore.letGo_gone hgone hletGo).2
  · have hkeeps : (decide (e.count ≤ 1) && !shut e.path.key.tail) = false := by simpa using hlast
    rw [hkeeps] at hreceived
    exact hreceived.then hturn

theorem fileMove_hands {s : FileStore} (ha : (AnyStore.file s).InOrder tidy w.tree) (hb : b.InOrder tidy w.tree)
    (hapart : ∀ p q, s.root? = some p → b.root? = some q → q.key.Apart p.key) (name : Bytes) :
    w.Hands b.Covers (AnyStore.file s).Covers (s.moveTo name b w).2 := by
  rcases hl : s.layout? with _ | l
  · rw [FileStore.moveTo_uninitialized hl]
    exact .quiet (.refl w)
  have hs := ha l hl
  have hroot := Layout.root_ne_blank hs.lead
  have hrun := FileStore.moveTo_run hl name b w
  generalize s.moveTo name b w = result at hrun ⊢
  cases hrun with
  | missing => exact .quiet (.refl w)
  | refused hname e hfind b' v hsink =>
    exact (sinkStoreFile_received hb hsink).hands
      ⟨l.root, FileStore.root_eq hl, FileStore.entry_below hname hroot hfind⟩
  | taken hname e hfind b' v hsink r x hletGo =>
    exact letGo_hands hl hs hb (fun q => hapart _ q (FileStore.root_eq hl)) hname hfind hsink hletGo

/-- A store that is given a content makes one change at most. -/
theorem sinkStore_hands (hb : b.InOrder tidy w.tree) (name content : Bytes) {A : Key → Prop} :
    w.Hands b.Covers A (Sink.store b name content w).2 := by
  obtain ⟨x, y, hx, hy, hv⟩ := AnyStore.call_spans (c := .store name content) (w := w)
    (S := fun k => k.Hidden ∨ b.Covers k) (R := fun _ _ => True) (by simp)
    (fun n _ => hb.cares n _) (fun _ => Or.inl) (by simp [Call.alters]) (by simp [Call.target?])
  exact .once x y hx (hy.mono fun _ _ hc => hc.mono (fun _ _ => trivial) fun _ _ _ => id)
    (hv.widen (by rintro k ⟨q, hq, -⟩; simp [Call.alters] at hq) fun _ _ _ => id)

theorem memoryMove_hands (m : MemoryStore) (hb : b.InOrder tidy w.tree) (name : Bytes) {A : Key → Prop} :
    w.Hands b.Covers A (m.moveTo name b w).2 := by
  unfold MemoryStore.moveTo
  rcases m.get name with e | content
  · exact .quiet (.refl w)
  · dsimp only
    rw [Action.bind_apply]
    refine (sinkStore_hands hb name content).still ?_
    split <;> exact .refl _

/-- **A move** is one change at most of the sink, and then one at most of the source, or one change in all. -/
theorem moveTo_hands (ha : a.InOrder tidy w.tree) (hb : b.InOrder tidy w.tree)
    (hapart : ∀ p q, a.root? = some p → b.root? = some q → q.key.Apart p.key) (name : Bytes) :
    w.Hands b.Covers a.Covers (ChunkStore.moveTo a name b w).2 := by
  cases a with
  | file s =>
    rw [moveTo_file]
    exact (fileMove_hands ha hb hapart name).still (s.moveTo_after name b w)
  | memory m =>
    rw [moveTo_memory]
    exact (memoryMove_hands m hb name).still (m.moveTo_after name b w)
  | fixed f =>
    rw [moveTo_fixed]
    exact .quiet (.refl w)

end AnyStore

section

variable [FileSystem]

/-! ### Sessions -/

/-- A deed that neither takes a root nor clears a store. -/
def Deed.Works : Deed → Prop
  | start .. => False
  | call _ c => c ≠ .clear
  | moveTo .. | chunkPath .. => True

omit [FileSystem] in
theorem Session.exists_put {s : Session} {id : String} (h : ∃ a, s.store? id = some a) (other : String)
    (b : AnyStore) : ∃ a, (s.put other b).store? id = some a := by
  rw [Session.store?_put]
  split
  · exact ⟨b, rfl⟩
  · exact h

theorem Deed.exists_store {s : Session} {id : String} (h : ∃ a, s.store? id = some a) (d : Deed) :
    ∃ a, (d.run s).store? id = some a := by
  have hran := d.ran s
  generalize d.run s = s' at hran ⊢
  cases hran with
  | idle => exact h
  | start | call | moveToSelf | chunkPath => exact Session.exists_put h _ _
  | moveTo => exact Session.exists_put (Session.exists_put h _ _) _ _

theorem Deed.Works.file {s : Session} {d : Deed} (hd : d.Works) {id : String} {f : FileStore} {l : Layout}
    (hf : s.store? id = some (.file f)) (hl : f.layout? = some l) :
    ∃ f', (d.run s).store? id = some (.file f') ∧ f'.mode = f.mode ∧ f'.layout? = some l := by
  obtain ⟨a', ha'⟩ := d.exists_store ⟨_, hf⟩
  have hseat : a'.seat? = some (f.mode, l) := by
    rw [← AnyStore.seat_file hl]
    cases Deed.became hf ha' with
    | same => rfl
    | started => exact hd.elim
    | called c => exact AnyStore.call_seat _ c _
    | gave name hne hb => exact AnyStore.moveTo_seat _ _ name _
    | got name hne hb => exact AnyStore.moveTo_sink_seat _ _ name _
  obtain ⟨f', rfl, hmode, hlayout⟩ := AnyStore.file_of_seat hseat
  exact ⟨f', ha', hmode, hlayout⟩

namespace Session.Good

variable {tidy : Prop} {s : Session} {id sinkId : String} {a b : AnyStore} {f : FileStore} {l : Layout} {d : Deed}

/-- **One deed** is cut cleanly at any point, seen from `F` before and from `G` after it: a call does not change files
that can be seen beside its store, and of two stores that move a chunk one cannot be seen. -/
theorem cut (h : s.Good tidy) (hworks : d.Works) {F G : Key → Prop} (hF : ∀ k : Key, k.Hidden → F k)
    (hG : ∀ k : Key, k.Hidden → G k) (hcall : ∀ id c, d = .call id c → ∀ q ∈ c.alters, G q.key)
    (hmove : ∀ source name sink a b, d = .moveTo source name sink → source ≠ sink → s.store? source = some a →
      s.store? sink = some b → (∀ k, b.Covers k → F k) ∨ ∀ k, a.Covers k → G k) :
    s.workspace.Cut F G (d.run s).workspace := by
  have hran := d.ran s
  generalize d.run s = s' at hran ⊢
  cases hran with
  | idle => exact .refl _
  | start => exact hworks.elim
  | call other c b hb =>
    have hcares := (h.inOrder other b hb).cares
    have hspans := AnyStore.call_spans (c := c) (w := s.workspace) (S := fun _ => True) (R := fun _ _ => True) hworks
      (fun name _ f l hb hl => { hcares name c.stored? f l hb hl with owns := fun _ _ => trivial }) (fun _ _ => trivial)
      (fun _ _ => trivial) fun _ _ _ => trivial
    exact hspans.cut hF fun k ⟨q, hq, hk⟩ => hk ▸ hcall other c rfl q hq
  | moveTo source name sink a b hne ha hb =>
    exact (AnyStore.moveTo_hands (h.inOrder source a ha) (h.inOrder sink b hb)
      (fun p q hp hq => (h.beside_of hne ha hb hp hq).apart.symm) name).cut hF hG
        (hmove source name sink a b rfl hne ha hb)
  | moveToSelf id name a ha => exact .quiet (R := Fixed) (a.moveToSelf_does name _)
  | chunkPath other name create b hb => exact .quiet (R := Fixed) (b.chunkPath_does name create _)

theorem overlooks (h : s.Good tidy) (hne : id ≠ sinkId) (hf : s.store? id = some (.file f))
    (hl : f.layout? = some l) (hb : s.store? sinkId = some b) {k : Key} (hk : b.Covers k) :
    Overlooks l.root.key k := by
  obtain ⟨q, hq, hbelow⟩ := hk
  exact Or.inr ((h.beside_of hne hf hb (FileStore.root_eq hl) hq).apart.symm.not_suffix hbelow)

theorem after (h : s.Good tidy) (hworks : d.Works) : ∃ cs, s.workspace.After cs (d.run s).workspace := by
  obtain ⟨cs, hafter, -⟩ := h.cut hworks (F := fun _ => True) (G := fun _ => True) (fun _ _ => trivial)
    (fun _ _ => trivial) (fun _ _ _ _ _ => trivial) fun _ _ _ _ _ _ _ _ _ => Or.inl fun _ _ => trivial
  exact ⟨cs, hafter⟩

theorem cut_file (h : s.Good tidy) (hfits : d.Fits tidy s) (hworks : d.Works) (hf : s.store? id = some (.file f))
    (hl : f.layout? = some l) :
    s.workspace.Cut (Overlooks l.root.key) (Overlooks l.root.key) (d.run s).workspace := by
  refine h.cut hworks (fun _ => Or.inl) (fun _ => Or.inl) ?_ ?_
  · rintro other c rfl q hq
    exact Or.inr (hfits.1 id _ ((root?_of_store? hf).trans (FileStore.root_eq hl)) q (Call.alters_subset_paths hq))
  · rintro source name sink a b rfl hne ha hb
    by_cases hid : id = source
    · subst hid
      exact Or.inl fun k => h.overlooks hne hf hl hb
    · exact Or.inr fun k => h.overlooks hid hf hl ha

/-- **Taking a root where a deed was interrupted.**  A store of the mode of another one shows what that store had
before, or what it would have had in the end. -/
theorem start_interrupted (h : s.Good tidy) (hfits : d.Fits tidy s) (hbounded : (d.run s).Bounded)
    (hworks : d.Works) (hf : s.store? id = some (.file f)) (hl : f.layout? = some l) {done rest : List Change}
    (hafter : s.workspace.After (done ++ rest) (d.run s).workspace) {w : Workspace}
    (hw : w.tree = done.foldl Tree.apply s.workspace.tree) :
    ∃ f', (d.run s).store? id = some (.file f') ∧ ∀ g : FileStore, g.mode = f.mode →
      ∃ g' x, g.start l.root l.depth w = ((true, g'), x) ∧ x.tree = w.tree ∧
        (AnyStore.Same (.file f) s.workspace.tree (.file g') w.tree ∨
          AnyStore.Same (.file f') (d.run s).workspace.tree (.file g') w.tree) := by
  obtain ⟨f', hf', hmode', hl'⟩ := hworks.file hf hl
  have hbefore := h.inOrder id _ hf l hl
  have hend := (h.step d hfits hbounded).inOrder id _ hf' l hl'
  obtain ⟨hdir, hcut⟩ := (h.cut_file hfits hworks hf hl).stop hafter
  rw [← hw] at hdir hcut
  refine ⟨f', hf', fun g hmode => ?_⟩
  rcases hcut with hsofar | hleft
  · obtain ⟨g', x, hrun, htree, hsame⟩ :=
      FileStore.start_shows (g := g) hbefore hl (.of_veiled f.mode hsofar hbefore.lead) hmode
    exact ⟨g', x, hrun, htree, Or.inl hsame⟩
  · have hlead := Tree.leadsToDir_mono hbefore.lead hdir
    obtain ⟨g', x, hrun, htree, hsame⟩ := FileStore.start_shows (g := g) hend hl'
      (FileStore.SeesSame.of_veiled f'.mode hleft hlead).symm (hmode.trans hmode'.symm)
    exact ⟨g', x, hrun, htree, Or.inr hsame⟩

/-- A chunk that the sink has taken can be read from it, wherever it sees the same as in the end. -/
theorem reads_taken (h : s.Good tidy) (hne : id ≠ sinkId) {b : FileStore} {m : Layout} {name : Bytes}
    (hf : s.store? id = some (.file f)) (hb : s.store? sinkId = some (.file b)) (hl : f.layout? = some l)
    (hm : b.layout? = some m) (hfits : (Deed.moveTo id name sinkId).Fits tidy s)
    (hbounded : ((Deed.moveTo id name sinkId).run s).Bounded) {chunk : Held}
    (hheld : f.held? s.workspace.tree name = some chunk) {f' : FileStore} {c : AnyStore} {x w : Workspace}
    (hhanded : FileStore.Handed f l name (.file b) s.workspace.tree true f' c x.tree)
    (hrun : (Deed.moveTo id name sinkId).run s =
      (({ s with workspace := x } : Session).put id (.file f')).put sinkId c)
    (hsees : FileStore.SeesSame b.mode m x.tree w.tree) :
    b.Reads w name (b.mode.taken chunk.content (b.held? s.workspace.tree name)) := by
  have hsource := h.inOrder id _ hf l hl
  have hroot := Layout.root_ne_blank hsource.lead
  have hshare := hfits hne _ hb
  obtain ⟨e, content, kinds, hname, hfind, hstat, htook, hx⟩ :=
    hhanded.took hroot hm (h.beside_of (Ne.symm hne) hb hf (FileStore.root_eq hm) (FileStore.root_eq hl))
  have hgot := htook.got hname rfl (h.inOrder sinkId _ hb) hshare fun q hq => by
    cases hq.symm.trans (FileStore.root_eq hm)
    exact hx
  have hcontent : content = chunk.content := congrArg Held.content (Option.some.inj
    ((FileStore.held?_of_stat hl hname hroot hfind hstat).symm.trans hheld))
  -- the sink is in order in the end
  obtain ⟨b', hb', hmode, hm'⟩ := Deed.Works.file (d := .moveTo id name sinkId) trivial hb hm
  have hend := (h.step _ hfits hbounded).inOrder sinkId _ hb' m hm'
  rw [hrun] at hend
  rw [hrun, Session.store?_put, if_pos rfl] at hb'
  cases hb'
  cases htook with
  | file hm'' htook =>
    cases hm''.symm.trans hm
    have hsingle : b.mode.Single m.root.key x.tree.kind? := hmode ▸ hend.accounts.single
    exact hend.reads hm' (hmode ▸ hsees) (hcontent ▸ hgot.held)
      (htook.legible (h.inOrder sinkId _ hb m hm) hm hname hshare hx hsingle) hmode.symm (hm.trans hm'.symm)

/-- **Reading a chunk where a move was interrupted.**  A chunk that can be read from the source before the move can be
read from the source or from the sink. -/
theorem reads_interrupted (h : s.Good tidy) (hne : id ≠ sinkId) {b : FileStore} {m : Layout} {name : Bytes}
    (hf : s.store? id = some (.file f)) (hb : s.store? sinkId = some (.file b)) (hl : f.layout? = some l)
    (hm : b.layout? = some m) (hfits : (Deed.moveTo id name sinkId).Fits tidy s)
    (hbounded : ((Deed.moveTo id name sinkId).run s).Bounded) {chunk : Held}
    (hheld : f.held? s.workspace.tree name = some chunk) (hlegible : f.Legible s.workspace.tree name)
    {done rest : List Change}
    (hafter : s.workspace.After (done ++ rest) ((Deed.moveTo id name sinkId).run s).workspace) {w : Workspace}
    (hw : w.tree = done.foldl Tree.apply s.workspace.tree) :
    f.Reads w name chunk ∨ b.Reads w name (b.mode.taken chunk.content (b.held? s.workspace.tree name)) := by
  have hworks : (Deed.moveTo id name sinkId).Works := trivial
  have hsource := h.inOrder id _ hf l hl
  have hsink := h.inOrder sinkId _ hb m hm
  have hbeside := h.beside_of (Ne.symm hne) hb hf (FileStore.root_eq hm) (FileStore.root_eq hl)
  -- as long as the source sees no difference it has the chunk
  have hstill : FileStore.SeesSame f.mode l s.workspace.tree w.tree → f.Reads w name chunk := fun hsees =>
    hsource.reads hl hsees hheld hlegible rfl rfl
  have hclear : (AnyStore.file b).ClearOf l.root.key := fun q hq => by
    cases hq.symm.trans (FileStore.root_eq hm)
    exact ⟨hbeside.apart, hbeside.avoids⟩
  rcases hmove : ChunkStore.moveTo f name (AnyStore.file b) s.workspace with ⟨⟨taken, f', c⟩, x⟩
  have hhanded := FileStore.moveTo_handed hl hsource (h.inOrder sinkId _ hb) hclear hmove
  have hrun : (Deed.moveTo id name sinkId).run s =
      (({ s with workspace := x } : Session).put id (.file f')).put sinkId c := by
    rw [Deed.run_moveTo name hne hf hb, AnyStore.moveTo_file, hmove]
  cases taken with
  | false =>
    have hend := FileStore.SeesSame.of_untouched hsource (hhanded.untouched hclear)
    obtain ⟨hdir, hcut⟩ := (h.cut_file hfits hworks hf hl).stop hafter
    rw [← hw] at hdir hcut
    rcases hcut with hsofar | hleft
    · exact Or.inl (hstill (.of_veiled f.mode hsofar hsource.lead))
    · rw [hrun] at hleft
      exact Or.inl (hstill (hend.trans
        (FileStore.SeesSame.of_veiled f.mode hleft (Tree.leadsToDir_mono hsource.lead hdir)).symm))
  | true =>
    have hcuts : s.workspace.Cut (Overlooks l.root.key) (Overlooks m.root.key) _ :=
      h.cut hworks (fun _ => Or.inl) (fun _ => Or.inl) (fun _ _ hcall => by cases hcall)
        fun source _ sink a c hd _ _ hc => Or.inl fun k hk => by
          cases hd
          exact h.overlooks hne hf hl hc hk
    obtain ⟨hdir, hcut⟩ := hcuts.stop hafter
    rw [← hw] at hdir hcut
    refine hcut.imp (fun hsofar => hstill (.of_veiled f.mode hsofar hsource.lead)) fun hleft => ?_
    rw [hrun] at hleft
    exact h.reads_taken hne hf hb hl hm hfits hbounded hheld hhanded hrun
      (FileStore.SeesSame.of_veiled b.mode hleft (Tree.leadsToDir_mono hsink.lead hdir)).symm

end Session.Good

/-- **Interrupted stores.**  Take a session that has come from stores without roots, with roots that lie apart, and
let any store work there, or any two, but for taking a root or clearing one.  Wherever the process stops on the way,
each file store can be replaced: a store of its mode that takes its root then has, for all names, the chunks with
their contents and references that were there before, or all those that are there in the end, and the counts that go
with them; and taking the root changes nothing.  A chunk of a file store that was being moved to another one, and
could be opened before, can be read from the source or from the sink. -/
theorem interrupted_before_or_after {s : Session} (h : Session.Reach False s) {d : Deed} (hfits : d.Fits False s)
    (hbounded : (d.run s).Bounded) (hworks : d.Works) :
    ∃ cs, s.workspace.After cs (d.run s).workspace ∧ ∀ done rest, cs = done ++ rest →
      ∀ w : Workspace, w.tree = done.foldl Tree.apply s.workspace.tree →
        (∀ id f l, s.store? id = some (.file f) → f.layout? = some l →
          ∃ f', (d.run s).store? id = some (.file f') ∧ ∀ g : FileStore, g.mode = f.mode →
            ∃ g' x, g.start l.root l.depth w = ((true, g'), x) ∧ x.tree = w.tree ∧
              (AnyStore.Same (.file f) s.workspace.tree (.file g') w.tree ∨
                AnyStore.Same (.file f') (d.run s).workspace.tree (.file g') w.tree)) ∧
        ∀ id name sinkId f b l m chunk, d = .moveTo id name sinkId → id ≠ sinkId →
          s.store? id = some (.file f) → s.store? sinkId = some (.file b) → f.layout? = some l →
          b.layout? = some m → f.held? s.workspace.tree name = some chunk → f.Legible s.workspace.tree name →
            f.Reads w name chunk ∨ b.Reads w name (b.mode.taken chunk.content (b.held? s.workspace.tree name)) := by
  have hgood := h.good
  obtain ⟨cs, hafter⟩ := hgood.after hworks
  refine ⟨cs, hafter, fun done rest hcs w hw => ⟨fun id f l hf hl => ?_, ?_⟩⟩
  · subst hcs
    exact hgood.start_interrupted hfits hbounded hworks hf hl hafter hw
  · rintro id name sinkId f b l m chunk rfl hne hf hb hl hm hheld hlegible
    subst hcs
    exact hgood.reads_interrupted hne hf hb hl hm hfits hbounded hheld hlegible hafter hw

end

namespace Trial

/-- A store that counts no references and one that does have taken roots that lie apart. -/
def mixed : Session :=
  [.start "a" (Path.ofText "r") 1, .start "b" (Path.ofText "q") 0].foldl Deed.run
    ⟨[("a", .file (.new false (.ofDigest id))), ("b", .file (.new true (.ofDigest id)))], .bare⟩

/-- The first one has stored a chunk. -/
def laden : Session := Deed.run mixed (.call "a" (.store [107] [97, 98]))

theorem laden_reached : Session.Reach False laden := by
  have hfresh : Session.Reach False
      ⟨[("a", .file (.new false (.ofDigest id))), ("b", .file (.new true (.ofDigest id)))], .bare⟩ := by
    refine .fresh (fun id a ha => ?_) fun n k hn => absurd (Tree.kind?_bare n k) hn
    have hmem := Table.mem_of_lookup ha
    simp only [List.mem_cons, List.not_mem_nil, or_false, Prod.mk.injEq] at hmem
    rcases hmem with ⟨-, rfl⟩ | ⟨-, rfl⟩ <;> exact ⟨_, _, rfl⟩
  have hmixed : Session.Reach False mixed :=
    (hfresh.step _ (Session.fits_start False 1 (FileSystem.free_lenient _) (by decide +kernel) (by decide +kernel)
      (by decide +kernel)) (Session.bounded_of_forall (by decide +kernel))).step _
      (Session.fits_start False 0 (FileSystem.free_lenient _) (by decide +kernel) (by decide +kernel)
        (by decide +kernel)) (Session.bounded_of_forall (by decide +kernel))
  exact hmixed.step _ (Session.fits_store False _ (by decide +kernel)) (Session.bounded_of_forall (by decide +kernel))

end Trial

/-- A plain store with one level moves its only chunk to a counted store below another root.  Wherever the move is
interrupted, a store that takes the first root then has what was there before the move or after it, and the two bytes
can be read from one of the two stores. -/
theorem interrupted_before_or_after_trial : ∃ f b : FileStore,
    Trial.laden.store? "a" = some (.file f) ∧ Trial.laden.store? "b" = some (.file b) ∧
    f.held? Trial.laden.workspace.tree [107] = some ⟨[97, 98], 1⟩ ∧
    ∃ cs, Trial.laden.workspace.After cs (Deed.run Trial.laden (.moveTo "a" [107] "b")).workspace ∧
      ∀ done rest, cs = done ++ rest → ∀ w : Workspace,
        w.tree = done.foldl Tree.apply Trial.laden.workspace.tree →
          (∃ f', (Deed.run Trial.laden (.moveTo "a" [107] "b")).store? "a" = some (.file f') ∧
            ∃ g' x, f.start (Path.ofText "r") 1 w = ((true, g'), x) ∧
              (AnyStore.Same (.file f) Trial.laden.workspace.tree (.file g') w.tree ∨
                AnyStore.Same (.file f') (Deed.run Trial.laden (.moveTo "a" [107] "b")).workspace.tree (.file g')
                  w.tree)) ∧
          (f.Reads w [107] ⟨[97, 98], 1⟩ ∨ b.Reads w [107] ⟨[97, 98], 1⟩) := by
  obtain ⟨f, hf, hl⟩ := Session.file_of_layout
    (show (Trial.laden.store? "a").bind AnyStore.layout? = some ⟨Path.ofText "r", 1⟩ by decide +kernel)
  obtain ⟨b, hb, hm⟩ := Session.file_of_layout
    (show (Trial.laden.store? "b").bind AnyStore.layout? = some ⟨Path.ofText "q", 0⟩ by decide +kernel)
  have hheld : ∀ a ∈ Trial.laden.store? "a", a.held? Trial.laden.workspace.tree [107] = some ⟨[97, 98], 1⟩ ∧
      a.mode? = some .plain := by decide +kernel
  have hnone : ∀ b ∈ Trial.laden.store? "b", b.held? Trial.laden.workspace.tree [107] = none ∧
      b.CanShare Trial.laden.workspace.tree [107] := by decide +kernel
  obtain ⟨hheld, hmode⟩ := hheld _ hf
  obtain ⟨hnone, hshare⟩ := hnone _ hb
  have hlegible : f.Legible Trial.laden.workspace.tree [107] :=
    FileStore.legible_plain (fun l' hl' => by
      rw [hl] at hl'
      cases hl'
      decide) (Option.some.inj hmode) _ _
  obtain ⟨cs, hafter, hstops⟩ := interrupted_before_or_after (d := .moveTo "a" [107] "b") Trial.laden_reached
    (fun _ b' hb' => by rw [hb] at hb'; cases hb'; exact hshare)
    (Session.bounded_of_forall (by decide +kernel)) trivial
  refine ⟨f, b, hf, hb, hheld, cs, hafter, fun done rest hcs w hw => ?_⟩
  obtain ⟨hstart, hreads⟩ := hstops done rest hcs w hw
  obtain ⟨f', hf', hshows⟩ := hstart "a" f _ hf hl
  obtain ⟨g', x, hrun, -, hsame⟩ := hshows f rfl
  have hreads := hreads "a" [107] "b" f b _ _ _ rfl (by decide) hf hb hl hm hheld hlegible
  rw [show b.held? Trial.laden.workspace.tree [107] = none from hnone] at hreads
  exact ⟨⟨f', hf', g', x, hrun, hsame⟩, hreads⟩

namespace Detour

/-- The root of the first store leads through a directory below that of the second one.  The second store was
cleared after the first one had stored a chunk, and then the first one. -/
def emptied : Session :=
  [.start "a" root 0, .start "b" (Path.ofText "r2") 0, .call "a" (.store [107] [97, 98, 99]), .call "b" .clear,
    .call "a" .clear].foldl Deed.run
    ⟨[("a", .file (.new true (.ofDigest id))), ("b", .file (.new true (.ofDigest id)))], .bare⟩

/-- Two stores have taken one root, and the second one has stored a chunk. -/
def joined : Session :=
  [.start "a" (Path.ofText "r") 0, .start "b" (Path.ofText "r") 0, .call "b" (.store [107] [97, 98, 99])].foldl
    Deed.run ⟨[("a", .file (.new true (.ofDigest id))), ("b", .file (.new true (.ofDigest id)))], .bare⟩

end Detour

/-- A store whose root leads through a directory below another root does not see its chunk when it counts anew, and
makes the directory again when it stores another chunk: a new store then counts both, which the first one never did.
A store that shares its root does not count the chunks of the other one, and a new store does.  And a chunk that is
moved to a store that has another content under its name is not to be had with its own content any more. -/
theorem interrupted_shows_neither :
    (Detour.root.key.Apart (Path.ofText "r2").key ∧ Detour.emptied.root? "a" = some Detour.root ∧
      (Detour.emptied.store? "a").map AnyStore.totals = some ⟨0, 0⟩ ∧
      ((Deed.run Detour.emptied (.call "a" (.store [110] [100, 101]))).store? "a").map AnyStore.totals =
        some ⟨1, 2⟩ ∧
      AnyStore.totals (.file ((FileStore.new true (.ofDigest id)).start Detour.root 0
        (Deed.run Detour.emptied (.call "a" (.store [110] [100, 101]))).workspace).1.2) = ⟨2, 5⟩) ∧
    ((Detour.joined.store? "a").map AnyStore.totals = some ⟨0, 0⟩ ∧
      ((Deed.run Detour.joined (.call "a" (.store [110] [100, 101]))).store? "a").map AnyStore.totals =
        some ⟨1, 2⟩ ∧
      AnyStore.totals (.file ((FileStore.new true (.ofDigest id)).start (Path.ofText "r") 0
        (Deed.run Detour.joined (.call "a" (.store [110] [100, 101]))).workspace).1.2) = ⟨2, 5⟩) ∧
    (Session.moveTo "a" [107] "b" (Deed.run Trial.laden (.call "b" (.store [107] [99])))).1 = some true ∧
    (Session.call "a" (.get [107]) (Session.moveTo "a" [107] "b"
      (Deed.run Trial.laden (.call "b" (.store [107] [99])))).2).1 = some (.bytes []) ∧
    (Session.call "b" (.get [107]) (Session.moveTo "a" [107] "b"
      (Deed.run Trial.laden (.call "b" (.store [107] [99])))).2).1 = some (.bytes [99]) := by
  decide +kernel

end ContentStore
