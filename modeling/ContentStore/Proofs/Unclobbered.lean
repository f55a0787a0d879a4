import ContentStore.Proofs.Belongs
import ContentStore.Proofs.Course
import ContentStore.Proofs.Singles

/-!
# One file for a chunk, and none in place of another

Stores that share a directory, as in `SharedRoot`, leave nothing but files of chunks there, at most one for each
stem and count of references in one directory.  What they do there, one change after the other, is `Spared`: no
file is renamed onto another one, and what is done for one chunk never touches the file of another one.

* `Shared.spares`: the changes of one deed;
* `chunk_files_kept`: what this comes to.
-/

namespace ContentStore

open Bytes (dot)
open Tree (Alters Vacant)

/-- A key at which a file may change when something is done for a chunk: it is hidden, it lies outside the
directory, or it belongs to the chunk. -/
def Spares (d : Key) (named : Option Bytes) (k : Key) : Prop :=
  k.Hidden ∨ ¬ d <:+ k ∨ ∃ name ∈ named, Belongs d name k

theorem Mode.Claims.belongs {m : Mode} {l : Layout} {name : Bytes} {k : Key} (h : m.Claims l name k) :
    Belongs l.root.key name k := by
  obtain ⟨hname, file, hfile, rfl⟩ := h
  exact l.belongs hname hfile

theorem Belongs.not_spares {d k : Key} {named : Option Bytes} {other : Bytes} (h : Belongs d other k)
    (hne : named ≠ some other) : ¬ Spares d named k := by
  rintro (⟨n, hn, hdot⟩ | hout | ⟨name, hname, hbelongs⟩)
  · obtain ⟨hother, m, l, file, -, hfile, rfl⟩ := h
    cases hn
    exact hfile.head? (l.isStem_place hother) hdot
  · exact hout h.suffix
  · exact hne (hname ▸ congrArg some (hbelongs.name_eq h))

/-! ### The changes of one deed -/

def Deed.name? : Deed → Option Bytes
  | start .. => none
  | call _ c => c.name?
  | moveTo _ name _ => some name
  | chunkPath _ name _ => some name

namespace AnyStore

variable {d : Key} {a b : AnyStore} {name : Bytes} {stored : Option Bytes} {t u : Tree} {w : Workspace}

/-- A store that works in a directory or beside it spares the other chunks there. -/
theorem cares_of_single {s : FileStore} {l : Layout} (hlead : t.leadsToDir l.root = true)
    (hside : l.root.key = d ∨ l.root.key.Apart d) (hsingle : l.root.key = d → s.mode.Single d t.kind?)
    (hshare : ∀ n ∈ stored, (AnyStore.file s).CanShare t n) :
    s.Cares (Spares d (some name)) (fun t k => Vacant (d <:+ k) t k) l name stored t where
  lead := hlead
  owns k hk := by
    rcases hk with hk | hk
    · rcases hside with rfl | hapart
      · exact Or.inr (Or.inr ⟨name, rfl, hk.belongs⟩)
      · exact Or.inr (Or.inl (hapart.not_suffix hk.belongs.suffix))
    · exact Or.inl hk.hidden
  vacant u k hk hvacant hd := by
    rcases hside with hroot | hapart
    · exact hvacant ⟨hroot ▸ hsingle hroot, hshare⟩
    · exact absurd hd (hapart.not_suffix hk.suffix)

theorem cares_of_sides (name : Bytes) (stored : Option Bytes) (h : Common d t.kind?) (ha : a.Sides d t)
    (hshare : ∀ n ∈ stored, a.CanShare t n) :
    a.Cares (Spares d (some name)) (fun t k => Vacant (d <:+ k) t k) name stored t := by
  rintro s l rfl hl
  obtain ⟨hside, hlead⟩ := ha _ (FileStore.root_eq hl)
  exact cares_of_single hlead hside.key (fun _ => h.single s.mode) hshare

/-- Chunks stay single in the directory when a store is offered a file from there. -/
theorem single_of_offered [FileSystem] {source : Path} {asked taken : Bool} {b' : AnyStore} {v : Workspace}
    (h : Common d w.tree.kind?) (hb : b.Sides d w.tree) (hshare : b.CanShare w.tree name)
    (hbelow : d <:+ source.key) (hsink : Sink.storeFile b name source asked w = ((taken, b'), v)) (m : Mode) :
    m.Single d v.tree.kind? := by
  by_cases hroot : ∃ q, b.root? = some q ∧ q.key = d
  · -- the sink works in the directory as well, and may take the file itself
    obtain ⟨q, hq, hqd⟩ := hroot
    have hamong : Among (fun _ e => e = d) w.tree b := by
      rintro m' l hseat
      obtain ⟨f, rfl, -, hl⟩ := file_of_seat hseat
      rw [FileStore.root_eq hl] at hq
      cases hq
      exact ⟨hqd, (hb _ (FileStore.root_eq hl)).2⟩
    exact (sink_storeFile_orderly hamong hshare hsink).singles (fun m' e he => he ▸ h.single m') m d rfl
  · have hapart : ∀ q, b.root? = some q → ¬ q.key <:+ source.key := fun q hq =>
      ((hb q hq).1.key.resolve_left fun hqd => hroot ⟨q, hq, hqd⟩).symm.not_suffix hbelow
    refine ((offered_storeFile hb.rooted hapart hsink).common h hb hshare fun kinds hc => ?_).single m
    split
    · exact hc.remove _
    · exact hc

/-- A move spares the other chunks. -/
theorem moveTo_spares [FileSystem] (h : Common d w.tree.kind?) (ha : a.Sides d w.tree) (hb : b.Sides d w.tree)
    (hshare : b.CanShare w.tree name) :
    w.By (Alters (Spares d (some name)) fun t k => Vacant (d <:+ k) t k) (ChunkStore.moveTo a name b w).2 := by
  have hcare := cares_of_sides name none h ha (by simp)
  have hsinkCare := cares_of_sides name (some name) h hb (by simpa using hshare)
  refine moveTo_by hcare hsinkCare (fun _ => Or.inl) ?_
  rintro f l e rfl hl hname hfind b' v hsink
  obtain ⟨hside, hlead⟩ := ha _ (FileStore.root_eq hl)
  have hroot := Layout.root_ne_blank hlead
  have hby := sinkStoreFile_by (e.count ≤ 1) hsinkCare (fun _ => Or.inl)
    ((hcare f l rfl hl).owns _ (FileStore.owns_of_find hname hroot hfind))
  rw [hsink] at hby
  refine cares_of_single (Tree.leadsToDir_mono hlead hby.veiled.dir) hside.key (fun hd => ?_) (by simp)
  exact single_of_offered h hb hshare (hd ▸ FileStore.entry_below hname hroot hfind) hsink f.mode

end AnyStore

namespace Session.Shared

variable {d : Key} {s : Session}

/-- **One deed**, but for clearing, spares the files of all other chunks in the directory, and gives no file there
a key that is taken. -/
theorem spares [FileSystem] (h : s.Shared d) {deed : Deed} (hshares : deed.Shares d s)
    (hc : ∀ id, deed ≠ .call id .clear) :
    s.workspace.By (Alters (Spares d deed.name?) fun t k => Vacant (d <:+ k) t k) (deed.run s).workspace := by
  have hran := deed.ran s
  generalize deed.run s = s' at hran ⊢
  cases hran with
  | idle => exact .refl _
  | start id root depth a ha => exact a.start_does root depth _
  | call id c a ha =>
    obtain ⟨hout, hshare⟩ := hshares
    have houtside : ∀ q ∈ c.alters, Spares d c.name? q.key := fun q hq =>
      Or.inr (Or.inl (hout q (Call.alters_subset_paths hq)).1)
    have hspans := AnyStore.call_spans (a := a) (w := s.workspace) (S := Spares d c.name?)
      (R := fun t k => Vacant (d <:+ k) t k)
      (fun e => hc id (e ▸ rfl)) (fun name hname => ?_) (fun _ => Or.inl) houtside
      fun q hq t hd => absurd hd (hout q (Call.target_mem_paths hq)).1
    · exact hspans.by (fun _ => Or.inl) fun k ⟨q, hq, hk⟩ => hk ▸ houtside q hq
    · rw [Option.mem_def.mp hname]
      exact AnyStore.cares_of_sides name c.stored? h.common (h.sides id a ha) (hshare a ha)
  | moveTo id name sinkId a b hne ha hb =>
    exact AnyStore.moveTo_spares h.common (h.sides id a ha) (h.sides sinkId b hb) (hshares hne b hb)
  | moveToSelf id name a ha => exact a.moveToSelf_does name _
  | chunkPath id name create a ha => exact a.chunkPath_does name create _

end Session.Shared

/-! ### The files of chunks -/

/-- A change renames a file onto another one below a directory. -/
def Change.Replaces (d : Key) (t : Tree) : Change → Prop
  | .rename _ new => d <:+ new ∧ ∃ content, t.kind? new = some (.file content)
  | _ => False

/-- A change leaves the file at a key as it is, or none there. -/
def Change.Leaves (k : Key) (t : Tree) (c : Change) : Prop :=
  ∀ content, (t.apply c).kind? k = some (.file content) ↔ t.kind? k = some (.file content)

namespace Tree.Alters

variable {d : Key} {named : Option Bytes} {t : Tree} {c : Change}

theorem not_replaces {S : Key → Prop} (h : t.Alters S (fun t k => Vacant (d <:+ k) t k) c) : ¬ c.Replaces d t := by
  cases h with
  | rename _ _ _ _ _ hvacant =>
    rintro ⟨hd, content, hfile⟩
    rw [hvacant hd] at hfile
    cases hfile
  | _ => exact id

theorem leaves {R : Tree → Key → Prop} (h : t.Alters (Spares d named) R c) {other : Bytes} {k : Key}
    (hne : named ≠ some other) (hk : Belongs d other k) : c.Leaves k t :=
  fun content => h.veiled.file k content (hk.not_spares hne)

end Tree.Alters

/-- The name of a file with a dot in it is that of a chunk and a count. -/
theorem Named.counted {d k : Key} {kinds : Key → Option Kind} (h : Named d kinds) (hd : d <:+ k)
    {stem rest c : Bytes} (hk : kinds ((stem ++ dot :: rest) :: k) = some (.file c)) :
    isStem stem = true ∧ ∃ n, 0 < n ∧ n < Decimal.wordLimit ∧ rest = Decimal.render n := by
  obtain ⟨m, stem', n, hs, hcarries, hname⟩ := h k _ c hd hk
  cases m with
  | plain =>
    obtain rfl : stem ++ dot :: rest = stem' := hname
    exact absurd (by simp) (dot_notMem_stem hs)
  | counted =>
    have hrender : dot ∉ Decimal.render n := fun hm =>
      (Decimal.ne_of_isDigit (Decimal.isDigit_of_mem_render hm)).1 rfl
    rcases List.append_eq_append_iff.mp hname with ⟨a, rfl, ha⟩ | ⟨a, rfl, ha⟩
    · cases a with
      | nil => exact ⟨by simpa using hs, n, hcarries.1, hcarries.2, (List.cons.inj ha).2⟩
      | cons b a =>
        obtain rfl := (List.cons.inj ha).1
        exact absurd (by simp) (dot_notMem_stem hs)
    · cases a with
      | nil => exact ⟨by simpa using hs, n, hcarries.1, hcarries.2, (List.cons.inj ha).2.symm⟩
      | cons b a =>
        rw [(List.cons.inj ha).2] at hrender
        exact absurd (by simp) hrender

/-- A directory holds one file with a count for a stem. -/
theorem Common.rest_eq {d k : Key} {kinds : Key → Option Kind} (h : Common d kinds) (hd : d <:+ k)
    {stem rest rest' c c' : Bytes} (hk : kinds ((stem ++ dot :: rest) :: k) = some (.file c))
    (hk' : kinds ((stem ++ dot :: rest') :: k) = some (.file c')) : rest = rest' := by
  obtain ⟨hs, n, hpos, hlt, rfl⟩ := h.named.counted hd hk
  obtain ⟨-, n', hpos', hlt', rfl⟩ := h.named.counted hd hk'
  have hfile : Mode.counted.IsFile stem n (stem ++ dot :: Decimal.render n) :=
    Mode.isFile_fileName (m := .counted) stem ⟨hpos, hlt⟩
  have hfile' : Mode.counted.IsFile stem n' (stem ++ dot :: Decimal.render n') :=
    Mode.isFile_fileName (m := .counted) stem ⟨hpos', hlt'⟩
  exact (List.cons.inj (List.append_cancel_left
    (h.single .counted k stem _ _ n n' _ _ hd hs hfile hfile' hk hk'))).2

section

variable [FileSystem]

theorem Deed.clear_by {p : Tree → Change → Prop} (s : Session) (id : String) (hp : ∀ t k, p t (.remove k)) :
    s.workspace.By p ((Deed.call id .clear).run s).workspace := by
  rcases ha : s.store? id with _ | a
  · rw [Deed.run_none ha]
    exact .refl _
  · rw [Deed.run_call .clear ha]
    exact a.clear_does hp _

/-- **The files of chunks in one directory.**  Let any number of stores share a directory that was empty at first.
A file below it whose name has a dot is that of a chunk and, behind the dot, a number of references that is
positive and written without leading zeros; no directory holds two of them for one chunk.  Whatever is done next, it
is a number of changes none of which renames a file onto another one there; and what is done for one chunk, but for
clearing, leaves the files of all other chunks as they are, from one change to the next. -/
theorem chunk_files_kept {d : Key} {s : Session} (h : Session.Sharing d s) :
    (∀ (k : Key) (stem rest content : Bytes), d <:+ k →
      s.workspace.tree.kind? ((stem ++ dot :: rest) :: k) = some (.file content) →
        isStem stem = true ∧ (∃ n, 0 < n ∧ n < Decimal.wordLimit ∧ rest = Decimal.render n) ∧
        ∀ other content', s.workspace.tree.kind? ((stem ++ dot :: other) :: k) = some (.file content') →
          other = rest) ∧
    ∀ deed : Deed, deed.Shares d s → ∃ cs, s.workspace.After cs (deed.run s).workspace ∧
      s.workspace.tree.Each (fun t c => ¬ c.Replaces d t) cs ∧
      ((∀ id, deed ≠ .call id .clear) → ∀ (other : Bytes) (k : Key), deed.name? ≠ some other → Belongs d other k →
        s.workspace.tree.Each (fun t c => c.Leaves k t) cs) := by
  have hshared := h.shared
  refine ⟨fun k stem rest content hd hk => ?_, fun deed hshares => ?_⟩
  · obtain ⟨hs, hcount⟩ := hshared.common.named.counted hd hk
    exact ⟨hs, hcount, fun other content' hother => hshared.common.rest_eq hd hother hk⟩
  · by_cases hc : ∃ id, deed = .call id .clear
    · obtain ⟨id, rfl⟩ := hc
      obtain ⟨cs, hafter, heach⟩ := Deed.clear_by (p := fun t c => ¬ c.Replaces d t) s id fun _ _ hno => hno
      exact ⟨cs, hafter, heach, fun hno => absurd rfl (hno id)⟩
    · rw [not_exists] at hc
      obtain ⟨cs, hafter, heach⟩ := hshared.spares hshares hc
      exact ⟨cs, hafter, heach.mono fun _ _ h => h.not_replaces, fun _ other k hne hk =>
        heach.mono fun _ _ h => h.leaves hne hk⟩

end

/-- A counted store has its file `6b.2` below the root `r`, and a plain store that shares the root stores a chunk with
another name: no file is replaced on the way, and that one stays as it is. -/
theorem chunk_files_kept_trial :
    Session.Sharing (Path.ofText "r").key Trial.shared ∧
    (Deed.call "b" (.store [108] [97])).Shares (Path.ofText "r").key Trial.shared ∧
    Trial.shared.workspace.tree.kind? ([54, 98, 46, 50] :: (Path.ofText "r").key) = some (.file [97, 98]) ∧
    isStem [54, 98] = true ∧ (∃ n, 0 < n ∧ n < Decimal.wordLimit ∧ [50] = Decimal.render n) ∧
    ∃ cs, Trial.shared.workspace.After cs ((Deed.call "b" (.store [108] [97])).run Trial.shared).workspace ∧
      Trial.shared.workspace.tree.Each (fun t c => ¬ c.Replaces (Path.ofText "r").key t) cs ∧
      Trial.shared.workspace.tree.Each
        (fun t c => c.Leaves ([54, 98, 46, 50] :: (Path.ofText "r").key) t) cs := by
  have hshares : (Deed.call "b" (.store [108] [97])).Shares (Path.ofText "r").key Trial.shared :=
    Session.shares_store _ (by decide +kernel)
  have hfile : Trial.shared.workspace.tree.kind? ([54, 98, 46, 50] :: (Path.ofText "r").key) =
      some (.file [97, 98]) := by decide +kernel
  have hbelongs : Belongs (Path.ofText "r").key [107] ([54, 98, 46, 50] :: (Path.ofText "r").key) :=
    Layout.belongs ⟨Path.ofText "r", 0⟩ (m := .counted) (by decide) ⟨[50], by decide +kernel⟩
  obtain ⟨hstate, hdeeds⟩ := chunk_files_kept Trial.sharing
  obtain ⟨hs, hcount, -⟩ := hstate _ [54, 98] [50] [97, 98] (List.suffix_refl _) hfile
  obtain ⟨cs, hafter, hreplaces, hleaves⟩ := hdeeds _ hshares
  exact ⟨Trial.sharing, hshares, hfile, hs, hcount, cs, hafter, hreplaces,
    hleaves (by simp) [107] _ (by simp [Deed.name?, Call.name?]) hbelongs⟩

namespace Detour

/-- The store that counted one reference more, and the other one has stored the chunk since. -/
def doubled : Session :=
  [.call "a" (.store [107] [97, 98, 99]), .call "b" (.store [107] [97, 98, 99])].foldl Deed.run twofold

end Detour

/-- The store whose root path leads through a directory below the root does not find the file that the other one has
made for a chunk: it puts its own in its place, or another one beside it. -/
theorem chunk_file_replaced :
    Detour.twofold.root? "a" = some (Path.ofText "r") ∧ Detour.twofold.root? "b" = some (Path.ofText "r/x/..") ∧
    (Path.ofText "r").key = (Path.ofText "r/x/..").key ∧
    Detour.twofold.workspace.tree.kind? ([54, 98, 46, 49] :: (Path.ofText "r").key) = some (.file [97, 98, 99]) ∧
    ((Deed.call "b" (.store [107] [97])).run Detour.twofold).workspace.changes.getLast? =
      some (.rename (Staging.hiddenName 0 :: (Path.ofText "r").key) ([54, 98, 46, 49] :: (Path.ofText "r").key)) ∧
    ((Deed.call "b" (.store [107] [97])).run Detour.twofold).workspace.tree.kind?
      ([54, 98, 46, 49] :: (Path.ofText "r").key) = some (.file [97]) ∧
    Detour.doubled.workspace.tree.kind? ([54, 98, 46, 49] :: (Path.ofText "r").key) = some (.file [97, 98, 99]) ∧
    Detour.doubled.workspace.tree.kind? ([54, 98, 46, 50] :: (Path.ofText "r").key) = some (.file [97, 98, 99]) := by
  decide +kernel

end ContentStore
