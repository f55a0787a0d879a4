import ContentStore.Proofs.Sessions
import ContentStore.Proofs.Singles

/-!
# What a store is given stays

A file store gets its hasher and its mode when it is made, and its root and its levels when it is given a root.
Whatever is done with chunks changes nothing but the counts: `FileStore.call_settings`, `FileStore.moveTo_settings`.
So the seat of a store, which is its mode with its root and its levels, is the same after a deed unless the deed
gives the store a root: `Deed.seat_of_became`.
-/

namespace ContentStore

variable [FileSystem]

namespace FileStore

variable {s s' : FileStore} {name content : Bytes} {source : Path} {asked : Bool} {w v : Workspace}

theorem store_settings (h : (s.store name content).run w = (.ok s', v)) :
    s' = { s with tracker := s'.tracker } := by
  rcases hl : s.layout? with _ | l
  · rw [store_uninitialized hl] at h
    cases h
  · have hrun := store_run hl name content w
    rw [h] at hrun
    cases hrun <;> rw [← hl]

theorem storeFile_settings (h : (s.storeFile name source asked).run w = (.ok s', v)) :
    s' = { s with tracker := s'.tracker } := by
  rcases hl : s.layout? with _ | l
  · rw [storeFile_uninitialized hl] at h
    cases h
  · have hrun := storeFile_run hl name source asked w
    rw [h] at hrun
    cases hrun <;> rw [← hl]

theorem delete_settings (h : (s.delete name).run w = (.ok s', v)) : s' = { s with tracker := s'.tracker } := by
  rcases hl : s.layout? with _ | l
  · rw [delete_uninitialized hl] at h
    cases h
  · have hrun := delete_run hl name w
    rw [h] at hrun
    cases hrun <;> rw [← hl]

theorem letGo_settings {place : Location} {e : Entry} (h : (s.letGo name place e).run w = (.ok s', v)) :
    s' = { s with tracker := s'.tracker } := by
  have hrun := letGo_run s name place e w
  rw [h] at hrun
  cases hrun <;> rfl

omit [FileSystem] in
/-- The store after an operation has the settings that it has after the attempt. -/
theorem settled_settings (op : Operation) (name : Bytes) (a : Attempt FileStore) (w : Workspace)
    (h : ∀ s' v, a.run w = (.ok s', v) → s' = { s with tracker := s'.tracker }) :
    (a.settled op name s w).1.2 = { s with tracker := (a.settled op name s w).1.2.tracker } := by
  rcases hr : a.run w with ⟨err | after, x⟩
  · rw [Attempt.settled_of_error hr]
  · rw [Attempt.settled_of_ok hr]
    exact h after x hr

theorem clear_settings (s : FileStore) (w : Workspace) :
    (ChunkStore.clear s w).1 = { s with tracker := (ChunkStore.clear s w).1.tracker } := by
  rcases hl : s.layout? with _ | l
  · show (s.clear w).1.2 = { s with layout? := none, tracker := (s.clear w).1.2.tracker }
    unfold clear
    rw [hl]
    dsimp only
    rw [← hl]
    rfl
  · rcases hr : (Request.emptyDir l.root).run w with ⟨r, u⟩
    rw [(clear_spec hl hr).1, ← hl]

/-- **A call** changes nothing of a store but its counts. -/
theorem call_settings (s : FileStore) (c : Call) (w : Workspace) :
    (c.run s w).1.2 = { s with tracker := (c.run s w).1.2.tracker } := by
  cases c with
  | store name content => exact settled_settings .store name (s.store name content) w fun _ _ => store_settings
  | storeFile name source asked =>
    exact settled_settings .storeFile name (s.storeFile name source asked) w fun _ _ => storeFile_settings
  | delete name => exact settled_settings .delete name (s.delete name) w fun _ _ => delete_settings
  | clear => exact s.clear_settings w
  | _ => rfl

theorem call_hasher (s : FileStore) (c : Call) (w : Workspace) : (c.run s w).1.2.hasher = s.hasher := by
  rw [s.call_settings c w]

/-- **A move** changes nothing of the source but its counts. -/
theorem moveTo_settings {τ : Type} [Sink τ] (s : FileStore) (name : Bytes) (sink : τ) (w : Workspace) :
    (ChunkStore.moveTo s name sink w).1.2.1 =
      { s with tracker := (ChunkStore.moveTo s name sink w).1.2.1.tracker } := by
  rw [moveTo_apply]
  rcases hl : s.layout? with _ | l
  · rw [moveTo_uninitialized hl, ← hl]
  · rw [← hl]
    have hmove := moveTo_run hl name sink w
    rcases hm : s.moveTo name sink w with ⟨⟨r, sink'⟩, x⟩
    rw [hm] at hmove
    cases hmove with
    | missing | refused => rfl
    | taken hname e hfind sink' v hsink r x hletGo =>
      rcases r with err | after
      · rfl
      · exact letGo_settings hletGo

end FileStore

namespace AnyStore

variable {a b : AnyStore}

omit [FileSystem] in
theorem seat_of_settings {s s' : FileStore} (h : s' = { s with tracker := s'.tracker }) :
    (AnyStore.file s').seat? = (AnyStore.file s).seat? := by
  rw [h]
  rfl

theorem call_seat (a : AnyStore) (c : Call) (w : Workspace) : (c.run a w).1.2.seat? = a.seat? := by
  cases a with
  | file s =>
    rw [Call.run_file]
    exact seat_of_settings (s.call_settings c w)
  | memory m =>
    rw [Call.run_memory]
    rfl
  | fixed f => rw [Call.run_fixed, (f.call_idle c w).1]

theorem moveTo_seat (a b : AnyStore) (name : Bytes) (w : Workspace) :
    (ChunkStore.moveTo a name b w).1.2.1.seat? = a.seat? := by
  cases a with
  | file s =>
    rw [moveTo_file]
    exact seat_of_settings (s.moveTo_settings name b w)
  | memory m =>
    rw [moveTo_memory]
    rfl
  | fixed f => rw [moveTo_fixed]

/-- The sink of a move is left alone, or a call of it is made. -/
theorem moveTo_sink (a b : AnyStore) (name : Bytes) (w : Workspace) :
    (ChunkStore.moveTo a name b w).1.2.2 = b ∨
      ∃ (c : Call) (v : Workspace), (ChunkStore.moveTo a name b w).1.2.2 = (c.run b v).1.2 := by
  cases a with
  | file s =>
    rw [moveTo_file, FileStore.moveTo_apply]
    rcases hl : s.layout? with _ | l
    · rw [FileStore.moveTo_uninitialized hl]
      exact Or.inl rfl
    · have hmove := FileStore.moveTo_run hl name b w
      rcases hm : s.moveTo name b w with ⟨⟨r, b'⟩, x⟩
      rw [hm] at hmove
      cases hmove with
      | missing => exact Or.inl rfl
      | refused hname e hfind b' x hsink =>
        exact Or.inr ⟨.storeFile name e.path (e.count ≤ 1), w, congrArg (fun x => x.1.2) hsink.symm⟩
      | taken hname e hfind b' v hsink r x hletGo =>
        refine Or.inr ⟨.storeFile name e.path (e.count ≤ 1), w, ?_⟩
        cases r <;> exact congrArg (fun x => x.1.2) hsink.symm
  | memory m =>
    rw [moveTo_memory]
    simp only [ChunkStore.moveTo, MemoryStore.moveTo, MemoryStore.get, Action.bind_apply]
    rcases m.find? name with _ | chunk
    · exact Or.inl rfl
    · refine Or.inr ⟨.store name chunk.content, w, ?_⟩
      rcases hsink : Sink.store b name chunk.content w with ⟨⟨_ | _, b'⟩, x⟩ <;>
        simp only [Action.bind_apply, hsink] <;> exact congrArg (fun x => x.1.2) hsink.symm
  | fixed f =>
    rw [moveTo_fixed]
    exact Or.inl rfl

theorem moveTo_sink_seat (a b : AnyStore) (name : Bytes) (w : Workspace) :
    (ChunkStore.moveTo a name b w).1.2.2.seat? = b.seat? := by
  rcases moveTo_sink a b name w with h | ⟨c, v, h⟩
  · rw [h]
  · rw [h, call_seat]

/-- A store that is given a root has that one afterwards, or none. -/
theorem start_seat {root : Path} {depth : Nat} {m : Mode} {l : Layout} {w : Workspace}
    (h : (start root depth a w).1.2.seat? = some (m, l)) : l = ⟨root, depth⟩ ∧ a.mode? = some m := by
  cases a with
  | file s =>
    rw [start_file] at h
    obtain ⟨v, -, hstart | ⟨hstart, -⟩⟩ := s.start_spec root depth w <;> rw [hstart] at h <;> cases h
    exact ⟨rfl, rfl⟩
  | memory m | fixed f => cases h

end AnyStore

namespace Deed

theorem exists_became {s : Session} {id : String} {a' : AnyStore} {d : Deed} (ha' : (d.run s).store? id = some a') :
    ∃ a, s.store? id = some a ∧ Became s id a d a' := by
  suffices hstore : ∃ a, s.store? id = some a by
    obtain ⟨a, ha⟩ := hstore
    exact ⟨a, ha, became ha ha'⟩
  -- putting a store in the place of one that is there brings in none
  have hput : ∀ {u : Session} {other : String} {b c : AnyStore}, u.stores = s.stores → s.store? other = some c →
      (u.put other b).store? id = some a' → ∃ a, s.store? id = some a := by
    intro u other b c hu hc h
    rw [Session.store?_put] at h
    split at h
    · next e => exact ⟨c, e ▸ hc⟩
    · exact ⟨a', (congrArg (List.lookup id) hu).symm.trans h⟩
  have hran := d.ran s
  generalize d.run s = s' at hran ha'
  cases hran with
  | idle => exact ⟨a', ha'⟩
  | start _ _ _ _ hb | call _ _ _ hb | moveToSelf _ _ _ hb | chunkPath _ _ _ _ hb => exact hput rfl hb ha'
  | moveTo source name sink b c hne hb hc =>
    rw [Session.store?_put] at ha'
    split at ha'
    · next e => exact ⟨c, e ▸ hc⟩
    · exact hput rfl hb ha'

/-- A deed that gives no root to a store leaves its seat as it is. -/
theorem seat_eq_of_became {s : Session} {id : String} {a a' : AnyStore} {d : Deed} (h : Became s id a d a')
    (hd : ∀ root depth, d ≠ .start id root depth) : a'.seat? = a.seat? := by
  cases h with
  | same => rfl
  | started root depth => exact absurd rfl (hd root depth)
  | called c => exact a.call_seat c _
  | gave name _ _ => exact a.moveTo_seat _ name _
  | got name _ _ => exact AnyStore.moveTo_sink_seat _ a name _

/-- **A deed** leaves the seat of a store as it is, unless it gives a root to the store. -/
theorem seat_of_became {s : Session} {id : String} {a a' : AnyStore} {d : Deed} (h : Became s id a d a')
    {m : Mode} {l : Layout} (hl : a'.seat? = some (m, l)) :
    a.seat? = some (m, l) ∨ d = .start id l.root l.depth ∧ a.mode? = some m := by
  by_cases hd : ∃ root depth, d = .start id root depth
  · obtain ⟨root, depth, rfl⟩ := hd
    cases h with
    | same => exact Or.inl hl
    | started =>
      obtain ⟨rfl, hm⟩ := AnyStore.start_seat hl
      exact Or.inr ⟨rfl, hm⟩
  · exact Or.inl (seat_eq_of_became h (fun root depth h => hd ⟨root, depth, h⟩) ▸ hl)

end Deed

end ContentStore
