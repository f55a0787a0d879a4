import ContentStore.Proofs.Emptying
import ContentStore.Proofs.Held

/-!
# What an operation leaves alone

A store works below its root, and makes directories on the way there.  To a directory apart from the root,
through which the way does not lead, nothing happens (`Frame.untouched`); and below the root itself no
directories appear but those of single digits (`Frame.tidy`).
-/

namespace ContentStore

open Function (update)

/-- A path passes nothing that lies below a directory. -/
def Path.Avoids (p : Path) (d : Key) : Prop := ∀ k ∈ p.visits, d <:+ k → k = d

/-- No file in a directory has changed, no directory has gone anywhere, and none is new in there. -/
structure Untouched (d : Key) (t u : Key → Option Kind) : Prop extends Spared d t u where
  fresh : ∀ k, d <:+ k → k ≠ d → u k = some .dir → t k = some .dir

namespace Untouched

variable {d k : Key} {t u v : Key → Option Kind}

theorem refl (d : Key) (t : Key → Option Kind) : Untouched d t t :=
  ⟨⟨fun _ h => h, fun _ _ _ => Iff.rfl⟩, fun _ _ _ h => h⟩

theorem trans (h : Untouched d t u) (h' : Untouched d u v) : Untouched d t v where
  dir k hk := h'.dir k (h.dir k hk)
  file k c hk := (h'.file k c hk).trans (h.file k c hk)
  fresh k hk hne hdir := h.fresh k hk hne (h'.fresh k hk hne hdir)

theorem update (t : Key → Option Kind) (hk : ¬ d <:+ k) (hdir : t k ≠ some .dir) {kind : Option Kind}
    (hkind : kind ≠ some .dir) : Untouched d t (update t k kind) where
  dir j hj := by
    have hne : j ≠ k := fun e => hdir (e ▸ hj)
    rw [Function.update_of_ne hne, hj]
  file j c hj := by
    have hne : j ≠ k := fun e => hk (e ▸ hj)
    rw [Function.update_of_ne hne]
  fresh j _ _ hj := by
    rw [Function.update_apply] at hj
    split at hj
    · exact absurd hj hkind
    · exact hj

end Untouched

namespace Frame

variable {r d : Key} {p : Path} {t u : Key → Option Kind}

theorem untouched (h : Frame r p t u) (hd : r.Apart d) (hp : p.Avoids d) : Untouched d t u where
  toSpared := h.spared hd
  fresh k hk hne hdir := (h.fresh k hdir).elim id fun hv => absurd (hp k hv hk) hne

theorem proper (h : Frame r p t u) (ht : Proper t) : Proper u :=
  fun n k hk => (h.named n k hk).elim (ht n k) id

end Frame

theorem Proper.update {t : Key → Option Kind} (h : Proper t) {k : Key} {kind : Option Kind}
    (hk : kind ≠ none → ∀ n ∈ k.head?, Path.IsName n) : Proper (update t k kind) := by
  intro n j hj
  rw [Function.update_apply] at hj
  split at hj
  · next e =>
    subst e
    exact hk hj n rfl
  · exact h n j hj

/-- Below a directory, directories have single digits for names. -/
def Tidy (d : Key) (kinds : Key → Option Kind) : Prop :=
  ∀ n k, d <:+ k → kinds (n :: k) = some .dir → ∃ b, n = [b] ∧ Hex.isDigit b = true

theorem Tidy.untouched {d : Key} {t u : Key → Option Kind} (h : Tidy d t) (hu : Untouched d t u) :
    Tidy d u := by
  intro n k hk hdir
  refine h n k hk (hu.fresh _ (hk.trans (List.suffix_cons n k)) ?_ hdir)
  rintro rfl
  have := hk.length_le
  rw [List.length_cons] at this
  omega

theorem Tidy.pruned {d r : Key} {t u : Tree} (h : Tidy d t.kind?) (hu : Pruned r t u) :
    Tidy d u.kind? := by
  intro n k hk hdir
  rcases hu (n :: k) with e | ⟨e, -⟩
  · exact h n k hk (e ▸ hdir)
  · rw [e] at hdir
    cases hdir

namespace Layout

variable {l : Layout} {d : Key}

/-- The directories of a chunk keep clear of whatever the root keeps clear of. -/
theorem avoids_place (hroot : l.root.Avoids d) (hd : l.root.key.Apart d) (name : Bytes) :
    (l.place name).dir.Avoids d := by
  intro k hk hdk
  rw [dir_place, Path.mem_visits_below fun x hx => (isName_of_mem_shards hx).1] at hk
  rcases hk with hk | ⟨j, -, -, rfl⟩
  · exact hroot k hk hdk
  · exact absurd hdk (hd.not_suffix ⟨j, rfl⟩)

end Layout

/-- The directories that a store makes below its root are those of digits. -/
theorem Frame.tidy {l : Layout} {name : Bytes} {t u : Key → Option Kind} (hself : l.root.Avoids l.root.key)
    (h : Frame l.root.key (l.place name).dir t u) (ht : Tidy l.root.key t) : Tidy l.root.key u := by
  intro n k hk hdir
  rcases h.fresh _ hdir with hold | hv
  · exact ht n k hk hold
  · rw [Layout.dir_place, Path.mem_visits_below fun x hx => (Layout.isName_of_mem_shards hx).1] at hv
    rcases hv with hv | ⟨j, hj, hne, he⟩
    · have heq := hself _ hv (hk.trans (List.suffix_cons n k))
      have hlen := hk.length_le
      rw [← heq, List.length_cons] at hlen
      omega
    · obtain ⟨x, j, rfl⟩ := List.exists_cons_of_ne_nil hne
      obtain ⟨rfl, -⟩ := List.cons.inj he
      exact Layout.mem_shards (hj.subset List.mem_cons_self)

end ContentStore
