import ContentStore.Digest.Hasher
import Mathlib.Data.List.Basic

/-!
# Digests of pieces and digests in a domain

The digest of a content does not depend on the pieces that it arrives in, if the engine that takes them does not care
where a piece ends (`Engine.Incremental`).  What is absorbed for a content in a domain is the content behind the mark
of the domain; two contents in two domains come to the same only if one mark begins the other (`absorbed_eq_iff`),
which no two domains without a colon allow (`absorbed_ne_of_noColon`).
-/

namespace ContentStore

/-! ### The UTF-8 form of a text -/

namespace Bytes

def colon : UInt8 := 58

theorem ofText_injective {s t : String} (h : ofText s = ofText t) : s = t := by
  rw [ofText, ofText, String.toUTF8_eq_toByteArray, String.toUTF8_eq_toByteArray] at h
  exact String.toByteArray_inj.mp (ByteArray.ext (Array.toList_inj.mp h))

theorem ofText_eq_flatMap (s : String) : ofText s = s.toList.flatMap String.utf8EncodeChar := by
  have h : s.toByteArray = s.toList.utf8Encode := by rw [← String.toByteArray_ofList, String.ofList_toList]
  rw [ofText, String.toUTF8_eq_toByteArray, h, List.utf8Encode, List.data_toByteArray]

/-- Only a colon has the byte of a colon in its UTF-8 form. -/
theorem eq_of_colon_mem {c : Char} (h : colon ∈ String.utf8EncodeChar c) : c = ':' := by
  have hof : ∀ n : Nat, colon = UInt8.ofNat n → n % 256 = 58 := by
    intro n hn
    have hnat := congrArg UInt8.toNat hn
    rw [UInt8.toNat_ofNat'] at hnat
    exact hnat.symm
  have hval : c.val.toNat = 58 := by
    -- a form of several bytes has none below 128
    revert h
    fun_cases String.utf8EncodeChar c <;> simp only [List.mem_cons, List.not_mem_nil, or_false]
    case case1 =>
      intro h
      have := hof _ h
      omega
    case case2 => rintro (h | h) <;> have := hof _ h <;> omega
    case case3 => rintro (h | h | h) <;> have := hof _ h <;> omega
    case case4 => rintro (h | h | h | h) <;> have := hof _ h <;> omega
  exact Char.ext (UInt32.toNat_inj.mp hval)

theorem colon_notMem_ofText {s : String} (h : ':' ∉ s.toList) : colon ∉ ofText s := by
  rw [ofText_eq_flatMap, List.mem_flatMap]
  rintro ⟨c, hc, hcolon⟩
  exact h (eq_of_colon_mem hcolon ▸ hc)

end Bytes

open Bytes (ofText colon)

/-! ### Contents in pieces -/

namespace Engine

/-- The state of an engine does not say in which parts it has absorbed its message. -/
structure Incremental (e : Engine) : Prop where
  /-- Two parts are one part. -/
  absorb_append : ∀ s a b, e.absorb (e.absorb s a) b = e.absorb s (a ++ b)
  /-- A blank message may come in no part, as that of an empty file does. -/
  absorb_nil : e.absorb e.start [] = e.start

theorem incremental_ofHash (hash : Bytes → Bytes) : (ofHash hash).Incremental :=
  ⟨fun s a b => List.append_assoc s a b, rfl⟩

/-- What is absorbed before a content. -/
def mark : Option String → Bytes
  | none => []
  | some domain => ofText domain ++ [colon]

variable {e : Engine}

theorem Incremental.startIn_eq (h : e.Incremental) (domain : Option String) :
    e.startIn domain = e.absorb e.start (mark domain) := by
  cases domain with
  | none => exact h.absorb_nil.symm
  | some domain => exact h.absorb_append e.start (ofText domain) [colon]

theorem Incremental.foldl_absorb (h : e.Incremental) (a : Bytes) (pieces : List Bytes) :
    pieces.foldl e.absorb (e.absorb e.start a) = e.absorb e.start (a ++ pieces.flatten) := by
  induction pieces generalizing a with
  | nil => rw [List.foldl_nil, List.flatten_nil, List.append_nil]
  | cons piece pieces ih => rw [List.foldl_cons, h.absorb_append, ih, List.flatten_cons, List.append_assoc]

end Engine

namespace Hasher

/-- However a content arrives, it has the same digest. -/
structure Seamless (h : Hasher) : Prop where
  pieces : ∀ pieces, h.digestPieces pieces = h.digest pieces.flatten
  file : ∀ content, h.digestFile content = h.digest content

theorem seamless_of_pieces {h : Hasher} (hpieces : ∀ pieces, h.digestPieces pieces = h.digest pieces.flatten) :
    h.Seamless where
  pieces := hpieces
  file content := by rw [digestFile, hpieces, Bytes.flatten_inPieces]

theorem seamless_ofDigest (digest : Bytes → Bytes) : (ofDigest digest).Seamless :=
  seamless_of_pieces fun _ => rfl

theorem absorbed_eq (domain : Option String) (content : Bytes) :
    absorbed domain content = Engine.mark domain ++ content := by
  cases domain with
  | none => rfl
  | some domain => exact (List.append_assoc _ [colon] content).symm

/-- The digest of a content is that of what is absorbed for it. -/
theorem digest_ofEngine {e : Engine} (he : e.Incremental) (domain : Option String) (content : Bytes) :
    (ofEngine e domain).digest content = e.finish (e.absorb e.start (absorbed domain content)) := by
  show e.finish (e.absorb (e.startIn domain) content) = _
  rw [he.startIn_eq, he.absorb_append, absorbed_eq]

theorem seamless_ofEngine {e : Engine} (he : e.Incremental) (domain : Option String) :
    (ofEngine e domain).Seamless := by
  refine seamless_of_pieces fun pieces => ?_
  rw [digest_ofEngine he, absorbed_eq]
  show e.finish (pieces.foldl e.absorb (e.startIn domain)) = _
  rw [he.startIn_eq, he.foldl_absorb]

/-! ### Contents in domains -/

theorem mark_injective {c d : Option String} (h : Engine.mark c = Engine.mark d) : c = d := by
  cases c with
  | none =>
    cases d with
    | none => rfl
    | some d => simp [Engine.mark] at h
  | some c =>
    cases d with
    | none => simp [Engine.mark] at h
    | some d => rw [Bytes.ofText_injective (List.append_cancel_right h)]

theorem absorbed_ne {c d : Option String} (hne : c ≠ d) (content : Bytes) :
    absorbed c content ≠ absorbed d content := by
  rw [absorbed_eq, absorbed_eq]
  exact fun h => hne (mark_injective (List.append_cancel_right h))

/-- Two contents are absorbed alike if what one mark has beyond the other begins the content behind the other. -/
theorem absorbed_eq_iff {c d : Option String} {x y : Bytes} : absorbed c x = absorbed d y ↔
    ∃ r, (Engine.mark c = Engine.mark d ++ r ∧ y = r ++ x) ∨ (Engine.mark d = Engine.mark c ++ r ∧ x = r ++ y) := by
  rw [absorbed_eq, absorbed_eq, List.append_eq_append_iff, exists_or, or_comm]

/-- A mark with no colon but the one at its end begins no other such mark. -/
theorem mark_ne_append {a b : String} (hne : a ≠ b) (ha : ':' ∉ a.toList) (r : Bytes) :
    Engine.mark (some a) ≠ Engine.mark (some b) ++ r := by
  intro h
  rw [Engine.mark, Engine.mark, List.append_assoc, List.singleton_append] at h
  rcases List.append_eq_append_iff.mp h with ⟨s, hb, hs⟩ | ⟨s, hab, hs⟩
  · cases s with
    | nil => exact hne (Bytes.ofText_injective (by rw [hb, List.append_nil])).symm
    | cons x s => simp at hs
  · cases s with
    | nil => exact hne (Bytes.ofText_injective (by rw [hab, List.append_nil]))
    | cons x s =>
      -- the colon that ends the other domain lies in this one
      obtain ⟨rfl, -⟩ := List.cons.inj hs
      exact Bytes.colon_notMem_ofText ha (by rw [hab]; simp)

/-- No two contents are absorbed alike in two domains without a colon. -/
theorem absorbed_ne_of_noColon {a b : String} (hne : a ≠ b) (ha : ':' ∉ a.toList) (hb : ':' ∉ b.toList)
    (x y : Bytes) : absorbed (some a) x ≠ absorbed (some b) y := by
  rw [Ne, absorbed_eq_iff]
  rintro ⟨r, ⟨h, -⟩ | ⟨h, -⟩⟩
  · exact mark_ne_append hne ha r h
  · exact mark_ne_append hne.symm hb r h

end Hasher

/-- **Digests agree and domains separate.**  With an incremental engine, the digest of a content is the same however
the content arrives, and it is that of what is absorbed for the content.  One content is not absorbed alike in two
domains, and two contents are only if the mark of one domain begins that of the other and what it lacks begins the
content; between two domains without a colon this does not happen. -/
theorem digests_agree_domains_separate {e : Engine} (he : e.Incremental) :
    (∀ domain, (Hasher.ofEngine e domain).Seamless) ∧
    (∀ digest, (Hasher.ofDigest digest).Seamless) ∧
    (∀ domain content, (Hasher.ofEngine e domain).digest content =
      e.finish (e.absorb e.start (Hasher.absorbed domain content))) ∧
    (∀ c d, c ≠ d → ∀ x, Hasher.absorbed c x ≠ Hasher.absorbed d x) ∧
    (∀ c d x y, Hasher.absorbed c x = Hasher.absorbed d y ↔ ∃ r,
      (Engine.mark c = Engine.mark d ++ r ∧ y = r ++ x) ∨ (Engine.mark d = Engine.mark c ++ r ∧ x = r ++ y)) ∧
    (∀ a b, a ≠ b → ':' ∉ a.toList → ':' ∉ b.toList →
      ∀ x y, Hasher.absorbed (some a) x ≠ Hasher.absorbed (some b) y) :=
  ⟨Hasher.seamless_ofEngine he, Hasher.seamless_ofDigest, Hasher.digest_ofEngine he, fun _ _ => Hasher.absorbed_ne,
    fun _ _ _ _ => Hasher.absorbed_eq_iff, fun _ _ => Hasher.absorbed_ne_of_noColon⟩

/-- BLAKE3 and SHA-512 take their message in any parts; the domain `a` can imitate the domain `a:b`, and not `b`. -/
theorem digests_agree_domains_separate_imitated :
    Engine.blake3.Incremental ∧ Engine.sha512.Incremental ∧
    (Hasher.blake3 (some "a")).digestPieces [[1], [2, 3]] = (Hasher.blake3 (some "a")).digest [1, 2, 3] ∧
    Hasher.sha512.digestPieces [[1], [2, 3]] = Hasher.sha512.digest [1, 2, 3] ∧
    Hasher.absorbed (some "a") [98, 58, 120] = Hasher.absorbed (some "a:b") [120] ∧
    Hasher.absorbed (some "a") [98, 58, 120] ≠ Hasher.absorbed (some "b") [120] := by
  have hblake3 : Engine.blake3.Incremental := Engine.incremental_ofHash Blake3.hash
  have hsha512 : Engine.sha512.Incremental := Engine.incremental_ofHash Sha512.hash
  obtain ⟨hseamless, -, -, -, halike, hseparate⟩ := digests_agree_domains_separate hblake3
  obtain ⟨hseamless', -⟩ := digests_agree_domains_separate hsha512
  exact ⟨hblake3, hsha512, (hseamless (some "a")).pieces [[1], [2, 3]], (hseamless' none).pieces [[1], [2, 3]],
    (halike _ _ _ _).mpr ⟨[98, 58], Or.inr ⟨by decide +kernel, rfl⟩⟩,
    hseparate "a" "b" (by decide) (by decide) (by decide) _ _⟩

end ContentStore
