import ContentStore.Text.Bytes

/-!
# Lowercase hexadecimal

Every byte is written as two lowercase hexadecimal digits.  The main statements are `decode_encode`
(nothing is lost), hence `encode_injective`, `prefix_of_encode` (what begins with the form of a byte sequence is that
of one that begins with it), and `isDigit_of_mem_encode` (only digits are written).
-/

namespace ContentStore.Hex

open Bytes

def digit (n : Nat) : UInt8 := if n < 10 then UInt8.ofNat (48 + n) else UInt8.ofNat (87 + n)

def isDigit (b : UInt8) : Bool := (48 ≤ b && b ≤ 57) || (97 ≤ b && b ≤ 102)

def value? (b : UInt8) : Option Nat :=
  if 48 ≤ b ∧ b ≤ 57 then some (b.toNat - 48)
  else if 97 ≤ b ∧ b ≤ 102 then some (b.toNat - 87)
  else none

/-- Two digits for every byte, the high one first. -/
def encode : Bytes → Bytes
  | [] => []
  | b :: bs => digit (b.toNat / 16) :: digit (b.toNat % 16) :: encode bs

/-- Reads what `encode` writes and nothing else. -/
def decode : Bytes → Option Bytes
  | [] => some []
  | [_] => none
  | high :: low :: rest =>
    match value? high, value? low with
    | some h, some l => (decode rest).map (UInt8.ofNat (16 * h + l) :: ·)
    | _, _ => none

def text (bs : Bytes) : String := String.ofList ((encode bs).map fun b => Char.ofNat b.toNat)

/-! ### Digits -/

theorem isDigit_digit : ∀ n : Fin 16, isDigit (digit n) = true := by decide

theorem value?_digit : ∀ n : Fin 16, value? (digit n) = some n.val := by decide

theorem isDigit_of_mem_encode {b : UInt8} {bs : Bytes} (h : b ∈ encode bs) : isDigit b = true := by
  induction bs with
  | nil => simp [encode] at h
  | cons c cs ih =>
    have hc := c.toNat_lt
    simp only [encode, List.mem_cons] at h
    rcases h with rfl | rfl | h
    · exact isDigit_digit ⟨c.toNat / 16, by omega⟩
    · exact isDigit_digit ⟨c.toNat % 16, by omega⟩
    · exact ih h

/-! ### Reading back -/

@[simp] theorem length_encode (bs : Bytes) : (encode bs).length = 2 * bs.length := by
  induction bs with
  | nil => rfl
  | cons b bs ih => simp only [encode, List.length_cons, ih]; omega

theorem decode_encode (bs : Bytes) : decode (encode bs) = some bs := by
  induction bs with
  | nil => rfl
  | cons b bs ih =>
    have hb := b.toNat_lt
    have hhigh := value?_digit ⟨b.toNat / 16, by omega⟩
    have hlow := value?_digit ⟨b.toNat % 16, by omega⟩
    simp only at hhigh hlow
    have hsum : 16 * (b.toNat / 16) + b.toNat % 16 = b.toNat := by omega
    simp [encode, decode, hhigh, hlow, ih, hsum]

theorem encode_injective {a b : Bytes} (h : encode a = encode b) : a = b := by
  have ha := decode_encode a
  rw [h, decode_encode] at ha
  exact (Option.some.inj ha).symm

/-- Every digit is that of a number. -/
theorem exists_digit {b : UInt8} (h : isDigit b = true) : ∃ n < 16, digit n = b := by
  simp only [isDigit, Bool.or_eq_true, Bool.and_eq_true, decide_eq_true_eq, UInt8.le_iff_toNat_le] at h
  rcases h with ⟨hlow, hhigh⟩ | ⟨hlow, hhigh⟩ <;> simp only [UInt8.reduceToNat] at hlow hhigh
  · refine ⟨b.toNat - 48, by omega, ?_⟩
    rw [digit, if_pos (by omega), show 48 + (b.toNat - 48) = b.toNat by omega, UInt8.ofNat_toNat]
  · refine ⟨b.toNat - 87, by omega, ?_⟩
    rw [digit, if_neg (by omega), show 87 + (b.toNat - 87) = b.toNat by omega, UInt8.ofNat_toNat]

/-- Every even number of digits is written for some byte sequence. -/
theorem exists_encode {ds : Bytes} (hd : ∀ d ∈ ds, isDigit d = true) (heven : ds.length % 2 = 0) :
    ∃ bs, encode bs = ds :=
  match ds with
  | [] => ⟨[], rfl⟩
  | [_] => by cases heven
  | high :: low :: rest => by
    obtain ⟨h, hh, rfl⟩ := exists_digit (hd high (by simp))
    obtain ⟨l, hl, rfl⟩ := exists_digit (hd low (by simp))
    have hrest : rest.length % 2 = 0 := by
      rw [List.length_cons, List.length_cons] at heven
      omega
    obtain ⟨bs, rfl⟩ := exists_encode (fun d hm => hd d (by simp [hm])) hrest
    have hvalue : (UInt8.ofNat (16 * h + l)).toNat = 16 * h + l := by
      rw [UInt8.toNat_ofNat']
      omega
    refine ⟨UInt8.ofNat (16 * h + l) :: bs, ?_⟩
    rw [encode, hvalue, show (16 * h + l) / 16 = h by omega, show (16 * h + l) % 16 = l by omega]

theorem take_encode (bs : Bytes) (n : Nat) : (encode bs).take (2 * n) = encode (bs.take n) := by
  induction bs generalizing n with
  | nil => simp [encode]
  | cons b bs ih =>
    cases n with
    | zero => rfl
    | succ n =>
      rw [show 2 * (n + 1) = 2 * n + 1 + 1 by omega]
      simp only [encode, List.take_succ_cons, ih]

theorem prefix_of_encode {a b : Bytes} (h : encode a <+: encode b) : a <+: b := by
  rw [List.prefix_iff_eq_take, length_encode, take_encode] at h
  rw [List.prefix_iff_eq_take]
  exact encode_injective h

end ContentStore.Hex
