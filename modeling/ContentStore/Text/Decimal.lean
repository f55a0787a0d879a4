import ContentStore.Text.Bytes

/-!
# Decimal numbers

A number is written without leading zeros; a run of digits is read whatever its zeros.  The main
statement is `ofDigits_render`: a written number reads back.
-/

namespace ContentStore.Decimal

/-- The numbers that fit into one unsigned word of 64 bits are those below this one. -/
def wordLimit : Nat := 0x10000000000000000

def wordMax : Nat := wordLimit - 1

def isDigit (b : UInt8) : Bool := 48 ≤ b && b ≤ 57

def render (n : Nat) : Bytes :=
  if n < 10 then [UInt8.ofNat (48 + n)]
  else render (n / 10) ++ [UInt8.ofNat (48 + n % 10)]

/-- The number that a run of digits stands for. -/
def ofDigits (ds : Bytes) : Nat := ds.foldl (fun n d => 10 * n + (d.toNat - 48)) 0

/-- The number that the leading digits of a text stand for: zero if there are none or if it does not
fit into a word. -/
def leadingNumber (text : Bytes) : Nat :=
  let n := ofDigits (text.takeWhile isDigit)
  if n < wordLimit then n else 0

/-! ### Reading back -/

theorem ofDigits_append_digit (ds : Bytes) (d : UInt8) :
    ofDigits (ds ++ [d]) = 10 * ofDigits ds + (d.toNat - 48) := by
  simp [ofDigits, List.foldl_append]

theorem render_ne_nil (n : Nat) : render n ≠ [] := by
  unfold render
  split <;> simp

theorem isDigit_ofNat_add {k : Nat} (h : k < 10) : isDigit (UInt8.ofNat (48 + k)) = true := by
  have : ∀ i : Fin 10, isDigit (UInt8.ofNat (48 + i.val)) = true := by decide
  exact this ⟨k, h⟩

theorem isDigit_of_mem_render {b : UInt8} {n : Nat} (h : b ∈ render n) : isDigit b = true := by
  fun_induction render n with
  | case1 n hn =>
    rw [List.mem_singleton] at h
    exact h ▸ isDigit_ofNat_add hn
  | case2 n hn ih =>
    rcases List.mem_append.mp h with h | h
    · exact ih h
    · rw [List.mem_singleton] at h
      exact h ▸ isDigit_ofNat_add (by omega)

theorem toNat_ofNat_add {k : Nat} (h : k < 10) : (UInt8.ofNat (48 + k)).toNat - 48 = k := by
  rw [UInt8.toNat_ofNat']
  omega

theorem ofDigits_render (n : Nat) : ofDigits (render n) = n := by
  fun_induction render n with
  | case1 n hn =>
    have h := toNat_ofNat_add hn
    simpa only [ofDigits, List.foldl_cons, List.foldl_nil, Nat.mul_zero, Nat.zero_add] using h
  | case2 n hn ih =>
    rw [ofDigits_append_digit, ih, toNat_ofNat_add (by omega)]
    omega

theorem render_injective {m n : Nat} (h : render m = render n) : m = n := by
  rw [← ofDigits_render m, h, ofDigits_render]

end ContentStore.Decimal
