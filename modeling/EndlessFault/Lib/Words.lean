import EndlessFault.Lib.Bytes
import Mathlib.Algebra.Ring.Int.Defs
import Mathlib.Algebra.Order.Ring.Nat

/- Little-endian words in a byte memory. A memory gives the byte at each address;
   `load` and `store` move a number of `n` bytes, least significant first. A word
   reads back as it was stored (`load_store_same`), a store leaves the bytes
   outside it alone (`store_frame`), and so the words that do not overlap it
   (`load_store_disjoint`). `load64` and `store64` are the 8-byte words; among
   aligned ones a store changes exactly one (`load64_store64_aligned`).

   A word may also be put together from bit fields, from the low end up: a field
   or-ed in above the bits in use adds its value there (`Packed.field`), and the
   fields of a sum are read off one after the other (`bits_peel`). -/
namespace Lib.Words

/-- The number in the `n` bytes from `a` on. -/
def load (m : Int → UInt8) (a : Int) : Nat → Nat
  | 0 => 0
  | n + 1 => (m a).toNat + 256 * load m (a + 1) n

/-- The memory with the `n` low bytes of `v` stored from `a` on. -/
def store (m : Int → UInt8) (a : Int) (n v : Nat) : Int → UInt8 := fun x =>
  if a ≤ x ∧ x < a + n then UInt8.ofNat (v / 256^(x - a).toNat) else m x

variable {m m' : Int → UInt8} {a b : Int} {n k v : Nat}

theorem store_frame {x : Int} (h : ¬ (a ≤ x ∧ x < a + n)) : store m a n v x = m x := if_neg h

/-- A load depends on the bytes it covers only. -/
theorem load_congr (h : ∀ x, a ≤ x → x < a + n → m x = m' x) : load m a n = load m' a n := by
  induction n generalizing a with
  | zero => rfl
  | succ n ih =>
    rw [load, load, h a (by omega) (by omega), ih fun x h1 h2 => h x (by omega) (by omega)]

theorem load_lt (m : Int → UInt8) (a : Int) (n : Nat) : load m a n < 256^n := by
  induction n generalizing a with
  | zero => exact Nat.one_pos
  | succ n ih =>
    have hbyte := (m a).toNat_lt
    have hrest := ih (a + 1)
    rw [load, Nat.pow_succ]
    omega

/-- The number in two adjacent ranges. -/
theorem load_add (m : Int → UInt8) (a : Int) (n k : Nat) :
    load m a (n + k) = load m a n + 256^n * load m (a + n) k := by
  induction n generalizing a with
  | zero => simp [load]
  | succ n ih =>
    have haddr : a + 1 + (n : Int) = a + ((n + 1 : Nat) : Int) := by omega
    rw [Nat.succ_add, load, load, ih, haddr, Nat.pow_succ', Nat.mul_add, Nat.mul_assoc, Nat.add_assoc]

theorem load_store_same (m : Int → UInt8) (a : Int) (n v : Nat) :
    load (store m a n v) a n = v % 256^n := by
  induction n generalizing a v with
  | zero => rw [load, Nat.pow_zero, Nat.mod_one]
  | succ n ih =>
    -- behind the first byte the store is the one of `v / 256` at the next address
    have hrest : load (store m a (n + 1) v) (a + 1) n = load (store m (a + 1) n (v / 256)) (a + 1) n := by
      apply load_congr
      intro x h1 h2
      have hexp : (x - a).toNat = (x - (a + 1)).toNat + 1 := by omega
      rw [store, store, if_pos (by omega), if_pos (by omega), hexp, Nat.pow_succ', Nat.div_div_eq_div_mul]
    have hfirst : store m a (n + 1) v a = UInt8.ofNat v := by
      rw [store, if_pos (by omega), Int.sub_self, Int.toNat_zero, Nat.pow_zero, Nat.div_one]
    have hpow : 256^(n + 1) = 256 * 256^n := Nat.pow_succ'
    rw [load, hrest, ih, hfirst, UInt8.toNat_ofNat', hpow, Nat.mod_mul]

theorem load_store_disjoint (h : a + n ≤ b ∨ b + k ≤ a) :
    load (store m a n v) b k = load m b k := by
  apply load_congr
  intro x h1 h2
  exact store_frame (by omega)

/-- The number in a memory that holds the bytes of a list. -/
theorem load_eq_leNat {bs : List UInt8} (h : ∀ i (hi : i < bs.length), m (a + i) = bs[i]) :
    load m a bs.length = Bytes.leNat bs := by
  induction bs generalizing a with
  | nil => rfl
  | cons b bs ih =>
    have hfirst : m a = b := by
      have hzero := h 0 (Nat.zero_lt_succ _)
      rw [Int.natCast_zero, Int.add_zero] at hzero
      exact hzero
    have hrest : load m (a + 1) bs.length = Bytes.leNat bs := by
      apply ih
      intro i hi
      have hsucc := h (i + 1) (Nat.succ_lt_succ hi)
      rw [List.getElem_cons_succ, show a + ((i + 1 : Nat) : Int) = a + 1 + i by omega] at hsucc
      exact hsucc
    rw [List.length_cons, load, hfirst, hrest]
    rfl

/-! Words of eight bytes. -/

def load64 (m : Int → UInt8) (a : Int) : UInt64 := UInt64.ofNat (load m a 8)

def store64 (m : Int → UInt8) (a : Int) (w : UInt64) : Int → UInt8 := store m a 8 w.toNat

theorem load64_congr (h : ∀ x, a ≤ x → x < a + 8 → m x = m' x) : load64 m a = load64 m' a := by
  rw [load64, load64, load_congr h]

theorem load64_store64_same (m : Int → UInt8) (a : Int) (w : UInt64) :
    load64 (store64 m a w) a = w := by
  have hw : w.toNat % 256^8 = w.toNat := Nat.mod_eq_of_lt w.toNat_lt
  rw [load64, store64, load_store_same, hw, UInt64.ofNat_toNat]

theorem load64_store64_disjoint {w : UInt64} (h : a + 8 ≤ b ∨ b + 8 ≤ a) :
    load64 (store64 m a w) b = load64 m b := by
  rw [load64, store64, load_store_disjoint h, load64]

/-- Among aligned words a store changes the one it names. -/
theorem load64_store64_aligned (m : Int → UInt8) {w : UInt64} (ha : a % 8 = 0) (hb : b % 8 = 0) :
    load64 (store64 m a w) b = if b = a then w else load64 m b := by
  split_ifs with h
  · rw [h, load64_store64_same]
  · rw [load64_store64_disjoint (by omega)]

theorem store64_frame {w : UInt64} {x : Int} (h : ¬ (a ≤ x ∧ x < a + 8)) : store64 m a w x = m x :=
  store_frame h

/-! Words put together from bit fields. -/

/-- The `n` bits of `w` from bit `start` on. -/
def bits (w : UInt64) (start n : Nat) : Nat := w.toNat / 2^start % 2^n

/-- The lowest field of what is left of a word, and what is left above it. -/
theorem bits_peel {w : UInt64} {start low high : Nat} (h : w.toNat / 2^start = low + 2^n * high)
    (hlow : low < 2^n) : bits w start n = low ∧ w.toNat / 2^(start + n) = high := by
  have hpos : 0 < 2^n := Nat.two_pow_pos n
  refine ⟨?_, ?_⟩
  · rw [bits, h, Nat.add_mul_mod_self_left, Nat.mod_eq_of_lt hlow]
  · rw [Nat.pow_add, ← Nat.div_div_eq_div_mul, h, Nat.add_mul_div_left _ _ hpos,
      Nat.div_eq_of_lt hlow, Nat.zero_add]

/-- `w` holds the number `v` in its low `k` bits and nothing above them. -/
structure Packed (w : UInt64) (k v : Nat) : Prop where
  value : w.toNat = v
  lt : v < 2^k

/-- A field of `n` bits or-ed in at bit `s`, above the bits in use. -/
theorem Packed.field {w x s : UInt64} (h : Packed w k v) (hk : k ≤ s.toNat) (hn : 0 < n)
    (hx : x.toNat < 2^n) (hfit : s.toNat + n ≤ 64) :
    Packed (w ||| x <<< s) (s.toNat + n) (v + 2^s.toNat * x.toNat) := by
  have hv : v < 2^s.toNat := Nat.lt_of_lt_of_le h.lt (Nat.pow_le_pow_right Nat.two_pos hk)
  have hlt : v + 2^s.toNat * x.toNat < 2^(s.toNat + n) := by
    calc v + 2^s.toNat * x.toNat < 2^s.toNat * (x.toNat + 1) := by rw [Nat.mul_add]; omega
      _ ≤ 2^s.toNat * 2^n := Nat.mul_le_mul_left _ hx
      _ = 2^(s.toNat + n) := (Nat.pow_add 2 s.toNat n).symm
  have h64 : 2^(s.toNat + n) ≤ 2^64 := Nat.pow_le_pow_right Nat.two_pos hfit
  have hs : s.toNat % 64 = s.toNat := Nat.mod_eq_of_lt (by omega)
  refine ⟨?_, hlt⟩
  rw [UInt64.toNat_or, UInt64.toNat_shiftLeft, h.value, hs, Nat.shiftLeft_eq, Nat.mul_comm x.toNat,
    Nat.mod_eq_of_lt (by omega), Nat.or_comm, ← Nat.two_pow_add_eq_or_of_lt hv, Nat.add_comm]

end Lib.Words
