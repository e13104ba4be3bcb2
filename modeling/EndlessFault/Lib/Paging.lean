import Mathlib.Algebra.Ring.Nat
import Mathlib.Data.Nat.Basic

/- The four-level page walk of x86-64. Tables are pages of 512 entries of eight
   bytes, read from physical memory through `read`; a level is named by the number
   of levels below it, so level 3 is the PML4 and level 0 the page table proper.
   An entry of level 1 or 2 with its PS bit set maps a large page. Reserved bits
   are not checked.

   `walk` translates one address. `Leads` says of an entry that some address under
   it is translated, without naming the address: `none_of_not_leads` and
   `exists_of_leads` are the two halves of that. -/
namespace Lib.Paging

def present (e : UInt64) : Bool := e.toNat.testBit 0
def writable (e : UInt64) : Bool := e.toNat.testBit 1
def user (e : UInt64) : Bool := e.toNat.testBit 2
def large (e : UInt64) : Bool := e.toNat.testBit 7

/-- The page an entry points at: bits 12 to 51. -/
def frame (e : UInt64) : Nat := e.toNat / 2^12 % 2^40 * 2^12

/-- The size of the region under one entry of level `n`. -/
def span (n : Nat) : Nat := 2^(12 + 9 * n)

/-- The index an address selects in a table of level `n`. -/
def index (n v : Nat) : Nat := v / span n % 512

/-- An entry of level `n` that maps a page itself. -/
def isLeaf (n : Nat) (e : UInt64) : Bool := n == 0 || (decide (n ≤ 2) && large e)

structure Translation where
  phys : Nat
  writable : Bool
  user : Bool
  deriving DecidableEq, Repr

variable (read : Nat → UInt64)

/-- The translation of `v` from its entry `e` of level `n` on; `w` and `u` say
whether the entries above allow writes and user accesses. -/
def walkEntry (v : Nat) : Nat → UInt64 → Bool → Bool → Option Translation
  | 0, e, w, u =>
    if present e then
      some ⟨e.toNat % 2^52 / span 0 * span 0 + v % span 0, w && writable e, u && user e⟩
    else none
  | n + 1, e, w, u =>
    if present e then
      if isLeaf (n + 1) e then
        some ⟨e.toNat % 2^52 / span (n + 1) * span (n + 1) + v % span (n + 1),
          w && writable e, u && user e⟩
      else walkEntry v n (read (frame e + 8 * index n v)) (w && writable e) (u && user e)
    else none

def walk (cr3 : UInt64) (v : Nat) : Option Translation :=
  walkEntry read v 3 (read (frame cr3 + 8 * index 3 v)) true true

/-- Bits 48 to 63 repeat bit 47. -/
def Canonical (v : UInt64) : Prop := v.toNat < 2^47 ∨ 2^64 - 2^47 ≤ v.toNat

variable {read}

theorem walkEntry_absent {v n : Nat} {e : UInt64} (h : present e = false) (w u : Bool) :
    walkEntry read v n e w u = none := by
  cases n <;> simp [walkEntry, h]

theorem walkEntry_leaf {v n : Nat} {e : UInt64} (h : present e = true) (hl : isLeaf n e = true)
    (w u : Bool) : walkEntry read v n e w u =
      some ⟨e.toNat % 2^52 / span n * span n + v % span n, w && writable e, u && user e⟩ := by
  cases n with
  | zero => rw [walkEntry, if_pos h]
  | succ n => rw [walkEntry, if_pos h, if_pos hl]

theorem walkEntry_table {v n : Nat} {e : UInt64} (h : present e = true)
    (hl : isLeaf (n + 1) e = false) (w u : Bool) : walkEntry read v (n + 1) e w u =
      walkEntry read v n (read (frame e + 8 * index n v)) (w && writable e) (u && user e) := by
  rw [walkEntry, if_pos h, if_neg (by rw [hl]; decide)]

/-! Entries that lead to a page. -/

variable (read) in
/-- Some address under the entry `e` of level `n` is translated. -/
def Leads : Nat → UInt64 → Prop
  | 0, e => present e = true
  | n + 1, e => present e = true ∧
      (isLeaf (n + 1) e = true ∨ ∃ j, j < 512 ∧ Leads n (read (frame e + 8 * j)))

theorem index_lt (n v : Nat) : index n v < 512 := Nat.mod_lt _ (by decide)

theorem span_pos (n : Nat) : 0 < span n := Nat.two_pow_pos _

theorem span_succ (n : Nat) : span (n + 1) = span n * 512 := by
  rw [span, span, show 12 + 9 * (n + 1) = 12 + 9 * n + 9 by omega, Nat.pow_add]

/-- The index of level `n` is a matter of the offset under an entry above it. -/
theorem index_mod (n v : Nat) : index n v = v % span (n + 1) / span n := by
  rw [span_succ, index, Nat.mod_mul_right_div_self]

theorem mod_span_mod (n v : Nat) : v % span (n + 1) % span n = v % span n := by
  rw [span_succ]
  exact Nat.mod_mul_right_mod ..

theorem none_of_not_leads {n : Nat} {e : UInt64} (h : ¬ Leads read n e) (v : Nat) (w u : Bool) :
    walkEntry read v n e w u = none := by
  induction n generalizing e w u with
  | zero => exact walkEntry_absent (by simpa [Leads] using h) w u
  | succ n ih =>
    cases hp : present e with
    | false => exact walkEntry_absent hp w u
    | true =>
      rw [Leads, not_and, not_or] at h
      obtain ⟨hleaf, hbelow⟩ := h hp
      rw [walkEntry_table hp (by simpa using hleaf)]
      exact ih (fun hl => hbelow ⟨_, index_lt n v, hl⟩) _ _

/-- An entry that leads to a page does so at some offset, for every address with
that offset. -/
theorem exists_of_leads {n : Nat} {e : UInt64} (h : Leads read n e) :
    ∃ r, r < span n ∧ ∀ v, v % span n = r → ∀ w u, walkEntry read v n e w u ≠ none := by
  induction n generalizing e with
  | zero =>
    refine ⟨0, span_pos 0, fun v _ w u => ?_⟩
    rw [walkEntry_leaf h rfl]
    exact Option.some_ne_none _
  | succ n ih =>
    obtain ⟨hp, hbelow⟩ := h
    cases hl : isLeaf (n + 1) e with
    | true =>
      refine ⟨0, span_pos _, fun v _ w u => ?_⟩
      rw [walkEntry_leaf hp hl]
      exact Option.some_ne_none _
    | false =>
      obtain ⟨j, hj, hlead⟩ := hbelow.resolve_left (by simp [hl])
      obtain ⟨r, hr, hwalk⟩ := ih hlead
      have hpos := span_pos n
      refine ⟨span n * j + r, ?_, fun v hv w u => ?_⟩
      · rw [span_succ]
        calc span n * j + r < span n * j + span n := by omega
          _ = span n * (j + 1) := by rw [Nat.mul_succ]
          _ ≤ span n * 512 := Nat.mul_le_mul_left _ hj
      · have hindex : index n v = j := by
          rw [index_mod, hv, Nat.mul_add_div hpos, Nat.div_eq_of_lt hr, Nat.add_zero]
        have hoff : v % span n = r := by
          rw [← mod_span_mod, hv, Nat.mul_add_mod, Nat.mod_eq_of_lt hr]
        rw [walkEntry_table hp hl, hindex]
        exact hwalk v hoff _ _

end Lib.Paging
