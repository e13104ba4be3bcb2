import Mathlib.Algebra.Ring.Nat
import Mathlib.Data.List.Basic

/- Byte images addressed by offset: cutting out a range (`slice`), writing over
   a range (`overwrite`), and two-byte little-endian words. A file on disk and a
   range of memory are both lists here; what a write does is said byte by byte
   (`getElem?_overwrite`), and ranges are compared through it. -/
namespace Lib.Bytes

variable {α : Type}

/-- The `n` entries of `l` from offset `pos` on. -/
def slice (l : List α) (pos n : Nat) : List α := (l.drop pos).take n

/-- `l` with the entries from offset `pos` on replaced by `bs`. -/
def overwrite (l : List α) (pos : Nat) (bs : List α) : List α :=
  l.take pos ++ bs ++ l.drop (pos + bs.length)

theorem getElem?_slice (l : List α) (pos n i : Nat) :
    (slice l pos n)[i]? = if i < n then l[pos + i]? else none := by
  simp [slice, List.getElem?_take]

theorem length_slice {l : List α} {pos n : Nat} (h : pos + n ≤ l.length) :
    (slice l pos n).length = n := by
  simp [slice]; omega

theorem length_overwrite {l : List α} {pos : Nat} {bs : List α} (h : pos + bs.length ≤ l.length) :
    (overwrite l pos bs).length = l.length := by
  simp [overwrite]; omega

/-- Inside the written range the new entries are read, outside it the old. -/
theorem getElem?_overwrite {l : List α} {pos : Nat} {bs : List α} (h : pos + bs.length ≤ l.length)
    (i : Nat) : (overwrite l pos bs)[i]? =
      if pos ≤ i ∧ i < pos + bs.length then bs[i - pos]? else l[i]? := by
  unfold overwrite
  have htake : (l.take pos).length = pos := by simp; omega
  by_cases h1 : i < pos
  · rw [if_neg (by omega), List.append_assoc, List.getElem?_append_left (by omega),
      List.getElem?_take, if_pos h1]
  · by_cases h2 : i < pos + bs.length
    · rw [if_pos (by omega), List.append_assoc, List.getElem?_append_right (by omega), htake,
        List.getElem?_append_left (by omega)]
    · rw [if_neg (by omega), List.getElem?_append_right (by simp; omega), List.getElem?_drop]
      congr 1
      simp only [List.length_append, htake]; omega

/-- A range cut from an image after a write that covers it exactly. -/
theorem slice_overwrite_same {l : List α} {pos : Nat} {bs : List α}
    (h : pos + bs.length ≤ l.length) : slice (overwrite l pos bs) pos bs.length = bs := by
  apply List.ext_getElem?
  intro i
  rw [getElem?_slice]
  by_cases hi : i < bs.length
  · rw [if_pos hi, getElem?_overwrite h, if_pos (by omega)]
    congr 1; omega
  · rw [if_neg hi, List.getElem?_eq_none (by omega)]

/-- A range disjoint from the written one is not touched. -/
theorem slice_overwrite_disjoint {l : List α} {pos : Nat} {bs : List α} {p n : Nat}
    (h : pos + bs.length ≤ l.length) (hd : p + n ≤ pos ∨ pos + bs.length ≤ p) :
    slice (overwrite l pos bs) p n = slice l p n := by
  apply List.ext_getElem?
  intro i
  rw [getElem?_slice, getElem?_slice]
  by_cases hi : i < n
  · rw [if_pos hi, if_pos hi, getElem?_overwrite h, if_neg (by omega)]
  · rw [if_neg hi, if_neg hi]

/-- Two adjacent writes are one. -/
theorem overwrite_append {l : List α} {pos : Nat} (as bs : List α)
    (h : pos + (as.length + bs.length) ≤ l.length) :
    overwrite (overwrite l pos as) (pos + as.length) bs = overwrite l pos (as ++ bs) := by
  have has : pos + as.length ≤ l.length := by omega
  apply List.ext_getElem?
  intro i
  rw [getElem?_overwrite (by rw [length_overwrite has]; omega), getElem?_overwrite has,
    getElem?_overwrite (by rw [List.length_append]; omega), List.length_append]
  by_cases h1 : pos + as.length ≤ i ∧ i < pos + as.length + bs.length
  · rw [if_pos h1, if_pos (by omega), List.getElem?_append_right (by omega)]
    congr 1; omega
  · rw [if_neg h1]
    by_cases h2 : pos ≤ i ∧ i < pos + as.length
    · rw [if_pos h2, if_pos (by omega), List.getElem?_append_left (by omega)]
    · rw [if_neg h2, if_neg (by omega)]

/-- A write of the whole image. -/
theorem overwrite_all {l bs : List α} (h : bs.length = l.length) : overwrite l 0 bs = bs := by
  simp [overwrite, h]

/-- A cell of a fixed array is a range of one. -/
theorem toList_setIfInBounds {n : Nat} (v : Vector α n) {i : Nat} (a : α) (h : i < n) :
    (v.setIfInBounds i a).toList = overwrite v.toList i [a] := by
  apply List.ext_getElem?
  intro j
  rw [getElem?_overwrite (by simp; omega), Vector.getElem?_toList, Vector.getElem?_setIfInBounds,
    List.length_singleton]
  by_cases hij : i = j
  · subst hij
    simp [h]
  · rw [if_neg hij, if_neg (by omega), Vector.getElem?_toList]

/-! Little-endian words. -/

/-- The word stored as `lo`, then `hi`. -/
def le16 (lo hi : UInt8) : UInt16 := UInt16.ofNat (lo.toNat + 256 * hi.toNat)

theorem le16_toNat (lo hi : UInt8) : (le16 lo hi).toNat = lo.toNat + 256 * hi.toNat := by
  have h1 := lo.toNat_lt
  have h2 := hi.toNat_lt
  simp only [le16, UInt16.toNat_ofNat']
  omega

theorem le16_injective {a b a' b' : UInt8} (h : le16 a b = le16 a' b') : a = a' ∧ b = b' := by
  have hn := congrArg UInt16.toNat h
  rw [le16_toNat, le16_toNat] at hn
  have h1 := a.toNat_lt
  have h2 := a'.toNat_lt
  exact ⟨UInt8.toNat_inj.mp (by omega), UInt8.toNat_inj.mp (by omega)⟩

/-- The word at byte offset `o`. -/
def wordAt (l : List UInt8) (o : Nat) : UInt16 := le16 (l.getD o 0) (l.getD (o + 1) 0)

/-- The low and the high byte of a word. -/
def lowByte (w : UInt16) : UInt8 := (w &&& 0x00FF).toUInt8
def highByte (w : UInt16) : UInt8 := (w >>> 8).toUInt8

/-- The bytes of a list of words, each low byte first. -/
def leBytes (ws : List UInt16) : List UInt8 := ws.flatMap fun w => [lowByte w, highByte w]

@[simp] theorem leBytes_nil : leBytes [] = [] := rfl

@[simp] theorem leBytes_cons (w : UInt16) (ws : List UInt16) :
    leBytes (w :: ws) = lowByte w :: highByte w :: leBytes ws := rfl

theorem leBytes_append (ws vs : List UInt16) : leBytes (ws ++ vs) = leBytes ws ++ leBytes vs :=
  List.flatMap_append

@[simp] theorem length_leBytes (ws : List UInt16) : (leBytes ws).length = 2 * ws.length := by
  induction ws with
  | nil => rfl
  | cons w ws ih => simp only [leBytes_cons, List.length_cons, ih]; omega

theorem le16_lowByte_highByte (w : UInt16) : le16 (lowByte w) (highByte w) = w := by
  have hw := w.toNat_lt
  have hlow : (lowByte w).toNat = w.toNat % 256 := by
    rw [lowByte, UInt16.toNat_toUInt8, UInt16.toNat_and]
    have hmask : w.toNat &&& 255 = w.toNat % 256 := Nat.and_two_pow_sub_one_eq_mod w.toNat 8
    exact (congrArg (· % 256) hmask).trans (Nat.mod_mod w.toNat 256)
  have hhigh : (highByte w).toNat = w.toNat / 256 := by
    simp only [highByte, UInt16.toNat_toUInt8, UInt16.toNat_shiftRight, UInt16.reduceToNat, Nat.reduceMod,
      Nat.shiftRight_eq_div_pow]
    omega
  apply UInt16.toNat_inj.mp
  rw [le16_toNat, hlow, hhigh]
  omega

/-- The words of an encoding are those encoded. -/
theorem wordAt_leBytes (ws : List UInt16) {j : Nat} (hj : j < ws.length) : wordAt (leBytes ws) (2 * j) = ws.getD j 0 := by
  induction ws generalizing j with
  | nil => exact absurd hj (Nat.not_lt_zero j)
  | cons v ws ih =>
    cases j with
    | zero => exact le16_lowByte_highByte v
    | succ j => exact ih (Nat.lt_of_succ_lt_succ hj)

theorem wordAt_slice {l : List UInt8} {pos n o : Nat} (h : o + 1 < n) :
    wordAt (slice l pos n) o = wordAt l (pos + o) := by
  simp only [wordAt, List.getD_eq_getElem?_getD, getElem?_slice, if_pos h,
    if_pos (Nat.lt_of_succ_lt h), Nat.add_assoc]

/-- Two images of the same even length with the same words are equal. -/
theorem eq_of_wordAt {l l' : List UInt8} {n : Nat} (hl : l.length = 2 * n) (hl' : l'.length = 2 * n)
    (h : ∀ j, j < n → wordAt l (2 * j) = wordAt l' (2 * j)) : l = l' := by
  apply List.ext_getElem?
  intro i
  by_cases hi : i < 2 * n
  · obtain ⟨hlo, hhi⟩ := le16_injective (h (i / 2) (by omega))
    simp only [List.getD_eq_getElem?_getD] at hlo hhi
    have hin : i < l.length := by omega
    have hin' : i < l'.length := by omega
    rcases Nat.mod_two_eq_zero_or_one i with hpar | hpar
    · rw [show 2 * (i / 2) = i by omega] at hlo
      simpa [hin, hin'] using hlo
    · rw [show 2 * (i / 2) + 1 = i by omega] at hhi
      simpa [hin, hin'] using hhi
  · rw [List.getElem?_eq_none (by omega), List.getElem?_eq_none (by omega)]

/-- The number whose little-endian digits are `bs`. -/
def leNat (bs : List UInt8) : Nat := bs.foldr (fun b v => b.toNat + 256 * v) 0

theorem leNat_lt (bs : List UInt8) : leNat bs < 256^bs.length := by
  induction bs with
  | nil => exact Nat.one_pos
  | cons b bs ih =>
    have hb := b.toNat_lt
    rw [List.length_cons, Nat.pow_succ']
    calc leNat (b :: bs) = b.toNat + 256 * leNat bs := rfl
      _ < 256 * 256^bs.length := by omega

theorem leNat_append (bs cs : List UInt8) : leNat (bs ++ cs) = leNat bs + 256^bs.length * leNat cs := by
  induction bs with
  | nil => simp [leNat]
  | cons b bs ih =>
    have hcons : ∀ ds, leNat (b :: ds) = b.toNat + 256 * leNat ds := fun _ => rfl
    rw [List.cons_append, hcons, hcons, ih, List.length_cons, Nat.pow_succ', Nat.mul_add, Nat.mul_assoc,
      Nat.add_assoc]

/-- The digits of a number are its bytes. -/
theorem leNat_digit {bs : List UInt8} {i : Nat} (hi : i < bs.length) :
    leNat bs / 256^i % 256 = bs[i].toNat := by
  induction bs generalizing i with
  | nil => exact absurd hi (Nat.not_lt_zero i)
  | cons b bs ih =>
    have hb := b.toNat_lt
    have hcons : leNat (b :: bs) = b.toNat + 256 * leNat bs := rfl
    cases i with
    | zero =>
      rw [hcons, Nat.pow_zero, Nat.div_one, List.getElem_cons_zero]
      omega
    | succ i =>
      have hrest : leNat (b :: bs) / 256 = leNat bs := by
        rw [hcons]
        omega
      rw [Nat.pow_succ', ← Nat.div_div_eq_div_mul, hrest, ih (Nat.lt_of_succ_lt_succ hi),
        List.getElem_cons_succ]

/-- A number is made of its digits. -/
theorem leNat_digits (v k : Nat) :
    leNat ((List.range k).map fun i => UInt8.ofNat (v / 256^i)) = v % 256^k := by
  induction k generalizing v with
  | zero => rw [Nat.pow_zero, Nat.mod_one]; rfl
  | succ k ih =>
    have hrest : (fun i => UInt8.ofNat (v / 256^i)) ∘ Nat.succ = fun i => UInt8.ofNat (v / 256 / 256^i) := by
      funext i
      rw [Function.comp_apply, Nat.pow_succ', Nat.div_div_eq_div_mul]
    have hcons : ∀ b bs, leNat (b :: bs) = b.toNat + 256 * leNat bs := fun _ _ => rfl
    rw [List.range_succ_eq_map, List.map_cons, List.map_map, hrest, hcons, ih, Nat.pow_zero, Nat.div_one,
      UInt8.toNat_ofNat', show 256^(k + 1) = 2^8 * 256^k from Nat.pow_succ', Nat.mod_mul]
    rfl

end Lib.Bytes
