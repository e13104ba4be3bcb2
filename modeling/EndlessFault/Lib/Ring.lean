import Mathlib.Algebra.Ring.Nat
import Mathlib.Data.List.Basic
import Mathlib.Data.Nat.ModEq

/- Circular buffers with a head pointer, a tail pointer and an element count.
   `Wf` is the relation between the three; `contents` is the queue they stand
   for, oldest element first. Storing at the head and stepping it appends to the
   queue (`contents_push`); stepping the tail removes the front (`contents_pop`);
   both keep `Wf`. -/
namespace Lib.Ring

/-- The pointers of a ring of `n` cells: `count` cells are held from `tail` on,
and the next element goes to `head`. -/
structure Wf (n head tail count : Nat) : Prop where
  tail_lt : tail < n
  count_le : count ≤ n
  head_eq : head = (tail + count) % n

section
variable {n head tail count : Nat}

theorem Wf.head_lt (h : Wf n head tail count) : head < n := by
  rw [h.head_eq]
  exact Nat.mod_lt _ (Nat.zero_lt_of_lt h.tail_lt)

theorem Wf.push (h : Wf n head tail count) (hroom : count < n) :
    Wf n ((head + 1) % n) tail (count + 1) := by
  refine ⟨h.tail_lt, hroom, ?_⟩
  rw [h.head_eq, Nat.mod_add_mod, Nat.add_assoc]

theorem Wf.pop (h : Wf n head tail count) (hheld : count ≠ 0) :
    Wf n head ((tail + 1) % n) (count - 1) := by
  refine ⟨Nat.mod_lt _ (Nat.zero_lt_of_lt h.tail_lt), Nat.le_trans (Nat.sub_le ..) h.count_le, ?_⟩
  rw [h.head_eq, Nat.mod_add_mod]
  congr 1
  omega

/-- Cells at different distances from the tail are different cells. -/
theorem index_ne {i j : Nat} (hi : i < n) (hj : j < n) (hij : i ≠ j) :
    (tail + i) % n ≠ (tail + j) % n := by
  intro h
  have hmod : i ≡ j [MOD n] := Nat.ModEq.add_left_cancel' tail h
  exact hij (Nat.ModEq.eq_of_lt_of_lt hmod hi hj)

end

variable {α : Type} {n head tail count : Nat}

/-- The elements held, oldest first. -/
def contents (buf : Vector α n) (tail count : Nat) : List α :=
  (List.range count).filterMap fun i => buf[(tail + i) % n]?

theorem length_contents {buf : Vector α n} (hn : 0 < n) (count : Nat) :
    (contents buf tail count).length = count := by
  induction count with
  | zero => rfl
  | succ c ih =>
    rw [contents, List.range_succ, List.filterMap_append, List.length_append, ← contents, ih]
    simp [Vector.getElem?_eq_getElem (Nat.mod_lt (tail + c) hn)]

theorem contents_push {buf : Vector α n} (h : Wf n head tail count) (hroom : count < n) (a : α) :
    contents (buf.setIfInBounds head a) tail (count + 1) = contents buf tail count ++ [a] := by
  -- the head is none of the cells held, as there is room
  have hfront : ∀ i ∈ List.range count,
      (buf.setIfInBounds head a)[(tail + i) % n]? = buf[(tail + i) % n]? := by
    intro i hi
    have hlt := List.mem_range.mp hi
    rw [Vector.getElem?_setIfInBounds, if_neg]
    rw [h.head_eq]
    exact index_ne hroom (by omega) (by omega)
  have hlast : (buf.setIfInBounds head a)[(tail + count) % n]? = some a := by
    rw [Vector.getElem?_setIfInBounds, if_pos h.head_eq, if_pos h.head_lt]
  rw [contents, List.range_succ, List.filterMap_append, List.filterMap_congr hfront, ← contents]
  simp [hlast]

theorem contents_pop {buf : Vector α n} (h : Wf n head tail count) (hheld : count ≠ 0) :
    contents buf tail count =
      buf[tail]?.toList ++ contents buf ((tail + 1) % n) (count - 1) := by
  obtain ⟨c, rfl⟩ := Nat.exists_eq_succ_of_ne_zero hheld
  rw [contents, contents, Nat.succ_eq_add_one, List.range_succ_eq_map, Nat.add_sub_cancel]
  have hfirst : buf[(tail + 0) % n]? = buf[tail]? := by
    rw [Nat.add_zero, Nat.mod_eq_of_lt h.tail_lt]
  have hrest : ∀ i ∈ List.range c,
      ((fun i => buf[(tail + i) % n]?) ∘ Nat.succ) i = buf[((tail + 1) % n + i) % n]? := by
    intro i _
    rw [Nat.mod_add_mod, Function.comp_apply, Nat.succ_eq_add_one,
      show tail + 1 + i = tail + (i + 1) by omega]
  rw [List.filterMap_cons, hfirst, List.filterMap_map, List.filterMap_congr hrest,
    Vector.getElem?_eq_getElem h.tail_lt]
  rfl

end Lib.Ring
