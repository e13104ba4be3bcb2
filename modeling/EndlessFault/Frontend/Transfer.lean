import EndlessFault.Frontend.DataPort

/- Sector transfers at the data port. 256 words written from the start of the
   buffer are one block for the back end (`write_sector`), and 256 words read from
   it are the block it holds, with the next one fetched unless that was the last
   (`read_sector`); whole transfers are sequences of these (`write_sectors`,
   `read_sectors`), counted from the sectors moved before. `Sound` is what every
   data access keeps: the back end stays a file of its own size and the status is
   one of its four values. -/
namespace EndlessFault
open Lib.Bytes Lib.Machine

namespace HardDisk.Port
open DiskManager

/-- One of the four values the status register takes. -/
def StatusOk (status : UInt8) : Prop :=
  status = 0 ∨ status = drqMask ∨ status = busyMask ∨ status = busyMask ||| drqMask

instance (status : UInt8) : Decidable (StatusOk status) := inferInstanceAs (Decidable (_ ∨ _))

theorem StatusOk.busy {status : UInt8} (h : StatusOk status) : StatusOk (status ||| busyMask) := by
  rcases h with rfl | rfl | rfl | rfl <;> decide

theorem StatusOk.boundary {status : UInt8} (h : StatusOk status) (last : Bool) :
    Port.boundary status last = if last then 0 else drqMask := by
  rcases h with rfl | rfl | rfl | rfl <;> cases last <;> decide

theorem store_toList (buffer : Block) {pos : Nat} (val : UInt16) (h : pos + 1 < 512) :
    (store buffer pos val).toList = overwrite buffer.toList pos [lowByte val, highByte val] := by
  have hlow : pos < 512 := Nat.lt_of_succ_lt h
  rw [store, toList_setIfInBounds _ _ h, toList_setIfInBounds _ _ hlow]
  exact overwrite_append [lowByte val] [highByte val] (by simp; omega)

/-! Writes. -/

/-- Words that do not reach the end of the buffer only fill it. -/
theorem run_fill (ws : List UInt16) (p : Port) (h : p.position + 2 * ws.length ≤ 510) :
    ∃ buffer status, run write p ws =
        { p with buffer := buffer, position := p.position + 2 * ws.length, status := status } ∧
      buffer.toList = overwrite p.buffer.toList p.position (leBytes ws) ∧
      (StatusOk p.status → StatusOk status) := by
  induction ws generalizing p with
  | nil => exact ⟨p.buffer, p.status, rfl, by simp [overwrite], id⟩
  | cons w ws ih =>
    simp only [List.length_cons] at h
    have hw : p.write w = { p with
        buffer := store p.buffer p.position w
        position := p.position + 2
        status := p.status ||| busyMask } := by
      simp only [write]
      rw [if_neg (by omega)]
    obtain ⟨buffer, status, hrun, hbuf, hst⟩ := ih (p.write w) (by rw [hw]; simp only; omega)
    refine ⟨buffer, status, ?_, ?_, fun hs => hst (by rw [hw]; exact hs.busy)⟩
    · rw [run_cons, hrun, hw]
      simp only [List.length_cons, Port.mk.injEq, true_and, and_true]
      omega
    · rw [hbuf, hw]
      simp only [store_toList p.buffer w (show p.position + 1 < 512 by omega)]
      exact overwrite_append [lowByte w, highByte w] (leBytes ws) (by simp; omega)

/-- 256 words from the start of the buffer are one sector. -/
theorem write_sector (p : Port) (ws : List UInt16) (hp : p.position = 0) (hlen : ws.length = 256)
    (hs : StatusOk p.status) :
    ∃ buffer, run write p ws = { p with
        buffer := buffer
        position := 0
        disk := (p.disk.write buffer (p.lba + p.moved)).1
        moved := p.moved + 1
        status := if p.wanted = p.moved + 1 then 0 else drqMask } ∧
      buffer.toList = leBytes ws := by
  -- 255 words fill the buffer up to byte 510, and the last one completes the sector
  obtain ⟨init, last, rfl⟩ : ∃ init last, ws = init ++ [last] := by
    rcases List.eq_nil_or_concat ws with rfl | ⟨init, last, rfl⟩
    · simp at hlen
    · exact ⟨init, last, List.concat_eq_append⟩
  have hinit : init.length = 255 := by simpa using hlen
  obtain ⟨buffer, status, hrun, hbuf, hst⟩ := run_fill init p (by omega)
  refine ⟨store buffer 510 last, ?_, ?_⟩
  · rw [run_append, hrun, run_cons, run_nil, hp, hinit]
    simp only [write, Nat.reduceMul, Nat.reduceAdd, Nat.zero_add, ge_iff_le, Nat.reduceLeDiff,
      if_true, (hst hs).boundary]
    simp
  · have hfit : 0 + ((leBytes init).length + (leBytes [last]).length) ≤ p.buffer.toList.length := by
      simp [hinit]
    have hend : 0 + (leBytes init).length = 510 := by simp [hinit]
    calc (store buffer 510 last).toList
        = overwrite (overwrite p.buffer.toList 0 (leBytes init)) 510 (leBytes [last]) := by
          rw [store_toList buffer last (by omega), hbuf, hp]; rfl
      _ = overwrite p.buffer.toList 0 (leBytes init ++ leBytes [last]) := by
          rw [← hend, overwrite_append _ _ hfit]
      _ = leBytes (init ++ [last]) := by
          rw [← leBytes_append, overwrite_all (by simp [hinit])]

/-- The data of `n` sectors, one list of bytes a sector. -/
def chunks : Nat → List UInt16 → List (List UInt8)
  | 0, _ => []
  | n + 1, ws => leBytes (ws.take 256) :: chunks n (ws.drop 256)

@[simp] theorem length_chunks (n : Nat) (ws : List UInt16) : (chunks n ws).length = n := by
  induction n generalizing ws with
  | zero => rfl
  | succ n ih => simp [chunks, ih]

theorem getElem?_chunks {n j : Nat} (ws : List UInt16) (hj : j < n) :
    (chunks n ws)[j]? = some (leBytes (slice ws (256 * j) 256)) := by
  induction n generalizing ws j with
  | zero => omega
  | succ n ih =>
    cases j with
    | zero => simp [chunks, slice]
    | succ j =>
      rw [chunks, List.getElem?_cons_succ, ih _ (by omega)]
      simp only [slice, List.drop_drop]
      rw [show 256 + 256 * j = 256 * (j + 1) by omega]

theorem length_of_mem_chunks {n : Nat} {ws : List UInt16} (hlen : ws.length = 256 * n) :
    ∀ c ∈ chunks n ws, c.length = 512 := by
  intro c hc
  obtain ⟨j, hj, rfl⟩ := List.mem_iff_getElem.mp hc
  rw [length_chunks] at hj
  have hget := getElem?_chunks ws hj
  rw [List.getElem?_eq_getElem (by simpa using hj), Option.some.injEq] at hget
  rw [hget, length_leBytes, length_slice (by omega)]

/-- `256 * n` words from the start of the buffer are `n` consecutive sectors,
counted from the sectors moved before. -/
theorem write_sectors {N : Nat} (n : Nat) (p : Port) {f : List UInt8} (ws : List UInt16)
    (hback : Backed p.disk N f) (hp : p.position = 0) (hs : StatusOk p.status)
    (hlen : ws.length = 256 * n) :
    let q := run write p ws
    Backed q.disk N (writtenAll N f (p.lba + p.moved) (chunks n ws)) ∧ q.position = 0 ∧
    q.moved = p.moved + UInt32.ofNat n ∧ StatusOk q.status ∧
    (0 < n → q.status = if p.wanted = p.moved + UInt32.ofNat n then 0 else drqMask) := by
  induction n generalizing p f ws with
  | zero =>
    obtain rfl : ws = [] := List.eq_nil_of_length_eq_zero (by omega)
    exact ⟨hback, hp, by simp, hs, fun h => absurd h (by omega)⟩
  | succ n ih =>
    intro q
    obtain ⟨buffer, hrun, hbuf⟩ := write_sector p (ws.take 256) hp (by simp; omega) hs
    have hq : q = run write (run write p (ws.take 256)) (ws.drop 256) := by
      rw [← run_append, List.take_append_drop]
    have hdisk := (hback.write_spec buffer (p.lba + p.moved)).1
    have hst : StatusOk (if p.wanted = p.moved + 1 then 0 else drqMask) := by
      split <;> decide
    obtain ⟨hd, hpos, hmoved, hok, hlast⟩ := ih (run write p (ws.take 256))
      (ws.drop 256) (by rw [hrun]; exact hdisk) (by rw [hrun]) (by rw [hrun]; exact hst) (by simp; omega)
    have hcount : p.moved + 1 + UInt32.ofNat n = p.moved + UInt32.ofNat (n + 1) := by
      rw [UInt32.ofNat_add, UInt32.add_assoc, UInt32.add_comm 1]; rfl
    rw [← hq] at hd hpos hmoved hok hlast
    simp only [hrun, hbuf, hcount, ← UInt32.add_assoc] at hd hmoved hlast
    refine ⟨hd, hpos, hmoved, hok, fun _ => ?_⟩
    -- the final status is left by the last sector: this one, or one of the rest
    rcases Nat.eq_zero_or_pos n with rfl | hn
    · have hnil : ws.drop 256 = [] := List.eq_nil_of_length_eq_zero (by simp; omega)
      rw [hq, hnil, run_nil, hrun]
      rfl
    · exact hlast hn

/-! Reads. -/

/-- The 256 words of a sector. -/
def sectorWords (bytes : List UInt8) : List UInt16 :=
  (List.range 256).map fun j => wordAt bytes (2 * j)

@[simp] theorem length_sectorWords (bytes : List UInt8) : (sectorWords bytes).length = 256 := by
  simp [sectorWords]

theorem sectorWords_snoc (bytes : List UInt8) : sectorWords bytes =
    ((List.range 255).map fun j => wordAt bytes (2 * j)) ++ [wordAt bytes (2 * 255)] := by
  rw [sectorWords, List.range_succ, List.map_append, List.map_singleton]

theorem word_eq (wild : Nat → UInt16) {p : Port} (hp : p.position < 256) (hs : p.source = some 0) :
    p.word wild = wordAt p.buffer.toList (2 * p.position) := by
  simp only [word, loadWord, hs, blockSizeByte, Nat.zero_add]
  rw [if_pos (by omega)]

/-- Reads that do not reach the end of the buffer return its words in order. -/
theorem run_scan (wild : Nat → UInt16) (m : Nat) (p : Port) (h : p.position + m ≤ 255)
    (hs : p.source = some 0) :
    (∃ pointer status, run step p (List.replicate m .read) =
        { p with pointer := pointer, position := p.position + m, status := status } ∧
      (p.position + m ≠ 0 → pointer = some 0) ∧ (StatusOk p.status → StatusOk status)) ∧
    observe step (dataRead wild) p (List.replicate m .read) =
      (List.range m).map fun j => wordAt p.buffer.toList (2 * (p.position + j)) := by
  -- the first read may be the one that sets the pointer: `source` is what stays
  induction m generalizing p with
  | zero =>
    refine ⟨⟨p.pointer, p.status, rfl, fun h0 => ?_, id⟩, rfl⟩
    rwa [source, if_neg (by simpa using h0)] at hs
  | succ m ih =>
    have hr : p.read = { p with
        pointer := some 0
        position := p.position + 1
        status := p.status ||| busyMask } := by
      rw [read, if_neg (by omega), hs]
    have hs' : p.read.source = some 0 := by rw [hr]; simp [source]
    obtain ⟨⟨pointer, status, hrun, hptr, hst⟩, hobs⟩ := ih p.read (by rw [hr]; simp only; omega) hs'
    rw [List.replicate_succ, run_cons, observe_cons]
    refine ⟨⟨pointer, status, ?_, fun _ => hptr (by rw [hr]; simp), ?_⟩, ?_⟩
    · rw [step, hrun, hr]
      simp only [Port.mk.injEq, true_and, and_true]
      omega
    · intro hok
      exact hst (by rw [hr]; exact hok.busy)
    · rw [step, hobs, dataRead, word_eq wild (by omega) hs, List.range_succ_eq_map, List.map_cons,
        List.map_map, List.singleton_append, hr]
      congr 1
      apply List.map_congr_left
      intro j _
      simp only [Function.comp]
      congr 2
      omega

/-- 256 reads from the start of the buffer return the sector it holds, and
fetch the next one unless it was the last. -/
theorem read_sector (wild : Nat → UInt16) (p : Port) (hp : p.position = 0) (hs : StatusOk p.status) :
    run step p (List.replicate 256 .read) =
      (if p.wanted = p.moved then { p with pointer := some 0, position := 0, status := 0 }
       else { p with
        pointer := some 0
        position := 0
        buffer := (p.disk.read p.buffer (p.lba + p.moved)).1
        moved := p.moved + 1
        status := drqMask }) ∧
    observe step (dataRead wild) p (List.replicate 256 .read) = sectorWords p.buffer.toList := by
  have hsrc : p.source = some 0 := by simp [source, hp]
  obtain ⟨⟨pointer, status, hrun, hptr, hst⟩, hobs⟩ := run_scan wild 255 p (by omega) hsrc
  rw [show (256 : Nat) = 255 + 1 from rfl, List.replicate_succ', run_append, observe_append, hrun,
    hobs]
  have hptr0 : pointer = some 0 := hptr (by omega)
  constructor
  · simp only [run_cons, run_nil, step, read, source, hp, hptr0, Nat.zero_add, Nat.reduceAdd,
      ge_iff_le, Nat.le_refl, if_true, (hst hs).boundary]
    rfl
  · simp only [observe_cons, observe_nil, List.append_nil, dataRead, hp, Nat.zero_add]
    rw [word_eq wild (by simp) (by simp [source, hptr0]), sectorWords_snoc]

/-- The sectors a read delivers: the one in the buffer, then those after the
sectors moved before. -/
def delivered (f : List UInt8) (p : Port) : Nat → List UInt8
  | 0 => p.buffer.toList
  | k + 1 => sector f (p.lba.toNat + p.moved.toNat + k)

/-- `256 * (r + 1)` reads from the start of the buffer, with `r` sectors still
to be fetched. -/
theorem read_sectors (wild : Nat → UInt16) {N : Nat} (r : Nat) (p : Port) {f : List UInt8}
    (hback : Backed p.disk N f) (hp : p.position = 0) (hs : StatusOk p.status)
    (hw : p.wanted.toNat = p.moved.toNat + r) (hin : p.lba.toNat + p.wanted.toNat ≤ N) :
    observe step (dataRead wild) p (List.replicate (256 * (r + 1)) .read) =
      (List.range (r + 1)).flatMap (fun k => sectorWords (delivered f p k)) ∧
    (run step p (List.replicate (256 * (r + 1)) .read)).disk = p.disk := by
  have hsmall := hback.small
  induction r generalizing p with
  | zero =>
    obtain ⟨hrun, hobs⟩ := read_sector wild p hp hs
    have hlast : p.wanted = p.moved := UInt32.toNat_inj.mp (by omega)
    rw [Nat.zero_add, Nat.mul_one, hrun, hobs, if_pos hlast]
    exact ⟨by simp [delivered], rfl⟩
  | succ r ih =>
    obtain ⟨hrun, hobs⟩ := read_sector wild p hp hs
    have hmore : p.wanted ≠ p.moved := fun h => by rw [h] at hw; omega
    rw [if_neg hmore] at hrun
    -- the next sector is on the disk, so neither the sum nor the block address wraps
    have hb : (p.lba + p.moved).toNat = p.lba.toNat + p.moved.toNat := by
      rw [UInt32.toNat_add]; omega
    have hmod : (p.lba + p.moved).toNat % 2^23 = p.lba.toNat + p.moved.toNat := by omega
    have hm : (p.moved + 1).toNat = p.moved.toNat + 1 := by
      simp only [UInt32.toNat_add, UInt32.reduceToNat]; omega
    have hread := ((hback.read_spec p.buffer (p.lba + p.moved)).1 (by omega)).1
    rw [hmod] at hread
    rw [show 256 * (r + 1 + 1) = 256 + 256 * (r + 1) by omega, List.replicate_add, run_append,
      observe_append, hobs]
    obtain ⟨hobs', hdisk'⟩ := ih (run step p (List.replicate 256 .read))
      (by rw [hrun]; exact hback) (by rw [hrun]) (by rw [hrun]; exact .inr (.inl rfl))
      (by rw [hrun]; simp only [hm]; omega) (by rw [hrun]; exact hin)
    rw [hobs', hdisk', hrun, List.range_succ_eq_map (n := r + 1), List.flatMap_cons,
      List.flatMap_map]
    refine ⟨congrArg (sectorWords p.buffer.toList ++ ·) (List.flatMap_congr ?_), rfl⟩
    intro k _
    cases k with
    | zero => simp only [delivered, hread, sector, Nat.add_zero]
    | succ k =>
      simp only [delivered, hm]
      rw [show p.lba.toNat + (p.moved.toNat + 1) + k = p.lba.toNat + p.moved.toNat + (k + 1) by omega]

/-- The `j`-th word of a sequence of sectors. -/
theorem getElem?_sectors (g : Nat → List UInt8) {r j : Nat} (hj : j < 256 * r) :
    ((List.range r).flatMap fun k => sectorWords (g k))[j]? =
      some (wordAt (g (j / 256)) (2 * (j % 256))) := by
  induction r with
  | zero => omega
  | succ r ih =>
    have hlen : ((List.range r).flatMap fun k => sectorWords (g k)).length = 256 * r := by
      simp [List.length_flatMap, Nat.mul_comm]
    rw [List.range_succ, List.flatMap_append]
    by_cases h : j < 256 * r
    · rw [List.getElem?_append_left (by omega), ih h]
    · rw [List.getElem?_append_right (by omega), hlen, List.flatMap_cons, List.flatMap_nil,
        List.append_nil, sectorWords, List.getElem?_map, List.getElem?_range (by omega)]
      rw [show j / 256 = r by omega, show j - 256 * r = j % 256 by omega]
      rfl

/-! What every data access keeps. -/

/-- The disk keeps its size and the status its form. -/
def Sound (N : Nat) (p : Port) : Prop := (∃ f, Backed p.disk N f) ∧ StatusOk p.status

theorem StatusOk.step {p : Port} (hs : StatusOk p.status) (c : Data) : StatusOk (p.step c).status := by
  have hbound : ∀ last, StatusOk (Port.boundary p.status last) := by
    intro last
    rw [hs.boundary]; cases last <;> decide
  cases c with
  | read =>
    simp only [Port.step, read]
    split_ifs
    · exact hbound true
    · exact hbound false
    · exact hs.busy
  | write val =>
    simp only [Port.step, write]
    split_ifs
    · exact hbound _
    · exact hs.busy

theorem Sound.step {N : Nat} {p : Port} (h : Sound N p) (c : Data) : Sound N (p.step c) := by
  obtain ⟨⟨f, hback⟩, hs⟩ := h
  refine ⟨?_, hs.step c⟩
  cases c with
  | read =>
    simp only [Port.step, read]
    split_ifs <;> exact ⟨f, hback⟩
  | write val =>
    simp only [Port.step, write]
    split_ifs
    · exact ⟨_, (hback.write_spec _ _).1⟩
    · exact ⟨f, hback⟩

theorem Sound.run {N : Nat} {p : Port} (h : Sound N p) (cs : List Data) :
    Sound N (run Port.step p cs) :=
  run_invariant (Sound N) (fun _ => True) (fun _ c _ hp => hp.step c) h
    (fun _ _ => trivial)

end HardDisk.Port
end EndlessFault
