import EndlessFault.Lib.Bytes

/- The disk back end (`backend/DiskManager.cpp`): one file, `disk.bin`, read
   and written in blocks of 512 bytes. A file that cannot be opened is `none`;
   otherwise the file is its bytes, and `fstream` reads and writes them
   faithfully.

   The block address is the product `block_index * BLOCK_SIZE_BYTE` taken in 32
   bits and widened afterwards, so a block index counts only modulo 2^23
   (`blockAddress_eq`). On a disk whose file has its own size (`Backed`) a read
   or write of such an index below the number of blocks moves exactly that
   block, and every other index is refused (`read_spec`, `write_spec`). The disk
   therefore serves exactly its own blocks (`ServesBlocks`) unless an index past
   its end wraps round to one of them (`serves_blocks_iff`). -/
namespace EndlessFault
open Lib.Bytes

/-- `BLOCK_SIZE_BYTE`. -/
def blockSizeByte : Nat := 512

/-- One block of data: a buffer of `BLOCK_SIZE_BYTE` bytes. -/
abbrev Block := Vector UInt8 512

inductive DiskStatus where
  | noErrors
  | outOfBound
  | fileErrorOpen
  | fileErrorSize
  deriving DecidableEq, Repr

structure DiskManager where
  diskSize : Nat
  file : Option (List UInt8)

namespace DiskManager

/-- `tellg` at the end of the stream: the file's size, or -1 read as an
unsigned 64-bit number when the stream did not open. -/
def fileLength : Option (List UInt8) → Nat
  | some f => f.length
  | none => 2^64 - 1

def checkConsistency (m : DiskManager) : Bool := fileLength m.file == m.diskSize

/-- The filling loop of `build_disk`. Its counter is an `int`: past 2^31 it is
negative, compares as a huge unsigned number and ends the loop. -/
def buildLoop (buffer : Block) (diskSize i : Nat) : List UInt8 :=
  if i < diskSize ∧ i < 2^31 then buffer.toList ++ buildLoop buffer diskSize (i + blockSizeByte)
  else []
termination_by diskSize - i
decreasing_by simp only [blockSizeByte]; omega

/-- The file is created anew from a buffer that is never initialised. -/
def buildDisk (buffer : Block) (m : DiskManager) : DiskManager :=
  { m with file := some (buildLoop buffer m.diskSize 0) }

/-- The constructor over the file found on the host. -/
def new (buffer : Block) (blocksNumber : UInt32) (file : Option (List UInt8)) : DiskManager :=
  let m : DiskManager := { diskSize := (blocksNumber * 512).toNat, file := file }
  if !m.checkConsistency then m.buildDisk buffer else m

/-- `block_index * BLOCK_SIZE_BYTE`, a 32-bit product. -/
def blockAddress (blockIndex : UInt32) : Nat := (blockIndex * 512).toNat

/-- `seekg`, then `read` of one block: bytes past the end leave the buffer as it is. -/
def streamRead (f : List UInt8) (pos : Nat) (buffer : Block) : Block :=
  Vector.ofFn fun i => (f[pos + i.val]?).getD (buffer.get i)

def read (m : DiskManager) (buffer : Block) (blockIndex : UInt32) : Block × DiskStatus :=
  if blockAddress blockIndex ≥ m.diskSize then (buffer, .outOfBound)
  else if !m.checkConsistency then (buffer, .fileErrorSize)
  else match m.file with
    | none => (buffer, .fileErrorOpen)
    | some f =>
      (streamRead f (blockAddress blockIndex) buffer,
        if !m.checkConsistency then .fileErrorSize else .noErrors)

def write (m : DiskManager) (buffer : Block) (blockIndex : UInt32) : DiskManager × DiskStatus :=
  if blockAddress blockIndex ≥ m.diskSize then (m, .outOfBound)
  else if !m.checkConsistency then (m, .fileErrorSize)
  else match m.file with
    | none => (m, .fileErrorOpen)
    | some f =>
      let m' := { m with file := some (overwrite f (blockAddress blockIndex) buffer.toList) }
      (m', if !m'.checkConsistency then .fileErrorSize else .noErrors)

/-! A disk of `N` blocks over a file of its own size. -/

/-- `m` manages a file `f` of exactly `N` blocks. -/
structure Backed (m : DiskManager) (N : Nat) (f : List UInt8) : Prop where
  size : m.diskSize = 512 * N
  file : m.file = some f
  length : f.length = 512 * N
  small : 512 * N < 2^32

theorem blockAddress_eq (b : UInt32) : blockAddress b = 512 * (b.toNat % 2^23) := by
  simp only [blockAddress, UInt32.toNat_mul, UInt32.reduceToNat]
  omega

theorem Backed.consistent {m : DiskManager} {N : Nat} {f : List UInt8} (h : Backed m N f) :
    m.checkConsistency = true := by
  simp [checkConsistency, fileLength, h.file, h.length, h.size]

/-- The check of `read` and `write`, on the residue of the index. -/
theorem Backed.past_iff {m : DiskManager} {N : Nat} {f : List UInt8} (h : Backed m N f) (b : UInt32) :
    blockAddress b ≥ m.diskSize ↔ N ≤ b.toNat % 2^23 := by
  rw [blockAddress_eq, h.size]
  omega

/-- A file of the right size is kept as it is. -/
theorem new_backed (buffer : Block) {N : Nat} {f : List UInt8} (hlen : f.length = 512 * N)
    (hN : 512 * N < 2^32) : Backed (new buffer (UInt32.ofNat N) (some f)) N f := by
  have hsize : (UInt32.ofNat N * 512).toNat = 512 * N := by
    simp only [UInt32.toNat_mul, UInt32.toNat_ofNat', UInt32.reduceToNat]
    omega
  simp only [new, checkConsistency, fileLength, hsize, hlen, beq_self_eq_true, Bool.not_true,
    Bool.false_eq_true, if_false]
  exact ⟨rfl, rfl, hlen, hN⟩

theorem streamRead_toList {f : List UInt8} {pos : Nat} (buffer : Block)
    (h : pos + 512 ≤ f.length) : (streamRead f pos buffer).toList = slice f pos 512 := by
  apply List.ext_getElem?
  intro i
  rw [getElem?_slice]
  by_cases hi : i < 512
  · have hf : pos + i < f.length := by omega
    simp [streamRead, hi, hf]
  · simp [hi]

/-- A read of block `b`: the block `b` modulo 2^23 when the disk has it, and
nothing otherwise. -/
theorem Backed.read_spec {m : DiskManager} {N : Nat} {f : List UInt8} (h : Backed m N f)
    (buffer : Block) (b : UInt32) :
    (b.toNat % 2^23 < N →
      (m.read buffer b).1.toList = slice f (512 * (b.toNat % 2^23)) 512 ∧
      (m.read buffer b).2 = .noErrors) ∧
    (N ≤ b.toNat % 2^23 → m.read buffer b = (buffer, .outOfBound)) := by
  have hlen := h.length
  refine ⟨?_, ?_⟩
  · intro hb
    have hin : ¬ blockAddress b ≥ m.diskSize := by rw [h.past_iff]; omega
    have hfit : blockAddress b + 512 ≤ f.length := by rw [blockAddress_eq]; omega
    simp only [read, if_neg hin, h.consistent, h.file, Bool.not_true, Bool.false_eq_true, if_false]
    rw [streamRead_toList buffer hfit, blockAddress_eq]
    exact ⟨rfl, trivial⟩
  · intro hb
    simp only [read, if_pos ((h.past_iff b).mpr hb)]

/-- The file after a write of `buffer` to block `b`. -/
def written (N : Nat) (f : List UInt8) (buffer : List UInt8) (b : UInt32) : List UInt8 :=
  if b.toNat % 2^23 < N then overwrite f (512 * (b.toNat % 2^23)) buffer else f

/-- A write to a block the disk does not have changes nothing. -/
theorem Backed.write_off {m : DiskManager} {N : Nat} {f : List UInt8} (h : Backed m N f)
    (buffer : Block) {b : UInt32} (hb : N ≤ b.toNat % 2^23) :
    m.write buffer b = (m, .outOfBound) := by
  simp only [write, if_pos ((h.past_iff b).mpr hb)]

theorem Backed.write_spec {m : DiskManager} {N : Nat} {f : List UInt8} (h : Backed m N f)
    (buffer : Block) (b : UInt32) :
    Backed (m.write buffer b).1 N (written N f buffer.toList b) ∧
    ((m.write buffer b).2 = .noErrors ↔ b.toNat % 2^23 < N) := by
  have hlen := h.length
  unfold written
  by_cases hb : b.toNat % 2^23 < N
  · have hin : ¬ blockAddress b ≥ m.diskSize := by rw [h.past_iff]; omega
    -- the file keeps its length, so the check after the write passes as well
    have hnew : (overwrite f (blockAddress b) buffer.toList).length = 512 * N := by
      rw [length_overwrite (by rw [blockAddress_eq]; simp; omega), hlen]
    simp only [write, if_neg hin, h.consistent, h.file, Bool.not_true, Bool.false_eq_true, if_false,
      ← blockAddress_eq, hb, iff_true]
    have hback : Backed { m with file := some (overwrite f (blockAddress b) buffer.toList) } N
        (overwrite f (blockAddress b) buffer.toList) := ⟨h.size, rfl, hnew, h.small⟩
    exact ⟨hback, by rw [hback.consistent]; rfl⟩
  · rw [h.write_off buffer (Nat.not_lt.mp hb)]
    simp only [hb, iff_false]
    exact ⟨h, by decide⟩

/-- The bytes of block `i` of the disk. -/
def sector (f : List UInt8) (i : Nat) : List UInt8 := slice f (512 * i) 512

/-- A write changes the one block it names. -/
theorem sector_written {N : Nat} {f buffer : List UInt8} {b : UInt32} (hlen : f.length = 512 * N)
    (hbuf : buffer.length = 512) {i : Nat} (hi : i < N) :
    sector (written N f buffer b) i = if b.toNat % 2^23 = i then buffer else sector f i := by
  unfold written sector
  by_cases hb : b.toNat % 2^23 < N
  · have hfit : 512 * (b.toNat % 2^23) + buffer.length ≤ f.length := by omega
    rw [if_pos hb]
    by_cases he : b.toNat % 2^23 = i
    · have hsame := slice_overwrite_same hfit
      rw [hbuf] at hsame
      rw [if_pos he, ← he, hsame]
    · rw [if_neg he, slice_overwrite_disjoint hfit (by omega)]
  · rw [if_neg hb, if_neg (by omega)]

theorem length_written {N : Nat} {f buffer : List UInt8} {b : UInt32} (hlen : f.length = 512 * N)
    (hbuf : buffer.length = 512) : (written N f buffer b).length = 512 * N := by
  unfold written
  by_cases hb : b.toNat % 2^23 < N
  · rw [if_pos hb, length_overwrite (by omega), hlen]
  · rw [if_neg hb, hlen]

/-! Exactly the blocks of the disk. -/

/-- The file `g` is `f` with the bytes of `buffer` at offset `pos`, of the same
length and with every other byte as it was. -/
structure Replaced (f : List UInt8) (pos : Nat) (buffer : List UInt8) (g : List UInt8) : Prop where
  length : g.length = f.length
  inside : slice g pos buffer.length = buffer
  outside : ∀ i, i < pos ∨ pos + buffer.length ≤ i → g[i]? = f[i]?

theorem overwrite_replaced {f buffer : List UInt8} {pos : Nat} (h : pos + buffer.length ≤ f.length) :
    Replaced f pos buffer (overwrite f pos buffer) := by
  refine ⟨length_overwrite h, slice_overwrite_same h, ?_⟩
  intro i hi
  rw [getElem?_overwrite h]
  exact if_neg (by omega)

/-- What a disk of `N` blocks in the file `f` owes its callers: the indices from
`N` on are refused, with nothing changed, and an index below `N` moves the 512
bytes at its own offset and no others. -/
structure ServesBlocks (m : DiskManager) (N : Nat) (f : List UInt8) (buffer : Block) (b : UInt32) :
    Prop where
  readRefused : m.read buffer b = (buffer, .outOfBound) ↔ N ≤ b.toNat
  writeRefused : m.write buffer b = (m, .outOfBound) ↔ N ≤ b.toNat
  read : b.toNat < N →
    (m.read buffer b).2 = .noErrors ∧
    (m.read buffer b).1.toList = slice f (512 * b.toNat) 512
  write : b.toNat < N →
    (m.write buffer b).2 = .noErrors ∧
    ∃ g, (m.write buffer b).1.file = some g ∧ Replaced f (512 * b.toNat) buffer.toList g

/-- An index the disk has is served. -/
theorem Backed.serves_inside {m : DiskManager} {N : Nat} {f : List UInt8} (h : Backed m N f)
    (buffer : Block) {b : UInt32} (hb : b.toNat < N) : ServesBlocks m N f buffer b := by
  have hsmall := h.small
  have hlen := h.length
  have hmod : b.toNat % 2^23 = b.toNat := Nat.mod_eq_of_lt (by omega)
  have hread := (h.read_spec buffer b).1 (by rw [hmod]; exact hb)
  obtain ⟨hback, hstatus⟩ := h.write_spec buffer b
  have hok : (m.write buffer b).2 = .noErrors := hstatus.2 (by rw [hmod]; exact hb)
  have hfile := hback.file
  rw [hmod] at hread
  rw [written, hmod, if_pos hb] at hfile
  have hfit : 512 * b.toNat + buffer.toList.length ≤ f.length := by
    rw [Vector.length_toList]; omega
  refine ⟨?_, ?_, fun _ => ⟨hread.2, hread.1⟩, fun _ => ⟨hok, _, hfile, overwrite_replaced hfit⟩⟩
  · refine ⟨?_, ?_⟩
    · intro hr
      rw [hr] at hread
      simp at hread
    · omega
  · refine ⟨?_, ?_⟩
    · intro hw
      rw [hw] at hok
      simp at hok
    · omega

/-- An index whose residue modulo 2^23 is past the disk is refused as it should be. -/
theorem Backed.serves_outside {m : DiskManager} {N : Nat} {f : List UInt8} (h : Backed m N f)
    (buffer : Block) {b : UInt32} (hb : N ≤ b.toNat % 2^23) : ServesBlocks m N f buffer b := by
  have hle : N ≤ b.toNat := Nat.le_trans hb (Nat.mod_le _ _)
  exact ⟨iff_of_true ((h.read_spec buffer b).2 hb) hle, iff_of_true (h.write_off buffer hb) hle,
    fun hlt => absurd hle (by omega), fun hlt => absurd hle (by omega)⟩

/-- A disk of `N` blocks serves exactly its blocks, except for the indices past
its end whose 32-bit product with 512 wraps round to one of its blocks. -/
theorem serves_blocks_iff (spare : Block) {N : Nat} (hN : 512 * N < 2^32) {f : List UInt8}
    (hlen : f.length = 512 * N) (buffer : Block) (b : UInt32) :
    ServesBlocks (new spare (UInt32.ofNat N) (some f)) N f buffer b ↔
      (b.toNat < N ∨ N ≤ b.toNat % 2^23) := by
  have h := new_backed spare hlen hN
  refine ⟨?_, ?_⟩
  · intro hserves
    by_contra hcon
    simp only [not_or, not_lt, not_le] at hcon
    obtain ⟨hpast, hwrap⟩ := hcon
    -- the index is past the disk, and yet the read of its residue succeeds
    have hrefused := hserves.readRefused.2 hpast
    have hread := (h.read_spec buffer b).1 hwrap
    rw [hrefused] at hread
    simp at hread
  · intro hb
    cases hb with
    | inl hin => exact h.serves_inside buffer hin
    | inr hout => exact h.serves_outside buffer hout

/-- A block of the bytes `v`. -/
def blockOf (v : UInt8) : Block := Vector.replicate 512 v

theorem serves_blocks_iff_one :
    512 * 1 < 2^32 ∧ (blockOf 7).toList.length = 512 * 1 ∧
    (ServesBlocks (new (blockOf 0) (UInt32.ofNat 1) (some (blockOf 7).toList)) 1 (blockOf 7).toList
        (blockOf 0) 1 ↔
      ((1 : UInt32).toNat < 1 ∨ 1 ≤ (1 : UInt32).toNat % 2^23)) :=
  ⟨by decide, by simp, serves_blocks_iff (blockOf 0) (by decide) (by simp) (blockOf 0) 1⟩

/-- On a disk of one block the index 2^23 reads block 0. -/
theorem serves_wrapped_index :
    (new (blockOf 0) (UInt32.ofNat 1) (some (blockOf 7).toList)).read (blockOf 0) 0x800000 ≠
        (blockOf 0, .outOfBound) ∧
      ¬ ServesBlocks (new (blockOf 0) (UInt32.ofNat 1) (some (blockOf 7).toList)) 1
        (blockOf 7).toList (blockOf 0) 0x800000 := by
  have h : Backed (new (blockOf 0) (UInt32.ofNat 1) (some (blockOf 7).toList)) 1
      (blockOf 7).toList := new_backed (blockOf 0) (by simp) (by decide)
  have hread := ((h.read_spec (blockOf 0) 0x800000).1 (by decide)).2
  have hne : (new (blockOf 0) (UInt32.ofNat 1) (some (blockOf 7).toList)).read (blockOf 0) 0x800000 ≠
      (blockOf 0, .outOfBound) := by
    intro hr
    rw [hr] at hread
    simp at hread
  exact ⟨hne, fun hserves => hne (hserves.readRefused.2 (by decide))⟩

/-! Runs of blocks. -/

/-- The file after writes of consecutive blocks from `b` on. -/
def writtenAll (N : Nat) (f : List UInt8) (b : UInt32) : List (List UInt8) → List UInt8
  | [] => f
  | c :: cs => writtenAll N (written N f c b) (b + 1) cs

theorem length_writtenAll {N : Nat} {f : List UInt8} {b : UInt32} {cs : List (List UInt8)}
    (hlen : f.length = 512 * N) (hcs : ∀ c ∈ cs, c.length = 512) :
    (writtenAll N f b cs).length = 512 * N := by
  induction cs generalizing f b with
  | nil => exact hlen
  | cons c cs ih =>
    have hc := hcs c List.mem_cons_self
    exact ih (length_written hlen hc) (fun x hx => hcs x (List.mem_cons_of_mem c hx))

theorem succ_mod (b : UInt32) (j : Nat) :
    ((b + 1).toNat + j) % 2^23 = (b.toNat + (j + 1)) % 2^23 := by
  simp only [UInt32.toNat_add, UInt32.reduceToNat]
  omega

/-- A block none of the writes names keeps its bytes. -/
theorem sector_writtenAll_miss {N : Nat} {f : List UInt8} {b : UInt32} {cs : List (List UInt8)}
    (hlen : f.length = 512 * N) (hcs : ∀ c ∈ cs, c.length = 512) {i : Nat} (hi : i < N)
    (hmiss : ∀ j, j < cs.length → (b.toNat + j) % 2^23 ≠ i) :
    sector (writtenAll N f b cs) i = sector f i := by
  induction cs generalizing f b with
  | nil => rfl
  | cons c cs ih =>
    have hc := hcs c List.mem_cons_self
    have h0 : b.toNat % 2^23 ≠ i := hmiss 0 (by simp)
    have hnext := ih (f := written N f c b) (b := b + 1) (length_written hlen hc)
      (fun x hx => hcs x (List.mem_cons_of_mem c hx))
      (fun j hj => by rw [succ_mod]; exact hmiss (j + 1) (by simpa using hj))
    rw [writtenAll, hnext, sector_written hlen hc hi, if_neg h0]

/-- The block the `j`-th write names holds the `j`-th data, as no later write
of fewer than 2^23 names it again. -/
theorem sector_writtenAll_hit {N : Nat} {f : List UInt8} {b : UInt32} {cs : List (List UInt8)}
    (hlen : f.length = 512 * N) (hcs : ∀ c ∈ cs, c.length = 512) (hshort : cs.length ≤ 2^23)
    {i j : Nat} (hi : i < N) {c : List UInt8} (hj : cs[j]? = some c)
    (hhit : (b.toNat + j) % 2^23 = i) : sector (writtenAll N f b cs) i = c := by
  induction cs generalizing f b j with
  | nil => simp at hj
  | cons x cs ih =>
    have hx := hcs x List.mem_cons_self
    have hcs' : ∀ y ∈ cs, y.length = 512 := fun y hy => hcs y (List.mem_cons_of_mem x hy)
    simp only [List.length_cons] at hshort
    cases j with
    | zero =>
      obtain rfl : x = c := by simpa using hj
      -- the later writes are too few to come round to this block again
      have hmiss : ∀ k, k < cs.length → ((b + 1).toNat + k) % 2^23 ≠ i := by
        intro k hk
        rw [succ_mod]
        omega
      rw [writtenAll, sector_writtenAll_miss (length_written hlen hx) hcs' hi hmiss,
        sector_written hlen hx hi, if_pos (by simpa using hhit)]
    | succ j =>
      exact ih (length_written hlen hx) hcs' (by omega) (by simpa using hj)
        (by rw [succ_mod]; exact hhit)

/-- Only the residues of the block indices count. -/
theorem writtenAll_congr {N : Nat} {b b' : UInt32} (h : b.toNat % 2^23 = b'.toNat % 2^23)
    (f : List UInt8) (cs : List (List UInt8)) : writtenAll N f b cs = writtenAll N f b' cs := by
  induction cs generalizing f b b' with
  | nil => rfl
  | cons c cs ih =>
    have hnext : (b + 1).toNat % 2^23 = (b' + 1).toNat % 2^23 := by
      simp only [UInt32.toNat_add, UInt32.reduceToNat]
      omega
    simp only [writtenAll, written, h]
    exact ih hnext _

/-- Writes that all fall beyond the disk leave it alone. -/
theorem writtenAll_off {N : Nat} {f : List UInt8} {b : UInt32} {cs : List (List UInt8)}
    (hoff : ∀ j, j < cs.length → N ≤ (b.toNat + j) % 2^23) : writtenAll N f b cs = f := by
  induction cs generalizing b with
  | nil => rfl
  | cons c cs ih =>
    have h0 := hoff 0 (by simp)
    rw [writtenAll, written, if_neg (by simpa using h0)]
    refine ih fun j hj => ?_
    rw [succ_mod]
    exact hoff (j + 1) (by simpa using hj)

/-! The status of a call, on a disk whose file may have any size. -/

/-- A disk of whole blocks, smaller than 2^32 bytes: what the constructor makes. -/
structure Sized (m : DiskManager) : Prop where
  whole : m.diskSize % 512 = 0
  small : m.diskSize < 2^32

theorem new_sized (buffer : Block) (blocksNumber : UInt32) (file : Option (List UInt8)) :
    Sized (new buffer blocksNumber file) := by
  have hsize : (new buffer blocksNumber file).diskSize = (blocksNumber * 512).toNat := by
    simp only [new, buildDisk]
    split <;> rfl
  have hmul : (blocksNumber * 512).toNat = 512 * (blocksNumber.toNat % 2^23) := blockAddress_eq _
  exact ⟨by rw [hsize, hmul]; omega, by rw [hsize]; exact UInt32.toNat_lt _⟩

@[simp] theorem diskSize_write (m : DiskManager) (buffer : Block) (b : UInt32) :
    (m.write buffer b).1.diskSize = m.diskSize := by
  unfold write
  split
  · rfl
  · split
    · rfl
    · cases m.file <;> rfl

/-- A file of the right size is there to be opened. -/
theorem Sized.file {m : DiskManager} (h : Sized m) (hm : m.checkConsistency = true) :
    ∃ f, m.file = some f ∧ f.length = m.diskSize := by
  have hsmall := h.small
  simp only [checkConsistency, beq_iff_eq] at hm
  cases hf : m.file with
  | none =>
    rw [hf, fileLength] at hm
    omega
  | some f =>
    rw [hf, fileLength] at hm
    exact ⟨f, rfl, hm⟩

theorem Sized.read_noErrors_iff {m : DiskManager} (h : Sized m) (buffer : Block) (b : UInt32) :
    (m.read buffer b).2 = .noErrors ↔
      m.checkConsistency = true ∧ blockAddress b < m.diskSize := by
  unfold read
  by_cases hb : blockAddress b ≥ m.diskSize
  · simp [hb, Nat.not_lt.mpr hb]
  · rw [if_neg hb]
    by_cases hm : m.checkConsistency = true
    · obtain ⟨f, hf, -⟩ := h.file hm
      simp [hm, hf, Nat.not_le.mp hb]
    · simp [hm]

/-- A block that is written lies inside the file, which keeps its length. -/
theorem Sized.write_noErrors_iff {m : DiskManager} (h : Sized m) (buffer : Block) (b : UInt32) :
    (m.write buffer b).2 = .noErrors ↔
      m.checkConsistency = true ∧ blockAddress b < m.diskSize := by
  unfold write
  by_cases hb : blockAddress b ≥ m.diskSize
  · simp [hb, Nat.not_lt.mpr hb]
  · rw [if_neg hb]
    by_cases hm : m.checkConsistency = true
    · obtain ⟨f, hf, hlen⟩ := h.file hm
      have hwhole := h.whole
      have hfit : blockAddress b + buffer.toList.length ≤ f.length := by
        rw [Vector.length_toList, hlen]
        rw [blockAddress_eq] at hb ⊢
        omega
      have hkeep : checkConsistency { m with file := some (overwrite f (blockAddress b) buffer.toList) } =
          true := by
        simp [checkConsistency, fileLength, length_overwrite hfit, hlen]
      simp [hm, hf, hkeep, Nat.not_le.mp hb]
    · simp [hm]

end DiskManager
end EndlessFault
