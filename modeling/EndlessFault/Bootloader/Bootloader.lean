import EndlessFault.Elf.Immagine
import EndlessFault.Lib.Machine
import EndlessFault.Lib.Words

/- Preparing the guest for 64-bit mode (`bootloader/Bootloader.cpp`): the global
   descriptor table, the page tables, and the boot code loaded below them. All
   three write the low megabyte of guest memory.

   Conventions of the embedding:
   - a pointer into guest memory is its offset from `guest_mem_`, the guest
     physical address;
   - `BootMemory` is guest memory together with the table entries stored in it so
     far, oldest first;
   - of the special registers only those the code sets are kept, and the `ioctl`
     calls that hand them to KVM succeed and leave guest memory alone. -/
namespace EndlessFault
open Lib.Machine Lib.Words

/-- `struct kvm_segment`. -/
structure KvmSegment where
  base : UInt64
  limit : UInt32
  selector : UInt16
  type : UInt8
  present : UInt8
  dpl : UInt8
  db : UInt8
  s : UInt8
  l : UInt8
  g : UInt8
  avl : UInt8
  deriving DecidableEq, Inhabited, Repr

structure KvmSregs where
  cs : KvmSegment
  ds : KvmSegment
  es : KvmSegment
  fs : KvmSegment
  gs : KvmSegment
  ss : KvmSegment
  gdtBase : UInt64
  gdtLimit : UInt16
  cr0 : UInt64
  cr3 : UInt64
  deriving Inhabited

/-- The general registers the boot code starts with; all others are 0. -/
structure KvmRegs where
  rip : UInt64
  rdi : UInt64
  rflags : UInt64

structure BootMemory where
  memory : Memory
  written : List (Int × UInt64)

namespace BootMemory

/-- The address of entry `index` of the table at `table`. -/
def slot (table : UInt64) (index : Nat) : Int := (table.toNat + 8 * index : Nat)

def get (g : BootMemory) (table : UInt64) (index : Nat) : UInt64 := load64 g.memory (slot table index)

def set (g : BootMemory) (table : UInt64) (index : Nat) (entry : UInt64) : BootMemory where
  memory := store64 g.memory (slot table index) entry
  written := g.written ++ [(slot table index, entry)]

end BootMemory

structure Bootloader where
  guestMemSize : UInt64
  entryPoint : UInt64

namespace Bootloader

def cr0Pe : UInt64 := 1
def cr0Et : UInt64 := (1 : UInt64) <<< 4

def pde64Present : UInt64 := 1
def pde64Rw : UInt64 := (1 : UInt64) <<< 1
def pde64User : UInt64 := (1 : UInt64) <<< 2
def pde64Ps : UInt64 := (1 : UInt64) <<< 7

/-! Descriptors. -/

/-- The entry `fill_segment_descriptor` makes. The last term is meant for bits 24
to 31 of the base; shifted by 56 they leave the word. -/
def segmentDescriptor (seg : KvmSegment) : UInt64 :=
  let limit : UInt32 := if seg.g ≠ 0 then seg.limit >>> 12 else seg.limit
  (limit &&& 0xffff).toUInt64
    ||| (seg.base &&& 0xffffff) <<< 16
    ||| seg.type.toUInt64 <<< 40
    ||| seg.s.toUInt64 <<< 44
    ||| seg.dpl.toUInt64 <<< 45
    ||| seg.present.toUInt64 <<< 47
    ||| ((limit.toUInt64 &&& 0xf0000) >>> 16) <<< 48
    ||| seg.avl.toUInt64 <<< 52
    ||| seg.l.toUInt64 <<< 53
    ||| seg.db.toUInt64 <<< 54
    ||| seg.g.toUInt64 <<< 55
    ||| (seg.base &&& 0xff000000) <<< 56

def fillSegmentDescriptor (dt : UInt64) (seg : KvmSegment) (g : BootMemory) : BootMemory :=
  g.set dt (seg.selector >>> 3).toNat (segmentDescriptor seg)

def codeSegment : KvmSegment where
  base := 0
  limit := 0xffffffff
  selector := (1 : UInt16) <<< 3
  type := 10
  present := 1
  dpl := 0
  db := 1
  s := 1
  l := 0
  g := 1
  avl := 0

def dataSegment : KvmSegment := { codeSegment with type := 3, selector := (2 : UInt16) <<< 3 }

def setupProtectedMode (sregs : KvmSregs) (g : BootMemory) : KvmSregs × BootMemory :=
  let gdt : UInt64 := 0x10000
  let g := fillSegmentDescriptor gdt codeSegment g
  let g := fillSegmentDescriptor gdt dataSegment g
  ({ sregs with
      cr0 := cr0Et ||| cr0Pe
      gdtBase := gdt
      gdtLimit := 3 * 8 - 1
      cs := codeSegment
      ds := dataSegment
      es := dataSegment
      fs := dataSegment
      gs := dataSegment
      ss := dataSegment }, g)

/-! Page tables. -/

def pml4Addr : UInt64 := 0x20000
def pdptAddr : UInt64 := 0x30000

/-- An entry for the table at `addr`. -/
def tableEntry (addr : UInt64) : UInt64 := pde64Present ||| pde64Rw ||| pde64User ||| addr

/-- An entry for the page of 2 MiB at `addr`. -/
def pageEntry (addr : UInt64) : UInt64 :=
  pde64Present ||| pde64Rw ||| pde64User ||| pde64Ps ||| addr

/-- The index of the last third-level entry, a `uint32_t`. -/
def lastIndexLev3 (guestMemSize : UInt64) : Nat := guestMemSize.toNat / 2^30 % 2^32

/-- The number of pages in the last second-level table. -/
def nEntryLev2 (guestMemSize : UInt64) : Nat := guestMemSize.toNat % 2^30 / 2^21

/-- The body of the inner loop: past the end of memory only the present bit is
cleared. -/
def lev2Step (guestMemSize : UInt64) (iLev3 : Nat) (pdAddr : UInt64) (g : BootMemory) (iLev2 : Nat) :
    BootMemory :=
  if iLev3 ≠ lastIndexLev3 guestMemSize ∨ iLev2 < nEntryLev2 guestMemSize then
    let virtAddr := (UInt64.ofNat iLev3 <<< 30) + (UInt64.ofNat iLev2 <<< 21)
    g.set pdAddr iLev2 (pageEntry virtAddr)
  else g.set pdAddr iLev2 (g.get pdAddr iLev2 &&& ~~~pde64Present)

/-- The body of the outer loop, on the memory and `pd_addr`. -/
def lev3Step (guestMemSize : UInt64) (s : BootMemory × UInt64) (iLev3 : Nat) : BootMemory × UInt64 :=
  let g := s.1.set pdptAddr iLev3 (tableEntry s.2)
  (run (lev2Step guestMemSize iLev3 s.2) g (List.range 512), s.2 + 0x10000)

def setupPageTables (guestMemSize : UInt64) (sregs : KvmSregs) (g : BootMemory) :
    KvmSregs × BootMemory :=
  let g := g.set pml4Addr 0 (tableEntry pdptAddr)
  let s := run (lev3Step guestMemSize) (g, 0x40000) (List.range (lastIndexLev3 guestMemSize + 1))
  -- the table of the APIC is the one after the last used by the loop
  let pdAddr := s.2
  let g := s.1.set pdptAddr 3 (tableEntry pdAddr)
  let g := g.set pdAddr 502 (pageEntry 0xfec00000)
  let g := g.set pdptAddr 3 (tableEntry pdAddr)
  let g := g.set pdAddr 503 (pageEntry 0xfee00000)
  ({ sregs with cr3 := pml4Addr }, g)

/-! The whole preparation. -/

structure Prepared where
  sregs : KvmSregs
  regs : KvmRegs
  boot : BootMemory

/-- `run_long_mode`: the boot code is loaded last, with the 64 KiB below the
tables as its destination. -/
def runLongMode (b : Bootloader) (interpreti : List Elf.Formato) (oltre : Nat → UInt8)
    (image : List UInt8) (sregs : KvmSregs) (memory : Memory) : Except Elf.Fallimento Prepared :=
  let (sregs, g) := setupProtectedMode sregs ⟨memory, []⟩
  let (sregs, g) := setupPageTables b.guestMemSize sregs g
  let esito := Elf.estraiSegmento interpreti oltre image 0x10000
  match esito.ritorno with
  | .error e => .error e
  | .ok entry => .ok
    { sregs := sregs
      regs := { rip := entry, rdi := b.entryPoint, rflags := 2 }
      boot := { g with memory := Elf.applica esito.stores g.memory } }

end Bootloader
end EndlessFault
