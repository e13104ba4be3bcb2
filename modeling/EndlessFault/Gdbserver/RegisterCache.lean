import EndlessFault.Gdbserver.RegisterCommands

/- The register cache of the stub and the virtual CPU (`kvm.cpp`): `gdb_submit_registers`
   fills the cache from the CPU before a stop is reported, and
   `kvm_load_registers_from_gdbcache` loads the CPU from the cache after each `G` or
   `P`. `KVM_GET_REGS`, `KVM_GET_SREGS` and `KVM_SET_REGS` read and write the CPU's
   state `VCpu` and succeed.

   The first table has 24 rows and the second 18: no row of it is for a segment
   register (`register_load`). So after any packets the general registers of the CPU
   are those of the cache and its selectors those it had (`register_after`), and
   submitting them again gives back what the packets set exactly when they set no
   selector to another value. Main result: `cache_kept_iff`. -/
namespace EndlessFault.Gdbserver
open Lib.Machine

/-- The registers in the order of `amd64_regnum`. -/
inductive Amd64Regnum where
  | rax | rbx | rcx | rdx | rsi | rdi | rbp | rsp | r8 | r9 | r10 | r11 | r12 | r13 | r14 | r15
  | rip | eflags | cs | ss | ds | es | fs | gs
  deriving DecidableEq, Repr

namespace Amd64Regnum

def all : List Amd64Regnum :=
  [rax, rbx, rcx, rdx, rsi, rdi, rbp, rsp, r8, r9, r10, r11, r12, r13, r14, r15, rip, eflags,
   cs, ss, ds, es, fs, gs]

/-- The number of the enumeration. -/
def toNat (n : Amd64Regnum) : Nat := all.idxOf n

def isSegment (n : Amd64Regnum) : Bool := [cs, ss, ds, es, fs, gs].contains n

theorem mem_all (n : Amd64Regnum) : n ∈ all := by
  cases n <;> decide

theorem toNat_lt (n : Amd64Regnum) : n.toNat < numRegs := List.idxOf_lt_length_of_mem n.mem_all

theorem toNat_inj {n m : Amd64Regnum} (h : n.toNat = m.toNat) : n = m :=
  (List.idxOf_inj n.mem_all).mp h

end Amd64Regnum

/-- The part of `kvm_regs` the two functions use. -/
structure KvmRegs where
  rax : UInt64
  rbx : UInt64
  rcx : UInt64
  rdx : UInt64
  rsi : UInt64
  rdi : UInt64
  rsp : UInt64
  rbp : UInt64
  r8 : UInt64
  r9 : UInt64
  r10 : UInt64
  r11 : UInt64
  r12 : UInt64
  r13 : UInt64
  r14 : UInt64
  r15 : UInt64
  rip : UInt64
  rflags : UInt64

/-- The selectors and control registers of `kvm_sregs`. -/
structure KvmSregs where
  cs : UInt16
  ss : UInt16
  ds : UInt16
  es : UInt16
  fs : UInt16
  gs : UInt16
  cr4 : UInt64
  cr3 : UInt64
  cr2 : UInt64
  cr0 : UInt64
  efer : UInt64

structure VCpu where
  regs : KvmRegs
  sregs : KvmSregs

def gdbserverSetRegister (registers : Vector UInt64 numRegs) (name : Amd64Regnum) (value : UInt64) :
    Vector UInt64 numRegs :=
  registers.setIfInBounds name.toNat value

def gdbserverGetRegister (registers : Vector UInt64 numRegs) (name : Amd64Regnum) : UInt64 :=
  registers[name.toNat]?.getD 0

namespace VCpu

/-- The rows of `gdb_submit_registers`. -/
def submitted (v : VCpu) : List (Amd64Regnum × UInt64) :=
  [(.rax, v.regs.rax), (.rbx, v.regs.rbx), (.rcx, v.regs.rcx), (.rdx, v.regs.rdx),
   (.rsi, v.regs.rsi), (.rdi, v.regs.rdi), (.rbp, v.regs.rbp), (.rsp, v.regs.rsp),
   (.r8, v.regs.r8), (.r9, v.regs.r9), (.r10, v.regs.r10), (.r11, v.regs.r11),
   (.r12, v.regs.r12), (.r13, v.regs.r13), (.r14, v.regs.r14), (.r15, v.regs.r15),
   (.rip, v.regs.rip), (.eflags, v.regs.rflags), (.cs, v.sregs.cs.toUInt64),
   (.ss, v.sregs.ss.toUInt64), (.ds, v.sregs.ds.toUInt64), (.es, v.sregs.es.toUInt64),
   (.fs, v.sregs.fs.toUInt64), (.gs, v.sregs.gs.toUInt64)]

def gdbSubmitRegisters (v : VCpu) (s : Stub) : Stub := { s with
  registers := v.submitted.foldl (fun r row => gdbserverSetRegister r row.1 row.2) s.registers
  extendedRegisters := #v[v.sregs.cr4, v.sregs.cr3, v.sregs.cr2, v.sregs.cr0, v.sregs.efer] }

/-- The segment registers have no row here. -/
def kvmLoadRegistersFromGdbcache (v : VCpu) (registers : Vector UInt64 numRegs) : VCpu :=
  let get := gdbserverGetRegister registers
  { v with regs :=
    { rax := get .rax, rbx := get .rbx, rcx := get .rcx, rdx := get .rdx, rsi := get .rsi
      rdi := get .rdi, rbp := get .rbp, rsp := get .rsp, r8 := get .r8, r9 := get .r9
      r10 := get .r10, r11 := get .r11, r12 := get .r12, r13 := get .r13, r14 := get .r14
      r15 := get .r15, rip := get .rip, rflags := get .eflags } }

/-- The CPU after the reloads a stub has made. -/
def after (v : VCpu) (reloads : List (Vector UInt64 numRegs)) : VCpu :=
  reloads.foldl kvmLoadRegistersFromGdbcache v

/-- The value the CPU holds for a register of the cache. -/
def register (v : VCpu) (n : Amd64Regnum) : UInt64 :=
  ((v.submitted.find? fun row => row.1 = n).map Prod.snd).getD 0

end VCpu

/-! The two tables. -/

theorem get_set (registers : Vector UInt64 numRegs) (n m : Amd64Regnum) (x : UInt64) :
    gdbserverGetRegister (gdbserverSetRegister registers n x) m =
      if n = m then x else gdbserverGetRegister registers m := by
  simp only [gdbserverGetRegister, gdbserverSetRegister, Vector.getElem?_setIfInBounds]
  by_cases h : n = m
  · subst h
    rw [if_pos rfl, if_pos n.toNat_lt, if_pos rfl, Option.getD_some]
  · rw [if_neg fun hn => h (Amd64Regnum.toNat_inj hn), if_neg h]

/-- Submitting fills every register of the cache from the CPU. -/
theorem get_submitted (v : VCpu) (s : Stub) (n : Amd64Regnum) :
    gdbserverGetRegister (v.gdbSubmitRegisters s).registers n = v.register n := by
  simp only [VCpu.gdbSubmitRegisters, VCpu.submitted, List.foldl_cons, List.foldl_nil, get_set]
  cases n <;> rfl

/-- Loading sets the general registers of the CPU and leaves the segment registers. -/
theorem register_load (v : VCpu) (registers : Vector UInt64 numRegs) (n : Amd64Regnum) :
    (v.kvmLoadRegistersFromGdbcache registers).register n =
      if n.isSegment then v.register n else gdbserverGetRegister registers n := by
  cases n <;> rfl

/-! What the packets set. -/

/-- The value a packet gives a register, if it does. -/
def RegPacket.sets (n : Amd64Regnum) : RegPacket → Option UInt64
  | .writeAll data _ _ => some (RegPacket.value data n.toNat)
  | .write regno _ data _ _ => if regno.value = n.toNat then some (RegPacket.value data 0) else none
  | _ => none

/-- The value the packets set last. -/
def lastSet (n : Amd64Regnum) (ps : List RegPacket) : Option UInt64 :=
  (ps.filterMap (RegPacket.sets n)).getLast?

theorem get_next (registers : Vector UInt64 numRegs) (p : RegPacket) (n : Amd64Regnum) :
    gdbserverGetRegister (p.next registers) n = (p.sets n).getD (gdbserverGetRegister registers n) := by
  have hn := n.toNat_lt
  cases p with
  | readAll => rfl
  | read regno short => rfl
  | writeAll data isHex full =>
    simp [gdbserverGetRegister, RegPacket.next, RegPacket.sets, hn]
  | write regno short data isHex full =>
    simp only [gdbserverGetRegister, RegPacket.next, RegPacket.sets, Vector.getElem?_setIfInBounds]
    by_cases h : regno.value = n.toNat
    · rw [if_pos h, if_pos (h ▸ hn), if_pos h]
      rfl
    · rw [if_neg h, if_neg h]
      rfl

/-- Over a session, a register holds what the packets set last. -/
theorem get_run (registers : Vector UInt64 numRegs) (ps : List RegPacket) (n : Amd64Regnum) :
    gdbserverGetRegister (run RegPacket.next registers ps) n =
      (lastSet n ps).getD (gdbserverGetRegister registers n) := by
  induction ps generalizing registers with
  | nil => rfl
  | cons p ps ih =>
    rw [run_cons, ih, get_next, lastSet, lastSet]
    cases hp : p.sets n with
    | none => rw [List.filterMap_cons_none hp, Option.getD_none]
    | some x =>
      rw [List.filterMap_cons_some hp, List.getLast?_cons]
      cases (ps.filterMap (RegPacket.sets n)).getLast? <;> rfl

/-! A session with its CPU. -/

/-- The CPU as the session leaves it: its general registers are the cache's, its
selectors are its own. -/
def Loaded (v : VCpu) (s : Stub) : Prop :=
  ∀ n, (v.after s.reloads).register n =
    if n.isSegment then v.register n else gdbserverGetRegister s.registers n

section
variable (after : Nat → UInt8) (sigval : Nat)

theorem loaded_exchange {v : VCpu} {s : Stub} (h : NoSequence s.inBuffer ∧ Loaded v s) (p : RegPacket) :
    NoSequence (s.exchange after sigval p.payload).inBuffer ∧
    Loaded v (s.exchange after sigval p.payload) := by
  obtain ⟨stored, hstored, hnext, -⟩ := command_spec after sigval h.1 p
  rw [hnext]
  refine ⟨hstored, fun n => ?_⟩
  -- a packet that changes the registers has the CPU loaded with them
  have hreloaded : p.reloaded s.registers = [] ∧ p.next s.registers = s.registers ∨
      p.reloaded s.registers = [p.next s.registers] := by
    cases p with
    | readAll => exact .inl ⟨rfl, rfl⟩
    | read regno short => exact .inl ⟨rfl, rfl⟩
    | writeAll data isHex full => exact .inr rfl
    | write regno short data isHex full =>
      by_cases hr : regno.value < numRegs
      · exact .inr (if_pos hr)
      · exact .inl ⟨if_neg hr, Vector.setIfInBounds_eq_of_size_le (Nat.le_of_not_lt hr)⟩
  rcases hreloaded with ⟨hnone, hsame⟩ | hone
  · simp only [hnone, hsame, List.append_nil]
    exact h.2 n
  · simp only [hone, VCpu.after, List.foldl_append, List.foldl_cons, List.foldl_nil, register_load]
    split_ifs with hseg
    · have hprev := h.2 n
      rw [if_pos hseg] at hprev
      exact hprev
    · rfl

/-- After any packets the CPU's general registers are what these set last, and its
selectors are what they were. -/
theorem register_after (v : VCpu) (registers : Vector UInt64 numRegs) (extended : Vector UInt64 5)
    (memory : Memory) (ps : List RegPacket) (n : Amd64Regnum) :
    let s := v.gdbSubmitRegisters (Stub.start registers extended memory)
    let e := run (Stub.exchange after sigval) s (ps.map RegPacket.payload)
    (v.after e.reloads).register n =
      if n.isSegment then v.register n else (lastSet n ps).getD (v.register n) := by
  intro s e
  -- the session beside the array of registers
  let R : Stub → Vector UInt64 numRegs → Prop := fun t r =>
    (NoSequence t.inBuffer ∧ Loaded v t) ∧ t.registers = r
  have hstart : R s s.registers := by
    refine ⟨⟨noSequence_start registers extended memory, fun m => ?_⟩, rfl⟩
    rw [get_submitted]
    exact (ite_self _).symm
  have hstep : ∀ (t : Stub) (r : Vector UInt64 numRegs) (p : RegPacket), R t r →
      R (t.exchange after sigval p.payload) (p.next r) := by
    intro t r p hR
    obtain ⟨stored, -, hnext, -⟩ := command_spec after sigval hR.1.1 p
    refine ⟨loaded_exchange after sigval hR.1 p, ?_⟩
    rw [hnext, ← hR.2]
  obtain ⟨⟨-, hloaded⟩, hregs⟩ := run_simulation hstep hstart ps
  rw [run_map RegPacket.payload] at hloaded hregs
  rw [hloaded n, hregs, get_run, get_submitted]

/-- Over every session of register packets, submitting the CPU's registers again
leaves the cache as the packets set it exactly when the last value they set for a
segment register, if any, is the selector the CPU had. -/
theorem cache_kept_iff (v : VCpu) (registers : Vector UInt64 numRegs) (extended : Vector UInt64 5)
    (memory : Memory) (ps : List RegPacket) :
    let s := v.gdbSubmitRegisters (Stub.start registers extended memory)
    let e := run (Stub.exchange after sigval) s (ps.map RegPacket.payload)
    (∀ n, gdbserverGetRegister ((v.after e.reloads).gdbSubmitRegisters e).registers n =
        (lastSet n ps).getD (v.register n)) ↔
      ∀ n, n.isSegment = true → ∀ x, lastSet n ps = some x → x = v.register n := by
  intro s e
  have hafter : ∀ n, gdbserverGetRegister ((v.after e.reloads).gdbSubmitRegisters e).registers n =
      if n.isSegment then v.register n else (lastSet n ps).getD (v.register n) := by
    intro n
    rw [get_submitted]
    exact register_after after sigval v registers extended memory ps n
  constructor
  · intro hkept n hseg x hx
    have hn := hkept n
    rw [hafter, if_pos hseg, hx, Option.getD_some] at hn
    exact hn.symm
  · intro hsame n
    rw [hafter]
    split_ifs with hseg
    · cases hx : lastSet n ps with
      | none => rfl
      | some x => exact (hsame n hseg x hx).symm
    · rfl

end

/-- `P12=` sets the code segment. -/
def writeCs : RegPacket :=
  .write ⟨[ascii '1', ascii '2'], by decide, by simp⟩ (by simp)
    (ascii '1' :: List.replicate 15 (ascii '0')) (by decide) (by decide)

def VCpu.zero : VCpu where
  regs := ⟨0, 0, 0, 0, 0, 0, 0, 0, 0, 0, 0, 0, 0, 0, 0, 0, 0, 0⟩
  sregs := ⟨0, 0, 0, 0, 0, 0, 0, 0, 0, 0, 0⟩

theorem lastSet_writeCs : lastSet .cs [writeCs] = some 16 := by decide +kernel

/-- The packet is answered `OK`, and submitting again undoes it. -/
theorem selector_undone :
    let s := VCpu.zero.gdbSubmitRegisters
      (Stub.start (Vector.replicate 24 0) (Vector.replicate 5 0) (fun _ => 0))
    let e := run (Stub.exchange (fun _ => 0) 5) s ([writeCs].map RegPacket.payload)
    s.answer (fun _ => 0) 5 writeCs.payload = [[ascii 'O', ascii 'K']] ∧
    lastSet .cs [writeCs] = some 16 ∧
    gdbserverGetRegister ((VCpu.zero.after e.reloads).gdbSubmitRegisters e).registers .cs = 0 := by
  intro s e
  have hseq := noSequence_start (Vector.replicate 24 0) (Vector.replicate 5 0) (fun _ => 0)
  obtain ⟨-, -, -, hanswer⟩ := command_spec (fun _ => 0) 5 (s := s) hseq writeCs
  refine ⟨?_, lastSet_writeCs, ?_⟩
  · rw [hanswer]
    decide +kernel
  · have hcs := register_after (fun _ => 0) 5 VCpu.zero (Vector.replicate 24 0)
      (Vector.replicate 5 0) (fun _ => 0) [writeCs] .cs
    rw [if_pos (by decide)] at hcs
    rw [get_submitted]
    exact hcs

end EndlessFault.Gdbserver
