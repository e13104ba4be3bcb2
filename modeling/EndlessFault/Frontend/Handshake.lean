import EndlessFault.Frontend.DiskCommands
import EndlessFault.Frontend.DiskInterrupts

/- The status handshake of the first command after power-on. `Progress` is the
   invariant: after `k` data words the cursor, the sectors moved and the status
   register are those of word `k` of a transfer of `n` sectors. The two directions
   count their sectors at different moments, a read one ahead (`Direction.moved`);
   the number of interrupts raised is the number of sectors moved
   (`Counted`), so both come from the same induction over the accesses.
   Main result: `handshake`. -/
namespace EndlessFault
open Lib.Machine

namespace HardDisk

/-- The direction of a transfer. -/
inductive Direction where
  | read
  | write
  deriving DecidableEq, Repr

namespace Direction

/-- The command that starts it. -/
def cmd : Direction → Access
  | read => readCmd
  | write => writeCmd

/-- The data accesses that belong to it. -/
def moves : Direction → Data → Bool
  | read, c => c == .read
  | write, c => c != .read

/-- The cursor after `k` words. -/
def position : Direction → Nat → Nat
  | read, k => k % 256
  | write, k => 2 * (k % 256)

/-- The sectors moved after `k` words of `n` sectors: a read holds the one it is
handing out. -/
def moved : Direction → Nat → Nat → Nat
  | read, n, k => min (k / 256 + 1) n
  | write, _, k => k / 256

end Direction

/-- The status after `k` words of `n` sectors. -/
def statusAfter (n k : Nat) : UInt8 :=
  if k = 256 * n then 0 else if k % 256 = 0 then drqMask else busyMask ||| drqMask

theorem statusOk_after (n k : Nat) : Port.StatusOk (statusAfter n k) := by
  unfold statusAfter
  split_ifs <;> decide

/-- Until the last word data is asked for, and the disk is busy inside a sector. -/
theorem statusAfter_asks {n k : Nat} (hk : k < 256 * n) :
    statusAfter n k &&& drqMask ≠ 0 ∧ (statusAfter n k &&& busyMask ≠ 0 ↔ k % 256 ≠ 0) ∧
      (k % 256 = 0 → statusAfter n k &&& 0x88 = 0x08) := by
  rw [statusAfter, if_neg (by omega)]
  by_cases h0 : k % 256 = 0
  · rw [if_pos h0]
    exact ⟨by decide, iff_of_false (by decide) (not_not.mpr h0), fun _ => by decide⟩
  · rw [if_neg h0]
    exact ⟨by decide, iff_of_true (by decide) h0, fun h => absurd h h0⟩

/-! The port. -/

/-- The port after `k` words of a transfer of `n` sectors. -/
structure Progress (dir : Direction) (n k : Nat) (p : Port) : Prop where
  position : p.position = dir.position k
  wanted : p.wanted.toNat = n
  moved : p.moved.toNat = dir.moved n k
  status : p.status = statusAfter n k

section
variable {n k : Nat} {p : Port}

theorem statusAfter_busy (hlast : k % 256 ≠ 255) (hk : k < 256 * n) :
    statusAfter n k ||| busyMask = statusAfter n (k + 1) := by
  have hmid : statusAfter n (k + 1) = busyMask ||| drqMask := by
    rw [statusAfter, if_neg (by omega), if_neg (by omega)]
  rw [hmid, statusAfter, if_neg (by omega)]
  split_ifs <;> decide

theorem statusAfter_boundary (hlast : k % 256 = 255) {last : Bool}
    (h : last = true ↔ k + 1 = 256 * n) :
    Port.boundary (statusAfter n k) last = statusAfter n (k + 1) := by
  rw [(statusOk_after n k).boundary, statusAfter]
  by_cases hend : k + 1 = 256 * n
  · rw [if_pos (h.mpr hend), if_pos hend]
  · rw [if_neg (fun hl => hend (h.mp hl)), if_neg hend, if_pos (by omega)]

theorem Progress.write (hp : Progress .write n k p) (hn : n ≤ 255) (hk : k < 256 * n)
    (val : UInt16) : Progress .write n (k + 1) (p.write val) := by
  have hpos : p.position = 2 * (k % 256) := hp.position
  have hmoved : p.moved.toNat = k / 256 := hp.moved
  by_cases hlast : k % 256 = 255
  · have hnext : (p.moved + 1).toNat = k / 256 + 1 := by
      simp only [UInt32.toNat_add, UInt32.reduceToNat, hmoved]
      omega
    have hdone : (p.wanted == p.moved + 1) = true ↔ k + 1 = 256 * n := by
      rw [beq_iff_eq, ← UInt32.toNat_inj, hp.wanted, hnext]
      omega
    simp only [Port.write, if_pos (show p.position + 2 ≥ 511 by omega), hp.status,
      statusAfter_boundary hlast hdone]
    refine ⟨?_, hp.wanted, ?_, rfl⟩
    · simp only [Direction.position]
      omega
    · simp only [Direction.moved, hnext]
      omega
  · simp only [Port.write, if_neg (show ¬ p.position + 2 ≥ 511 by omega), hp.status,
      statusAfter_busy hlast hk]
    refine ⟨?_, hp.wanted, ?_, rfl⟩
    · simp only [Direction.position]
      omega
    · simp only [Direction.moved]
      omega

theorem Progress.read (hp : Progress .read n k p) (hn : n ≤ 255) (hk : k < 256 * n) :
    Progress .read n (k + 1) p.read := by
  have hpos : p.position = k % 256 := hp.position
  have hmoved : p.moved.toNat = min (k / 256 + 1) n := hp.moved
  have hdone : p.wanted = p.moved ↔ k / 256 + 1 = n := by
    rw [← UInt32.toNat_inj, hp.wanted, hmoved]
    omega
  by_cases hlast : k % 256 = 255
  · by_cases hend : k + 1 = 256 * n
    · simp only [Port.read, if_pos (show p.position + 1 ≥ 256 by omega),
        if_pos (hdone.mpr (by omega)), hp.status,
        statusAfter_boundary hlast (iff_of_true rfl hend)]
      refine ⟨?_, hp.wanted, ?_, rfl⟩
      · simp only [Direction.position]
        omega
      · simp only [Direction.moved, hmoved]
        omega
    · have hnext : (p.moved + 1).toNat = k / 256 + 2 := by
        simp only [UInt32.toNat_add, UInt32.reduceToNat, hmoved]
        omega
      simp only [Port.read, if_pos (show p.position + 1 ≥ 256 by omega),
        if_neg (show ¬ p.wanted = p.moved by rw [hdone]; omega), hp.status,
        statusAfter_boundary hlast (iff_of_false Bool.false_ne_true hend)]
      refine ⟨?_, hp.wanted, ?_, rfl⟩
      · simp only [Direction.position]
        omega
      · simp only [Direction.moved, hnext]
        omega
  · simp only [Port.read, if_neg (show ¬ p.position + 1 ≥ 256 by omega), hp.status,
      statusAfter_busy hlast hk]
    refine ⟨?_, hp.wanted, ?_, rfl⟩
    · simp only [Direction.position]
      omega
    · simp only [Direction.moved, hmoved]
      omega

/-- A data access of the direction moves the transfer by one word. -/
theorem Progress.step {dir : Direction} (hp : Progress dir n k p) (hn : n ≤ 255)
    (hk : k < 256 * n) {c : Data} (hc : dir.moves c = true) : Progress dir n (k + 1) (p.step c) := by
  cases dir with
  | read =>
    obtain rfl : c = .read := by simpa [Direction.moves] using hc
    exact hp.read hn hk
  | write =>
    cases c with
    | read => exact absurd hc (by decide)
    | write val => exact hp.write hn hk val

/-- The data accesses of a stretch of the transfer. -/
theorem Progress.run {dir : Direction} (hp : Progress dir n k p) (hn : n ≤ 255) {cs : List Data}
    (hcs : ∀ c ∈ cs, dir.moves c = true) (hk : k + cs.length ≤ 256 * n) :
    Progress dir n (k + cs.length) (run Port.step p cs) := by
  induction cs generalizing k p with
  | nil => exact hp
  | cons c cs ih =>
    rw [List.length_cons] at hk ⊢
    have hstep := hp.step hn (by omega) (hcs c List.mem_cons_self)
    have hrun := ih hstep (fun c' hc' => hcs c' (List.mem_cons_of_mem c hc')) (by omega)
    rwa [show k + 1 + cs.length = k + (cs.length + 1) by omega] at hrun

end

/-! The interrupts. -/

section
variable (wild : Nat → UInt16)

/-- One access raises the line once, when it finishes or fetches a sector with
interrupts enabled. -/
theorem raised_step (d : HardDisk) (a : Access) :
    (step wild d a).irq.count 1 =
      d.irq.count 1 + if signal d a = .sector ∧ d.interruptEnabled = true then 1 else 0 := by
  have hirq : (step wild d a).irq = (d.line.next (signal d a)).irq :=
    congrArg Line.irq (line_step wild d a)
  rw [hirq]
  cases signal d a with
  | idle => simp [Line.next, line]
  | sector => cases hen : d.interruptEnabled <;> simp [Line.next, line, hen]
  | acknowledge => cases hr : d.interruptRaised <;> simp [Line.next, line, hr]
  | enable => simp [Line.next, line]
  | disable => simp [Line.next, line]

theorem enabled_step {d : HardDisk} {a : Access} (h : d.interruptEnabled = true)
    (hs : signal d a ≠ .disable) : (step wild d a).interruptEnabled = true := by
  have hen : (step wild d a).interruptEnabled = (d.line.next (signal d a)).enabled :=
    congrArg Line.enabled (line_step wild d a)
  rw [hen]
  cases hsig : signal d a with
  | idle => exact h
  | sector => simp [Line.next, line, h]
  | acknowledge => simp [Line.next, line, h]; split_ifs <;> rfl
  | enable => rfl
  | disable => exact absurd hsig hs

/-- Interrupts are enabled and have been raised `m` times. -/
structure Counted (m : Nat) (d : HardDisk) : Prop where
  enabled : d.interruptEnabled = true
  raised : d.irq.count 1 = m

theorem Counted.step {m : Nat} {d : HardDisk} {a : Access} (h : Counted m d)
    (hs : signal d a ≠ .disable) :
    Counted (if signal d a = .sector then m + 1 else m) (step wild d a) := by
  refine ⟨enabled_step wild h.enabled hs, ?_⟩
  rw [raised_step, h.raised, h.enabled]
  simp only [and_true]
  split_ifs <;> rfl

/-- The access does not disable interrupts. -/
def Access.enabling : Access → Bool
  | .writeByte addr val => addr != dcrAddr || val == 0
  | _ => true

theorem signal_of_enabling {a : Access} (h : a.enabling = true) (d : HardDisk) :
    signal d a ≠ .disable := by
  intro hs
  obtain ⟨val, rfl, hv⟩ := (signal_disable_iff d a).mp hs
  simp [Access.enabling, hv] at h

theorem signal_register {d : HardDisk} {a : Access} (hc : a.command = false) (hd : a.data = none) :
    signal d a ≠ .sector := by
  cases a with
  | readByte addr =>
    simp only [signal]
    split_ifs <;> decide
  | writeByte addr val =>
    have hne : addr ≠ cmdAddr := by simpa [Access.command] using hc
    simp only [signal, if_neg hne]
    split_ifs <;> decide
  | readWord addr =>
    have hne : addr ≠ brAddr := by simpa [Access.data] using hd
    simp [signal, hne]
  | writeWord addr val =>
    have hne : addr ≠ brAddr := by simpa [Access.data] using hd
    simp [signal, hne]

/-- A data word of the transfer raises the interrupt when it moves a sector. -/
theorem Progress.signal {dir : Direction} {n k : Nat} {d : HardDisk} {a : Access} {c : Data}
    (hp : Progress dir n k d.port) (hk : k < 256 * n) (hd : a.data = some c)
    (hc : dir.moves c = true) :
    (if HardDisk.signal d a = .sector then dir.moved n k + 1 else dir.moved n k) =
      dir.moved n (k + 1) := by
  cases dir with
  | read =>
    have hpos : d.currentPosition = k % 256 := hp.position
    have hmoved : d.currentSectorNumber.toNat = min (k / 256 + 1) n := hp.moved
    have hwanted : d.sectorNumbersCmd.toNat = n := hp.wanted
    obtain rfl : a = .readWord brAddr := by
      obtain rfl : c = .read := by simpa [Direction.moves] using hc
      cases a <;> simp_all [Access.data]
    have hsig : HardDisk.signal d (.readWord brAddr) = .sector ↔
        k % 256 = 255 ∧ k / 256 + 1 < n := by
      simp only [HardDisk.signal, true_and, ite_eq_left_iff, reduceCtorEq, imp_false, not_not, ne_eq,
        ← UInt32.toNat_inj, hpos, hmoved, hwanted]
      omega
    simp only [hsig, Direction.moved]
    split_ifs <;> omega
  | write =>
    have hpos : d.currentPosition = 2 * (k % 256) := hp.position
    obtain ⟨val, rfl⟩ : ∃ val, a = .writeWord brAddr val := by
      cases a <;> simp_all [Access.data, Direction.moves]
    have hsig : HardDisk.signal d (.writeWord brAddr val) = .sector ↔ k % 256 = 255 := by
      simp only [HardDisk.signal, true_and, ite_eq_left_iff, reduceCtorEq, imp_false, not_not, hpos]
      omega
    simp only [hsig, Direction.moved]
    split_ifs <;> omega

/-- Over the accesses of a transfer, interrupts count the sectors moved. -/
theorem counted_run {dir : Direction} {n k : Nat} {d : HardDisk} {body : List Access}
    (hp : Progress dir n k d.port) (hcount : Counted (dir.moved n k) d) (hn : n ≤ 255)
    (hbody : ∀ a ∈ body, a.command = false) (hon : ∀ a ∈ body, a.enabling = true)
    (hdata : ∀ c ∈ body.filterMap Access.data, dir.moves c = true)
    (hk : k + (body.filterMap Access.data).length ≤ 256 * n) :
    Counted (dir.moved n (k + (body.filterMap Access.data).length)) (run (step wild) d body) := by
  induction body generalizing k d with
  | nil => exact hcount
  | cons a body ih =>
    have hcom := hbody a List.mem_cons_self
    have hstep := hcount.step wild (signal_of_enabling (hon a List.mem_cons_self) d)
    have hbody' := fun b hb => hbody b (List.mem_cons_of_mem a hb)
    have hon' := fun b hb => hon b (List.mem_cons_of_mem a hb)
    cases hd : a.data with
    | none =>
      rw [List.filterMap_cons_none hd] at hdata hk ⊢
      rw [if_neg (signal_register hcom hd)] at hstep
      have hport := (port_step_quiet wild d a hcom hd).1
      exact ih (hport ▸ hp) hstep hbody' hon' hdata hk
    | some c =>
      rw [List.filterMap_cons_some hd] at hdata hk ⊢
      rw [List.length_cons] at hk ⊢
      have hc := hdata c List.mem_cons_self
      rw [hp.signal (by omega) hd hc] at hstep
      have hport := (port_step_data wild d a c hd).1
      have hrun := ih (hport ▸ hp.step hn (by omega) hc) hstep hbody' hon'
        (fun c' hc' => hdata c' (List.mem_cons_of_mem c hc')) (by omega)
      rwa [Nat.add_assoc, Nat.add_comm 1] at hrun

/-- Register accesses raise nothing. -/
theorem raised_quiet {d : HardDisk} {as : List Access}
    (has : ∀ a ∈ as, a.command = false ∧ a.data = none) :
    (run (step wild) d as).irq.count 1 = d.irq.count 1 := by
  induction as generalizing d with
  | nil => rfl
  | cons a as ih =>
    obtain ⟨hc, hd⟩ := has a List.mem_cons_self
    rw [run_cons, ih fun b hb => has b (List.mem_cons_of_mem a hb), raised_step,
      if_neg fun h => signal_register hc hd h.1, Nat.add_zero]

theorem enabled_run {d : HardDisk} {as : List Access} (h : d.interruptEnabled = true)
    (has : ∀ a ∈ as, a.enabling = true) : (run (step wild) d as).interruptEnabled = true :=
  run_invariant (fun d => d.interruptEnabled = true) (fun a => a.enabling = true)
    (fun d _ ha hd => enabled_step wild hd (signal_of_enabling ha d)) h has

/-! From power-on. -/

/-- The command starts the transfer at word 0. -/
theorem progress_start {d : HardDisk} (dir : Direction) {n : Nat} (hn : 1 ≤ n)
    (hpos : d.currentPosition = 0) (hmoved : d.currentSectorNumber = 0) (hsts : d.STS = 0)
    (hscr : d.SCR.toNat = n) : Progress dir n 0 (step wild d dir.cmd).port := by
  have hstatus : statusAfter n 0 = drqMask := by
    rw [statusAfter, if_neg (by omega), if_pos rfl]
  cases dir with
  | read =>
    rw [Direction.cmd, port_readCmd, hsts, hmoved]
    refine ⟨hpos, ?_, ?_, hstatus.symm⟩
    · rw [← hscr]
      exact UInt8.toNat_toUInt32 _
    · simp only [Direction.moved]
      exact (Nat.min_eq_left hn).symm
  | write =>
    rw [Direction.cmd, port_writeCmd, hsts]
    refine ⟨hpos, ?_, ?_, hstatus.symm⟩
    · rw [← hscr]
      exact UInt8.toNat_toUInt32 _
    · exact congrArg UInt32.toNat hmoved

/-- The interrupts of the command itself: a read raises one for its first sector. -/
theorem counted_start {d : HardDisk} (dir : Direction) {n : Nat} (hn : 1 ≤ n)
    (h : Counted 0 d) : Counted (dir.moved n 0) (step wild d dir.cmd) := by
  cases dir with
  | read =>
    have hone : Direction.moved .read n 0 = 1 := by
      simp only [Direction.moved]
      exact Nat.min_eq_left hn
    rw [hone]
    exact h.step wild (signal_of_enabling (show readCmd.enabling = true by decide) d)
  | write => exact h.step wild (signal_of_enabling (show writeCmd.enabling = true by decide) d)

/-- The interrupts a driver sees by the time `k` of the words of `n` sectors are
through: for a write one after each sector, for a read one at the command and one
after each sector but the last. -/
def Direction.interrupts : Direction → Nat → Nat → Nat
  | write, _, k => k / 256
  | read, n, k => 1 + min (k / 256) (n - 1)

theorem Direction.moved_eq_interrupts (dir : Direction) {n : Nat} (hn : 1 ≤ n) (k : Nat) :
    dir.moved n k = dir.interrupts n k := by
  cases dir with
  | read =>
    simp only [Direction.moved, Direction.interrupts]
    omega
  | write => rfl

/-- The first command after power-on. The registers are set by any accesses that
neither start a command nor touch the data register, with the count `n` in `SCR`;
`k` data words of the command's direction follow, with any register accesses
between them. Until the last word the status asks for data, and is busy inside a
sector; after it both bits are clear. With interrupts enabled through `DCR`, they
are raised `n` times in all, at the sector boundaries. -/
theorem handshake (buffer fill : Block) (numSector : UInt32) (file : Option (List UInt8))
    (dir : Direction) {n : Nat} (hn1 : 1 ≤ n) (hn : n ≤ 255) (regs body : List Access)
    (hregs : ∀ a ∈ regs, a.command = false ∧ a.data = none)
    (hscr : (run (step wild) (new buffer fill numSector file) regs).SCR.toNat = n)
    (hbody : ∀ a ∈ body, a.command = false)
    (hdata : ∀ c ∈ body.filterMap Access.data, dir.moves c = true) :
    let k := (body.filterMap Access.data).length
    let e := run (step wild) (new buffer fill numSector file) (regs ++ dir.cmd :: body)
    (k < 256 * n → e.STS &&& drqMask ≠ 0 ∧ (e.STS &&& busyMask ≠ 0 ↔ k % 256 ≠ 0) ∧
      (k % 256 = 0 → e.STS &&& 0x88 = 0x08)) ∧
    (k = 256 * n → e.STS &&& drqMask = 0 ∧ e.STS &&& busyMask = 0) ∧
    (∀ before after, regs = before ++ .writeByte dcrAddr 0 :: after →
      (∀ a ∈ after, a.enabling = true) → (∀ a ∈ body, a.enabling = true) →
      (k ≤ 256 * n → e.irq.count 1 = dir.interrupts n k) ∧
      (k = 256 * n → e.irq.count 1 = n)) := by
  intro k e
  generalize hd : run (step wild) (new buffer fill numSector file) regs = d at hscr
  have hport : d.port = (new buffer fill numSector file).port := by
    have hnone : regs.filterMap Access.data = [] :=
      List.filterMap_eq_nil_iff.mpr fun a ha => (hregs a ha).2
    rw [← hd, port_run wild _ fun a ha => (hregs a ha).1, hnone, run_nil]
  have he : e = run (step wild) (step wild d dir.cmd) body := by
    simp only [e, run_append, run_cons, hd]
  have hstart : Progress dir n 0 (step wild d dir.cmd).port :=
    progress_start wild dir hn1 (congrArg Port.position hport) (congrArg Port.moved hport)
      (congrArg Port.status hport) hscr
  have hstatus : k ≤ 256 * n → e.STS = statusAfter n k := by
    intro hk
    have hrun := hstart.run hn hdata (by omega)
    rw [← port_run wild _ hbody, ← he, Nat.zero_add] at hrun
    exact hrun.status
  refine ⟨?_, ?_, ?_⟩
  · intro hk
    rw [hstatus (by omega)]
    exact statusAfter_asks hk
  · intro hk
    rw [hstatus (by omega), statusAfter, if_pos hk]
    decide
  · intro before after hsplit hafter hon
    have hcount : Counted 0 d := by
      refine ⟨?_, ?_⟩
      · rw [← hd, hsplit, run_append, run_cons]
        exact enabled_run wild rfl hafter
      · rw [← hd, raised_quiet wild hregs]
        rfl
    have hraised : k ≤ 256 * n → e.irq.count 1 = dir.interrupts n k := by
      intro hk
      have hrun := counted_run wild hstart (counted_start wild dir hn1 hcount) hn hbody hon hdata
        (by omega)
      rw [← he, Nat.zero_add] at hrun
      rw [← dir.moved_eq_interrupts hn1]
      exact hrun.raised
    refine ⟨hraised, fun hk => ?_⟩
    rw [hraised (by omega), hk]
    cases dir <;> simp only [Direction.interrupts] <;> omega

/-- The statement at the first word of a read of two sectors with interrupts on. -/
theorem handshake_read_two :
    let e := run (step fun _ => 0)
      (new (Vector.replicate 512 0) (Vector.replicate 512 0) 4 none)
      ((.writeByte dcrAddr 0 :: setup 1 2) ++ readCmd :: [.readByte stsAddr, .readWord brAddr])
    e.STS &&& drqMask ≠ 0 ∧ e.STS &&& busyMask ≠ 0 ∧ e.irq.count 1 = 1 := by
  intro e
  have h := handshake (fun _ => 0) (Vector.replicate 512 0) (Vector.replicate 512 0) 4 none .read
    (n := 2) (by decide) (by decide) (.writeByte dcrAddr 0 :: setup 1 2)
    [.readByte stsAddr, .readWord brAddr] (by decide) (by decide) (by decide) (by decide)
  exact ⟨(h.1 (by decide)).1, (h.1 (by decide)).2.1.mpr (by decide),
    (h.2.2 [] (setup 1 2) rfl (by decide) (by decide)).1 (by decide)⟩

end

end HardDisk
end EndlessFault
