import EndlessFault.Frontend.DiskCommands

/- When the back end is written. `backendWrite` is the block an access hands to
   `disk_manager.write` and the address it goes to; nothing else touches the back
   end (`disk_step`). The word that fills the buffer is written out whatever the
   last command was, so how often it happens is a matter of the guest's own data
   accesses (`fills`, `length_backendWrite_run`): over words alone, every 256 of
   them fill the buffer at most once (`fills_le`).

   `allowance` is what the last command permits, `SCR` sectors for a write command
   and none otherwise. The back-end writes of a run from power-on are within it
   exactly when the guest fills the buffer only against what it asked for
   (`Sparing`, `writes_permitted_iff`); a guest that does not can write to the
   disk with no command at all (`image_changes_without_command`). -/
namespace EndlessFault
open Lib.Bytes Lib.Machine

namespace HardDisk

variable (wild : Nat → UInt16)

/-- The block and the address an access hands to `disk_manager.write`, if any. -/
def backendWrite (d : HardDisk) : Access → List (Block × UInt32)
  | .writeWord addr val =>
    if addr = brAddr ∧ d.currentPosition + 2 ≥ 511 then
      [(Port.store d.internalBuffer d.currentPosition val, d.lba + d.currentSectorNumber)]
    else []
  | _ => []

def Port.backendWrite (p : Port) : Data → List (Block × UInt32)
  | .read => []
  | .write val =>
    if p.position + 2 ≥ 511 then [(store p.buffer p.position val, p.lba + p.moved)] else []

/-- The back end after some writes. -/
def writeOut (m : DiskManager) (ws : List (Block × UInt32)) : DiskManager :=
  ws.foldl (fun m w => (m.write w.1 w.2).1) m

theorem Port.disk_step (p : Port) (c : Data) :
    (p.step c).disk = writeOut p.disk (p.backendWrite c) := by
  cases c with
  | read =>
    simp only [Port.step, Port.read]
    split_ifs <;> rfl
  | write val =>
    simp only [Port.step, Port.write, Port.backendWrite]
    split_ifs <;> rfl

theorem backendWrite_data {d : HardDisk} {a : Access} {c : Data} (hd : a.data = some c) :
    backendWrite d a = d.port.backendWrite c := by
  cases a with
  | readByte addr => simp [Access.data] at hd
  | writeByte addr val => simp [Access.data] at hd
  | readWord addr =>
    obtain ⟨rfl, rfl⟩ : addr = brAddr ∧ Data.read = c := by simpa [Access.data] using hd
    rfl
  | writeWord addr val =>
    obtain ⟨rfl, rfl⟩ : addr = brAddr ∧ Data.write val = c := by simpa [Access.data] using hd
    simp only [backendWrite, Port.backendWrite, true_and]
    rfl

theorem backendWrite_other {d : HardDisk} {a : Access} (hd : a.data = none) :
    backendWrite d a = [] := by
  cases a with
  | writeWord addr val =>
    have hne : addr ≠ brAddr := by simpa [Access.data] using hd
    simp only [backendWrite, hne, false_and, if_false]
  | readByte addr => rfl
  | writeByte addr val => rfl
  | readWord addr => rfl

/-- A command leaves the back end alone: it only reads from it. -/
theorem disk_command (d : HardDisk) (cmd : UInt8) :
    (step wild d (.writeByte cmdAddr cmd)).diskManager = d.diskManager := by
  by_cases hr : cmd = 0x20
  · subst hr
    exact congrArg Port.disk (port_readCmd wild d)
  · by_cases hw : cmd = 0x30
    · subst hw
      exact congrArg Port.disk (port_writeCmd wild d)
    · exact congrArg Port.disk (port_otherCmd wild d hr hw)

/-- The back end after any access is the back end with that access's write. -/
theorem disk_step (d : HardDisk) (a : Access) :
    (step wild d a).diskManager = writeOut d.diskManager (backendWrite d a) := by
  cases hd : a.data with
  | some c =>
    rw [backendWrite_data hd]
    calc (step wild d a).diskManager
        = (d.port.step c).disk := congrArg Port.disk (port_step_data wild d a c hd).1
      _ = writeOut d.diskManager (d.port.backendWrite c) := d.port.disk_step c
  | none =>
    rw [backendWrite_other hd]
    cases hc : a.command with
    | false => exact congrArg Port.disk (port_step_quiet wild d a hc hd).1
    | true =>
      obtain ⟨cmd, rfl⟩ := Access.eq_of_command hc
      exact disk_command wild d cmd

theorem image_step {d : HardDisk} {a : Access} (h : backendWrite d a = []) :
    (step wild d a).image = d.image := by
  have hdisk := disk_step wild d a
  rw [h] at hdisk
  exact congrArg (fun m : DiskManager => m.file.getD []) hdisk

theorem image_run {d : HardDisk} {as : List Access}
    (h : observe (step wild) backendWrite d as = []) : (run (step wild) d as).image = d.image := by
  induction as generalizing d with
  | nil => rfl
  | cons a as ih =>
    rw [observe_cons, List.append_eq_nil_iff] at h
    rw [run_cons, ih h.2, image_step wild h.1]

/-! How often the buffer fills. -/

/-- Between commands, the back-end writes are those of the data accesses alone. -/
theorem backendWrite_run (d : HardDisk) {as : List Access} (has : ∀ a ∈ as, a.command = false) :
    observe (step wild) backendWrite d as =
      observe Port.step Port.backendWrite d.port (as.filterMap Access.data) :=
  observe_stutter (fun a => a.command = false)
    (fun d a hc hd => ⟨(port_step_quiet wild d a hc hd).1, backendWrite_other hd⟩)
    (fun d a c _ hd => ⟨(port_step_data wild d a c hd).1, backendWrite_data hd⟩) d has

/-- How often the data accesses `cs` fill the buffer, from a cursor. -/
def fills : Nat → List Data → Nat
  | _, [] => 0
  | position, .read :: cs => fills (advance position .read) cs
  | position, .write val :: cs =>
    (if position + 2 ≥ 511 then 1 else 0) + fills (advance position (.write val)) cs

theorem Port.length_backendWrite (p : Port) (cs : List Data) :
    (observe Port.step Port.backendWrite p cs).length = fills p.position cs := by
  induction cs generalizing p with
  | nil => rfl
  | cons c cs ih =>
    have hpos : (p.step c).position = advance p.position c := congrArg Prod.fst (p.step_cursor c)
    rw [observe_cons, List.length_append, ih, hpos]
    cases c with
    | read => exact Nat.zero_add _
    | write val =>
      simp only [Port.backendWrite, fills]
      split <;> rfl

/-- Between commands, the back-end writes are as many as the data accesses fill
the buffer. -/
theorem length_backendWrite_run (d : HardDisk) {as : List Access} (has : ∀ a ∈ as, a.command = false) :
    (observe (step wild) backendWrite d as).length =
      fills d.currentPosition (as.filterMap Access.data) := by
  rw [backendWrite_run wild d has, Port.length_backendWrite]
  rfl

/-- Over written words alone the buffer fills once every 512 bytes; a fill from
an odd cursor, which reads may leave behind, comes one byte early. -/
theorem fills_balance {cs : List Data} {position : Nat} (hp : position ≤ 510)
    (hcs : ∀ c ∈ cs, c ≠ .read) :
    512 * fills position cs + run advance position cs ≤ position + 2 * cs.length + position % 2 := by
  induction cs generalizing position with
  | nil => simp [fills]
  | cons c cs ih =>
    cases c with
    | read => exact absurd rfl (hcs .read List.mem_cons_self)
    | write val =>
      have hrest : ∀ c ∈ cs, c ≠ Data.read := fun c hc => hcs c (List.mem_cons_of_mem _ hc)
      have ih' := ih (advance_le hp (.write val)) hrest
      rw [run_cons, List.length_cons]
      by_cases hfull : position + 2 ≥ 511
      · simp only [fills, advance, if_pos hfull] at ih' ⊢
        omega
      · simp only [fills, advance, if_neg hfull] at ih' ⊢
        omega

/-- `256 * n` written words fill the buffer at most `n` times, wherever the
cursor was. -/
theorem fills_le {cs : List Data} {position : Nat} (hp : position ≤ 510) (hcs : ∀ c ∈ cs, c ≠ .read)
    {n : Nat} (hn : cs.length ≤ 256 * n) : fills position cs ≤ n := by
  have h := fills_balance hp hcs
  omega

/-! Commands and what they permit. -/

/-- `post` is a stretch of the run `as` between two commands: it follows `pre`,
which is empty or ends with a command, and starts none itself. -/
structure Stretch (as pre post : List Access) : Prop where
  within : ∃ rest, as = pre ++ post ++ rest
  starts : ∀ a, pre.getLast? = some a → a.command = true
  between : ∀ a ∈ post, a.command = false

/-- The sectors the last command of `pre` permits the guest to write. -/
def allowance (d : HardDisk) (pre : List Access) : Nat :=
  if pre.getLast? = some writeCmd then (run (step wild) d pre).SCR.toNat else 0

/-- The disk is written only under a write command and at most as often as it
asked: between commands the back-end writes are at most the allowance, an access
without one leaves the image alone, and so does every data word once the
allowance is used up. -/
structure WritesPermitted (d : HardDisk) (as : List Access) : Prop where
  bounded : ∀ pre post, Stretch as pre post →
    (observe (step wild) backendWrite (run (step wild) d pre) post).length ≤ allowance wild d pre
  framed : ∀ pre a post, as = pre ++ a :: post → backendWrite (run (step wild) d pre) a = [] →
    (run (step wild) d (pre ++ [a])).image = (run (step wild) d pre).image
  exhausted : ∀ pre post val, Stretch as pre (post ++ [.writeWord brAddr val]) →
    (observe (step wild) backendWrite (run (step wild) d pre) post).length = allowance wild d pre →
    (run (step wild) d (pre ++ post ++ [.writeWord brAddr val])).image =
      (run (step wild) d (pre ++ post)).image

/-- The bound alone gives the rest. -/
theorem writesPermitted_of_bounded {d : HardDisk} {as : List Access}
    (h : ∀ pre post, Stretch as pre post →
      (observe (step wild) backendWrite (run (step wild) d pre) post).length ≤
        allowance wild d pre) : WritesPermitted wild d as where
  bounded := h
  framed := by
    intro pre a post _ hnone
    rw [run_append, run_cons, run_nil]
    exact image_step wild hnone
  exhausted := by
    intro pre post val hst hused
    have hle := h pre _ hst
    rw [observe_append, List.length_append, hused, observe_cons, observe_nil, List.append_nil] at hle
    have hnone : backendWrite (run (step wild) (run (step wild) d pre) post) (.writeWord brAddr val) = [] :=
      List.eq_nil_of_length_eq_zero (by omega)
    rw [run_append, run_cons, run_nil, run_append]
    exact image_step wild hnone

/-! What the guest asked for, by its own accesses. -/

/-- The sector count an access writes to `SCR`, if any. -/
def Access.count : Access → List UInt8
  | .writeByte addr val => if addr = scrAddr then [val] else []
  | _ => []

/-- The sectors the accesses `pre` ask to write: the count last written to `SCR`
when they end with a write command, none otherwise. -/
def asked (pre : List Access) : Nat :=
  if pre.getLast? = some writeCmd then ((pre.flatMap Access.count).getLast?.getD 0).toNat else 0

/-- The guest fills the buffer, from one command to the next, only as often as it
asked for sectors. -/
def Sparing (as : List Access) : Prop :=
  ∀ pre post, Stretch as pre post →
    fills (offset (pre.filterMap Access.data)) (post.filterMap Access.data) ≤ asked pre

theorem SCR_raiseInterrupt (d : HardDisk) : d.raiseInterrupt.SCR = d.SCR := by
  unfold raiseInterrupt setIRQline
  split <;> rfl

theorem SCR_processCmd (d : HardDisk) : d.processCmd.SCR = d.SCR := by
  simp only [processCmd, readFromBackend]
  split_ifs
  · rfl
  · exact SCR_raiseInterrupt _
  · rfl

theorem SCR_writeBR (d : HardDisk) (val : UInt16) : (d.writeBRRegister val).SCR = d.SCR := by
  simp only [writeBRRegister]
  split_ifs <;> simp only [SCR_raiseInterrupt]

theorem SCR_readBR (d : HardDisk) : (d.readBRRegister wild).1.SCR = d.SCR := by
  simp only [readBRRegister, readBR_pointer, readFromBackend]
  split_ifs <;> simp only [SCR_raiseInterrupt]

/-- `SCR` changes only by the guest's writes to it. -/
theorem SCR_step (d : HardDisk) (a : Access) : (step wild d a).SCR = a.count.getLast?.getD d.SCR := by
  cases a with
  | readByte addr =>
    show (d.readRegByte addr).1.SCR = d.SCR
    unfold readRegByte
    split_ifs <;> rfl
  | writeByte addr val =>
    by_cases hscr : addr = scrAddr
    · simp only [step, writeRegByte, Access.count, if_pos hscr]
      rfl
    · simp only [step, writeRegByte, Access.count, if_neg hscr, writeDCR]
      split_ifs <;> first | rfl | exact SCR_processCmd _
  | readWord addr =>
    exact of_branches (fun r : HardDisk × UInt16 => r.1.SCR) (SCR_readBR wild d) rfl
  | writeWord addr val => exact of_branches SCR (SCR_writeBR d val) rfl

section PowerOn
variable (buffer fill : Block) (numSector : UInt32) (file : Option (List UInt8))

/-- From power-on the last command permits what the guest asked for. -/
theorem allowance_from_new (pre : List Access) :
    allowance wild (new buffer fill numSector file) pre = asked pre := by
  have hscr := observe_latest SCR (SCR_step wild) (new buffer fill numSector file) pre
  rw [observe_static] at hscr
  unfold allowance asked
  rw [hscr]
  rfl

/-- In a run from power-on the disk is written only as the commands permit if and
only if the guest fills the buffer, from one command to the next, at most as often
as it asked for sectors. -/
theorem writes_permitted_iff (as : List Access) :
    WritesPermitted wild (new buffer fill numSector file) as ↔ Sparing as := by
  have hcount : ∀ pre post, Stretch as pre post →
      (observe (step wild) backendWrite (run (step wild) (new buffer fill numSector file) pre)
        post).length = fills (offset (pre.filterMap Access.data)) (post.filterMap Access.data) := by
    intro pre post hst
    rw [length_backendWrite_run wild _ hst.between, position_from_new]
  constructor
  · intro h pre post hst
    have hle := h.bounded pre post hst
    rwa [hcount pre post hst, allowance_from_new] at hle
  · intro h
    apply writesPermitted_of_bounded
    intro pre post hst
    rw [hcount pre post hst, allowance_from_new]
    exact h pre post hst

end PowerOn

/-- Accesses that start no command cannot end with one. -/
theorem nil_of_starts {as : List Access} (hstart : ∀ a, as.getLast? = some a → a.command = true)
    (has : ∀ a ∈ as, a.command = false) : as = [] := by
  cases hl : as.getLast? with
  | none => exact List.getLast?_eq_none_iff.mp hl
  | some a =>
    have hcom := hstart a hl
    rw [has a (List.mem_of_getLast? hl)] at hcom
    exact absurd hcom Bool.false_ne_true

/-- With a single command in the run, a stretch lies before it or after it. -/
theorem Stretch.of_single {regs body pre post : List Access} {cmd : Access}
    (hcmd : cmd.command = true) (hregs : ∀ a ∈ regs, a.command = false)
    (hbody : ∀ a ∈ body, a.command = false) (h : Stretch (regs ++ cmd :: body) pre post) :
    (pre = [] ∧ ∃ rest, regs = post ++ rest) ∨
    (pre = regs ++ [cmd] ∧ ∃ rest, body = post ++ rest) := by
  obtain ⟨⟨rest, has⟩, hstart, hbetween⟩ := h
  have hnot : cmd ∉ post := fun hm => by simp [hbetween cmd hm] at hcmd
  rw [List.append_assoc] at has
  rcases List.append_eq_append_iff.mp has with ⟨mid, rfl, hmid⟩ | ⟨mid, rfl, hmid⟩
  · cases mid with
    | nil =>
      -- `pre` is `regs`, which has no command to end with
      have hnil : regs = [] := nil_of_starts (by simpa using hstart) hregs
      cases post with
      | nil => exact .inl ⟨by simp [hnil], [], by simp [hnil]⟩
      | cons a post =>
        have ha : cmd = a := by simpa using congrArg List.head? hmid
        exact absurd (ha ▸ List.mem_cons_self) hnot
    | cons c mid =>
      obtain ⟨rfl, hrest⟩ : cmd = c ∧ body = mid ++ (post ++ rest) := by simpa using hmid
      have hnil : mid = [] := by
        apply nil_of_starts
        · intro a ha
          exact hstart a (by simp [List.getLast?_append, List.getLast?_cons, ha])
        · intro a ha
          exact hbody a (hrest ▸ List.mem_append_left _ ha)
      subst hnil
      exact .inr ⟨rfl, rest, hrest⟩
  · have hnil : pre = [] :=
      nil_of_starts hstart fun a ha => hregs a (List.mem_append_left _ ha)
    subst hnil
    refine .inl ⟨rfl, ?_⟩
    rcases List.append_eq_append_iff.mp hmid with ⟨t, ht, -⟩ | ⟨t, rfl, ht⟩
    · exact ⟨t, ht⟩
    · cases t with
      | nil => exact ⟨[], by simp⟩
      | cons c t =>
        have hc : cmd = c := by simpa using congrArg List.head? ht
        exact absurd (hc ▸ by simp) hnot

/-- A guest that sets the registers, starts one write command and writes at most
256 words for each sector is sparing. -/
theorem sparing_of_command {regs : List Access} {ws : List UInt16}
    (hregs : ∀ a ∈ regs, a.quiet = true) (hws : ws.length ≤ 256 * asked (regs ++ [writeCmd])) :
    Sparing (regs ++ writeCmd :: ws.map (Access.writeWord brAddr)) := by
  intro pre post hst
  have hbody : ∀ a ∈ ws.map (Access.writeWord brAddr), a.command = false := by
    intro a ha
    obtain ⟨w, -, rfl⟩ := List.mem_map.mp ha
    rfl
  rcases hst.of_single rfl (fun a ha => (quiet_spec (hregs a ha)).1) hbody with
    ⟨rfl, rest, hrest⟩ | ⟨rfl, rest, hrest⟩
  · have hnone : post.filterMap Access.data = [] := by
      apply List.filterMap_eq_nil_iff.mpr
      intro a ha
      exact (quiet_spec (hregs a (hrest ▸ List.mem_append_left _ ha))).2
    rw [hnone]
    exact Nat.zero_le _
  · have hdata := data_writes ws
    rw [hrest, List.filterMap_append] at hdata
    obtain ⟨us, vs, rfl, hus, -⟩ := List.map_eq_append_iff.mp hdata.symm
    rw [← hus]
    apply fills_le (offset_le _)
    · intro c hc
      obtain ⟨u, -, rfl⟩ := List.mem_map.mp hc
      exact Data.noConfusion
    · calc (us.map Data.write).length
          ≤ (us ++ vs).length := by simp
        _ ≤ _ := hws

-- One sector written under a command for one.
example : Sparing (setup 0 1 ++
    writeCmd :: (List.replicate 256 (1 : UInt16)).map (Access.writeWord brAddr)) :=
  sparing_of_command setup_quiet (by rw [List.length_replicate]; decide)

/-- 256 words with no command before them are a sector of the disk all the same. -/
theorem sector_without_command {N : Nat} {f : List UInt8} {d : HardDisk} (hd : Idle N f d)
    {ws : List UInt16} (hws : ws.length = 256 * 1)
    (hin : (d.lba + d.currentSectorNumber).toNat % 2^23 < N) :
    DiskManager.sector (run (step wild) d (ws.map (Access.writeWord brAddr))).image
      ((d.lba + d.currentSectorNumber).toNat % 2^23) = leBytes ws := by
  have hcom : ∀ a ∈ ws.map (Access.writeWord brAddr), a.command = false := by
    intro a ha
    obtain ⟨w, -, rfl⟩ := List.mem_map.mp ha
    rfl
  have hport : (run (step wild) d (ws.map (Access.writeWord brAddr))).port =
      run Port.write d.port ws := by
    rw [port_run _ d hcom, data_writes]
    exact List.foldl_map
  have hback := (Port.write_sectors 1 d.port ws hd.backed hd.position hd.status hws).1
  rw [← hport] at hback
  have himage : (run (step wild) d (ws.map (Access.writeWord brAddr))).image = _ :=
    congrArg (Option.getD · []) hback.file
  have hslice : slice ws (256 * 0) 256 = ws := List.take_of_length_le (Nat.le_of_eq hws)
  have hchunk := Port.getElem?_chunks ws (show 0 < 1 by decide)
  rw [hslice] at hchunk
  rw [himage]
  exact DiskManager.sector_writtenAll_hit hd.backed.length (Port.length_of_mem_chunks hws)
    (by simp) hin hchunk rfl

/-- 256 words written at power-on, with no command at all, change the disk. -/
theorem image_changes_without_command :
    let d := new (Vector.replicate 512 0) (Vector.replicate 512 0) 1 (some (List.replicate 512 0))
    let as := (List.replicate 256 (1 : UInt16)).map (Access.writeWord brAddr)
    (∀ a ∈ as, a.command = false) ∧ (run (step fun _ => 0) d as).image ≠ d.image ∧
    ¬ WritesPermitted (fun _ => 0) d as := by
  intro d as
  have hcom : ∀ a ∈ as, a.command = false := by
    intro a ha
    obtain ⟨w, -, rfl⟩ := List.mem_map.mp ha
    rfl
  have hidle : Idle 1 (List.replicate 512 0) d :=
    new_idle _ _ (show (List.replicate 512 (0 : UInt8)).length = 512 * 1 from List.length_replicate)
      (by decide)
  have himage : (run (step fun _ => 0) d as).image ≠ d.image := by
    intro heq
    have hsector := sector_without_command (fun _ => 0) hidle
      (show (List.replicate 256 (1 : UInt16)).length = 256 * 1 from List.length_replicate) (by decide)
    rw [heq, hidle.image_eq] at hsector
    exact absurd (congrArg List.head? hsector) (by decide +kernel)
  refine ⟨hcom, himage, ?_⟩
  intro h
  apply himage
  apply image_run
  have hzero := h.bounded [] as ⟨⟨[], by simp⟩, fun a ha => by simp at ha, hcom⟩
  exact List.eq_nil_of_length_eq_zero (Nat.le_zero.mp hzero)

end HardDisk
end EndlessFault
