import EndlessFault.DebugServer.DebugServer

/- What the debug server acts on. A round of the loop should look at a frame that has
   just arrived whole, and is as long as the structure of the type in it. It does so
   exactly when the results of `recv` are `Orderly` (`dispatched_iff`): the loop returns
   when `recv_data` gives 0, but a failure of `recv_data` is -1, so after a length or a
   frame cut short, and when the client disconnects, the loop acts on what the buffer
   held before, or on a null pointer; and no length is compared with a structure. -/
namespace EndlessFault.DebugServer
open Lib.Bytes Lib.Words

/-- The `i`-th call of `recv` gives the `i`-th result, cut to the bytes asked for: no
bytes at the end of the stream, and none when the call fails. -/
def recvResults (results : Nat → Option (List UInt8)) : Recv Nat := fun i n =>
  ((results i).map (List.take n), i + 1)

/-- The bytes that a message of a type has; of one without a type, the type is read. -/
def needed : Option MessageType → Nat
  | some t => t.size
  | none => typeField.size

/-- The type that a frame carries. -/
def frameType (frame : List UInt8) : Option MessageType :=
  MessageType.ofCode (ntohl (UInt32.ofNat (leNat (frame.take 4)))).toNat

/-- A dispatch on a frame that arrived whole, with its structure and all that was
looked at inside. -/
def Dispatch.Sound (d : Dispatch) : Prop :=
  ∃ frame, d.frame = some frame ∧ needed d.type ≤ frame.length ∧
    ∀ f ∈ d.touched, f.off + f.size ≤ frame.length

def Served.Sound (s : Served) : Prop := ∀ d ∈ s.dispatches, d.Sound

/-- The results from the `i`-th on are such that each round finds all four bytes of a
length, or a failed call; then an end of the connection, if the length is zero, or a
whole frame as long as its type needs. The length after a failed call is zero. -/
def Orderly (results : Nat → Option (List UInt8)) : Nat → Nat → Prop
  | 0, _ => True
  | n + 1, i =>
    let nbytes := (nbytesOf ((results i).map (List.take 4))).toNat
    (∀ len, results i = some len → 4 ≤ len.length) ∧
    ∃ bytes, results (i + 1) = some bytes ∧
      (nbytes = 0 ∨
        nbytes ≤ bytes.length ∧ needed (frameType (bytes.take nbytes)) ≤ nbytes ∧
        (frameType (bytes.take nbytes) = some .reqDumpMem → Orderly results n (i + 2)))

/-! Frames in the buffer. -/

theorem four_le_needed (type : Option MessageType) : 4 ≤ needed type := by
  cases type with
  | none => exact Nat.le_refl 4
  | some t => exact t.size_bounds.1

/-- All that is looked at for a type is in what the type needs. -/
theorem touched_inside (type : Option MessageType) :
    ∀ f ∈ typeField :: fieldsOf type, f.off + f.size ≤ needed type := by
  cases type with
  | none =>
    intro f hf
    rw [List.mem_singleton.mp hf]
    exact Nat.le_refl 4
  | some t => exact fields_inside t

section
variable {buf : Memory} {frame : List UInt8} (hbuf : ∀ i (h : i < frame.length), buf i = frame[i])

include hbuf

theorem messageType_frame (hlen : 4 ≤ frame.length) : messageType (typeField.convert buf) = frameType frame := by
  have hfour : (frame.take 4).length = 4 := List.length_take_of_le hlen
  have hload : typeField.value buf = leNat (frame.take 4) := by
    have hle : load buf 0 (frame.take 4).length = leNat (frame.take 4) := by
      apply load_eq_leNat
      intro i hi
      rw [List.getElem_take, Int.zero_add]
      exact hbuf i (by omega)
    rw [hfour] at hle
    exact hle
  rw [messageType, value_convert_type, hload]
  rfl

/-- A dispatch on a whole frame is sound when the frame is as long as its type needs. -/
theorem sound_of_iff : (Dispatch.of (some frame) buf).Sound ↔ needed (frameType frame) ≤ frame.length := by
  by_cases hlen : 4 ≤ frame.length
  · rw [← messageType_frame hbuf hlen]
    constructor
    · rintro ⟨frame', hframe, hneeded, -⟩
      rw [Option.some.inj hframe]
      exact hneeded
    · intro hneeded
      refine ⟨frame, rfl, hneeded, fun f hf => ?_⟩
      exact Nat.le_trans (touched_inside _ f hf) hneeded
  · refine iff_of_false ?_ fun h => hlen (Nat.le_trans (four_le_needed _) h)
    rintro ⟨frame', hframe, hneeded, -⟩
    rw [← Option.some.inj hframe] at hneeded
    exact hlen (Nat.le_trans (four_le_needed _) hneeded)

end

/-! What `recv_data` makes of two results. -/

/-- No frame was delivered, but the loop goes on. -/
def Failed {σ : Type} (r : Received σ) : Prop := r.ret ≠ 0 ∧ r.frame = none

theorem failed_of_minus {σ : Type} {r : Received σ} (h : r.ret = 0xFFFFFFFF ∧ r.frame = none) :
    Failed r := by
  refine ⟨?_, h.2⟩
  rw [h.1]
  decide

section
variable {results : Nat → Option (List UInt8)} (heap : Memory) {i : Nat} (b : MyBuffer)

/-- A length cut short, or the end of the stream. -/
theorem failed_length {len : List UInt8} (hlen : results i = some len) (hshort : len.length < 4) :
    Failed (recvData (recvResults results) heap i b) := by
  have hfirst : recvResults results i 4 = (some len, i + 1) := by
    rw [recvResults, hlen, Option.map_some, List.take_of_length_le (Nat.le_of_lt hshort)]
  exact failed_of_minus (recvData_length_short _ heap hfirst hshort)

section
variable (hwhole : ∀ len, results i = some len → 4 ≤ len.length)

include hwhole

theorem received_length : ¬ received ((results i).map (List.take 4)) < 4 := by
  cases hlen : results i with
  | none => decide
  | some len =>
    rw [Option.map_some]
    exact received_four (List.length_take_of_le (hwhole len hlen))

/-- The result of `recv_data` when it goes on to the frame. -/
theorem recvData_body :
    let nbytes := nbytesOf ((results i).map (List.take 4))
    let second := (results (i + 1)).map (List.take nbytes.toNat)
    (recvData (recvResults results) heap i b).ret =
      (if received second ≠ nbytes then 0xFFFFFFFF else received second) ∧
    (recvData (recvResults results) heap i b).frame =
      if (results i).map (List.take 4) ≠ none ∧ second.map List.length = some nbytes.toNat then second
      else none := by
  rw [recvData, recvResults, if_neg (received_length hwhole)]
  exact ⟨rfl, rfl⟩

/-- A length of zero and a second call that does not fail: the loop returns. -/
theorem recvData_zero (hzero : (nbytesOf ((results i).map (List.take 4))).toNat = 0) {bytes : List UInt8}
    (hbytes : results (i + 1) = some bytes) : (recvData (recvResults results) heap i b).ret = 0 := by
  have hn : nbytesOf ((results i).map (List.take 4)) = 0 := UInt32.toNat_inj.mp hzero
  rw [(recvData_body heap b hwhole).1, hzero, hbytes, hn, Option.map_some, List.take_zero]
  rfl

/-- A second call that fails. -/
theorem failed_second (hnone : results (i + 1) = none) :
    Failed (recvData (recvResults results) heap i b) := by
  obtain ⟨hret, hframe⟩ := recvData_body heap b hwhole
  unfold Failed
  rw [hret, hframe, hnone, Option.map_none]
  constructor
  · split_ifs
    · decide
    · decide
  · split_ifs
    · rfl
    · rfl

/-- A frame cut short. -/
theorem failed_body {bytes : List UInt8} (hbytes : results (i + 1) = some bytes)
    (hshort : bytes.length < (nbytesOf ((results i).map (List.take 4))).toNat) :
    Failed (recvData (recvResults results) heap i b) := by
  have hsecond : recvResults results (i + 1) (nbytesOf ((results i).map (List.take 4))).toNat =
      (some bytes, i + 2) := by
    rw [recvResults, hbytes, Option.map_some, List.take_of_length_le (Nat.le_of_lt hshort)]
  exact failed_of_minus (recvData_body_short _ heap rfl (received_length hwhole) hsecond hshort)

/-- A frame that arrives whole. -/
theorem recvResults_delivers (hb : b.Valid) {bytes : List UInt8} (hbytes : results (i + 1) = some bytes)
    (hpos : (nbytesOf ((results i).map (List.take 4))).toNat ≠ 0)
    (hlong : (nbytesOf ((results i).map (List.take 4))).toNat ≤ bytes.length) :
    Delivers (recvData (recvResults results) heap i b)
      (bytes.take (nbytesOf ((results i).map (List.take 4))).toNat) (i + 2) := by
  cases hlen : results i with
  | none =>
    rw [hlen] at hpos
    exact absurd rfl hpos
  | some len =>
    rw [hlen, Option.map_some] at hlong
    rw [Option.map_some]
    have hfour : (len.take 4).length = 4 := List.length_take_of_le (hwhole len hlen)
    apply recvData_delivers _ _ hb hfour
    · rw [recvResults, hlen, Option.map_some]
    · rw [recvResults, hbytes, Option.map_some]
    · exact List.length_take_of_le hlong

end
end

/-! Rounds of the loop. -/

section
variable {σ : Type} {recv : Recv σ} {heap : Memory} {host : σ → Host} {mi : MachineInfo} {sockt : σ}
  {b : MyBuffer}

theorem switchType_dispatches {dispatch : Dispatch} {r : Received σ} {buf : Memory}
    (type : Option MessageType) : (switchType host mi dispatch r buf type).dispatches = [dispatch] := by
  cases type with
  | none => rfl
  | some t => cases t <;> rfl

/-- A round dispatches once unless `recv_data` has returned 0. -/
theorem round_dispatches (host : σ → Host) (mi : MachineInfo) (h : (recvData recv heap sockt b).ret ≠ 0) :
    ∃ d, (round recv heap host mi sockt b).dispatches = [d] ∧
      d.frame = (recvData recv heap sockt b).frame := by
  cases hbuf : (recvData recv heap sockt b).buffer.buf with
  | none =>
    rw [round_null h hbuf]
    exact ⟨_, rfl, rfl⟩
  | some buf =>
    rw [round_switch h hbuf, switchType_dispatches]
    exact ⟨_, rfl, rfl⟩

/-- A round without a dispatch is the last. -/
theorem length_dispatches (n : Nat) (sockt : σ) (b : MyBuffer)
    (h : (workerFun recv heap host mi n sockt b).running = true) :
    (workerFun recv heap host mi n sockt b).dispatches.length = n := by
  induction n generalizing sockt b with
  | zero => rfl
  | succ n ih =>
    cases hnext : (round recv heap host mi sockt b).next with
    | none =>
      rw [workerFun_returned hnext] at h
      exact absurd h Bool.false_ne_true
    | some next =>
      have hret : (recvData recv heap sockt b).ret ≠ 0 := by
        intro hzero
        rw [round_disconnected hzero] at hnext
        exact absurd hnext.symm (Option.some_ne_none next)
      obtain ⟨d, hd, -⟩ := round_dispatches host mi hret
      rw [workerFun_next hnext] at h ⊢
      have hlater := ih next.1 next.2 h
      rw [List.length_append, hd, hlater, List.length_singleton, Nat.add_comm]

/-- The dispatches of a run whose first round has one. -/
theorem sound_cons {n : Nat} {d : Dispatch} (hd : (round recv heap host mi sockt b).dispatches = [d]) :
    (workerFun recv heap host mi (n + 1) sockt b).Sound ↔
      d.Sound ∧ ∀ next, (round recv heap host mi sockt b).next = some next →
        (workerFun recv heap host mi n next.1 next.2).Sound := by
  unfold Served.Sound
  cases hnext : (round recv heap host mi sockt b).next with
  | none =>
    rw [workerFun_returned hnext, hd, List.forall_mem_singleton]
    exact ⟨fun h => ⟨h, fun _ hc => absurd hc.symm (Option.some_ne_none _)⟩, And.left⟩
  | some next =>
    rw [workerFun_next hnext, hd]
    dsimp only
    rw [List.singleton_append, List.forall_mem_cons]
    refine and_congr_right fun _ => ⟨fun h next' heq => ?_, fun h => h next rfl⟩
    rw [← Option.some.inj heq]
    exact h

variable (host mi)

/-- The loop goes on after a failure of `recv_data`, and what it acts on is not a frame. -/
theorem not_sound_failed (n : Nat) (h : Failed (recvData recv heap sockt b)) :
    ¬ (workerFun recv heap host mi (n + 1) sockt b).Sound := by
  intro hall
  obtain ⟨d, hd, hframe⟩ := round_dispatches host mi h.1
  obtain ⟨⟨frame, hsome, -⟩, -⟩ := (sound_cons hd).mp hall
  exact Option.some_ne_none frame (hsome.symm.trans (hframe.trans h.2))

theorem sound_returned (n : Nat) (h : (recvData recv heap sockt b).ret = 0) :
    (workerFun recv heap host mi (n + 1) sockt b).Sound := by
  have hround : round recv heap host mi sockt b = ⟨[], [], none⟩ := round_disconnected h
  unfold Served.Sound
  rw [workerFun_returned (by rw [hround]), hround]
  exact fun _ hd => absurd hd List.not_mem_nil

/-- A round on a whole frame: what the type needs, and the rounds after a request for a
dump. -/
theorem sound_delivers (n : Nat) {frame : List UInt8} {sockt' : σ} (hlt : frame.length < 2^32)
    (hne : frame ≠ []) (h : Delivers (recvData recv heap sockt b) frame sockt') :
    ∃ b', b'.Valid ∧ ((workerFun recv heap host mi (n + 1) sockt b).Sound ↔
      needed (frameType frame) ≤ frame.length ∧
      (frameType frame = some .reqDumpMem → (workerFun recv heap host mi n sockt' b').Sound)) := by
  have hpos := List.length_pos_of_ne_nil hne
  have hret : (recvData recv heap sockt b).ret ≠ 0 := by
    rw [h.ret, ne_eq, ← UInt32.toNat_inj, UInt32.toNat_ofNat_of_lt' hlt]
    exact Nat.ne_of_gt hpos
  obtain ⟨buf, hbuf, hbytes⟩ := h.buf hne
  have hround : round recv heap host mi sockt b = _ := round_switch hret hbuf
  have hd : (round recv heap host mi sockt b).dispatches =
      [Dispatch.of (recvData recv heap sockt b).frame buf] := by
    rw [hround, switchType_dispatches]
  refine ⟨{ (recvData recv heap sockt b).buffer with buf := some (convertToHostOrder buf) }, ?_, ?_⟩
  · exact fun hnone => absurd hnone (Option.some_ne_none _)
  · rw [sound_cons hd, h.whole, sound_of_iff hbytes]
    refine and_congr_right fun hneeded => ?_
    have hfour := Nat.le_trans (four_le_needed _) hneeded
    rw [hround, switchType_next, messageType_frame hbytes hfour, h.sock]
    constructor
    · intro hlater htype
      exact hlater _ (if_pos htype)
    · intro hlater next hnext
      split_ifs at hnext with htype
      rw [← Option.some.inj hnext]
      exact hlater htype

end

theorem sound_iff (results : Nat → Option (List UInt8)) (heap : Memory) (host : Nat → Host)
    (mi : MachineInfo) (n i : Nat) {b : MyBuffer} (hb : b.Valid) :
    (workerFun (recvResults results) heap host mi n i b).Sound ↔ Orderly results n i := by
  induction n generalizing i b with
  | zero => exact iff_of_true (fun _ h => absurd h List.not_mem_nil) trivial
  | succ n ih =>
    rw [Orderly]
    by_cases hwhole : ∀ len, results i = some len → 4 ≤ len.length
    · cases hsecond : results (i + 1) with
      | none =>
        refine iff_of_false (not_sound_failed host mi n (failed_second heap b hwhole hsecond)) ?_
        rintro ⟨-, bytes, hbytes, -⟩
        exact Option.some_ne_none bytes hbytes.symm
      | some bytes =>
        by_cases hzero : (nbytesOf ((results i).map (List.take 4))).toNat = 0
        · exact iff_of_true (sound_returned host mi n (recvData_zero heap b hwhole hzero hsecond))
            ⟨hwhole, bytes, rfl, .inl hzero⟩
        · by_cases hlong : (nbytesOf ((results i).map (List.take 4))).toNat ≤ bytes.length
          · have hlen := List.length_take_of_le hlong
            have hlt := (nbytesOf ((results i).map (List.take 4))).toNat_lt
            obtain ⟨b', hb', hiff⟩ := sound_delivers host mi n (by omega)
              (List.ne_nil_of_length_pos (by omega))
              (recvResults_delivers heap b hwhole hb hsecond hzero hlong)
            rw [hiff, ih (i + 2) hb', hlen]
            constructor
            · exact fun h => ⟨hwhole, bytes, rfl, .inr ⟨hlong, h⟩⟩
            · rintro ⟨-, bytes', hbytes', hor⟩
              rw [← Option.some.inj hbytes'] at hor
              exact (hor.resolve_left hzero).2
          · have hshort := failed_body heap b hwhole hsecond (Nat.lt_of_not_le hlong)
            refine iff_of_false (not_sound_failed host mi n hshort) ?_
            rintro ⟨-, bytes', hbytes', hor⟩
            rw [← Option.some.inj hbytes'] at hor
            exact hor.elim hzero fun h => hlong h.1
    · obtain ⟨len, himp⟩ := not_forall.mp hwhole
      obtain ⟨hlen, hshort⟩ := Classical.not_imp.mp himp
      exact iff_of_false
        (not_sound_failed host mi n (failed_length heap b hlen (Nat.lt_of_not_le hshort)))
        fun h => hwhole h.1

/-- For all results of `recv`, over any number of rounds: every dispatch is on a frame
that arrived whole, with its structure and all that was looked at inside, and a round
without a dispatch is the last, exactly when the results are `Orderly`. -/
theorem dispatched_iff (results : Nat → Option (List UInt8)) (heap : Memory) (host : Nat → Host)
    (mi : MachineInfo) (n : Nat) :
    let served := workerFun (recvResults results) heap host mi n 0 .empty
    (∀ d ∈ served.dispatches, d.Sound) ∧ (served.running = true → served.dispatches.length = n) ↔
      Orderly results n 0 := by
  rw [← sound_iff results heap host mi n 0 valid_empty]
  exact ⟨And.left, fun h => ⟨h, length_dispatches n 0 .empty⟩⟩

/-- A client that disconnects at once: the first `recv` returns no bytes, `recv_data`
returns -1, and the loop reads the type of a message at a null pointer. -/
theorem disconnected_dispatched :
    let host : Nat → Host := fun _ => ⟨fun _ => 0, none, none, 0⟩
    let served := workerFun (recvResults fun _ => some []) garbage host ⟨0x7f0000000000, 0x800000⟩ 1 0 .empty
    served.dispatches = [⟨none, none, [typeField]⟩] ∧ ¬ ∀ d ∈ served.dispatches, d.Sound := by
  refine ⟨rfl, fun h => ?_⟩
  obtain ⟨frame, hframe, -⟩ := h ⟨none, none, [typeField]⟩ List.mem_cons_self
  exact Option.some_ne_none frame hframe.symm

end EndlessFault.DebugServer
