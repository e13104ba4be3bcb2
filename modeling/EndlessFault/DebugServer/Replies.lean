import EndlessFault.DebugServer.DebugServer

/- What the debug server answers.

   1. `dump_inside_iff`: a dump is the range asked for exactly when the range is
      refused, or is ordered, inside guest memory and shorter than 4 GiB. The two ends
      are compared with the end of guest memory one by one, as addresses that wrap.
   2. `answered_iff`: on a connection that delivers every frame whole, all requests are
      answered and the client goes on being served exactly when all of them ask for
      such a range. A refused range gets no reply, and the loop ends after a request
      for information. -/
namespace EndlessFault.DebugServer
open Lib.Bytes Lib.Words

/-- The check on one end of a range. -/
def Admitted (mi : MachineInfo) (addr : UInt64) : Prop :=
  mi.guestMemPtr + addr ≤ mi.guestMemPtr + mi.memSize

instance (mi : MachineInfo) (addr : UInt64) : Decidable (Admitted mi addr) :=
  inferInstanceAs (Decidable (_ ≤ _))

/-- A range of guest memory that fits in a frame. -/
def Dumpable (mi : MachineInfo) (start end_ : UInt64) : Prop :=
  start ≤ end_ ∧ end_ ≤ mi.memSize ∧ end_.toNat - start.toNat < 2^32

instance (mi : MachineInfo) (start end_ : UInt64) : Decidable (Dumpable mi start end_) :=
  inferInstanceAs (Decidable (_ ∧ _))

/-- The dump of guest bytes `start` to `end_ - 1`. -/
def IsDump (mi : MachineInfo) (start end_ : UInt64) (reply : Reply) : Prop :=
  start ≤ end_ ∧ end_ ≤ mi.memSize ∧
  (∃ buf, reply = .dump buf (end_.toNat - start.toNat)) ∧
  ∀ memory, reply.bytes memory = (List.range (end_.toNat - start.toNat)).map fun i =>
    memory (mi.guestMemPtr + UInt64.ofNat (start.toNat + i))

section
variable (mi : MachineInfo) (start end_ : UInt64)

theorem sendDumpMem_eq : sendDumpMem mi start end_ =
    if Admitted mi start ∧ Admitted mi end_ then
      [.dump (mi.guestMemPtr + start) (end_ - start).toUInt32.toNat]
    else [] := by
  have hsize : mi.guestMemPtr + end_ - (mi.guestMemPtr + start) = end_ - start := by
    have hstart := start.toNat_lt
    apply UInt64.toNat_inj.mp
    rw [UInt64.toNat_sub, UInt64.toNat_sub, UInt64.toNat_add, UInt64.toNat_add]
    omega
  have hcheck : (mi.guestMemPtr + start > mi.guestMemPtr + mi.memSize ∨
      mi.guestMemPtr + end_ > mi.guestMemPtr + mi.memSize) ↔ ¬ (Admitted mi start ∧ Admitted mi end_) := by
    rw [Admitted, Admitted, gt_iff_lt, gt_iff_lt, not_and_or, UInt64.not_le, UInt64.not_le]
  rw [sendDumpMem, hsize]
  by_cases hpass : Admitted mi start ∧ Admitted mi end_
  · rw [if_pos hpass, if_neg fun hc => hcheck.mp hc hpass]
  · rw [if_neg hpass, if_pos (hcheck.mpr hpass)]

theorem dumpSize_eq (h : start ≤ end_) :
    (end_ - start).toUInt32.toNat = (end_.toNat - start.toNat) % 2^32 := by
  rw [UInt64.toNat_toUInt32, UInt64.toNat_sub_of_le _ _ h]

/-- The dump of a range that is `Dumpable`. -/
theorem isDump_of_dumpable (h : Dumpable mi start end_) :
    IsDump mi start end_ (.dump (mi.guestMemPtr + start) (end_ - start).toUInt32.toNat) := by
  obtain ⟨hle, hmem, hlt⟩ := h
  have hlen : (end_ - start).toUInt32.toNat = end_.toNat - start.toNat := by
    rw [dumpSize_eq start end_ hle, Nat.mod_eq_of_lt hlt]
  refine ⟨hle, hmem, ⟨_, by rw [hlen]⟩, ?_⟩
  intro memory
  rw [Reply.bytes, hlen]
  apply List.map_congr_left
  intro i _
  rw [UInt64.ofNat_add, UInt64.ofNat_toNat, UInt64.add_assoc]

end

/-- For every machine and every two addresses: whatever is sent is the dump of the
range, from a range inside guest memory, exactly when the range is refused or
`Dumpable`. -/
theorem dump_inside_iff (mi : MachineInfo) (start end_ : UInt64) :
    (∀ reply ∈ sendDumpMem mi start end_, IsDump mi start end_ reply) ↔
      ¬ (Admitted mi start ∧ Admitted mi end_) ∨ Dumpable mi start end_ := by
  rw [sendDumpMem_eq]
  constructor
  · intro h
    by_cases hpass : Admitted mi start ∧ Admitted mi end_
    · rw [if_pos hpass] at h
      obtain ⟨hle, hmem, ⟨buf, heq⟩, -⟩ := h _ (List.mem_singleton_self _)
      -- the length sent is 32 bits wide
      have hlt := (end_ - start).toUInt32.toNat_lt
      rw [Reply.dump.injEq] at heq
      exact .inr ⟨hle, hmem, by omega⟩
    · exact .inl hpass
  · rintro (hrefused | hdump)
    · rw [if_neg hrefused]
      exact fun reply hreply => absurd hreply List.not_mem_nil
    · intro reply hreply
      split_ifs at hreply with hpass
      · rw [List.mem_singleton.mp hreply]
        exact isDump_of_dumpable mi start end_ hdump
      · exact absurd hreply List.not_mem_nil

/-- A range with its ends exchanged passes the check: all but one of the bytes of 4 GiB
are sent, from inside guest memory to far behind it. -/
theorem reversed_range_sent :
    let mi : MachineInfo := ⟨0x7f0000000000, 0x800000⟩
    sendDumpMem mi 2 1 = [.dump 0x7f0000000002 0xFFFFFFFF] ∧
    ¬ ∀ reply ∈ sendDumpMem mi 2 1, IsDump mi 2 1 reply := by
  have hsent : sendDumpMem ⟨0x7f0000000000, 0x800000⟩ 2 1 = [.dump 0x7f0000000002 0xFFFFFFFF] := by
    decide
  refine ⟨hsent, fun h => ?_⟩
  obtain ⟨hle, -⟩ := h _ (by rw [hsent]; exact List.mem_singleton_self _)
  exact absurd hle (by decide)

/-! Requests. -/

/-- A request as the client makes it at the time `now`. -/
inductive Request where
  | info (now : UInt64)
  | dumpMem (start end_ now : UInt64)

namespace Request

def type : Request → MessageType
  | info _ => .reqInfo
  | dumpMem .. => .reqDumpMem

def msg : Request → Memory
  | info now => initSimpleMsg .reqInfo now garbage
  | dumpMem start end_ now => initReqDumpMem start end_ now garbage

/-- The bytes the client sends. -/
def frame (request : Request) : List UInt8 :=
  bytesOf (convertToNetworkOrder request.msg) request.type.size

end Request

/-- A connection on which every result of `recv` is one of the parts that were sent; a
part of no bytes when the client has disconnected. -/
def recvWhole : Recv (List (List UInt8)) := fun parts n => (some (parts.headD [] |>.take n), parts.tail)

/-- The parts that the client sends for its requests. -/
def parts (requests : List Request) : List (List UInt8) :=
  requests.flatMap fun request => [lengthBytes (UInt32.ofNat request.frame.length), request.frame]

/-- The replies due to a request. -/
def answer (mi : MachineInfo) (host : Host) : Request → List Reply
  | .info _ =>
    [.message (bytesOf (convertToNetworkOrder (initInfoMsg mi.memSize host.now garbage))
      MessageType.sendInfo.size), .message (host.regs.getD []), .message (host.sregs.getD [])]
  | .dumpMem start end_ _ =>
    if start ≤ end_ ∧ end_ ≤ mi.memSize then [.dump (mi.guestMemPtr + start) (end_.toNat - start.toNat)]
    else [.message (bytesOf (convertToNetworkOrder (initSimpleMsg .genericErr host.now garbage))
      MessageType.genericErr.size)]

/-- The replies due to all requests, each at its time. -/
def answers (mi : MachineInfo) (host : List (List UInt8) → Host) : List Request → List Reply
  | [] => []
  | request :: rest => answer mi (host (parts rest)) request ++ answers mi host rest

/-- The requests that the loop answers and goes on after. -/
def Answerable (mi : MachineInfo) : Request → Prop
  | .info _ => False
  | .dumpMem start end_ _ => (Admitted mi start ∧ Admitted mi end_) ∧ Dumpable mi start end_

theorem sendDumpMem_answer (mi : MachineInfo) (host : Host) (start end_ now : UInt64) :
    sendDumpMem mi start end_ = answer mi host (.dumpMem start end_ now) ↔
      Answerable mi (.dumpMem start end_ now) := by
  rw [sendDumpMem_eq, answer, Answerable, Dumpable]
  by_cases hpass : Admitted mi start ∧ Admitted mi end_
  · rw [if_pos hpass]
    by_cases hin : start ≤ end_ ∧ end_ ≤ mi.memSize
    · rw [if_pos hin, dumpSize_eq start end_ hin.1, List.cons.injEq, Reply.dump.injEq]
      constructor
      · rintro ⟨⟨-, hmod⟩, -⟩
        exact ⟨hpass, hin.1, hin.2, by omega⟩
      · rintro ⟨-, -, -, hlt⟩
        exact ⟨⟨rfl, Nat.mod_eq_of_lt hlt⟩, rfl⟩
    · rw [if_neg hin]
      refine iff_of_false (fun h => ?_) fun h => hin ⟨h.2.1, h.2.2.1⟩
      rw [List.cons.injEq] at h
      exact Reply.noConfusion h.1
  · rw [if_neg hpass]
    refine iff_of_false (fun h => ?_) fun h => hpass h.1
    split_ifs at h

theorem length_answers (mi : MachineInfo) (host : List (List UInt8) → Host) (requests : List Request) :
    requests.length ≤ (answers mi host requests).length := by
  induction requests with
  | nil => exact Nat.le_refl 0
  | cons request rest ih =>
    have hone : 1 ≤ (answer mi (host (parts rest)) request).length := by
      cases request with
      | info now => exact Nat.le_add_left 1 2
      | dumpMem start end_ now =>
        rw [answer]
        split_ifs
        · exact Nat.le_refl 1
        · exact Nat.le_refl 1
    rw [answers, List.length_append, List.length_cons]
    omega

/-! Rounds of the loop. -/

section
variable {σ : Type} {recv : Recv σ} {heap : Memory} {host : σ → Host} {mi : MachineInfo}

theorem length_sendDumpMem_le (mi : MachineInfo) (start end_ : UInt64) :
    (sendDumpMem mi start end_).length ≤ 1 := by
  rw [sendDumpMem_eq]
  split_ifs
  · exact Nat.le_refl 1
  · exact Nat.zero_le 1

theorem length_replies_switch {dispatch : Dispatch} {r : Received σ} {buf : Memory}
    {type : Option MessageType} {next : σ × MyBuffer}
    (h : (switchType host mi dispatch r buf type).next = some next) :
    (switchType host mi dispatch r buf type).replies.length ≤ 1 := by
  rw [switchType_next] at h
  by_cases htype : type = some .reqDumpMem
  · rw [htype, switchType_reqDumpMem]
    dsimp only
    exact length_sendDumpMem_le mi _ _
  · rw [if_neg htype] at h
    exact absurd h.symm (Option.some_ne_none next)

/-- A round that is not the last sends at most one reply. -/
theorem length_replies_round {sockt : σ} {b : MyBuffer} {next : σ × MyBuffer}
    (h : (round recv heap host mi sockt b).next = some next) :
    (round recv heap host mi sockt b).replies.length ≤ 1 := by
  by_cases hret : (recvData recv heap sockt b).ret = 0
  · rw [round_disconnected hret]
    exact Nat.zero_le 1
  · cases hbuf : (recvData recv heap sockt b).buffer.buf with
    | none =>
      rw [round_null hret hbuf]
      exact Nat.zero_le 1
    | some buf =>
      rw [round_switch hret hbuf] at h ⊢
      exact length_replies_switch h

/-- A loop that is still running has sent at most one reply each round. -/
theorem length_replies_le (n : Nat) (sockt : σ) (b : MyBuffer)
    (h : (workerFun recv heap host mi n sockt b).running = true) :
    (workerFun recv heap host mi n sockt b).replies.length ≤ n := by
  induction n generalizing sockt b with
  | zero => exact Nat.le_refl 0
  | succ n ih =>
    cases hnext : (round recv heap host mi sockt b).next with
    | none =>
      rw [workerFun_returned hnext] at h
      exact absurd h Bool.false_ne_true
    | some next =>
      have hround := length_replies_round hnext
      rw [workerFun_next hnext] at h ⊢
      have hlater := ih next.1 next.2 h
      rw [List.length_append]
      omega

end

/-! Requests that arrive whole. -/

theorem messageType_msg (request : Request) : messageType request.msg = some request.type := by
  cases request with
  | info now =>
    rw [Request.msg, messageType, initSimpleMsg, Field.value_set_apart (by decide), Field.value_set_same]
    exact MessageType.ofCode_code .reqInfo
  | dumpMem start end_ now =>
    rw [Request.msg, messageType, initReqDumpMem, Field.value_set_apart (by decide),
      Field.value_set_apart (by decide), Field.value_set_apart (by decide), Field.value_set_same]
    exact MessageType.ofCode_code .reqDumpMem

theorem startAddr_msg (start end_ now : UInt64) :
    startAddr.value (Request.dumpMem start end_ now).msg = start.toNat := by
  rw [Request.msg, initReqDumpMem, Field.value_set_apart (by decide), Field.value_set_apart (by decide),
    Field.value_set_same]
  exact Nat.mod_eq_of_lt start.toNat_lt

theorem endAddr_msg (start end_ now : UInt64) :
    endAddr.value (Request.dumpMem start end_ now).msg = end_.toNat := by
  rw [Request.msg, initReqDumpMem, Field.value_set_apart (by decide), Field.value_set_same]
  exact Nat.mod_eq_of_lt end_.toNat_lt

section
variable (heap : Memory) (host : List (List UInt8) → Host) (mi : MachineInfo) {b : MyBuffer}
  (hb : b.Valid) (request : Request) (rest : List Request)

theorem length_frame : request.frame.length = request.type.size := length_bytesOf _ _

include hb

theorem recvWhole_delivers :
    Delivers (recvData recvWhole heap (parts (request :: rest)) b) request.frame (parts rest) := by
  have hsize := request.type.size_bounds
  have hlen : (UInt32.ofNat request.frame.length).toNat = request.frame.length := by
    rw [length_frame]
    exact UInt32.toNat_ofNat_of_lt' hsize.2
  have hparts : parts (request :: rest) =
      lengthBytes (UInt32.ofNat request.frame.length) :: request.frame :: parts rest := rfl
  rw [hparts]
  apply recvData_delivers _ _ hb (length_lengthBytes (UInt32.ofNat request.frame.length))
  · rw [recvWhole, List.headD_cons, List.take_of_length_le (Nat.le_of_eq (length_lengthBytes _)),
      List.tail_cons]
  · rw [recvWhole, List.headD_cons, nbytesOf_lengthBytes, hlen, List.take_length, List.tail_cons]
  · rw [nbytesOf_lengthBytes, hlen]

/-- The round that serves a request: the buffer holds its bytes, so the switch is on its
type. -/
theorem round_request : ∃ buf dispatch,
    (recvData recvWhole heap (parts (request :: rest)) b).buffer.buf = some buf ∧
    (∀ x : Int, 0 ≤ x → x < request.type.size → buf x = convertToNetworkOrder request.msg x) ∧
    round recvWhole heap host mi (parts (request :: rest)) b =
      switchType host mi dispatch (recvData recvWhole heap (parts (request :: rest)) b)
        (convertToHostOrder buf) (some request.type) := by
  have hsize := request.type.size_bounds
  have hlen := length_frame request
  have hdeliver := recvWhole_delivers heap hb request rest
  obtain ⟨buf, hbuf, hbytes⟩ := hdeliver.buf (List.ne_nil_of_length_pos (by omega))
  have hagree : ∀ x : Int, 0 ≤ x → x < request.type.size → buf x = convertToNetworkOrder request.msg x := by
    intro x h0 hx
    obtain ⟨i, rfl⟩ := Int.eq_ofNat_of_zero_le h0
    have hi : i < request.frame.length := by omega
    rw [hbytes i hi]
    exact getElem_bytesOf _ hi
  have hret : (recvData recvWhole heap (parts (request :: rest)) b).ret ≠ 0 := by
    rw [hdeliver.ret, hlen, ne_eq, ← UInt32.toNat_inj, UInt32.toNat_ofNat_of_lt' hsize.2]
    exact Nat.ne_of_gt (Nat.lt_of_lt_of_le (by decide) hsize.1)
  refine ⟨buf, Dispatch.of (some request.frame) buf, hbuf, hagree, ?_⟩
  rw [← hdeliver.whole, round_switch hret hbuf, messageType_received (messageType_msg request) hagree]

/-- The loop returns after a request for information. -/
theorem round_info (now : UInt64) :
    (round recvWhole heap host mi (parts (.info now :: rest)) b).next = none := by
  obtain ⟨buf, dispatch, -, -, hround⟩ := round_request heap host mi hb (.info now) rest
  rw [hround, switchType_next]
  exact if_neg fun h => MessageType.noConfusion (Option.some.inj h)

/-- A request for a dump is served with its own addresses, and the loop goes on. -/
theorem round_dumpMem (start end_ now : UInt64) :
    (round recvWhole heap host mi (parts (.dumpMem start end_ now :: rest)) b).replies =
      sendDumpMem mi start end_ ∧
    ∃ b', b'.Valid ∧
      (round recvWhole heap host mi (parts (.dumpMem start end_ now :: rest)) b).next =
        some (parts rest, b') := by
  obtain ⟨buf, dispatch, hbuf, hagree, hround⟩ :=
    round_request heap host mi hb (.dumpMem start end_ now) rest
  have hsock := (recvWhole_delivers heap hb (.dumpMem start end_ now) rest).sock
  have hmsg := messageType_msg (.dumpMem start end_ now)
  have hstart : startAddr.value (convertToHostOrder buf) = start.toNat :=
    (value_received hmsg hagree (.tail _ (.tail _ (.head _))) (long_fits rfl _)).trans (startAddr_msg start end_ now)
  have hend : endAddr.value (convertToHostOrder buf) = end_.toNat :=
    (value_received hmsg hagree (.tail _ (.tail _ (.tail _ (.head _)))) (long_fits rfl _)).trans (endAddr_msg start end_ now)
  rw [hround, Request.type, switchType_reqDumpMem, hstart, hend, UInt64.ofNat_toNat, UInt64.ofNat_toNat,
    hsock]
  exact ⟨rfl, _, fun hnone => absurd hnone (Option.some_ne_none _), rfl⟩

omit hb in
theorem served_iff (requests : List Request) (hb : b.Valid) :
    (workerFun recvWhole heap host mi requests.length (parts requests) b).replies =
        answers mi host requests ∧
      (workerFun recvWhole heap host mi requests.length (parts requests) b).running = true ↔
      ∀ request ∈ requests, Answerable mi request := by
  induction requests generalizing b with
  | nil => exact iff_of_true ⟨rfl, rfl⟩ fun _ h => absurd h List.not_mem_nil
  | cons request rest ih =>
    rw [List.length_cons, List.forall_mem_cons]
    cases request with
    | info now =>
      rw [workerFun_returned (round_info heap host mi hb rest now)]
      exact iff_of_false (fun h => Bool.false_ne_true h.2) fun h => h.1
    | dumpMem start end_ now =>
      obtain ⟨hreplies, b', hb', hnext⟩ := round_dumpMem heap host mi hb rest start end_ now
      rw [workerFun_next hnext]
      dsimp only
      rw [hreplies, answers, ← ih hb', ← sendDumpMem_answer mi (host (parts rest))]
      constructor
      · rintro ⟨happend, hrunning⟩
        -- a refused range leaves the replies one short of the answers
        have hlater := length_replies_le _ _ _ hrunning
        have hanswers := length_answers mi host rest
        have hone := length_sendDumpMem_le mi start end_
        have hanswer : (answer mi (host (parts rest)) (.dumpMem start end_ now)).length = 1 := by
          rw [answer]
          split_ifs
          · rfl
          · rfl
        have htotal := congrArg List.length happend
        rw [List.length_append, List.length_append, hanswer] at htotal
        obtain ⟨hsame, hrest⟩ := List.append_inj happend (by omega)
        exact ⟨hsame, hrest, hrunning⟩
      · rintro ⟨hsame, hrest, hrunning⟩
        exact ⟨by rw [hsame, hrest], hrunning⟩

end

/-- On a connection that delivers every frame whole, for all requests of a client: the
replies sent are those due, in order, and the loop is still running, exactly when each
request asks for a dump of a range that passes the check and is `Dumpable`. -/
theorem answered_iff (heap : Memory) (host : List (List UInt8) → Host) (mi : MachineInfo)
    (requests : List Request) :
    let served := workerFun recvWhole heap host mi requests.length (parts requests) .empty
    served.replies = answers mi host requests ∧ served.running = true ↔
      ∀ request ∈ requests, Answerable mi request :=
  served_iff heap host mi requests valid_empty

/-- Three requests: a range behind guest memory gets no reply, and the loop returns
after the reply to the second, so that the dump asked for last is not sent. -/
theorem requests_unanswered :
    let mi : MachineInfo := ⟨0x7f0000000000, 0x800000⟩
    let host : List (List UInt8) → Host := fun _ => ⟨fun _ => 0, some [1], some [2], 0⟩
    let requests := [.dumpMem 0x900000 0x900010 0, .info 0, .dumpMem 0 16 0]
    let served := workerFun recvWhole garbage host mi 3 (parts requests) .empty
    served.replies = answer mi (host []) (.info 0) ∧ (answers mi host requests).length = 5 ∧
    ¬ (served.replies = answers mi host requests ∧ served.running = true) := by
  decide +kernel

end EndlessFault.DebugServer
