import EndlessFault.DebugServer.NetWrapper

/- The debug server (`debug-server/DebugServer.cpp`): the loop that serves one client,
   and what it sends.

   Conventions of the embedding:
   - `σ` is the state of the world around the server. `recv` moves it, and `Host` is
     what the server finds in it: the memory of the process, the registers that the
     two `ioctl` calls give, when they succeed, and the time;
   - the results of `send_data` are ignored by the code, so a reply is the call: its
     buffer and the value of its 32-bit length;
   - `Dispatch` records what a round looked at, and no step reads it: the frame that
     `recv_data` delivered whole, if it did, the type of the message, and the fields
     that were read or written in the buffer;
   - a null buffer ends the process at the first field. -/
namespace EndlessFault.DebugServer

structure MachineInfo where
  guestMemPtr : UInt64
  memSize : UInt64

structure Host where
  memory : UInt64 → UInt8
  regs : Option (List UInt8)
  sregs : Option (List UInt8)
  now : UInt64

/-- A call of `send_data`: a message made by the server, or a range of memory. -/
inductive Reply where
  | message (bytes : List UInt8)
  | dump (buf : UInt64) (bufLen : Nat)
  deriving DecidableEq, Repr

/-- The bytes that `send_data` reads from its buffer. -/
def Reply.bytes (memory : UInt64 → UInt8) : Reply → List UInt8
  | .message bytes => bytes
  | .dump buf bufLen => (List.range bufLen).map fun i => memory (buf + UInt64.ofNat i)

/-- Memory that is not initialised. -/
def garbage : Memory := fun _ => 0

/-- The dump of a range. For a range that is refused, a message of type `GENERIC_ERR`
is made and converted, and never sent. -/
def sendDumpMem (mi : MachineInfo) (start end_ : UInt64) : List Reply :=
  let startGuestDump := mi.guestMemPtr + start
  let endGuestDump := mi.guestMemPtr + end_
  let dumpSize := endGuestDump - startGuestDump
  if startGuestDump > mi.guestMemPtr + mi.memSize ∨ endGuestDump > mi.guestMemPtr + mi.memSize then []
  else [.dump startGuestDump dumpSize.toUInt32.toNat]

def sendInfo (mi : MachineInfo) (host : Host) : List Reply :=
  let msg := convertToNetworkOrder (initInfoMsg mi.memSize host.now garbage)
  .message (bytesOf msg MessageType.sendInfo.size) ::
    match host.regs, host.sregs with
    | some regs, some sregs => [.message regs, .message sregs]
    | _, _ => []

structure Dispatch where
  frame : Option (List UInt8)
  type : Option MessageType
  touched : List Field

/-- What a round looks at in a buffer: the fields `convert_to_host_order` converts, and
the same again by the switch. -/
def Dispatch.of (frame : Option (List UInt8)) (buf : Memory) : Dispatch where
  frame := frame
  type := messageType (typeField.convert buf)
  touched := typeField :: fieldsOf (messageType (typeField.convert buf))

/-- What a round of the loop does, and where the next one starts, unless the loop has
returned. -/
structure Round (σ : Type) where
  dispatches : List Dispatch
  replies : List Reply
  next : Option (σ × MyBuffer)

/-- What the loop has done after some rounds, and whether it is still running. -/
structure Served where
  dispatches : List Dispatch
  replies : List Reply
  running : Bool

section
variable {σ : Type} (recv : Recv σ) (heap : Memory) (host : σ → Host) (mi : MachineInfo)

/-- The switch on the type of the message in `buf`. -/
def switchType (dispatch : Dispatch) (r : Received σ) (buf : Memory) : Option MessageType → Round σ
  | some .reqDumpMem =>
    ⟨[dispatch], sendDumpMem mi (UInt64.ofNat (startAddr.value buf)) (UInt64.ofNat (endAddr.value buf)),
      some (r.sock, { r.buffer with buf := some buf })⟩
  -- the case of `REQ_INFO` falls through to the default, which returns
  | some .reqInfo => ⟨[dispatch], sendInfo mi (host r.sock), none⟩
  | _ => ⟨[dispatch], [], none⟩

/-- The body of the loop. -/
def round (sockt : σ) (myBuf : MyBuffer) : Round σ :=
  let r := recvData recv heap sockt myBuf
  if r.ret = 0 then ⟨[], [], none⟩
  else
    match r.buffer.buf with
    | none => ⟨[⟨r.frame, none, [typeField]⟩], [], none⟩
    | some buf =>
      switchType host mi (Dispatch.of r.frame buf) r (convertToHostOrder buf)
        (messageType (convertToHostOrder buf))

/-- The first `n` rounds of `worker_fun`. -/
def workerFun : Nat → σ → MyBuffer → Served
  | 0, _, _ => ⟨[], [], true⟩
  | n + 1, sockt, myBuf =>
    let r := round recv heap host mi sockt myBuf
    match r.next with
    | none => ⟨r.dispatches, r.replies, false⟩
    | some (sockt, myBuf) =>
      let later := workerFun n sockt myBuf
      ⟨r.dispatches ++ later.dispatches, r.replies ++ later.replies, later.running⟩

/-! The body of the loop, case by case. -/

variable {recv heap host mi} {sockt : σ} {myBuf : MyBuffer}

theorem round_disconnected (h : (recvData recv heap sockt myBuf).ret = 0) :
    round recv heap host mi sockt myBuf = ⟨[], [], none⟩ := by
  rw [round, if_pos h]

theorem round_null (h : (recvData recv heap sockt myBuf).ret ≠ 0)
    (hbuf : (recvData recv heap sockt myBuf).buffer.buf = none) :
    round recv heap host mi sockt myBuf =
      ⟨[⟨(recvData recv heap sockt myBuf).frame, none, [typeField]⟩], [], none⟩ := by
  rw [round, if_neg h, hbuf]

theorem round_switch {buf : Memory} (h : (recvData recv heap sockt myBuf).ret ≠ 0)
    (hbuf : (recvData recv heap sockt myBuf).buffer.buf = some buf) :
    round recv heap host mi sockt myBuf =
      switchType host mi (Dispatch.of (recvData recv heap sockt myBuf).frame buf)
        (recvData recv heap sockt myBuf) (convertToHostOrder buf) (messageType (typeField.convert buf)) := by
  rw [round, if_neg h, hbuf]
  dsimp only
  rw [messageType_convertToHostOrder]

theorem switchType_reqDumpMem (dispatch : Dispatch) (r : Received σ) (buf : Memory) :
    switchType host mi dispatch r buf (some .reqDumpMem) =
      ⟨[dispatch], sendDumpMem mi (UInt64.ofNat (startAddr.value buf)) (UInt64.ofNat (endAddr.value buf)),
        some (r.sock, { r.buffer with buf := some buf })⟩ := rfl

/-- The loop goes on after a request for a dump only. -/
theorem switchType_next {dispatch : Dispatch} {r : Received σ} {buf : Memory} (type : Option MessageType) :
    (switchType host mi dispatch r buf type).next =
      if type = some .reqDumpMem then some (r.sock, { r.buffer with buf := some buf }) else none := by
  cases type with
  | none => rfl
  | some t => cases t <;> rfl

theorem workerFun_returned {n : Nat} (h : (round recv heap host mi sockt myBuf).next = none) :
    workerFun recv heap host mi (n + 1) sockt myBuf =
      ⟨(round recv heap host mi sockt myBuf).dispatches, (round recv heap host mi sockt myBuf).replies,
        false⟩ := by
  rw [workerFun, h]

theorem workerFun_next {n : Nat} {sockt' : σ} {myBuf' : MyBuffer}
    (h : (round recv heap host mi sockt myBuf).next = some (sockt', myBuf')) :
    workerFun recv heap host mi (n + 1) sockt myBuf =
      let later := workerFun recv heap host mi n sockt' myBuf'
      ⟨(round recv heap host mi sockt myBuf).dispatches ++ later.dispatches,
        (round recv heap host mi sockt myBuf).replies ++ later.replies, later.running⟩ := by
  rw [workerFun, h]

end
end EndlessFault.DebugServer
