import EndlessFault.DebugServer.NetWrapper

/- Frames over a TCP stream. The receiving socket may split the stream anywhere, and
   `recv_data` calls `recv` once for the length and once for the bytes. It gives back
   the messages sent exactly when no `recv` returns less than it is asked for
   (`messages_received_iff`); a message of `2^32 - 1` bytes is received and then taken
   for a failure, as its length is the -1 of an `int`. -/
namespace EndlessFault.DebugServer
open Lib.Bytes

/-- The bytes in flight, and the number of results `recv` has given. -/
structure Stream where
  pending : List UInt8
  taken : Nat

/-- The most bytes that the `i`-th result of `recv` has. -/
def cutAt (cuts : Nat → Nat) (i : Nat) : Nat := max 1 (cuts i)

/-- A socket whose `i`-th result is cut to `cuts i` bytes, but not below one. A call
for no bytes returns at once. -/
def recvCut (cuts : Nat → Nat) : Recv Stream := fun s n =>
  if n = 0 then (some [], s)
  else
    let k := min n (cutAt cuts s.taken)
    (some (s.pending.take k), ⟨s.pending.drop k, s.taken + 1⟩)

/-- The bytes on the wire for the messages, when every `send` takes all its bytes. -/
def wire (msgs : List (List UInt8)) : List UInt8 :=
  msgs.flatMap fun m => (sendData m (some 4) (some m.length)).1

/-- What successive calls of `recv_data` return. -/
def recvMessages {σ : Type} (recv : Recv σ) (heap : Memory) : Nat → σ → MyBuffer →
    List (Option (List UInt8))
  | 0, _, _ => []
  | n + 1, sockt, myBuff =>
    let r := recvData recv heap sockt myBuff
    r.message :: recvMessages recv heap n r.sock r.buffer

/-- The sizes `recv` is asked for when the messages are read one by one. -/
def asked (msgs : List (List UInt8)) : List Nat :=
  msgs.flatMap fun m => 4 :: if m = [] then [] else [m.length]

/-! One message. -/

theorem wire_cons (m : List UInt8) (msgs : List (List UInt8)) :
    wire (m :: msgs) = lengthBytes (UInt32.ofNat m.length) ++ (m ++ wire msgs) := by
  have hwhole : (lengthBytes (UInt32.ofNat m.length)).take 4 = lengthBytes (UInt32.ofNat m.length) :=
    List.take_of_length_le (Nat.le_of_eq (length_lengthBytes _))
  have hfour : ¬ (((some 4).map UInt32.ofNat).getD 0xFFFFFFFF < (4 : UInt32)) := by decide
  rw [wire, List.flatMap_cons, sendData, if_neg hfour, Option.getD_some, Option.getD_some, hwhole,
    List.take_length, List.append_assoc]
  rfl

section
variable (cuts : Nat → Nat) (heap : Memory) (b : MyBuffer) {m : List UInt8} (rest : List UInt8) {t : Nat}

/-- A result on a stream that starts with the bytes asked for. -/
theorem recv_bytes (hm : m ≠ []) : recvCut cuts ⟨m ++ rest, t⟩ m.length =
    if m.length ≤ cutAt cuts t then (some m, ⟨rest, t + 1⟩)
    else (some (m.take (cutAt cuts t)), ⟨m.drop (cutAt cuts t) ++ rest, t + 1⟩) := by
  have hpos := List.length_pos_of_ne_nil hm
  rw [recvCut, if_neg (by omega)]
  dsimp only
  split_ifs with hlong
  · rw [Nat.min_eq_left hlong, List.take_left, List.drop_left]
  · rw [Nat.min_eq_right (by omega), List.take_append_of_le_length (by omega),
      List.drop_append_of_le_length (by omega)]

theorem recv_length (n : UInt32) : recvCut cuts ⟨lengthBytes n ++ rest, t⟩ 4 =
    if 4 ≤ cutAt cuts t then (some (lengthBytes n), ⟨rest, t + 1⟩)
    else (some ((lengthBytes n).take (cutAt cuts t)),
      ⟨(lengthBytes n).drop (cutAt cuts t) ++ rest, t + 1⟩) := by
  have hlen := length_lengthBytes n
  have hne : lengthBytes n ≠ [] := List.ne_nil_of_length_pos (by omega)
  have hrecv := recv_bytes cuts rest (t := t) hne
  rw [hlen] at hrecv
  exact hrecv

/-- A length cut short. -/
theorem message_prefix_short (h : ¬ 4 ≤ cutAt cuts t) (n : UInt32) :
    (recvData (recvCut cuts) heap ⟨lengthBytes n ++ rest, t⟩ b).message = none := by
  have hfirst := recv_length cuts rest (t := t) n
  have hlen : ((lengthBytes n).take (cutAt cuts t)).length < 4 := by
    rw [List.length_take]
    omega
  rw [if_neg h] at hfirst
  rw [Received.message, if_pos (recvData_length_short _ _ hfirst hlen).1]

section
variable (hm : m.length < 2^32)

include hm

/-- The bytes of a message cut short. -/
theorem message_body_short (h : 4 ≤ cutAt cuts t) (hne : m ≠ [])
    (hshort : ¬ m.length ≤ cutAt cuts (t + 1)) :
    (recvData (recvCut cuts) heap ⟨lengthBytes (UInt32.ofNat m.length) ++ (m ++ rest), t⟩ b).message =
      none := by
  have hnbytes : (nbytesOf (some (lengthBytes (UInt32.ofNat m.length)))).toNat = m.length := by
    rw [nbytesOf_lengthBytes]
    exact UInt32.toNat_ofNat_of_lt' hm
  have hfirst := recv_length cuts (m ++ rest) (t := t) (UInt32.ofNat m.length)
  rw [if_pos h] at hfirst
  have hsecond : recvCut cuts ⟨m ++ rest, t + 1⟩ (nbytesOf (some (lengthBytes (UInt32.ofNat m.length)))).toNat =
      (some (m.take (cutAt cuts (t + 1))), ⟨m.drop (cutAt cuts (t + 1)) ++ rest, t + 1 + 1⟩) := by
    rw [hnbytes, recv_bytes cuts rest hne, if_neg hshort]
  have hlen : (m.take (cutAt cuts (t + 1))).length <
      (nbytesOf (some (lengthBytes (UInt32.ofNat m.length)))).toNat := by
    rw [hnbytes, List.length_take]
    omega
  have hfour := received_four (length_lengthBytes (UInt32.ofNat m.length))
  rw [Received.message, if_pos (recvData_body_short _ _ hfirst hfour hsecond hlen).1]

/-- A message that arrives whole. -/
theorem recvCut_delivers (hb : b.Valid) (h : 4 ≤ cutAt cuts t)
    (hbody : m ≠ [] → m.length ≤ cutAt cuts (t + 1)) :
    Delivers (recvData (recvCut cuts) heap ⟨lengthBytes (UInt32.ofNat m.length) ++ (m ++ rest), t⟩ b)
      m ⟨rest, t + 1 + if m = [] then 0 else 1⟩ := by
  have hn : (UInt32.ofNat m.length).toNat = m.length := UInt32.toNat_ofNat_of_lt' hm
  have hfirst := recv_length cuts (m ++ rest) (t := t) (UInt32.ofNat m.length)
  rw [if_pos h] at hfirst
  apply recvData_delivers _ _ hb (length_lengthBytes _) hfirst
  · rw [nbytesOf_lengthBytes, hn]
    by_cases hne : m = []
    · rw [hne, recvCut, List.length_nil, if_pos rfl, if_pos rfl]
      rfl
    · rw [recv_bytes cuts rest hne, if_pos (hbody hne), if_neg hne]
  · rw [nbytesOf_lengthBytes, hn]

end
end

/-! All messages. -/

/-- No result from the `t`-th on is shorter than what is asked for. -/
def Unsplit (cuts : Nat → Nat) : Nat → List Nat → Prop
  | _, [] => True
  | t, n :: sizes => n ≤ cutAt cuts t ∧ Unsplit cuts (t + 1) sizes

theorem asked_cons (m : List UInt8) (msgs : List (List UInt8)) :
    asked (m :: msgs) = 4 :: ((if m = [] then [] else [m.length]) ++ asked msgs) := rfl

theorem unsplit_cons {cuts : Nat → Nat} {t : Nat} {m : List UInt8} {msgs : List (List UInt8)} :
    Unsplit cuts t (asked (m :: msgs)) ↔
      4 ≤ cutAt cuts t ∧ (m ≠ [] → m.length ≤ cutAt cuts (t + 1)) ∧
      Unsplit cuts (t + 1 + if m = [] then 0 else 1) (asked msgs) := by
  rw [asked_cons, Unsplit]
  refine and_congr_right fun _ => ?_
  by_cases hm : m = []
  · rw [if_pos hm, if_pos hm, List.nil_append, Nat.add_zero]
    exact ⟨fun h => ⟨fun hne => absurd hm hne, h⟩, And.right⟩
  · rw [if_neg hm, if_neg hm, List.singleton_append, Unsplit]
    exact and_congr_left fun _ => ⟨fun h _ => h, fun h => h hm⟩

theorem recvMessages_iff (cuts : Nat → Nat) (heap : Memory) {msgs : List (List UInt8)}
    (hlen : ∀ m ∈ msgs, m.length < 2^32) (t : Nat) {b : MyBuffer} (hb : b.Valid) :
    recvMessages (recvCut cuts) heap msgs.length ⟨wire msgs, t⟩ b = msgs.map some ↔
      Unsplit cuts t (asked msgs) ∧ ∀ m ∈ msgs, m.length ≠ 2^32 - 1 := by
  induction msgs generalizing t b with
  | nil => exact iff_of_true rfl ⟨trivial, fun _ hm => absurd hm List.not_mem_nil⟩
  | cons m msgs ih =>
    have hm := hlen m List.mem_cons_self
    rw [List.length_cons, recvMessages, List.map_cons, List.cons.injEq, wire_cons, unsplit_cons,
      List.forall_mem_cons]
    by_cases hfirst : 4 ≤ cutAt cuts t
    · by_cases hbody : m ≠ [] → m.length ≤ cutAt cuts (t + 1)
      · have hdeliver := recvCut_delivers cuts heap b (wire msgs) hm hb hfirst hbody
        rw [hdeliver.message hm, hdeliver.sock,
          ih (fun q hq => hlen q (List.mem_cons_of_mem m hq)) _ hdeliver.valid]
        by_cases hmax : m.length = 2^32 - 1
        · rw [if_pos hmax]
          exact iff_of_false (fun h => Option.some_ne_none m h.1.symm) fun h => h.2.1 hmax
        · rw [if_neg hmax]
          exact ⟨fun h => ⟨⟨hfirst, hbody, h.2.1⟩, hmax, h.2.2⟩, fun h => ⟨rfl, h.1.2.2, h.2.2⟩⟩
      · obtain ⟨hne, hshort⟩ := Classical.not_imp.mp hbody
        rw [message_body_short cuts heap b (wire msgs) hm hfirst hne hshort]
        exact iff_of_false (fun h => Option.some_ne_none m h.1.symm) fun h => hbody h.1.2.1
    · rw [message_prefix_short cuts heap b (m ++ wire msgs) hfirst]
      exact iff_of_false (fun h => Option.some_ne_none m h.1.symm) fun h => hfirst h.1.1

/-- Successive calls of `recv_data` return the messages sent exactly when every length
and every non-empty message comes in one result of `recv`, and no message has the
length that reads as a failure. -/
theorem messages_received_iff (cuts : Nat → Nat) (heap : Memory) {msgs : List (List UInt8)}
    (hlen : ∀ m ∈ msgs, m.length < 2^32) :
    recvMessages (recvCut cuts) heap msgs.length ⟨wire msgs, 0⟩ .empty = msgs.map some ↔
      Unsplit cuts 0 (asked msgs) ∧ ∀ m ∈ msgs, m.length ≠ 2^32 - 1 :=
  recvMessages_iff cuts heap hlen 0 valid_empty

theorem messages_received_two :
    recvMessages (recvCut fun _ => 4) (fun _ => 0xAA) 2 ⟨wire [[], [1, 2, 3]], 0⟩ .empty =
      [some [], some [1, 2, 3]] := by
  have hlen : ∀ m ∈ [([] : List UInt8), [1, 2, 3]], m.length < 2^32 := by decide
  refine (messages_received_iff (fun _ => 4) (fun _ => 0xAA) hlen).mpr ⟨?_, by decide⟩
  exact ⟨by decide, by decide, by decide, trivial⟩

/-- A length that comes in two parts: the call returns -1, and the message is lost. -/
theorem split_length_lost :
    let results := recvMessages (recvCut fun i => if i = 0 then 2 else 4) (fun _ => 0xAA) 1
      ⟨wire [[7]], 0⟩ .empty
    results = [none] ∧ results ≠ [[7]].map some := by
  decide +kernel

end EndlessFault.DebugServer
