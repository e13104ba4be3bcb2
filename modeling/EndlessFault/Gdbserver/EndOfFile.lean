import EndlessFault.Gdbserver.Acknowledgement

/- The stub after its client has gone. At the end of the file `read` returns 0 and
   leaves the character alone, and `getDebugChar`, which tests for an error only,
   returns whatever its uninitialised local holds, at every further call. The client's
   end may be closed for writing only, so the stub's own writes go on to succeed.

   `charsRead` are the characters the first calls return. A call of `getpacket` depends
   on them alone: it has returned, or it waits at one of four places (`scan_append`),
   and there a constant character can keep it waiting for ever (`scan_quiet`). So
   `getpacket` ends, whatever the local holds, only on a frame that was sent in full,
   and `putpacket` only on a `+` that was sent. Main result: `stops_iff`. -/
namespace EndlessFault.Gdbserver

/-- The character the `k`-th call returns: the one sent, or at the end of the file the
value the local has in that call. Of the two calls that end the process, a failed `read`
and a failed `write` of `putDebugChar`, none is made here: the writes are taken to succeed. -/
def getDebugChar (sent : List UInt8) (value : Nat → UInt8) (k : Nat) : UInt8 := sent.getD k (value k)

/-- The characters the first `n` calls return. -/
def charsRead (sent : List UInt8) (value : Nat → UInt8) (n : Nat) : List UInt8 :=
  (List.range n).map (getDebugChar sent value)

/-- Finitely many characters are enough for `getpacket` to return. -/
def GetpacketStops (buffer : PacketBuffer) (sent : List UInt8) : Prop :=
  ∀ value, ∃ n, (getpacket buffer (charsRead sent value n)).ptr.isSome

/-- Finitely many characters are enough for `putpacket` to return. -/
def PutpacketStops (payload sent : List UInt8) : Prop :=
  ∀ value, ∃ n, (putpacket payload (charsRead sent value n)).2.isSome

/-! The characters read. -/

theorem charsRead_add (sent : List UInt8) (value : Nat → UInt8) (n m : Nat) :
    ∃ more, charsRead sent value (n + m) = charsRead sent value n ++ more := by
  refine ⟨(List.range m).map fun k => getDebugChar sent value (n + k), ?_⟩
  simp only [charsRead, List.range_add, List.map_append, List.map_map]
  rfl

theorem charsRead_length (sent : List UInt8) (value : Nat → UInt8) :
    charsRead sent value sent.length = sent := by
  apply List.ext_getElem
  · simp [charsRead]
  · intro i hi hi'
    simp [charsRead, getDebugChar, hi']

/-- Behind the end of the file, when the local always holds `c`. -/
theorem charsRead_quiet (sent : List UInt8) (c : UInt8) (m : Nat) :
    charsRead sent (fun _ => c) (sent.length + m) = sent ++ List.replicate m c := by
  apply List.ext_getElem
  · simp [charsRead]
  · intro i hi hi'
    by_cases hs : i < sent.length
    · simp [charsRead, getDebugChar, hs]
    · simp [charsRead, getDebugChar, List.getElem_append, hs]

/-! A call that waits. -/

/-- One character: the call goes on from somewhere, or it returns. -/
theorem scan_step (buffer : PacketBuffer) (w : Waiting) (ch : UInt8) :
    (∃ buffer' w', ∀ input, (scan buffer w (ch :: input)).ptr = (scan buffer' w' input).ptr) ∨
    (∃ ptr, ∀ input, (scan buffer w (ch :: input)).ptr = some ptr) := by
  cases w with
  | start =>
    left
    by_cases hdollar : ch = ascii '$'
    · exact ⟨_, _, fun input => by rw [scan, if_pos hdollar]⟩
    · exact ⟨_, _, fun input => by rw [scan, if_neg hdollar]⟩
  | body count checksum =>
    left
    by_cases hdollar : ch = ascii '$'
    · exact ⟨_, _, fun input => by rw [scan, if_pos hdollar]⟩
    by_cases hhash : ch = ascii '#'
    · exact ⟨_, _, fun input => by rw [scan, if_neg hdollar, if_pos hhash]⟩
    by_cases hroom : count + 1 < bufMax - 1
    · exact ⟨_, _, fun input => by simp only [scan, if_neg hdollar, if_neg hhash, if_pos hroom]; rfl⟩
    · exact ⟨_, _, fun input => by simp only [scan, if_neg hdollar, if_neg hhash, if_neg hroom]; rfl⟩
  | sum1 checksum => exact .inl ⟨_, _, fun input => rfl⟩
  | sum2 checksum xmitcsum =>
    by_cases hbad : checksum ≠ xmitcsum + UInt8.ofInt (hex ch)
    · exact .inl ⟨_, _, fun input => by rw [scan, if_pos hbad]; rfl⟩
    · right
      by_cases hcolon : buffer[2]?.getD 0 = ascii ':'
      · exact ⟨3, fun input => by rw [scan, if_neg hbad, if_pos hcolon]⟩
      · exact ⟨0, fun input => by rw [scan, if_neg hbad, if_neg hcolon]⟩

/-- On some characters a call has returned, or it waits somewhere for more. -/
theorem scan_append (buffer : PacketBuffer) (w : Waiting) (input : List UInt8) :
    (∃ buffer' w', ∀ more, (scan buffer w (input ++ more)).ptr = (scan buffer' w' more).ptr) ∨
    (∃ ptr, ∀ more, (scan buffer w (input ++ more)).ptr = some ptr) := by
  induction input generalizing buffer w with
  | nil => exact .inl ⟨buffer, w, fun _ => rfl⟩
  | cons ch input ih =>
    rcases scan_step buffer w ch with ⟨buffer', w', hstep⟩ | ⟨ptr, hstep⟩
    · simp only [List.cons_append, hstep]
      exact ih buffer' w'
    · exact .inr ⟨ptr, fun more => hstep (input ++ more)⟩

/-- A call that has returned is not moved by what comes later. -/
theorem scan_stays {buffer : PacketBuffer} {w : Waiting} {input : List UInt8}
    (h : (scan buffer w input).ptr.isSome) (more : List UInt8) :
    (scan buffer w (input ++ more)).ptr.isSome := by
  rcases scan_append buffer w input with ⟨buffer', w', hwait⟩ | ⟨ptr, hdone⟩
  · have hnone := hwait []
    rw [List.append_nil, scan] at hnone
    rw [hnone] at h
    exact absurd h (by simp)
  · rw [hdone]
    rfl

/-! Characters that keep a call waiting. -/

theorem scan_start_quiet (buffer : PacketBuffer) {c : UInt8} (hc : c ≠ ascii '$') (m : Nat) :
    (scan buffer .start (List.replicate m c)).ptr = none := by
  have hgap : ascii '$' ∉ List.replicate m c := fun hmem => hc (List.eq_of_mem_replicate hmem).symm
  rw [← List.append_nil (List.replicate m c), scan_gap buffer hgap, scan]

/-- A body without an end is cut off, and the search goes on. -/
theorem scan_body_quiet (buffer : PacketBuffer) (count : Nat) (checksum : UInt8) {c : UInt8}
    (hdollar : c ≠ ascii '$') (hhash : c ≠ ascii '#') (m : Nat) :
    (scan buffer (.body count checksum) (List.replicate m c)).ptr = none := by
  induction m generalizing buffer count checksum with
  | zero => rfl
  | succ m ih =>
    rw [List.replicate_succ, scan, if_neg hdollar, if_neg hhash]
    dsimp only
    by_cases hroom : count + 1 < bufMax - 1
    · rw [if_pos hroom]
      exact ih _ _ _
    · rw [if_neg hroom]
      exact scan_start_quiet _ hdollar m

/-- The last character of a trailer that does not match. -/
theorem scan_sum2_quiet (buffer : PacketBuffer) {checksum xmitcsum c : UInt8} (hdollar : c ≠ ascii '$')
    (hbad : checksum ≠ xmitcsum + UInt8.ofInt (hex c)) (m : Nat) :
    (scan buffer (.sum2 checksum xmitcsum) (List.replicate m c)).ptr = none := by
  cases m with
  | zero => rfl
  | succ m =>
    rw [List.replicate_succ, scan, if_pos hbad]
    exact scan_start_quiet buffer hdollar m

/-- Wherever a call waits, one of the characters `0` and `1` keeps it waiting. -/
theorem scan_quiet (buffer : PacketBuffer) (w : Waiting) :
    ∃ c, ∀ m, (scan buffer w (List.replicate m c)).ptr = none := by
  cases w with
  | start => exact ⟨ascii '0', scan_start_quiet buffer (by decide)⟩
  | body count checksum =>
    exact ⟨ascii '0', scan_body_quiet buffer count checksum (by decide) (by decide)⟩
  | sum1 checksum =>
    -- two zeros spell 0 and two ones 0x11
    have hone : ∀ c, c ≠ ascii '$' → checksum ≠ UInt8.ofInt (hex c * 16) + UInt8.ofInt (hex c) →
        ∀ m, (scan buffer (.sum1 checksum) (List.replicate m c)).ptr = none := by
      intro c hdollar hbad m
      cases m with
      | zero => rfl
      | succ m =>
        rw [List.replicate_succ, scan]
        exact scan_sum2_quiet buffer hdollar hbad m
    by_cases hzero : checksum = 0
    · exact ⟨ascii '1', hone _ (by decide) (by rw [hzero]; decide)⟩
    · exact ⟨ascii '0', hone _ (by decide) hzero⟩
  | sum2 checksum xmitcsum =>
    by_cases hzero : checksum = xmitcsum + UInt8.ofInt (hex (ascii '0'))
    · refine ⟨ascii '1', scan_sum2_quiet buffer (by decide) ?_⟩
      intro hone
      rw [hzero, UInt8.add_right_inj] at hone
      exact absurd hone (by decide)
    · exact ⟨ascii '0', scan_sum2_quiet buffer (by decide) hzero⟩

/-! When the loops end. -/

theorem getpacket_isSome_iff (buffer : PacketBuffer) (input : List UInt8) :
    (getpacket buffer input).ptr.isSome ↔ ∃ f ∈ frames input, f.Accepted := by
  have hscan : AnswersBy Frame.Accepted (getpacket buffer input) (frames input) :=
    scan_answers buffer none input
  rw [AnswersBy] at hscan
  cases hfirst : firstOk Frame.Accepted (frames input) with
  | none =>
    rw [hfirst] at hscan
    rw [hscan.2]
    simp only [firstOk, List.find?_eq_none, decide_eq_true_eq] at hfirst
    simpa using hfirst
  | some f =>
    rw [hfirst] at hscan
    refine iff_of_true hscan.2.1 ⟨f, List.mem_of_find?_eq_some hfirst, ?_⟩
    simpa using List.find?_some hfirst

theorem putpacket_isSome_iff (payload input : List UInt8) :
    (putpacket payload input).2.isSome ↔ ascii '+' ∈ input := by
  induction input with
  | nil => simp [putpacket]
  | cons ch input ih =>
    rw [putpacket, List.mem_cons]
    by_cases hplus : ch = ascii '+'
    · rw [if_pos hplus]
      exact iff_of_true rfl (.inl hplus.symm)
    · rw [if_neg hplus]
      rw [ih]
      exact (or_iff_right (fun h => hplus h.symm)).symm

theorem getpacket_stops (buffer : PacketBuffer) (sent : List UInt8) :
    GetpacketStops buffer sent ↔ ∃ f ∈ frames sent, f.Accepted := by
  rw [← getpacket_isSome_iff buffer sent]
  refine ⟨?_, ?_⟩
  · intro hstops
    rcases scan_append buffer .start sent with ⟨buffer', w', hwait⟩ | ⟨ptr, hdone⟩
    · -- the character that keeps the call waiting where the stream breaks off
      obtain ⟨c, hquiet⟩ := scan_quiet buffer' w'
      obtain ⟨n, hn⟩ := hstops fun _ => c
      obtain ⟨more, hmore⟩ := charsRead_add sent (fun _ => c) n sent.length
      have hlater := scan_stays hn more
      rw [← hmore, Nat.add_comm, charsRead_quiet, hwait, hquiet] at hlater
      exact absurd hlater (by simp)
    · have hnow := hdone []
      rw [List.append_nil] at hnow
      rw [getpacket, hnow]
      rfl
  · intro hsome value
    exact ⟨sent.length, by rw [charsRead_length]; exact hsome⟩

theorem putpacket_stops (payload sent : List UInt8) :
    PutpacketStops payload sent ↔ ascii '+' ∈ sent := by
  refine ⟨?_, ?_⟩
  · intro hstops
    obtain ⟨n, hn⟩ := hstops fun _ => ascii '0'
    rw [putpacket_isSome_iff] at hn
    obtain ⟨k, -, hk⟩ := List.mem_map.mp hn
    by_cases hsent : k < sent.length
    · rw [getDebugChar, List.getD_eq_getElem _ _ hsent] at hk
      exact hk ▸ List.getElem_mem hsent
    · rw [getDebugChar, List.getD_eq_default _ _ (by omega)] at hk
      exact absurd hk (by decide)
  · intro hplus value
    exact ⟨sent.length, by rw [charsRead_length, putpacket_isSome_iff]; exact hplus⟩

/-- After the client has sent its characters and gone, whatever the uninitialised local
holds: `getpacket` ends exactly when a frame it accepts was sent in full, and
`putpacket` exactly when a `+` was sent. This is for a client whose end still takes what
the stub writes, so that no `putDebugChar` fails. -/
theorem stops_iff (buffer : PacketBuffer) (payload sent : List UInt8) :
    (GetpacketStops buffer sent ↔ ∃ f ∈ frames sent, f.Accepted) ∧
    (PutpacketStops payload sent ↔ ascii '+' ∈ sent) :=
  ⟨getpacket_stops buffer sent, putpacket_stops payload sent⟩

/-- A client that goes away after `$` leaves both loops running. -/
theorem client_gone_runs_on :
    ¬ GetpacketStops (Vector.replicate 400 0) [ascii '$'] ∧ ¬ PutpacketStops [ascii 'g'] [ascii '$'] := by
  rw [getpacket_stops, putpacket_stops]
  refine ⟨?_, by decide⟩
  intro h
  obtain ⟨f, hf, -⟩ := h
  have hnone : frames [ascii '$'] = [] := by decide
  rw [hnone] at hf
  exact List.not_mem_nil hf

end EndlessFault.Gdbserver
