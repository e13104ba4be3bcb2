import EndlessFault.Gdbserver.MemoryCommands

/- Which frames `getpacket` acknowledges. `frames` cuts the characters of a client into
   frames as the protocol has them, without buffer and checksum: a `$` opens a frame
   and opens it anew inside a body, a body of 399 characters is dropped, and the two
   characters behind `#` belong to the frame whatever they are.

   `getpacket` answers the frames one by one and returns at the first that it accepts
   (`scan_answers`). It accepts by the sum that `hex` makes of the trailer, and `hex`
   makes -1 of any character that is no digit, so besides the valid frames it accepts
   those whose sum happens to be the one so made (`Forged`). Main result:
   `acknowledges_iff`. -/
namespace EndlessFault.Gdbserver

/-- A frame of the stream: the payload between `$` and `#`, the two characters of the
trailer, and what follows it. -/
structure Frame where
  payload : List UInt8
  d₁ : UInt8
  d₂ : UInt8
  rest : List UInt8
  deriving DecidableEq, Repr

/-- The frames of a stream, inside a body when one is given. -/
def cut : Option (List UInt8) → List UInt8 → List Frame
  | _, [] => []
  | none, ch :: input => if ch = ascii '$' then cut (some []) input else cut none input
  | some body, ch :: input =>
    if ch = ascii '$' then cut (some []) input
    else if ch = ascii '#' then
      match input with
      | d₁ :: d₂ :: rest => ⟨body, d₁, d₂, rest⟩ :: cut none rest
      | _ => []
    else if body.length < 398 then cut (some (body ++ [ch])) input
    else cut none input

def frames (input : List UInt8) : List Frame := cut none input

/-- The frame stands in the stream. -/
def Frame.In (f : Frame) (input : List UInt8) : Prop :=
  ∃ before, input = before ++ ascii '$' :: f.payload ++ ascii '#' :: f.d₁ :: f.d₂ :: f.rest

/-- The two characters behind `#` are hex digits and spell the sum of the payload. -/
def Frame.Valid (f : Frame) : Prop :=
  0 ≤ hex f.d₁ ∧ 0 ≤ hex f.d₂ ∧
    hex f.d₁ * 16 + hex f.d₂ = ((f.payload.map UInt8.toNat).sum % 256 : Nat)

/-- The sum `getpacket` takes of the payload. -/
def Frame.checksum (f : Frame) : UInt8 := f.payload.foldl (· + ·) 0

/-- The sum it makes of the trailer. -/
def Frame.xmitcsum (f : Frame) : UInt8 := UInt8.ofInt (hex f.d₁ * 16) + UInt8.ofInt (hex f.d₂)

/-- A trailer with another character than a hex digit that gives the sum all the same. -/
def Frame.Forged (f : Frame) : Prop :=
  ¬ (0 ≤ hex f.d₁ ∧ 0 ≤ hex f.d₂) ∧ f.checksum = f.xmitcsum

instance (f : Frame) : Decidable f.Valid := inferInstanceAs (Decidable (_ ∧ _ ∧ _))
instance (f : Frame) : Decidable f.Forged := inferInstanceAs (Decidable (_ ∧ _))

/-! The frames of a stream. -/

/-- The characters of a body can stand in a payload. -/
def PlainBody (body : List UInt8) : Prop :=
  body.length ≤ 398 ∧ ∀ ch ∈ body, ch ≠ ascii '$' ∧ ch ≠ ascii '#'

theorem Frame.In.append {f : Frame} {input : List UInt8} (h : f.In input) (before : List UInt8) :
    f.In (before ++ input) := by
  obtain ⟨pre, rfl⟩ := h
  exact ⟨before ++ pre, by simp only [List.append_assoc]⟩

theorem mem_cut {body : Option (List UInt8)} {input : List UInt8} {f : Frame}
    (hbody : ∀ b ∈ body, PlainBody b) (h : f ∈ cut body input) :
    PlainBody f.payload ∧ f.In ((body.map (ascii '$' :: ·)).getD [] ++ input) := by
  fun_induction cut body input with
  | case1 => simp at h
  | case2 input ih =>
    obtain ⟨hplain, hin⟩ := ih (by simp [PlainBody]) h
    exact ⟨hplain, by simpa using hin⟩
  | case3 ch input hne ih =>
    obtain ⟨hplain, hin⟩ := ih (by simp) h
    exact ⟨hplain, hin.append [ch]⟩
  | case4 body input ih =>
    obtain ⟨hplain, hin⟩ := ih (by simp [PlainBody]) h
    exact ⟨hplain, hin.append (ascii '$' :: body)⟩
  | case5 body d₁ d₂ rest hne ih =>
    rcases List.mem_cons.mp h with rfl | hlater
    · exact ⟨hbody body rfl, [], by simp⟩
    · obtain ⟨hplain, hin⟩ := ih (by simp) hlater
      exact ⟨hplain, by simpa using hin.append (ascii '$' :: body ++ [ascii '#', d₁, d₂])⟩
  | case6 => simp at h
  | case7 body ch input hdollar hhash hroom ih =>
    have hgrown : PlainBody (body ++ [ch]) := by
      obtain ⟨-, hchars⟩ := hbody body rfl
      refine ⟨by simp; omega, ?_⟩
      intro c hc
      rcases List.mem_append.mp hc with hold | hnew
      · exact hchars c hold
      · rw [List.mem_singleton.mp hnew]
        exact ⟨hdollar, hhash⟩
    obtain ⟨hplain, hin⟩ := ih (fun b hb => by cases hb; exact hgrown) h
    exact ⟨hplain, by simpa using hin⟩
  | case8 body ch input hdollar hhash hfull ih =>
    obtain ⟨hplain, hin⟩ := ih (by simp) h
    exact ⟨hplain, by simpa using hin.append (ascii '$' :: body ++ [ch])⟩

/-- Every frame of a stream stands in it and has a payload that can be framed. -/
theorem mem_frames {input : List UInt8} {f : Frame} (h : f ∈ frames input) :
    PlainBody f.payload ∧ f.In input :=
  mem_cut (by simp) h

/-! What a frame is answered. -/

theorem toNat_foldl_add (bs : List UInt8) (a : UInt8) :
    (bs.foldl (· + ·) a).toNat = (a.toNat + (bs.map UInt8.toNat).sum) % 256 := by
  induction bs generalizing a with
  | nil => simp
  | cons b bs ih =>
    rw [List.foldl_cons, ih, UInt8.toNat_add, List.map_cons, List.sum_cons]
    omega

/-- A valid frame has the sum its trailer gives. -/
theorem Frame.Valid.accepted {f : Frame} (h : f.Valid) : f.checksum = f.xmitcsum := by
  obtain ⟨-, -, hvalue⟩ := h
  have hsum : (f.payload.map UInt8.toNat).sum % 256 = f.checksum.toNat := by
    rw [checksum, toNat_foldl_add]
    simp
  rw [xmitcsum, ← UInt8.ofInt_add, hvalue, hsum, ofInt_toNat]

/-- A frame with two hex digits is valid when it has the sum they give. -/
theorem Frame.valid_of_accepted {f : Frame} (h₁ : 0 ≤ hex f.d₁) (h₂ : 0 ≤ hex f.d₂)
    (h : f.checksum = f.xmitcsum) : f.Valid := by
  have hlt₁ := hex_lt f.d₁
  have hlt₂ := hex_lt f.d₂
  refine ⟨h₁, h₂, ?_⟩
  obtain ⟨v, hv⟩ := Int.eq_ofNat_of_zero_le (show 0 ≤ hex f.d₁ * 16 + hex f.d₂ by omega)
  have hsum := congrArg UInt8.toNat h
  rw [checksum, toNat_foldl_add, xmitcsum, ← UInt8.ofInt_add, hv, UInt8.ofInt, UInt8.toNat_ofNat'] at hsum
  rw [hv]
  simp only [UInt8.toNat_zero, Nat.zero_add] at hsum
  omega

/-- The frames the code takes for good. -/
def Frame.Accepted (f : Frame) : Prop := f.checksum = f.xmitcsum

instance (f : Frame) : Decidable f.Accepted := inferInstanceAs (Decidable (_ = _))

theorem Frame.accepted_iff (f : Frame) : f.Accepted ↔ f.Valid ∨ f.Forged := by
  refine ⟨?_, ?_⟩
  · intro h
    by_cases hdigits : 0 ≤ hex f.d₁ ∧ 0 ≤ hex f.d₂
    · exact .inl (valid_of_accepted hdigits.1 hdigits.2 h)
    · exact .inr ⟨hdigits, h⟩
  · intro h
    rcases h with hvalid | hforged
    · exact hvalid.accepted
    · exact hforged.2

/-- What a call does on a stream: `n` frames are answered with `-`; then one is
answered with `+`, perhaps with a sequence number behind it, and the call returns with
what follows that frame left to read, or else the call is still waiting. -/
def Answers (r : Received) (n : Nat) : Option Frame → Prop
  | none => r.out = List.replicate n (ascii '-') ∧ r.ptr = none
  | some f =>
    (∃ sequence, (sequence = [] ∨ ∃ a b, sequence = [a, b]) ∧
      r.out = List.replicate n (ascii '-') ++ ascii '+' :: sequence) ∧
    r.ptr.isSome ∧ r.rest = f.rest

theorem Answers.refuse {r : Received} {n : Nat} {f : Option Frame} (h : Answers r n f) :
    Answers (r.after [ascii '-']) (n + 1) f := by
  cases f with
  | none =>
    obtain ⟨hout, hptr⟩ := h
    exact ⟨by simp [Received.after, hout, List.replicate_succ], hptr⟩
  | some f =>
    obtain ⟨⟨sequence, hsequence, hout⟩, hptr, hrest⟩ := h
    exact ⟨⟨sequence, hsequence, by simp [Received.after, hout, List.replicate_succ]⟩, hptr, hrest⟩

section
variable (ok : Frame → Prop) [DecidablePred ok]

/-- The frames before the first that is `ok`. -/
def before (fs : List Frame) : List Frame := fs.takeWhile (¬ ok ·)

/-- The first frame that is `ok`. -/
def firstOk (fs : List Frame) : Option Frame := fs.find? (ok ·)

variable {ok}

theorem judge_ok {f : Frame} (hf : ok f) (fs : List Frame) :
    before ok (f :: fs) = [] ∧ firstOk ok (f :: fs) = some f := by
  simp [before, firstOk, hf]

theorem judge_skip {f : Frame} (hf : ¬ ok f) (fs : List Frame) :
    before ok (f :: fs) = f :: before ok fs ∧ firstOk ok (f :: fs) = firstOk ok fs := by
  simp [before, firstOk, hf]

end

/-- A call goes by the frames of its input, and by `Accepted`. -/
def AnswersBy (ok : Frame → Prop) [DecidablePred ok] (r : Received) (fs : List Frame) : Prop :=
  Answers r (before ok fs).length (firstOk ok fs)

/-- Where `getpacket` waits, before a frame or inside a body. -/
def waiting : Option (List UInt8) → Waiting
  | none => .start
  | some body => .body body.length (body.foldl (· + ·) 0)

/-- The two characters of a trailer. -/
theorem scan_trailer (buffer : PacketBuffer) {body : List UInt8} {d₁ d₂ : UInt8} {rest : List UInt8}
    {fs : List Frame} (hrest : ∀ buffer, AnswersBy Frame.Accepted (scan buffer .start rest) fs) :
    AnswersBy Frame.Accepted (scan buffer (.sum1 (body.foldl (· + ·) 0)) (d₁ :: d₂ :: rest))
      (⟨body, d₁, d₂, rest⟩ :: fs) := by
  rw [scan, scan]
  by_cases h : (⟨body, d₁, d₂, rest⟩ : Frame).Accepted
  · obtain ⟨hnone, hfirst⟩ := judge_ok h fs
    rw [AnswersBy, hnone, hfirst, if_neg (fun hbad => hbad h)]
    split
    · exact ⟨⟨_, .inr ⟨_, _, rfl⟩, rfl⟩, rfl, rfl⟩
    · exact ⟨⟨[], .inl rfl, rfl⟩, rfl, rfl⟩
  · have hne : body.foldl (· + ·) 0 ≠ UInt8.ofInt (hex d₁ * 16) + UInt8.ofInt (hex d₂) := h
    obtain ⟨hmore, hfirst⟩ := judge_skip h fs
    rw [AnswersBy, hmore, hfirst, if_pos hne]
    exact (hrest buffer).refuse

theorem scan_answers (buffer : PacketBuffer) (body : Option (List UInt8)) (input : List UInt8) :
    AnswersBy Frame.Accepted (scan buffer (waiting body) input) (cut body input) := by
  fun_induction cut body input generalizing buffer with
  | case1 body => exact ⟨rfl, rfl⟩
  | case2 input ih =>
    rw [waiting, scan, if_pos rfl]
    exact ih buffer
  | case3 ch input hne ih =>
    rw [waiting, scan, if_neg hne]
    exact ih buffer
  | case4 body input ih =>
    rw [waiting, scan, if_pos rfl]
    exact ih buffer
  | case5 body d₁ d₂ rest hne ih =>
    rw [waiting, scan, if_neg hne, if_pos rfl]
    exact scan_trailer _ ih
  | case6 body input hshort hne =>
    -- the stream ends inside the trailer
    rw [waiting, scan, if_neg hne, if_pos rfl]
    cases input with
    | nil => exact ⟨rfl, rfl⟩
    | cons d₁ input =>
      cases input with
      | nil => exact ⟨rfl, rfl⟩
      | cons d₂ rest => exact (hshort d₁ d₂ rest rfl).elim
  | case7 body ch input hdollar hhash hroom ih =>
    have hmore : body.length + 1 < bufMax - 1 := show body.length + 1 < 399 by omega
    have hbody := ih (buffer.setIfInBounds body.length ch)
    rw [waiting, List.length_append, List.foldl_append] at hbody
    rw [waiting, scan, if_neg hdollar, if_neg hhash]
    dsimp only
    rw [if_pos hmore]
    exact hbody
  | case8 body ch input hdollar hhash hfull ih =>
    have hend : ¬ body.length + 1 < bufMax - 1 := show ¬ body.length + 1 < 399 by omega
    rw [waiting, scan, if_neg hdollar, if_neg hhash]
    dsimp only
    rw [if_neg hend]
    exact ih _

/-! Exactly the valid frames. -/

/-- `getpacket` answers the valid frames and no others with `+`, in the order of the
stream. -/
def Acknowledges (buffer : PacketBuffer) (input : List UInt8) : Prop :=
  AnswersBy Frame.Valid (getpacket buffer input) (frames input)

/-- Without a forged frame before the first valid one, the two judgements agree. -/
theorem answersBy_congr {r : Received} {fs : List Frame}
    (h : ∀ f ∈ before Frame.Valid fs, ¬ f.Forged) :
    AnswersBy Frame.Accepted r fs ↔ AnswersBy Frame.Valid r fs := by
  have hsame : before Frame.Accepted fs = before Frame.Valid fs ∧
      firstOk Frame.Accepted fs = firstOk Frame.Valid fs := by
    induction fs with
    | nil => exact ⟨rfl, rfl⟩
    | cons f fs ih =>
      by_cases hv : f.Valid
      · have ha : f.Accepted := hv.accepted
        rw [(judge_ok hv fs).1, (judge_ok hv fs).2, (judge_ok ha fs).1, (judge_ok ha fs).2]
        exact ⟨rfl, rfl⟩
      · obtain ⟨hbefore, hfirst⟩ := judge_skip hv fs
        rw [hbefore] at h
        have ha : ¬ f.Accepted := by
          rw [Frame.accepted_iff, not_or]
          exact ⟨hv, h f List.mem_cons_self⟩
        obtain ⟨hsame, hsame'⟩ := ih fun g hg => h g (List.mem_cons_of_mem f hg)
        rw [hbefore, hfirst, (judge_skip ha fs).1, (judge_skip ha fs).2, hsame, hsame']
        exact ⟨rfl, rfl⟩
  rw [AnswersBy, AnswersBy, hsame.1, hsame.2]

/-- A forged frame before the first valid one is taken where a refusal is due. -/
theorem exists_accepted {fs : List Frame} {f : Frame} (hf : f ∈ before Frame.Valid fs)
    (hforged : f.Forged) :
    (∃ g, firstOk Frame.Accepted fs = some g) ∧
    (before Frame.Accepted fs).length < (before Frame.Valid fs).length := by
  induction fs with
  | nil => simp [before] at hf
  | cons g fs ih =>
    have hv : ¬ g.Valid := by
      intro hv
      rw [(judge_ok hv fs).1] at hf
      exact List.not_mem_nil hf
    rw [(judge_skip hv fs).1, List.length_cons]
    by_cases ha : g.Accepted
    · rw [(judge_ok ha fs).1, (judge_ok ha fs).2]
      exact ⟨⟨g, rfl⟩, Nat.zero_lt_succ _⟩
    · rw [(judge_skip hv fs).1, List.mem_cons] at hf
      rcases hf with rfl | hlater
      · exact absurd ((Frame.accepted_iff f).mpr (.inr hforged)) ha
      · obtain ⟨hsome, hlt⟩ := ih hlater
        rw [(judge_skip ha fs).1, (judge_skip ha fs).2, List.length_cons]
        exact ⟨hsome, Nat.succ_lt_succ hlt⟩

/-- The answer to the frame after `n` refusals. -/
theorem Answers.refused_at {r : Received} {n : Nat} {f : Option Frame} (h : Answers r n f) {i : Nat}
    (hi : i < n) : r.out[i]? = some (ascii '-') := by
  cases f with
  | none => rw [h.1, List.getElem?_replicate, if_pos hi]
  | some f =>
    obtain ⟨⟨sequence, -, hout⟩, -⟩ := h
    rw [hout, List.getElem?_append_left (by simpa using hi), List.getElem?_replicate, if_pos hi]

theorem Answers.accepted_at {r : Received} {n : Nat} {f : Frame} (h : Answers r n (some f)) :
    r.out[n]? = some (ascii '+') := by
  obtain ⟨⟨sequence, -, hout⟩, -⟩ := h
  rw [hout, List.getElem?_append_right (by simp)]
  simp

/-- Every frame of the stream stands in it, with a payload of at most 398 characters
and free of `$` and `#`; and `getpacket` answers exactly the valid ones with `+` if and
only if none before the first valid one is forged. -/
theorem acknowledges_iff (buffer : PacketBuffer) (input : List UInt8) :
    (∀ f ∈ frames input, PlainBody f.payload ∧ f.In input) ∧
    (Acknowledges buffer input ↔ ∀ f ∈ before Frame.Valid (frames input), ¬ f.Forged) := by
  have hscan : AnswersBy Frame.Accepted (getpacket buffer input) (frames input) :=
    scan_answers buffer none input
  refine ⟨fun f hf => mem_frames hf, ?_⟩
  refine ⟨?_, ?_⟩
  · intro hack f hf hforged
    obtain ⟨⟨g, hg⟩, hlt⟩ := exists_accepted hf hforged
    rw [AnswersBy, hg] at hscan
    rw [Acknowledges, AnswersBy] at hack
    have hminus := hack.refused_at hlt
    rw [hscan.accepted_at] at hminus
    exact absurd hminus (by decide)
  · intro hclean
    exact (answersBy_congr hclean).mp hscan

/-- The frame `$o#7g`: the character `g` counts for -1, and 0x70 - 1 is the payload's
sum. -/
def forgedFrame : Frame := ⟨[ascii 'o'], ascii '7', ascii 'g', []⟩

def forgedInput : List UInt8 := [ascii '$', ascii 'o', ascii '#', ascii '7', ascii 'g']

theorem forged_acknowledged :
    frames forgedInput = [forgedFrame] ∧ ¬ forgedFrame.Valid ∧
    (getpacket (Vector.replicate 400 0) forgedInput).out = [ascii '+'] ∧
    ¬ Acknowledges (Vector.replicate 400 0) forgedInput := by
  have hframes : frames forgedInput = [forgedFrame] := by decide +kernel
  have hinvalid : ¬ forgedFrame.Valid := by decide +kernel
  have hout : (getpacket (Vector.replicate 400 0) forgedInput).out = [ascii '+'] := by decide +kernel
  refine ⟨hframes, hinvalid, hout, ?_⟩
  intro hack
  -- the one frame is due a refusal
  have hlt : 0 < (before Frame.Valid (frames forgedInput)).length := by
    rw [hframes, (judge_skip hinvalid []).1]
    exact Nat.zero_lt_succ _
  rw [Acknowledges, AnswersBy] at hack
  have hminus := hack.refused_at hlt
  rw [hout] at hminus
  exact absurd hminus (by decide)

end EndlessFault.Gdbserver
