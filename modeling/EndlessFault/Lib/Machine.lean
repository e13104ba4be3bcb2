import Mathlib.Data.List.Basic

/- Deterministic machines driven by a list of inputs. A machine is its
   transition function `next : σ → α → σ`; `run` is the state after a list of
   inputs and `observe` what an observer of each step records along the way.

   Four rules carry the proofs about particular machines:
   1. `run_invariant`, `run_along` — what every allowed step keeps, every run keeps,
      and conditions that agree wherever an invariant holds are met by the same runs
      (`along_congr`); where the invariant is established by some inputs, what counts is
      what comes before the first of them (`along_until`);
   2. `run_stutter`, `observe_stutter` — when some inputs leave a projection of
      the state alone and the others move it by themselves, the projection of a
      run is the run of the projected machine over those others; `run_project` is the
      same where the state decides which inputs the projected machine gets;
   3. `observe_balance`, `observe_collect` — a quantity fed by one observer and drained by
      another balances over a whole run when it balances over each step;
   4. `run_settles` — an input that lowers a measure until the state is settled settles
      it in the end.

   `foldlM_range_some` and `foldlM_range_none` are the invariant rule for a counted loop whose
   rounds may fail. -/
namespace Lib.Machine

variable {σ α τ γ δ : Type}

/-- The state after the inputs `as`, in order. -/
def run (next : σ → α → σ) (s : σ) (as : List α) : σ := as.foldl next s

/-- What `obs` records over the inputs `as`, each entry taken from the state
before its step and the input of that step. -/
def observe (next : σ → α → σ) (obs : σ → α → List γ) : σ → List α → List γ
  | _, [] => []
  | s, a :: as => obs s a ++ observe next obs (next s a) as

section
variable {next : σ → α → σ}

@[simp] theorem run_nil (s : σ) : run next s [] = s := rfl

@[simp] theorem run_cons (s : σ) (a : α) (as : List α) :
    run next s (a :: as) = run next (next s a) as := rfl

theorem run_append (s : σ) (as bs : List α) :
    run next s (as ++ bs) = run next (run next s as) bs := List.foldl_append ..

@[simp] theorem observe_nil (obs : σ → α → List γ) (s : σ) : observe next obs s [] = [] := rfl

@[simp] theorem observe_cons (obs : σ → α → List γ) (s : σ) (a : α) (as : List α) :
    observe next obs s (a :: as) = obs s a ++ observe next obs (next s a) as := rfl

theorem observe_append (obs : σ → α → List γ) (s : σ) (as bs : List α) :
    observe next obs s (as ++ bs) =
      observe next obs s as ++ observe next obs (run next s as) bs := by
  induction as generalizing s with
  | nil => rfl
  | cons a as ih => simp [ih]

/-- Inputs read through `f` are the inputs `f` gives. -/
theorem run_map {β : Type} (f : β → α) (s : σ) (bs : List β) :
    run (fun s b => next s (f b)) s bs = run next s (bs.map f) := List.foldl_map.symm

theorem observe_map {β : Type} (f : β → α) (obs : σ → α → List γ) (s : σ) (bs : List β) :
    observe (fun s b => next s (f b)) (fun s b => obs s (f b)) s bs =
      observe next obs s (bs.map f) := by
  induction bs generalizing s with
  | nil => rfl
  | cons b bs ih => rw [List.map_cons, observe_cons, observe_cons, ih]

/-- A record of records. -/
theorem observe_flatMap (f : γ → List δ) (obs : σ → α → List γ) (s : σ) (as : List α) :
    observe next (fun s a => (obs s a).flatMap f) s as = (observe next obs s as).flatMap f := by
  induction as generalizing s with
  | nil => rfl
  | cons a as ih => rw [observe_cons, observe_cons, List.flatMap_append, ih]

/-- What every allowed step keeps, every run of allowed steps keeps. -/
theorem run_invariant (Inv : σ → Prop) (ok : α → Prop)
    (step : ∀ s a, ok a → Inv s → Inv (next s a)) {s : σ} {as : List α}
    (hs : Inv s) (has : ∀ a ∈ as, ok a) : Inv (run next s as) := by
  induction as generalizing s with
  | nil => exact hs
  | cons a as ih =>
    exact ih (step s a (has a List.mem_cons_self) hs) (fun b hb => has b (List.mem_cons_of_mem a hb))

/-- Every step of the run over `as` meets `ok`, which may look at the state. -/
def Along (next : σ → α → σ) (ok : σ → α → Prop) : σ → List α → Prop
  | _, [] => True
  | s, a :: as => ok s a ∧ Along next ok (next s a) as

theorem run_along (Inv : σ → Prop) {ok : σ → α → Prop}
    (step : ∀ s a, ok s a → Inv s → Inv (next s a)) {s : σ} {as : List α}
    (hs : Inv s) (has : Along next ok s as) : Inv (run next s as) := by
  induction as generalizing s with
  | nil => exact hs
  | cons a as ih => exact ih (step s a has.1 hs) has.2

/-- Two conditions that agree wherever an invariant holds are met by the same runs. -/
theorem along_congr (Inv : σ → Prop) {ok ok' : σ → α → Prop}
    (step : ∀ s a, Inv s → Inv (next s a)) (same : ∀ s a, Inv s → (ok s a ↔ ok' s a)) {s : σ}
    (hs : Inv s) (as : List α) : Along next ok s as ↔ Along next ok' s as := by
  induction as generalizing s with
  | nil => exact Iff.rfl
  | cons a as ih => exact and_congr (same s a hs) (ih (step s a hs))

/-- What an invariant gives at every allowed input, every step of a run gives. -/
theorem along_of_invariant (Inv : σ → Prop) (allowed : α → Prop) {ok : σ → α → Prop}
    (step : ∀ s a, Inv s → Inv (next s a)) (holds : ∀ s a, allowed a → Inv s → ok s a) {s : σ}
    (hs : Inv s) {as : List α} (has : ∀ a ∈ as, allowed a) : Along next ok s as := by
  induction as generalizing s with
  | nil => trivial
  | cons a as ih =>
    exact ⟨holds s a (has a List.mem_cons_self) hs,
      ih (step s a hs) (fun b hb => has b (List.mem_cons_of_mem a hb))⟩

/-- Some inputs settle the state, after which every run is fine; until the first of
them the state stays one where only the input matters. Then a run is fine when the
inputs before the first settling one are. -/
theorem along_until (early settled : σ → Prop) (allowed fine : α → Prop) (settles : α → Bool)
    {ok : σ → α → Prop} (settle : ∀ s a, settles a = true → ok s a ∧ settled (next s a))
    (after : ∀ s as, settled s → (∀ a ∈ as, allowed a) → Along next ok s as)
    (before : ∀ s a, allowed a → settles a = false → early s → early (next s a) ∧ (ok s a ↔ fine a))
    {s : σ} (hs : early s) {as : List α} (has : ∀ a ∈ as, allowed a) :
    Along next ok s as ↔ ∀ a ∈ as.takeWhile (fun a => !settles a), fine a := by
  induction as generalizing s with
  | nil => simp [Along]
  | cons a as ih =>
    have hrest : ∀ b ∈ as, allowed b := fun b hb => has b (List.mem_cons_of_mem a hb)
    cases hset : settles a with
    | true =>
      obtain ⟨hok, hnext⟩ := settle s a hset
      simpa [Along, hset, hok] using after (next s a) as hnext hrest
    | false =>
      obtain ⟨hnext, hfine⟩ := before s a (has a List.mem_cons_self) hset hs
      simp only [Along, hfine, ih hnext hrest, List.takeWhile_cons, hset, Bool.not_false, if_true,
        List.forall_mem_cons]

end

/-- What both branches of a step give, the step gives. -/
theorem of_branches (f : σ → τ) {c : Prop} [Decidable c] {a b : σ} {x : τ} (ha : f a = x) (hb : f b = x) :
    f (if c then a else b) = x := by
  rw [apply_ite f, ha, hb, ite_self]

/-! Two machines in step. -/

section
variable {next : σ → α → σ} {next' : τ → α → τ} {R : σ → τ → Prop}

/-- A relation that every common step keeps holds after every common run. -/
theorem run_simulation (step : ∀ s t a, R s t → R (next s a) (next' t a)) {s : σ} {t : τ}
    (h : R s t) (as : List α) : R (run next s as) (run next' t as) := by
  induction as generalizing s t with
  | nil => exact h
  | cons a as ih => exact ih (step s t a h)

/-- The same over the inputs `ok` allows, with the records that related states
give along the way. -/
theorem simulation_on (ok : α → Prop) {obs : σ → α → List γ} {obs' : τ → α → List γ}
    (step : ∀ s t a, ok a → R s t → R (next s a) (next' t a) ∧ obs s a = obs' t a)
    {s : σ} {t : τ} (h : R s t) {as : List α} (has : ∀ a ∈ as, ok a) :
    R (run next s as) (run next' t as) ∧ observe next obs s as = observe next' obs' t as := by
  induction as generalizing s t with
  | nil => exact ⟨h, rfl⟩
  | cons a as ih =>
    obtain ⟨hnext, hsame⟩ := step s t a (has a List.mem_cons_self) h
    obtain ⟨hrun, hobs⟩ := ih hnext (fun b hb => has b (List.mem_cons_of_mem a hb))
    exact ⟨hrun, by rw [observe_cons, observe_cons, hsame, hobs]⟩

/-- Related machines give equal records when related states give equal entries. -/
theorem observe_simulation {obs : σ → α → List γ} {obs' : τ → α → List γ}
    (step : ∀ s t a, R s t → R (next s a) (next' t a))
    (same : ∀ s t a, R s t → obs s a = obs' t a) {s : σ} {t : τ} (h : R s t) (as : List α) :
    observe next obs s as = observe next' obs' t as := by
  induction as generalizing s t with
  | nil => rfl
  | cons a as ih => rw [observe_cons, observe_cons, same s t a h, ih (step s t a h)]

end

/-! Projections that only some inputs move. -/

section
variable {next : σ → α → σ} {next' : τ → γ → τ} {proj : σ → τ} {act : α → Option γ}

/-- The projection of a run is the run of the projected machine over the
inputs that act on it. -/
theorem run_stutter (ok : α → Prop)
    (quiet : ∀ s a, ok a → act a = none → proj (next s a) = proj s)
    (move : ∀ s a c, ok a → act a = some c → proj (next s a) = next' (proj s) c)
    (s : σ) {as : List α} (has : ∀ a ∈ as, ok a) :
    proj (run next s as) = run next' (proj s) (as.filterMap act) := by
  induction as generalizing s with
  | nil => rfl
  | cons a as ih =>
    have ha := has a List.mem_cons_self
    rw [run_cons, ih _ (fun b hb => has b (List.mem_cons_of_mem a hb))]
    cases hc : act a with
    | none => rw [quiet s a ha hc, List.filterMap_cons_none hc]
    | some c => rw [move s a c ha hc, List.filterMap_cons_some hc, run_cons]

/-- What an observer of the projection records is what it records on the
projected machine, when it records nothing at the other inputs. -/
theorem observe_stutter (ok : α → Prop) {obs : σ → α → List δ} {obs' : τ → γ → List δ}
    (quiet : ∀ s a, ok a → act a = none → proj (next s a) = proj s ∧ obs s a = [])
    (move : ∀ s a c, ok a → act a = some c →
      proj (next s a) = next' (proj s) c ∧ obs s a = obs' (proj s) c)
    (s : σ) {as : List α} (has : ∀ a ∈ as, ok a) :
    observe next obs s as = observe next' obs' (proj s) (as.filterMap act) := by
  induction as generalizing s with
  | nil => rfl
  | cons a as ih =>
    have ha := has a List.mem_cons_self
    rw [observe_cons, ih _ (fun b hb => has b (List.mem_cons_of_mem a hb))]
    cases hc : act a with
    | none =>
      obtain ⟨hp, ho⟩ := quiet s a ha hc
      rw [hp, ho, List.filterMap_cons_none hc, List.nil_append]
    | some c =>
      obtain ⟨hp, ho⟩ := move s a c ha hc
      rw [hp, ho, List.filterMap_cons_some hc, observe_cons]

end

/-! Projections moved by what the state makes of the inputs. -/

section
variable {next : σ → α → σ} {next' : τ → γ → τ} {proj : σ → τ}

/-- Where a step moves the projection by some inputs of its own, a run moves it by all of them. -/
theorem run_project (act : σ → α → List γ) (step : ∀ s a, proj (next s a) = run next' (proj s) (act s a))
    (s : σ) (as : List α) : proj (run next s as) = run next' (proj s) (observe next act s as) := by
  induction as generalizing s with
  | nil => rfl
  | cons a as ih => rw [run_cons, ih, step, observe_cons, run_append]

/-- A record that does not depend on the state. -/
theorem observe_static (f : α → List γ) (s : σ) (as : List α) :
    observe next (fun _ a => f a) s as = as.flatMap f := by
  induction as generalizing s with
  | nil => rfl
  | cons a as ih => rw [observe_cons, ih, List.flatMap_cons]

end

/-- Conservation over a run: what is held plus what comes in is what goes out
plus what is held after, in order, when that is so at each step. -/
theorem observe_balance {next : σ → α → σ} (Inv : σ → Prop) (held : σ → List γ)
    (input output : σ → α → List γ)
    (keep : ∀ s a, Inv s → Inv (next s a))
    (step : ∀ s a, Inv s → held s ++ input s a = output s a ++ held (next s a))
    {s : σ} (hs : Inv s) (as : List α) :
    held s ++ observe next input s as =
      observe next output s as ++ held (run next s as) := by
  induction as generalizing s with
  | nil => simp
  | cons a as ih =>
    rw [observe_cons, observe_cons, run_cons, ← List.append_assoc, step s a hs,
      List.append_assoc, ih (keep s a hs), List.append_assoc]

/-- What each step adds to a quantity, a run adds in order. -/
theorem observe_collect {next : σ → α → σ} (Inv : σ → Prop) (total : σ → List γ) (obs : σ → α → List γ)
    (keep : ∀ s a, Inv s → Inv (next s a)) (step : ∀ s a, Inv s → total (next s a) = total s ++ obs s a)
    {s : σ} (hs : Inv s) (as : List α) : total (run next s as) = total s ++ observe next obs s as := by
  induction as generalizing s with
  | nil => exact (List.append_nil _).symm
  | cons a as ih => rw [run_cons, ih (keep s a hs), step s a hs, observe_cons, List.append_assoc]

/-- An input that lowers a measure until the state is settled settles it when it is
repeated often enough. -/
theorem run_settles {next : σ → α → σ} (Inv settled : σ → Prop) (measure : σ → Nat) (a : α)
    (keep : ∀ s, Inv s → Inv (next s a)) (stay : ∀ s, Inv s → settled s → settled (next s a))
    (lower : ∀ s, Inv s → ¬ settled s → measure (next s a) < measure s) {s : σ} (hs : Inv s) {n : Nat}
    (hn : measure s ≤ n) : settled (run next s (List.replicate n a)) := by
  induction n generalizing s with
  | zero =>
    by_contra hnot
    have hlt := lower s hs hnot
    omega
  | succ n ih =>
    rw [List.replicate_succ, run_cons]
    by_cases hset : settled s
    · have hrest : ∀ (k : Nat) (t : σ), Inv t → settled t → settled (run next t (List.replicate k a)) := by
        intro k
        induction k with
        | zero => exact fun t _ ht => ht
        | succ k ihk => exact fun t hinv ht => ihk (next t a) (keep t hinv) (stay t hinv ht)
      exact hrest n (next s a) (keep s hs) (stay s hs hset)
    · have hlt := lower s hs hset
      exact ih (keep s hs) (by omega)

/-- A register that holds the latest recorded entry at each step holds the
latest entry of the whole record. -/
theorem observe_latest {next : σ → α → σ} {obs : σ → α → List γ} (latest : σ → γ)
    (step : ∀ s a, latest (next s a) = (obs s a).getLast?.getD (latest s)) (s : σ) (as : List α) :
    latest (run next s as) = (observe next obs s as).getLast?.getD (latest s) := by
  induction as generalizing s with
  | nil => rfl
  | cons a as ih =>
    rw [run_cons, ih, step, observe_cons, List.getLast?_append]
    cases (observe next obs (next s a) as).getLast? <;> rfl

/-! Counted loops. -/

/-- A loop whose every round succeeds. -/
theorem foldlM_range_some {round : σ → Nat → Option σ} (P : Nat → σ → Prop) {m : Nat}
    (step : ∀ i, i < m → ∀ s, P i s → ∃ s', round s i = some s' ∧ P (i + 1) s') {s : σ} (hs : P 0 s) :
    ∃ s', (List.range m).foldlM round s = some s' ∧ P m s' := by
  induction m with
  | zero => exact ⟨s, rfl, hs⟩
  | succ m ih =>
    obtain ⟨s₁, hrun, hP⟩ := ih fun i hi => step i (Nat.lt_succ_of_lt hi)
    obtain ⟨s₂, hround, hnext⟩ := step m (Nat.lt_succ_self m) s₁ hP
    refine ⟨s₂, ?_, hnext⟩
    rw [List.range_succ, List.foldlM_append, hrun]
    simp [hround]

/-- A loop with a round that fails. -/
theorem foldlM_range_none {round : σ → Nat → Option σ} (P : Nat → σ → Prop) {m i : Nat} (hi : i < m)
    (step : ∀ j, j < i → ∀ s, P j s → ∃ s', round s j = some s' ∧ P (j + 1) s')
    (stuck : ∀ s, P i s → round s i = none) {s : σ} (hs : P 0 s) : (List.range m).foldlM round s = none := by
  obtain ⟨k, rfl⟩ : ∃ k, m = i + (k + 1) := ⟨m - i - 1, by omega⟩
  have hhead : (List.range (k + 1)).map (i + ·) = i :: ((List.range k).map Nat.succ).map (i + ·) := by
    rw [List.range_succ_eq_map]
    rfl
  obtain ⟨s₁, hrun, hP⟩ := foldlM_range_some P step hs
  rw [List.range_add, hhead, List.foldlM_append]
  simp [hrun, stuck s₁ hP]

end Lib.Machine
