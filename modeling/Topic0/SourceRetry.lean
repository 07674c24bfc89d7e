import Topic0.BaseBackoff
import Topic0.BaseTransition
import Topic0.SourceFetch

/-! Calls that retry side by side. Every call in flight counts its own attempts and doubles its own
delay, and all of them draw their jitter from one counter, `STATE`, in whatever order their attempts
fail. Each call makes at most six attempts, sleeps between half and all of its delay before the next
one and returns what the last attempt said; and the words drawn are all different, so calls that
failed together do not come back in step. -/

namespace Topic0.Retry

open RpcLogSource

/-- The increment of `STATE`, which is also where it starts. -/
def golden : BitVec 64 := 0x9E3779B97F4A7C15#64

/-- The word made of the value of `STATE`. -/
def mix (x : BitVec 64) : BitVec 64 :=
  let z := (x ^^^ (x >>> 30)) * 0xBF58476D1CE4E5B9#64
  let z := (z ^^^ (z >>> 27)) * 0x94D049BB133111EB#64
  z ^^^ (z >>> 31)

/-- `jitter_below`, with the value of `STATE` after it. -/
def jitterBelow (state : BitVec 64) (max : Nat) : Nat × BitVec 64 :=
  if max = 0 then (0, state) else ((mix state).toNat % max, state + golden)

theorem mix_injective : Function.Injective mix := by
  have hfirst : Function.Injective fun x : BitVec 64 =>
      (x ^^^ (x >>> 30)) * 0xBF58476D1CE4E5B9#64 :=
    (Backoff.mul_injective 0x96DE1B173F119089#64 (by decide)).comp
      (Backoff.xor_shift_injective (by decide))
  have hsecond : Function.Injective fun x : BitVec 64 =>
      (x ^^^ (x >>> 27)) * 0x94D049BB133111EB#64 :=
    (Backoff.mul_injective 0x319642B2D24D8EC3#64 (by decide)).comp
      (Backoff.xor_shift_injective (by decide))
  have hlast : Function.Injective fun x : BitVec 64 => x ^^^ (x >>> 31) :=
    Backoff.xor_shift_injective (by decide)
  exact hlast.comp (hsecond.comp hfirst)

theorem jitterBelow_succ (state : BitVec 64) (half : Nat) :
    jitterBelow state (half + 1) = ((mix state).toNat % (half + 1), state + golden) :=
  if_neg (Nat.succ_ne_zero half)

variable {α : Type}

/-- A call of `with_retry`. `answers` and `slept`, the newest first, are not read by it. -/
structure Call (α : Type) where
  attempt : Nat
  delayMs : Nat
  slept : List Nat
  answers : List (Except String α)
  result : Option (Except SourceError α)

def Call.start : Call α := ⟨0, 250, [], [], none⟩

structure State (α : Type) where
  calls : Nat → Call α
  /-- `STATE`. -/
  jitter : BitVec 64
  /-- The words drawn, the newest first. -/
  drawn : List (BitVec 64)

/-- The provider answers an attempt of a call. -/
structure Act (α : Type) where
  call : Nat
  answer : Except String α

/-- The call returns. -/
def Call.finish (call : Call α) (answer : Except String α) : Call α :=
  { call with
    attempt := call.attempt + 1
    answers := answer :: call.answers
    result := some (answer.mapError .transport) }

/-- The call sleeps before another attempt. -/
def Call.again (call : Call α) (answer : Except String α) (ms : Nat) : Call α :=
  { call with
    attempt := call.attempt + 1
    answers := answer :: call.answers
    slept := ms :: call.slept
    delayMs := min (call.delayMs * 2) 4000 }

/-- The attempt is the last of the call. -/
def Call.over (call : Call α) : Except String α → Bool
  | .ok _ => true
  | .error e => !isTransient e || call.attempt == 5

def State.step (s : State α) (act : Act α) : Option (State α) :=
  let call := s.calls act.call
  if call.result.isSome then none
  else if call.over act.answer then
    some { s with calls := Function.update s.calls act.call (call.finish act.answer) }
  else
    let half := call.delayMs / 2
    let (jitter, next) := jitterBelow s.jitter (half + 1)
    some { s with
      calls := Function.update s.calls act.call (call.again act.answer (half + jitter))
      jitter := next
      drawn := mix s.jitter :: s.drawn }

/-- No call has been made yet. -/
def system : Transition.System (State α) (Act α) where
  init s := s = ⟨fun _ => Call.start, golden, []⟩
  step := State.step

/-- Each sleep lies between half and all of the delay of its turn. -/
def Slept : List Nat → Prop
  | [] => True
  | ms :: rest => (Backoff.delay 250 4000 rest.length / 2 ≤ ms ∧
      ms ≤ Backoff.delay 250 4000 rest.length) ∧ Slept rest

/-- The answers are those of `op`, attempt by attempt. -/
def Answered (op : Nat → Except String α) : List (Except String α) → Prop
  | [] => True
  | answer :: rest => op rest.length = answer ∧ Answered op rest

/-- What a call has done so far. -/
structure Call.Ok (call : Call α) : Prop where
  attempt : call.attempt = call.answers.length
  slept : Slept call.slept
  waiting : call.result = none →
    call.slept.length = call.attempt ∧ call.attempt ≤ 5 ∧
      call.delayMs = Backoff.delay 250 4000 call.slept.length ∧
      ∀ op, Answered op call.answers → withRetry op 0 = retry op (5 - call.attempt) call.attempt
  returned : ∀ r, call.result = some r → call.slept.length + 1 = call.attempt ∧ call.attempt ≤ 6 ∧
    ∀ op, Answered op call.answers → withRetry op 0 = (r, call.attempt)

theorem Call.ok_start : (Call.start : Call α).Ok :=
  ⟨rfl, trivial, fun _ => ⟨rfl, Nat.zero_le 5, rfl, fun _ _ => rfl⟩, nofun⟩

theorem Call.ok_finish {call : Call α} (h : call.Ok) (hwaiting : call.result = none)
    {answer : Except String α} (hover : call.over answer = true) : (call.finish answer).Ok := by
  obtain ⟨hlength, hle, -, hretry⟩ := h.waiting hwaiting
  refine ⟨?_, h.slept, nofun, ?_⟩
  · show call.attempt + 1 = call.answers.length + 1
    rw [h.attempt]
  · rintro _ ⟨⟩
    refine ⟨by show call.slept.length + 1 = call.attempt + 1; rw [hlength],
      by show call.attempt + 1 ≤ 6; omega, ?_⟩
    rintro op ⟨hop, hearlier⟩
    rw [← h.attempt] at hop
    rw [hretry op hearlier]
    show _ = (answer.mapError SourceError.transport, call.attempt + 1)
    cases answer with
    | ok v => exact retry_of_ok op hop
    | error e =>
        rw [Call.over, Bool.or_eq_true, Bool.not_eq_true', beq_iff_eq] at hover
        rcases hover with hlasting | hfive
        · exact retry_of_error op hop hlasting
        · rw [show 5 - call.attempt = 0 by omega, retry, hop]
          rfl

theorem Call.ok_again {call : Call α} (h : call.Ok) (hwaiting : call.result = none)
    {answer : Except String α} (hover : call.over answer = false) {jitter : Nat}
    (hjitter : jitter < call.delayMs / 2 + 1) :
    (call.again answer (call.delayMs / 2 + jitter)).Ok := by
  obtain ⟨hlength, hle, hdelay, hretry⟩ := h.waiting hwaiting
  obtain ⟨e, rfl, htransient, hfive⟩ : ∃ e, answer = .error e ∧ isTransient e = true ∧
      call.attempt ≠ 5 := by
    cases answer with
    | ok v => cases hover
    | error e =>
        rw [Call.over, Bool.or_eq_false_iff, Bool.not_eq_false', beq_eq_false_iff_ne] at hover
        exact ⟨e, rfl, hover⟩
  refine ⟨?_, ?_, fun _ => ⟨?_, ?_, ?_, ?_⟩, ?_⟩
  · show call.attempt + 1 = call.answers.length + 1
    rw [h.attempt]
  · refine ⟨?_, h.slept⟩
    rw [← hdelay]
    omega
  · show call.slept.length + 1 = call.attempt + 1
    rw [hlength]
  · show call.attempt + 1 ≤ 5
    omega
  · show min (call.delayMs * 2) 4000 = Backoff.delay 250 4000 (call.slept.length + 1)
    rw [Backoff.delay, hdelay]
  · rintro op ⟨hop, hearlier⟩
    rw [← h.attempt] at hop
    rw [hretry op hearlier]
    show retry op (5 - call.attempt) call.attempt =
      retry op (5 - (call.attempt + 1)) (call.attempt + 1)
    obtain ⟨left, hleft⟩ : ∃ left, 5 - call.attempt = left + 1 := ⟨4 - call.attempt, by omega⟩
    rw [hleft, show 5 - (call.attempt + 1) = left by omega, retry, hop]
    simp only [htransient, if_true]
  · intro r hr
    rw [show (call.again _ _).result = call.result from rfl, hwaiting] at hr
    cases hr

theorem Slept.sum_le {slept : List Nat} (h : Slept slept) :
    slept.sum ≤ Backoff.total 250 4000 slept.length := by
  induction slept with
  | nil => exact Nat.zero_le _
  | cons ms rest ih =>
      obtain ⟨⟨-, hle⟩, hrest⟩ := h
      rw [List.sum_cons, List.length_cons, Backoff.total_succ]
      have := ih hrest
      omega

/-- The words drawn, in order, are those of the counter. -/
structure State.Inv (s : State α) : Prop where
  calls : ∀ i, (s.calls i).Ok
  jitter : s.jitter = Backoff.counter golden golden s.drawn.length
  drawn : s.drawn = ((List.range s.drawn.length).map fun n =>
    mix (Backoff.counter golden golden n)).reverse

theorem inv_step {s t : State α} {act : Act α} (h : s.Inv) (hstep : s.step act = some t) : t.Inv := by
  rw [State.step] at hstep
  split at hstep
  · cases hstep
  rename_i hresult
  have hwaiting : (s.calls act.call).result = none := by
    rwa [Bool.not_eq_true, Option.isSome_eq_false_iff, Option.isNone_iff_eq_none] at hresult
  split at hstep
  · rename_i hover
    cases hstep
    refine ⟨?_, h.jitter, h.drawn⟩
    exact (Function.forall_update_iff s.calls fun _ call => Call.Ok call).mpr
      ⟨Call.ok_finish (h.calls act.call) hwaiting hover, fun i _ => h.calls i⟩
  · rename_i hover
    simp only [jitterBelow_succ, Option.some.injEq] at hstep
    subst hstep
    refine ⟨?_, ?_, ?_⟩
    · exact (Function.forall_update_iff s.calls fun _ call => Call.Ok call).mpr
        ⟨Call.ok_again (h.calls act.call) hwaiting (Bool.eq_false_iff.mpr hover)
          (Nat.mod_lt _ (Nat.succ_pos _)), fun i _ => h.calls i⟩
    · rw [List.length_cons, Backoff.counter_succ, ← h.jitter]
    · rw [List.length_cons, List.range_succ, List.map_append, List.reverse_append, List.map_singleton,
        List.reverse_singleton, List.singleton_append, ← h.drawn, h.jitter]

/-- However the attempts of concurrent calls interleave: each call makes at most six and sleeps between
half and all of 250, 500 .. 4000 milliseconds between them, less than eight seconds together; it returns
what `with_retry` returns for its answers; and no jitter word is drawn twice before all have come. -/
theorem retries_spread {s : State α} (h : Transition.Reachable system Transition.anyStep s) (i : Nat) :
    (s.calls i).attempt ≤ 6 ∧ Slept (s.calls i).slept ∧ (s.calls i).slept.sum ≤ 7750 ∧
      (∀ r, (s.calls i).result = some r → ∀ op, Answered op (s.calls i).answers →
        withRetry op 0 = (r, (s.calls i).attempt)) ∧
      (s.drawn.length ≤ 2 ^ 64 → s.drawn.Nodup) := by
  have hinv : s.Inv := by
    apply h.invariant State.Inv
    · rintro s rfl
      exact ⟨fun _ => Call.ok_start, (Backoff.counter_zero golden golden).symm, rfl⟩
    · intro s act t hs _ hstep
      exact inv_step hs hstep
  have hcall := hinv.calls i
  have hbounds : (s.calls i).attempt ≤ 6 ∧ (s.calls i).slept.length ≤ 5 := by
    cases hresult : (s.calls i).result with
    | none =>
        obtain ⟨hlength, hle, -⟩ := hcall.waiting hresult
        omega
    | some r =>
        obtain ⟨hlength, hle, -⟩ := hcall.returned r hresult
        omega
  refine ⟨hbounds.1, hcall.slept, ?_, fun r hr => (hcall.returned r hr).2.2, fun hfew => ?_⟩
  · calc (s.calls i).slept.sum ≤ Backoff.total 250 4000 (s.calls i).slept.length :=
        hcall.slept.sum_le
      _ ≤ Backoff.total 250 4000 5 := Backoff.total_mono hbounds.2
      _ = 7750 := by decide
  · rw [hinv.drawn, List.nodup_reverse]
    refine List.Nodup.map_on ?_ List.nodup_range
    intro m hm n hn heq
    exact Backoff.counter_injOn 0xF1DE83E19937733D#64 (by decide)
      ((List.mem_range.mp hm).trans_le hfew) ((List.mem_range.mp hn).trans_le hfew)
      (mix_injective heq)

/-- Two calls are refused together; the first one succeeds at its second attempt. -/
def refusedTogether : List (Act Nat) :=
  [⟨0, .error "429"⟩, ⟨1, .error "429"⟩, ⟨0, .ok 7⟩]

theorem retries_spread_two_calls : ∃ s : State Nat,
    (s.calls 0).result = some (.ok 7) ∧ (s.calls 1).result = none ∧ s.drawn.length = 2 ∧
      s.drawn.Nodup ∧ Slept (s.calls 1).slept := by
  obtain ⟨s, hreach, hobserved⟩ := Transition.Reachable.exists_observed
    (.init rfl : Transition.Reachable (system : Transition.System (State Nat) (Act Nat))
      Transition.anyStep _) refusedTogether (fun _ _ _ => trivial)
    (fun s => ((s.calls 0).result.map Except.toOption, (s.calls 1).result.isSome, s.drawn.length))
    (b := (some (some 7), false, 2)) (by decide +kernel)
  simp only [Prod.mk.injEq] at hobserved
  obtain ⟨hfirst, hsecond, hdrawn⟩ := hobserved
  obtain ⟨-, hslept, -, -, hnodup⟩ := retries_spread hreach 1
  refine ⟨s, ?_, ?_, hdrawn, hnodup (by rw [hdrawn]; decide), hslept⟩
  · obtain ⟨r, hr, hok⟩ := Option.map_eq_some_iff.mp hfirst
    cases r with
    | error e => cases hok
    | ok v =>
        cases hok
        exact hr
  · rwa [Option.isSome_eq_false_iff, Option.isNone_iff_eq_none] at hsecond

end Topic0.Retry
