import Topic0.SourceFetch

/-! Splitting and retrying. Two classifiers read the text of a provider's error: the retry loop asks
whether it is transient, and the fetch loop whether it says that a range or result cap was exceeded,
which is a signal to halve the span. The retry loop asks first. A text that both accept is therefore
asked for six times, with the backoff in between, before its span is halved. -/

namespace Topic0.RpcLogSource

/-- The text holds one of the markers, in any case. -/
def mentions (markers : List String) (e : String) : Bool :=
  markers.any fun marker => containsText marker (toAsciiLowercase e)

/-- What the retry loop takes for transient. -/
def transientMarkers : List String :=
  ["429", "limit", "too many requests", "timeout", "timed out", "503", "502", "connection"]

/-- What the fetch loop takes for an exceeded cap, the query timeout apart. -/
def rangeCapMarkers : List String := ["more than", "too large", "response size", "range is too"]

/-- The answer of one attempt goes back as it is, and the span it was for is halved. -/
structure SplitAtOnce (e : String) : Prop where
  attempt : ∀ {α : Type} (op : Nat → Except String α) (calls : Nat), op calls = .error e →
    withRetry op calls = (.error (.transport e), calls + 1)
  halve : ∀ (plan : PlanProfile) (getLogs : Nat → Nat → Nat → Except String (List Log))
    (s : FetchState) (lo hi : Nat) (rest : List Pipeline.Range), s.pending = (lo, hi) :: rest → lo < hi →
      getLogs s.calls lo hi = .error e →
        fetchStep plan getLogs s = .inl (overflow s lo hi rest (s.calls + 1))

/-- No query timeout, and a marker of an exceeded cap only without a transient one. -/
def WordedApart (e : String) : Prop :=
  mentions ["query timeout"] e = false ∧
    (mentions rangeCapMarkers e = true → mentions transientMarkers e = false)

variable {e : String}

theorem isTransient_eq (e : String) : isTransient e = mentions transientMarkers e := by
  simp only [isTransient, mentions, transientMarkers, List.any_cons, List.any_nil, Bool.or_false,
    Bool.or_assoc]

theorem isRangeCapError_eq (e : String) :
    isRangeCapError e = (mentions rangeCapMarkers e || mentions ["query timeout"] e) := by
  simp only [isRangeCapError, mentions, rangeCapMarkers, List.any_cons, List.any_nil, Bool.or_false,
    Bool.or_assoc]

/-- A query timeout is a timeout. -/
theorem isTransient_of_queryTimeout (h : mentions ["query timeout"] e = true) :
    isTransient e = true := by
  have hword : "timeout".toList <:+: "query timeout".toList := by decide +kernel
  simp only [mentions, List.any_cons, List.any_nil, Bool.or_false, containsText,
    decide_eq_true_eq] at h
  rw [isTransient_eq, mentions, List.any_eq_true]
  refine ⟨"timeout", by simp [transientMarkers], ?_⟩
  exact decide_eq_true (hword.trans h)

/-- A provider that goes on answering with a transient error is asked for every attempt left. -/
theorem retry_of_transient (h : isTransient e = true) (left calls : Nat) :
    retry (fun _ => (.error e : Except String Unit)) left calls =
      (.error (.transport e), calls + left + 1) := by
  induction left generalizing calls with
  | zero => rw [retry]
  | succ left ih =>
      rw [retry]
      simp only [h, if_true]
      rw [ih, Nat.add_right_comm calls 1 left, Nat.add_assoc calls left 1]

theorem not_transient_of_splitAtOnce (h : SplitAtOnce e) : isTransient e = false := by
  rw [Bool.eq_false_iff]
  intro htransient
  have honce := h.attempt (fun _ => (.error e : Except String Unit)) 0 rfl
  rw [withRetry, retry_of_transient htransient] at honce
  cases honce

theorem splitAtOnce_of_not_transient (hcap : isRangeCapError e = true)
    (h : isTransient e = false) : SplitAtOnce e where
  attempt := by
    intro α op calls herror
    exact retry_of_error op herror h
  halve := by
    intro plan getLogs s lo hi rest hpending hlt herror
    rw [fetchStep]
    simp only [hpending, withRetry]
    rw [retry_of_error (fun n => getLogs n lo hi) herror h]
    exact if_pos ⟨hlt, hcap⟩

/-- An exceeded cap is split after one attempt exactly where the two classifiers are worded apart. -/
theorem splitAtOnce_iff (e : String) :
    (isRangeCapError e = true → SplitAtOnce e) ↔ WordedApart e := by
  constructor
  · intro h
    have hlasting : isRangeCapError e = true → isTransient e = false := by
      intro hcap
      exact not_transient_of_splitAtOnce (h hcap)
    refine ⟨?_, ?_⟩
    · rw [Bool.eq_false_iff]
      intro htimeout
      have hcap : isRangeCapError e = true := by
        rw [isRangeCapError_eq, htimeout, Bool.or_true]
      rw [isTransient_of_queryTimeout htimeout] at hlasting
      cases hlasting hcap
    · intro hmarker
      rw [← isTransient_eq]
      apply hlasting
      rw [isRangeCapError_eq, hmarker, Bool.true_or]
  · intro h hcap
    obtain ⟨htimeout, hmarkers⟩ := h
    rw [isRangeCapError_eq, htimeout, Bool.or_false] at hcap
    apply splitAtOnce_of_not_transient
    · rw [isRangeCapError_eq, hcap, Bool.true_or]
    · rw [isTransient_eq, hmarkers hcap]

/-- A provider's own wording of an exceeded cap speaks of a limit, and is retried. -/
theorem response_size_limit_retried :
    ¬∀ e : String, isRangeCapError e = true → SplitAtOnce e := by
  intro h
  have hcap : isRangeCapError "Log response size exceeded the limit" = true := by decide +kernel
  have hlasting := not_transient_of_splitAtOnce (h _ hcap)
  have htransient : isTransient "Log response size exceeded the limit" = true := by decide +kernel
  rw [htransient] at hlasting
  cases hlasting

end Topic0.RpcLogSource
