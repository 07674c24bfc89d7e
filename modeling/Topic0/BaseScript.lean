import Mathlib.Tactic

/-! Scripts: statements executed one after another, each in a transaction of its own. A statement
that fails ends the script, and what the earlier ones did stays. A statement is done when executing
it would change nothing; a script of statements that stay done can be run again for free. -/

namespace Script

variable {σ α ε : Type} {exec : σ → α → Except ε σ}

/-- The state a script leaves, and how it ended. -/
def run (exec : σ → α → Except ε σ) : List α → σ → σ × Except ε Unit
  | [], s => (s, .ok ())
  | a :: rest, s =>
      match exec s a with
      | .error e => (s, .error e)
      | .ok s' => run exec rest s'

/-- A script that ends well has executed its first statement and then the rest. -/
theorem exists_of_run_cons {a : α} {rest : List α} {s : σ}
    (h : (run exec (a :: rest) s).2 = .ok ()) :
    ∃ s', exec s a = .ok s' ∧ run exec (a :: rest) s = run exec rest s' := by
  cases hexec : exec s a with
  | error e =>
      rw [run, hexec] at h
      cases h
  | ok s' => exact ⟨s', rfl, by rw [run, hexec]⟩

section Done

variable {Done : α → σ → Prop}

/-- After a script that ended well every statement of it is done. -/
theorem done_of_run (hdone : ∀ a s s', exec s a = .ok s' → Done a s')
    (hkeep : ∀ a b s s', Done a s → exec s b = .ok s' → Done a s') (as : List α) {s : σ}
    (h : (run exec as s).2 = .ok ()) :
    (∀ a ∈ as, Done a (run exec as s).1) ∧ ∀ b, Done b s → Done b (run exec as s).1 := by
  induction as generalizing s with
  | nil => exact ⟨fun a ha => absurd ha List.not_mem_nil, fun b hb => hb⟩
  | cons a rest ih =>
      obtain ⟨s', hexec, hrun⟩ := exists_of_run_cons h
      rw [hrun] at h ⊢
      obtain ⟨hrest, hstays⟩ := ih h
      refine ⟨fun b hb => ?_, fun b hb => hstays b (hkeep b a s s' hb hexec)⟩
      rcases List.mem_cons.mp hb with rfl | hb
      · exact hstays b (hdone b s s' hexec)
      · exact hrest b hb

/-- Statements that are done change nothing, however the script ends. -/
theorem run_of_done (hnoop : ∀ a s s', Done a s → exec s a = .ok s' → s' = s) (as : List α) {s : σ}
    (h : ∀ a ∈ as, Done a s) : (run exec as s).1 = s := by
  induction as with
  | nil => rfl
  | cons a rest ih =>
      unfold run
      cases hexec : exec s a with
      | error e => rfl
      | ok s' =>
          have hsame : s' = s := hnoop a s s' (h a List.mem_cons_self) hexec
          rw [hsame]
          exact ih fun b hb => h b (List.mem_cons_of_mem _ hb)

/-- Running a script again changes nothing. -/
theorem run_again (hdone : ∀ a s s', exec s a = .ok s' → Done a s')
    (hkeep : ∀ a b s s', Done a s → exec s b = .ok s' → Done a s')
    (hnoop : ∀ a s s', Done a s → exec s a = .ok s' → s' = s) (as : List α) {s : σ}
    (h : (run exec as s).2 = .ok ()) : (run exec as (run exec as s).1).1 = (run exec as s).1 := by
  apply run_of_done hnoop
  exact (done_of_run hdone hkeep as h).1

end Done

theorem run_append (as bs : List α) {s t : σ} (h : run exec as s = (t, .ok ())) :
    run exec (as ++ bs) s = run exec bs t := by
  induction as generalizing s with
  | nil =>
      cases h
      rfl
  | cons a rest ih =>
      obtain ⟨s', hexec, hrun⟩ := exists_of_run_cons (congrArg Prod.snd h)
      rw [hrun] at h
      rw [List.cons_append, run, hexec]
      exact ih h

theorem run_append_of_error {as : List α} (bs : List α) {s : σ} {e : ε}
    (h : (run exec as s).2 = .error e) : run exec (as ++ bs) s = run exec as s := by
  induction as generalizing s with
  | nil => cases h
  | cons a rest ih =>
      rw [List.cons_append, run, run]
      rw [run] at h
      cases hexec : exec s a with
      | error e => rfl
      | ok s' =>
          rw [hexec] at h
          exact ih h

section Resume

variable {exec' : σ → α → Except ε σ} {Done : α → σ → Prop}
  (hsame : ∀ a s s', exec' s a = .ok s' → exec s a = .ok s')

include hsame

/-- An execution that refuses more gets through a first part of the script. -/
theorem exists_progress (as : List α) (s : σ) :
    ∃ before after, as = before ++ after ∧ run exec before s = ((run exec' as s).1, .ok ()) ∧
      ((run exec' as s).2 = .ok () → after = []) := by
  induction as generalizing s with
  | nil => exact ⟨[], [], rfl, rfl, fun _ => rfl⟩
  | cons a rest ih =>
      rw [run]
      cases hexec : exec' s a with
      | error e => exact ⟨[], a :: rest, rfl, rfl, nofun⟩
      | ok s' =>
          obtain ⟨before, after, rfl, hrun, hend⟩ := ih s'
          refine ⟨a :: before, after, rfl, ?_, hend⟩
          rw [run, hsame a s s' hexec]
          exact hrun

variable (hdone : ∀ a s s', exec s a = .ok s' → Done a s')
  (hkeep : ∀ a b s s', Done a s → exec s b = .ok s' → Done a s')
  (hnoop : ∀ a s s', Done a s → exec s a = .ok s' → s' = s)

include hdone hkeep hnoop

/-- Started over from where an earlier attempt stopped, a script goes on from there. -/
theorem exists_progress_again {before : List α} (after : List α) {s t : σ}
    (hbefore : run exec before s = (t, .ok ())) :
    ∃ before' after', before ++ after = before' ++ after' ∧
      run exec before' s = ((run exec' (before ++ after) t).1, .ok ()) ∧
      ((run exec' (before ++ after) t).2 = .ok () → after' = []) := by
  have hall : ∀ a ∈ before, Done a t := by
    have hended : (run exec before s).2 = .ok () := congrArg Prod.snd hbefore
    have hdones := (done_of_run hdone hkeep before hended).1
    rwa [hbefore] at hdones
  have hrefused : ∀ a s s', Done a s → exec' s a = .ok s' → s' = s := by
    intro a s s' ha hexec
    exact hnoop a s s' ha (hsame a s s' hexec)
  have hstay : (run exec' before t).1 = t := run_of_done hrefused before hall
  cases hend : (run exec' before t).2 with
  | error e =>
      have hstopped : run exec' (before ++ after) t = (t, .error e) := by
        rw [run_append_of_error after hend]
        exact Prod.ext hstay hend
      rw [hstopped]
      exact ⟨before, after, rfl, hbefore, nofun⟩
  | ok _ =>
      obtain ⟨more, rest, hafter, hmore, hrest⟩ := exists_progress hsame after t
      have hgoes : run exec' (before ++ after) t = run exec' after t :=
        run_append before after (Prod.ext hstay hend)
      rw [hgoes]
      refine ⟨before ++ more, rest, ?_, ?_, hrest⟩
      · rw [hafter, List.append_assoc]
      · rw [run_append before more hbefore, hmore]

end Resume

section Attempts

variable {ι : Type} {execs : ι → σ → α → Except ε σ} {Done : α → σ → Prop}

/-- What a number of attempts at a script, each as far as it got, leave behind. -/
def attempts (execs : ι → σ → α → Except ε σ) (as : List α) (tries : List ι) (s : σ) : σ :=
  tries.foldl (fun s i => (run (execs i) as s).1) s

variable (hsame : ∀ i a s s', execs i s a = .ok s' → exec s a = .ok s')
  (hdone : ∀ a s s', exec s a = .ok s' → Done a s')
  (hkeep : ∀ a b s s', Done a s → exec s b = .ok s' → Done a s')
  (hnoop : ∀ a s s', Done a s → exec s a = .ok s' → s' = s)

include hsame hdone hkeep hnoop

theorem exists_progress_of_attempts (as : List α) (tries : List ι) (s : σ) :
    ∃ before after, as = before ++ after ∧
      run exec before s = (attempts execs as tries s, .ok ()) := by
  induction tries using List.reverseRecOn with
  | nil => exact ⟨[], as, rfl, rfl⟩
  | append_singleton tries i ih =>
      obtain ⟨before, after, has, hbefore⟩ := ih
      obtain ⟨before', after', has', hbefore', -⟩ :=
        exists_progress_again (hsame i) hdone hkeep hnoop after hbefore
      refine ⟨before', after', has.trans has', ?_⟩
      have hlast : attempts execs as (tries ++ [i]) s =
          (run (execs i) as (attempts execs as tries s)).1 := List.foldl_concat ..
      rw [hbefore', hlast, has]

/-- A script that ends well at last has done what an uninterrupted one does. -/
theorem run_of_attempts (as : List α) (tries : List ι) (last : ι) {s : σ}
    (h : (run (execs last) as (attempts execs as tries s)).2 = .ok ()) :
    run exec as s = ((run (execs last) as (attempts execs as tries s)).1, .ok ()) := by
  obtain ⟨before, after, has, hbefore⟩ :=
    exists_progress_of_attempts hsame hdone hkeep hnoop as tries s
  obtain ⟨before', after', has', hbefore', hend⟩ :=
    exists_progress_again (hsame last) hdone hkeep hnoop after hbefore
  rw [← has] at has' hbefore' hend
  rw [hend h, List.append_nil] at has'
  rw [has']
  rwa [has'] at hbefore'

end Attempts

end Script
