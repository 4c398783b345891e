import SyncJobs.Proofs.Dispenser
import SyncJobs.Proofs.Legibility
import SyncJobs.Proofs.Upkeep

/-!
# Callers that claim the due jobs at the same time

Several callers claim the due jobs of one store. Each looks at them once and then claims its
candidates one by one (`Caller.step`; alone it does what `JobStore.claimDue` does,
`Caller.steps_alone`), while the others go on in any order (`Rush.play`). So what a caller has seen
may have been claimed by somebody else when it comes to it.

At any moment the callers share the jobs that were due (`rivals_share_the_due_jobs`). Nobody has a
job that somebody has already, all other jobs are as they were, and a caller that is through with
its candidates has left no due job behind: what it did not get, somebody else has. The invariant
(`Rush.Fair`) says so of the candidates that a caller has come to so far (`Caller.Seen`).

A caller whose look fails gets nothing. So a job that cannot be read keeps all callers from the jobs
that are due with it (`a_deep_job_keeps_callers_away`).
-/

namespace SyncJobs

/-! ## Calls that take turns -/

/-- **Where a call to claim the due jobs stands.** -/
inductive CallStage where
  /-- the due jobs have not been looked at -/
  | waiting
  /-- the candidates that are still to be claimed, and the jobs that were claimed -/
  | claiming (left : List JobId) (claimed : List Job)
  /-- the call is over -/
  | ended (answer : Except StoreError (List Job))

/-- **A call to claim the due jobs.** -/
structure Caller where
  now : Instant
  limit : Nat
  stage : CallStage := .waiting

namespace Caller

/-- The jobs that were claimed so far. -/
def claimed (c : Caller) : List Job :=
  match c.stage with
  | .waiting => []
  | .claiming _ js => js
  | .ended (.ok js) => js
  | .ended (.error _) => []

/-- How many steps a call has left at most. -/
def stepsLeft (c : Caller) : Nat :=
  match c.stage with
  | .waiting => c.limit + 2
  | .claiming left _ => left.length + 1
  | .ended _ => 0

section Steps

variable {σ : Type} [JobStore σ]

/-- **The next step of a call:** it looks at the due jobs, claims one of them, or ends. -/
def step (c : Caller) (s : σ) : Caller × σ :=
  match c.stage with
  | .waiting => match JobStore.dueJobs c.now c.limit none s with
    | (.ok js, s) => ({ c with stage := .claiming (js.map Job.id) [] }, s)
    | (.error e, s) => ({ c with stage := .ended (.error e) }, s)
  | .claiming [] js => ({ c with stage := .ended (.ok js) }, s)
  | .claiming (i :: left) js => match JobStore.claim i c.now s with
    | (.ok found, s) => ({ c with stage := .claiming left (js ++ found.toList) }, s)
    | (.error e, s) => ({ c with stage := .ended (.error e) }, s)
  | .ended _ => (c, s)

theorem step_of_claim {now : Instant} {limit : Nat} {s s' : σ} {i : JobId} {found : Option Job}
    (h : JobStore.claim i now s = (.ok found, s')) (left : List JobId) (js : List Job) :
    step ⟨now, limit, .claiming (i :: left) js⟩ s =
      (⟨now, limit, .claiming left (js ++ found.toList)⟩, s') := by
  simp only [step, h]

/-- Several steps of a call that is alone with the store. -/
def steps : Nat → Caller → σ → Caller × σ
  | 0, c, s => (c, s)
  | n + 1, c, s => steps n (c.step s).1 (c.step s).2

variable {now : Instant} {limit : Nat} {s : σ}

/-- A call that is over stays so. -/
theorem steps_ended (n : Nat) (answer : Except StoreError (List Job)) :
    steps n ⟨now, limit, .ended answer⟩ s = (⟨now, limit, .ended answer⟩, s) := by
  induction n with
  | zero => rfl
  | succ n ih => exact ih

/-- Alone, a call claims its candidates one after the other. -/
theorem steps_claiming (left : List JobId) (js : List Job) :
    steps (left.length + 1) ⟨now, limit, .claiming left js⟩ s =
      (⟨now, limit, .ended ((JobStore.claimEach now left s).1.map (js ++ ·))⟩,
        (JobStore.claimEach now left s).2) := by
  induction left generalizing js s with
  | nil =>
    have hnone : JobStore.claimEach now [] s = (.ok [], s) := rfl
    rw [hnone]
    simp only [List.length_nil, steps, step, Except.map, List.append_nil]
  | cons i left ih =>
    rw [JobStore.claimEach_cons, List.length_cons, steps, step]
    cases hclaim : JobStore.claim i now s with
    | mk answer s' =>
      cases answer with
      | error e =>
        simp only [hclaim]
        exact steps_ended _ _
      | ok found =>
        simp only [hclaim, ih]
        cases (JobStore.claimEach now left s').1 with
        | error e => rfl
        | ok more => simp only [Except.map, List.append_assoc]

/-- **Alone, a call does what it is meant to do.** -/
theorem steps_alone (now : Instant) (limit : Nat) (s : σ) :
    ∃ n, steps n ⟨now, limit, .waiting⟩ s =
      (⟨now, limit, .ended (JobStore.claimDue now limit s).1⟩,
        (JobStore.claimDue now limit s).2) := by
  rw [JobStore.claimDue_eq]
  cases hlook : JobStore.dueJobs now limit none s with
  | mk answer s' =>
    cases answer with
    | error e => exact ⟨1, by simp only [steps, step, hlook]⟩
    | ok js =>
      refine ⟨(js.map Job.id).length + 1 + 1, ?_⟩
      rw [steps, step]
      simp only [hlook, steps_claiming]
      cases (JobStore.claimEach now (js.map Job.id) s').1 <;> rfl

end Steps

end Caller

/-- **Callers and the store that they share.** -/
structure Rush (σ : Type) where
  store : σ
  callers : List Caller

namespace Rush

variable {σ : Type} [JobStore σ]

/-- Calls that are about to begin, each at its time and with its limit. -/
def start (s : σ) (asks : List (Instant × Nat)) : Rush σ :=
  ⟨s, asks.map fun ask => ⟨ask.1, ask.2, .waiting⟩⟩

/-- The next step of the caller with a number. -/
def turn (i : Nat) (r : Rush σ) : Rush σ :=
  match r.callers[i]? with
  | some c => ⟨(c.step r.store).2, r.callers.set i (c.step r.store).1⟩
  | none => r

theorem turn_of_getElem? {r : Rush σ} {i : Nat} {c : Caller} (h : r.callers[i]? = some c) :
    r.turn i = ⟨(c.step r.store).2, r.callers.set i (c.step r.store).1⟩ := by
  rw [turn, h]

/-- **The steps of callers in an order,** given by the number of the caller whose turn it is. -/
def play (schedule : List Nat) (r : Rush σ) : Rush σ := schedule.foldl (fun r i => r.turn i) r

/-- All jobs that were claimed so far. -/
def claimed (r : Rush σ) : List Job := r.callers.flatMap Caller.claimed

end Rush

/-! ## What a caller knows -/

section Knowledge

variable {σ : Type} [Dispenser σ] {s : σ} {taken taken' : JobId → Prop} {now : Instant}
  {limit : Nat} {c : Caller}

/-- **What a caller has seen:** jobs that were due at the start, in line and within the limit. If
the list is not full, all others that were due are taken. -/
structure Seen (s : σ) (taken : JobId → Prop) (now : Instant) (limit : Nat) (js : List Job) :
    Prop where
  shown : ∀ j ∈ js, JobStore.peek s j.id = .ok (some j) ∧ j.isDue now
  distinct : (js.map Job.id).Nodup
  sorted : js.Pairwise fun k j => k.precedes j
  within : js.length ≤ limit
  others : js.length < limit → ∀ j, JobStore.peek s j.id = .ok (some j) → j.isDue now →
    j ∉ js → taken j.id

/-- **Where a caller stands that has come to some of its candidates:** each of them is taken, by
itself or by somebody else. -/
structure Tried (s : σ) (taken : JobId → Prop) (now : Instant) (limit : Nat) (left : List JobId)
    (claimed tried rest : List Job) : Prop where
  seen : Seen s taken now limit (tried ++ rest)
  left_eq : rest.map Job.id = left
  taken : ∀ j ∈ tried, taken j.id
  claimed : claimed.Sublist (tried.map (Job.start (Dispenser.round σ now)))

/-- What is known of a caller. -/
def Caller.Stands (s : σ) (taken : JobId → Prop) (c : Caller) : Prop :=
  match c.stage with
  | .waiting => True
  | .claiming left js => ∃ tried rest, Tried s taken c.now c.limit left js tried rest
  | .ended (.ok js) => ∃ tried, Tried s taken c.now c.limit [] js tried []
  | .ended (.error _) => True

theorem Seen.mono (h : ∀ i, taken i → taken' i) {js : List Job}
    (hc : Seen s taken now limit js) : Seen s taken' now limit js :=
  { hc with others := fun hshort j hj hdue hout => h _ (hc.others hshort j hj hdue hout) }

theorem Tried.mono (h : ∀ i, taken i → taken' i) {left : List JobId} {js tried rest : List Job}
    (hc : Tried s taken now limit left js tried rest) :
    Tried s taken' now limit left js tried rest :=
  ⟨hc.seen.mono h, hc.left_eq, fun j hj => h _ (hc.taken j hj), hc.claimed⟩

/-- A caller that has looked has not come to any candidate. -/
theorem Seen.tried {js : List Job} (h : Seen s taken now limit js) :
    Tried s taken now limit (js.map Job.id) [] [] js :=
  ⟨h, rfl, fun _ hj => absurd hj List.not_mem_nil, .slnil⟩

/-- A caller comes to its next candidate, which is taken then. -/
theorem Tried.next {left : List JobId} {js js' : List Job} {tried rest : List Job} {j : Job}
    (hc : Tried s taken now limit left js tried (j :: rest)) (htaken : taken j.id)
    (hclaimed : js' = js ∨ js' = js ++ [j.start (Dispenser.round σ now)]) :
    Tried s taken now limit (rest.map Job.id) js' (tried ++ [j]) rest := by
  refine ⟨?_, rfl, fun k hk => ?_, ?_⟩
  · rw [List.append_assoc]
    exact hc.seen
  · rcases List.mem_append.mp hk with hk | hk
    · exact hc.taken k hk
    · exact List.mem_singleton.mp hk ▸ htaken
  · rw [List.map_append]
    rcases hclaimed with rfl | rfl
    · exact hc.claimed.trans (List.sublist_append_left _ _)
    · exact hc.claimed.append (List.Sublist.refl _)

namespace Caller

/-- What is known stays known while more jobs are taken. -/
theorem Stands.mono (h : ∀ i, taken i → taken' i) (hc : c.Stands s taken) : c.Stands s taken' := by
  obtain ⟨now, limit, stage⟩ := c
  rcases stage with _ | ⟨left, js⟩ | ⟨e | js⟩
  · trivial
  · obtain ⟨tried, rest, hc⟩ := hc
    exact ⟨tried, rest, hc.mono h⟩
  · trivial
  · obtain ⟨tried, hc⟩ := hc
    exact ⟨tried, hc.mono h⟩

/-- What a caller has claimed are candidates of it, as they were started. -/
theorem Stands.claimed (hc : c.Stands s taken) : ∃ js, Seen s taken c.now c.limit js ∧
    c.claimed.Sublist (js.map (Job.start (Dispenser.round σ c.now))) ∨ c.claimed = [] := by
  obtain ⟨now, limit, stage⟩ := c
  rcases stage with _ | ⟨left, js⟩ | ⟨e | js⟩
  · exact ⟨[], .inr rfl⟩
  · obtain ⟨tried, rest, hc⟩ := hc
    refine ⟨tried ++ rest, .inl ⟨hc.seen, hc.claimed.trans ?_⟩⟩
    rw [List.map_append]
    exact List.sublist_append_left _ _
  · exact ⟨[], .inr rfl⟩
  · obtain ⟨tried, hc⟩ := hc
    refine ⟨tried ++ [], .inl ⟨hc.seen, ?_⟩⟩
    rw [List.append_nil]
    exact hc.claimed

end Caller

end Knowledge

/-! ## What is known of all callers -/

namespace Rush

/-- Somebody has claimed the job. -/
def Taken {σ : Type} (r : Rush σ) (i : JobId) : Prop := ∃ k ∈ r.claimed, k.id = i

section Perm

variable {σ : Type} {r : Rush σ} {i : Nat} {c : Caller}

/-- What all callers have after one of them has moved on. -/
theorem claimed_set (hc : r.callers[i]? = some c) {c' : Caller} {new : List Job}
    (hclaimed : c'.claimed = c.claimed ++ new) (store : σ) :
    (Rush.mk store (r.callers.set i c')).claimed.Perm (new ++ r.claimed) := by
  refine (flatMap_set_perm hc Caller.claimed).trans ?_
  rw [hclaimed]
  refine (List.perm_append_comm.append_right _).trans ?_
  rw [List.append_assoc]
  exact (flatMap_perm_of_getElem? hc Caller.claimed).symm.append_left new

theorem taken_of_perm {r' : Rush σ} {new : List Job} (h : r'.claimed.Perm (new ++ r.claimed))
    (k : JobId) : r'.Taken k ↔ (∃ j ∈ new, j.id = k) ∨ r.Taken k := by
  constructor
  · rintro ⟨j, hj, rfl⟩
    exact (List.mem_append.mp (h.mem_iff.mp hj)).imp (⟨j, ·, rfl⟩) (⟨j, ·, rfl⟩)
  · rintro (⟨j, hj, rfl⟩ | ⟨j, hj, rfl⟩)
    · exact ⟨j, h.mem_iff.mpr (List.mem_append_left _ hj), rfl⟩
    · exact ⟨j, h.mem_iff.mpr (List.mem_append_right _ hj), rfl⟩

end Perm

variable {σ : Type} [Dispenser σ] {s : σ} {r : Rush σ} {i : Nat} {c : Caller}

/-- **The callers share fairly:** nobody has a job that somebody has already, what they have runs,
and everything else is as it was. -/
structure Fair (s : σ) (r : Rush σ) : Prop where
  orderly : Dispenser.IsOrderly r.store
  stands : ∀ c ∈ r.callers, c.Stands s r.Taken
  distinct : (r.claimed.map Job.id).Nodup
  held : ∀ k ∈ r.claimed, JobStore.peek r.store k.id = .ok (some k) ∧ k.status = .running
  kept : ∀ i, ¬ r.Taken i → JobStore.peek r.store i = JobStore.peek s i

theorem fair_start (hs : Dispenser.IsOrderly s) (asks : List (Instant × Nat)) :
    Fair s (start s asks) := by
  have hnone : (start s asks).claimed = [] := by
    refine List.flatMap_eq_nil_iff.mpr fun c hc => ?_
    obtain ⟨ask, -, rfl⟩ := List.mem_map.mp hc
    rfl
  refine ⟨hs, fun c hc => ?_, by rw [hnone]; exact List.nodup_nil, by rw [hnone]; rintro k ⟨⟩,
    fun i _ => rfl⟩
  obtain ⟨ask, -, rfl⟩ := List.mem_map.mp hc
  trivial

/-- A job that waits is not taken, so it is shown as it was at the start. -/
theorem Fair.shown_of_due (h : Fair s r) {j : Job} {now : Instant}
    (hj : JobStore.peek r.store j.id = .ok (some j)) (hdue : j.isDue now) :
    ¬ r.Taken j.id ∧ JobStore.peek s j.id = .ok (some j) := by
  have hfree : ¬ r.Taken j.id := by
    rintro ⟨k, hk, hkj⟩
    obtain ⟨hshown, running⟩ := h.held k hk
    rw [hkj, hj] at hshown
    obtain rfl := Option.some.inj (Except.ok.inj hshown)
    simp [Job.isDue, running] at hdue
  exact ⟨hfree, (h.kept j.id hfree).symm.trans hj⟩

/-- What was seen by a caller that looks at the due jobs. -/
theorem Fair.seen (h : Fair s r) {now : Instant} {limit : Nat} {js : List Job}
    (hlook : (JobStore.dueJobs now limit none r.store).1 = .ok js) :
    Seen s r.Taken now limit js := by
  have hline := Dispenser.line_dueJobs h.orderly hlook
  refine ⟨fun j hj => ?_, hline.distinct, hline.sorted, Dispenser.length_dueJobs hlook,
    fun hshort j hj hdue hout => ?_⟩
  · obtain ⟨hshown, hdue⟩ := hline.stored j hj
    exact ⟨(h.shown_of_due hshown hdue).2, hdue⟩
  · by_contra hfree
    have hshown := (h.kept j.id hfree).trans hj
    rcases Dispenser.left_out h.orderly hlook hshown hdue hout with hfull | ⟨_, hnone, -⟩
    · omega
    · cases hnone

/-- **A caller that moves without claiming anything** leaves all as it was. -/
theorem Fair.idle (h : Fair s r) (hc : r.callers[i]? = some c) {c' : Caller}
    (hclaimed : c'.claimed = c.claimed) (hstands : c'.Stands s r.Taken) :
    Fair s ⟨r.store, r.callers.set i c'⟩ := by
  have hperm : (Rush.mk r.store (r.callers.set i c')).claimed.Perm r.claimed :=
    claimed_set hc (by rw [hclaimed, List.append_nil]) r.store
  have hnone : (Rush.mk r.store (r.callers.set i c')).claimed.Perm ([] ++ r.claimed) := hperm
  have htaken : ∀ k, r.Taken k → Taken ⟨r.store, r.callers.set i c'⟩ k := fun k hk =>
    (taken_of_perm hnone k).mpr (.inr hk)
  refine ⟨h.orderly, fun d hd => ?_, (hperm.map _).nodup_iff.mpr h.distinct,
    fun k hk => h.held k (hperm.mem_iff.mp hk), fun k hk => h.kept k fun hk' => hk (htaken k hk')⟩
  rcases List.mem_or_eq_of_mem_set hd with hd | rfl
  · exact (h.stands d hd).mono htaken
  · exact hstands.mono htaken

/-- **A caller that claims a job** that is still there gets it for itself. -/
theorem Fair.claim (h : Fair s r) (hc : r.callers[i]? = some c) {j : Job} (hfree : ¬ r.Taken j.id)
    (hj : JobStore.peek s j.id = .ok (some j)) (hdue : j.isDue c.now) {c' : Caller}
    (hclaimed : c'.claimed = c.claimed ++ [j.start (Dispenser.round σ c.now)])
    (hstands : c'.Stands s fun k => k = j.id ∨ r.Taken k) :
    Fair s ⟨(JobStore.claim j.id c.now r.store).2, r.callers.set i c'⟩ := by
  have hshown : JobStore.peek r.store j.id = .ok (some j) := (h.kept j.id hfree).trans hj
  obtain ⟨-, hstarted, horderly⟩ := Dispenser.claim_due h.orderly hshown hdue
  have hperm := claimed_set hc hclaimed (JobStore.claim j.id c.now r.store).2
  have htaken := taken_of_perm hperm
  have htaken' : ∀ k, k = j.id ∨ r.Taken k →
      Taken ⟨(JobStore.claim j.id c.now r.store).2, r.callers.set i c'⟩ k := by
    rintro k (rfl | hk)
    · exact (htaken _).mpr (.inl ⟨_, List.mem_singleton_self _, rfl⟩)
    · exact (htaken k).mpr (.inr hk)
  refine ⟨horderly, fun d hd => ?_, ?_, fun k hk => ?_, fun k hk => ?_⟩
  · rcases List.mem_or_eq_of_mem_set hd with hd | rfl
    · exact (h.stands d hd).mono fun k hk => htaken' k (.inr hk)
    · exact hstands.mono htaken'
  · refine (hperm.map Job.id).nodup_iff.mpr (List.nodup_cons.mpr ⟨fun hmem => ?_, h.distinct⟩)
    obtain ⟨k, hk, hkj⟩ := List.mem_map.mp hmem
    exact hfree ⟨k, hk, hkj⟩
  · rcases List.mem_cons.mp (hperm.mem_iff.mp hk) with rfl | hk
    · exact ⟨hstarted, rfl⟩
    · have hne : j.id ≠ k.id := fun hjk => hfree ⟨k, hk, hjk.symm⟩
      exact ⟨(Dispenser.claim_others c.now hne).trans (h.held k hk).1, (h.held k hk).2⟩
  · have hne : j.id ≠ k := fun hjk => hk (htaken' k (.inl hjk.symm))
    exact (Dispenser.claim_others c.now hne).trans (h.kept k fun hk' => hk (htaken' k (.inr hk')))

/-- **What comes of a candidate** that its caller comes to: somebody else was faster, or the job is
handed out. -/
theorem Fair.candidate (h : Fair s r) {now : Instant} {limit : Nat} {left : List JobId}
    {js tried rest : List Job} {j : Job}
    (hc : Tried s r.Taken now limit left js tried (j :: rest)) :
    r.Taken j.id ∧ JobStore.claim j.id now r.store = (.ok none, r.store) ∨
      ¬ r.Taken j.id ∧ JobStore.claim j.id now r.store =
        (.ok (some (j.start (Dispenser.round σ now))), (JobStore.claim j.id now r.store).2) := by
  obtain ⟨hj, hdue⟩ := hc.seen.shown j (by simp)
  by_cases htaken : r.Taken j.id
  · obtain ⟨k, hk, hkj⟩ := id htaken
    obtain ⟨hshown, running⟩ := h.held k hk
    have hnotdue : ¬ k.isDue now := by simp [Job.isDue, running]
    exact .inl ⟨htaken, Dispenser.claim_not_due (hkj ▸ hshown) hnotdue⟩
  · have hshown := (h.kept j.id htaken).trans hj
    exact .inr ⟨htaken, Prod.ext (Dispenser.claim_due h.orderly hshown hdue).1 rfl⟩

/-- **Every turn keeps the sharing fair.** -/
theorem Fair.turn (h : Fair s r) (i : Nat) : Fair s (r.turn i) := by
  cases hc : r.callers[i]? with
  | none =>
    rw [Rush.turn, hc]
    exact h
  | some c =>
    rw [turn_of_getElem? hc]
    have hstands := h.stands c (List.mem_of_getElem? hc)
    obtain ⟨now, limit, stage⟩ := c
    rcases stage with _ | ⟨_ | ⟨i, left⟩, js⟩ | answer
    · have hsame := Dispenser.dueJobs_same now limit none r.store
      cases hlook : JobStore.dueJobs now limit none r.store with
      | mk answer store =>
        rw [hlook] at hsame
        subst hsame
        cases answer with
        | error e =>
          simp only [Caller.step, hlook]
          exact h.idle hc rfl trivial
        | ok js =>
          simp only [Caller.step, hlook]
          have hseen := h.seen (congrArg Prod.fst hlook)
          exact h.idle hc rfl ⟨[], js, hseen.tried⟩
    -- all candidates were tried
    · obtain ⟨tried, rest, hc'⟩ := hstands
      obtain rfl := List.map_eq_nil_iff.mp hc'.left_eq
      exact h.idle hc rfl ⟨tried, hc'⟩
    · obtain ⟨tried, rest, hc'⟩ := hstands
      obtain ⟨j, rest, rfl, rfl, rfl⟩ := List.map_eq_cons_iff.mp hc'.left_eq
      obtain ⟨htaken, hclaim⟩ | ⟨hfree, hclaim⟩ := h.candidate hc'
      · rw [Caller.step_of_claim hclaim]
        exact h.idle hc (List.append_nil js)
          ⟨tried ++ [j], rest, hc'.next htaken (.inl (List.append_nil js))⟩
      · obtain ⟨hj, hdue⟩ := hc'.seen.shown j (by simp)
        rw [Caller.step_of_claim hclaim]
        exact h.claim hc hfree hj hdue rfl
          ⟨tried ++ [j], rest, (hc'.mono fun _ => .inr).next (.inl rfl) (.inr rfl)⟩
    · exact h.idle hc rfl hstands

theorem Fair.play (h : Fair s r) (schedule : List Nat) : Fair s (r.play schedule) := by
  induction schedule generalizing r with
  | nil => exact h
  | cons i schedule ih => exact ih (h.turn i)

end Rush

/-! ## Calls end -/

namespace Caller

variable {σ : Type} [Dispenser σ]

/-- A step changes neither the time of a call nor its limit, and there is one step less to make. -/
theorem stepsLeft_step (c : Caller) (s : σ) :
    (c.step s).1.now = c.now ∧ (c.step s).1.limit = c.limit ∧
      (c.step s).1.stepsLeft ≤ c.stepsLeft - 1 := by
  obtain ⟨now, limit, stage⟩ := c
  rcases stage with _ | ⟨_ | ⟨i, left⟩, js⟩ | answer
  · cases hlook : JobStore.dueJobs now limit none s with
    | mk answer s' =>
      cases answer with
      | error e =>
        simp only [step, hlook]
        exact ⟨trivial, trivial, Nat.zero_le _⟩
      | ok js =>
        have hlength := Dispenser.length_dueJobs (congrArg Prod.fst hlook)
        simp only [step, hlook, stepsLeft, List.length_map]
        exact ⟨trivial, trivial, by omega⟩
  · exact ⟨rfl, rfl, Nat.zero_le _⟩
  · cases hclaim : JobStore.claim i now s with
    | mk answer s' =>
      cases answer with
      | error e =>
        simp only [step, hclaim]
        exact ⟨trivial, trivial, Nat.zero_le _⟩
      | ok found =>
        simp only [step, hclaim]
        exact ⟨trivial, trivial, Nat.le_refl _⟩
  · exact ⟨rfl, rfl, Nat.le_refl _⟩

theorem exists_ended {c : Caller} (h : c.stepsLeft = 0) : ∃ answer, c.stage = .ended answer := by
  obtain ⟨now, limit, stage⟩ := c
  rcases stage with _ | ⟨left, js⟩ | answer
  · cases h
  · cases h
  · exact ⟨answer, rfl⟩

end Caller

namespace Rush

variable {σ : Type} [Dispenser σ] {s : σ} {r : Rush σ}

/-- What becomes of the caller with a number by one turn. -/
theorem getElem?_turn {k : Nat} {c : Caller} (h : r.callers[k]? = some c) (i : Nat) :
    (r.turn i).callers[k]? = some (if i = k then (c.step r.store).1 else c) := by
  by_cases hik : i = k
  · subst hik
    rw [turn_of_getElem? h, if_pos rfl, List.getElem?_set_self (List.getElem?_eq_some_iff.mp h).1]
  · rw [turn]
    cases r.callers[i]? with
    | none => rw [if_neg hik, h]
    | some d => rw [if_neg hik, List.getElem?_set_ne hik, h]

/-- **Every turn of a caller brings it nearer to its end.** -/
theorem getElem?_play {k : Nat} {c : Caller} (h : r.callers[k]? = some c) (schedule : List Nat) :
    ∃ c', (r.play schedule).callers[k]? = some c' ∧ c'.now = c.now ∧ c'.limit = c.limit ∧
      c'.stepsLeft ≤ c.stepsLeft - schedule.count k := by
  induction schedule generalizing r c with
  | nil => exact ⟨c, h, rfl, rfl, Nat.le_refl _⟩
  | cons i schedule ih =>
    obtain ⟨c', hc', hnow, hlimit, hsteps⟩ := ih (getElem?_turn h i)
    obtain ⟨hnow', hlimit', hsteps'⟩ := c.stepsLeft_step r.store
    rw [List.count_cons]
    by_cases hik : i = k
    · rw [if_pos hik] at hnow hlimit hsteps
      rw [if_pos (beq_iff_eq.mpr hik)]
      exact ⟨c', hc', hnow.trans hnow', hlimit.trans hlimit', by omega⟩
    · rw [if_neg hik] at hnow hlimit hsteps
      rw [if_neg (fun h => hik (beq_iff_eq.mp h))]
      exact ⟨c', hc', hnow, hlimit, hsteps⟩

/-- Nobody has failed. -/
def NoFailure (r : Rush σ) : Prop :=
  Dispenser.IsLegible r.store ∧ ∀ c ∈ r.callers, ∀ e, c.stage ≠ .ended (.error e)

/-- **Nobody fails** if every job can be read. -/
theorem NoFailure.turn (hnone : r.NoFailure) (h : Fair s r) (i : Nat) : (r.turn i).NoFailure := by
  obtain ⟨hlegible, hnone⟩ := hnone
  cases hc : r.callers[i]? with
  | none =>
    rw [Rush.turn, hc]
    exact ⟨hlegible, hnone⟩
  | some c =>
    rw [turn_of_getElem? hc]
    have hstands := h.stands c (List.mem_of_getElem? hc)
    have hmember := hnone c (List.mem_of_getElem? hc)
    have hset : ∀ c' : Caller, (∀ e, c'.stage ≠ .ended (.error e)) →
        ∀ d ∈ r.callers.set i c', ∀ e, d.stage ≠ .ended (.error e) := by
      intro c' hc' d hd
      rcases List.mem_or_eq_of_mem_set hd with hd | rfl
      · exact hnone d hd
      · exact hc'
    obtain ⟨now, limit, stage⟩ := c
    rcases stage with _ | ⟨_ | ⟨k, left⟩, js⟩ | answer
    · obtain ⟨js, hjs⟩ := Dispenser.dueJobs_ok now limit none hlegible
      have hlook : JobStore.dueJobs now limit none r.store = (.ok js, r.store) :=
        Prod.ext hjs (Dispenser.dueJobs_same now limit none r.store)
      simp only [Caller.step, hlook]
      exact ⟨hlegible, hset _ nofun⟩
    · exact ⟨hlegible, hset _ nofun⟩
    · obtain ⟨tried, rest, hc'⟩ := hstands
      obtain ⟨j, rest, rfl, rfl, rfl⟩ := List.map_eq_cons_iff.mp hc'.left_eq
      obtain ⟨-, hclaim⟩ | ⟨-, hclaim⟩ := h.candidate hc'
      · rw [Caller.step_of_claim hclaim]
        exact ⟨hlegible, hset _ nofun⟩
      · rw [Caller.step_of_claim hclaim]
        exact ⟨Dispenser.claim_legible j.id now hlegible, hset _ nofun⟩
    · exact ⟨hlegible, hset _ hmember⟩

theorem NoFailure.play (hnone : r.NoFailure) (h : Fair s r) (schedule : List Nat) :
    (r.play schedule).NoFailure := by
  induction schedule generalizing r with
  | nil => exact hnone
  | cons i schedule ih => exact ih (hnone.turn h i) (h.turn i)

/-! ## The jobs are shared -/

/-- A job that somebody has claimed is with one caller only. -/
theorem Fair.existsUnique (h : Fair s r) {j : JobId} (htaken : r.Taken j) :
    ∃! i : Nat, ∃ c, r.callers[i]? = some c ∧ j ∈ c.claimed.map Job.id := by
  obtain ⟨k, hk, rfl⟩ := htaken
  obtain ⟨c, hc, hkc⟩ := List.mem_flatMap.mp hk
  obtain ⟨i, hi⟩ := List.getElem?_of_mem hc
  refine ⟨i, ⟨c, hi, List.mem_map_of_mem hkc⟩, ?_⟩
  rintro i' ⟨c', hi', hkc'⟩
  have hdistinct := h.distinct
  rw [claimed, List.map_flatMap, List.nodup_flatMap] at hdistinct
  by_contra hne
  obtain ⟨hlt, rfl⟩ := List.getElem?_eq_some_iff.mp hi
  obtain ⟨hlt', rfl⟩ := List.getElem?_eq_some_iff.mp hi'
  have hpairwise := List.pairwise_iff_getElem.mp hdistinct.2
  rcases Nat.lt_or_gt_of_ne hne with hii | hii
  · exact hpairwise i' i hlt' hlt hii hkc' (List.mem_map_of_mem hkc)
  · exact hpairwise i i' hlt hlt' hii (List.mem_map_of_mem hkc) hkc'

/-- **A caller that is through** with its candidates has left no due job behind, if its limit is not
below the number of jobs that waited at the start. -/
theorem Fair.taken_of_ended (h : Fair s r) (hs : Dispenser.IsOrderly s) :
    ∃ n, (JobStore.counts s).1 = .ok n ∧ ∀ c ∈ r.callers, n.pending ≤ c.limit →
      ∀ js, c.stage = .ended (.ok js) → ∀ j, JobStore.peek s j.id = .ok (some j) →
        j.isDue c.now → r.Taken j.id := by
  obtain ⟨n, hn, hpending⟩ := Dispenser.counts_pending hs
  refine ⟨n, hn, fun c hc hlimit js hended j hj hdue => ?_⟩
  have hstands := h.stands c hc
  rw [Caller.Stands, hended] at hstands
  obtain ⟨tried, htried⟩ := hstands
  have hseen := htried.seen
  rw [List.append_nil] at hseen
  by_cases hmem : j ∈ tried
  · exact htried.taken j hmem
  -- with the job, there are more jobs that wait than candidates
  have hids : ((j :: tried).map Job.id).Nodup := by
    refine List.nodup_cons.mpr ⟨fun hid => hmem ?_, hseen.distinct⟩
    obtain ⟨k, hk, hkj⟩ := List.mem_map.mp hid
    have hshown := (hseen.shown k hk).1
    rw [hkj, hj] at hshown
    exact Option.some.inj (Except.ok.inj hshown) ▸ hk
  have hwait : ∀ k ∈ j :: tried, JobStore.peek s k.id = .ok (some k) ∧ k.status = .pending := by
    intro k hk
    have hk' : JobStore.peek s k.id = .ok (some k) ∧ k.isDue c.now := by
      rcases List.mem_cons.mp hk with rfl | hk
      · exact ⟨hj, hdue⟩
      · exact hseen.shown k hk
    refine ⟨hk'.1, ?_⟩
    have hdue' := hk'.2
    rw [Job.isDue, Bool.and_eq_true, decide_eq_true_eq] at hdue'
    exact hdue'.1
  have hlength := hpending (j :: tried) hids hwait
  rw [List.length_cons] at hlength
  exact hseen.others (by omega) j hj hdue hmem

/-- **Callers share the due jobs** of a store that was in a state `s` when they began. -/
structure Shares (s : σ) (r : Rush σ) : Prop where
  /-- no job is with two callers, or twice with one -/
  distinct : (r.claimed.map Job.id).Nodup
  /-- nobody has more jobs than it asked for, and they are in dispatch order -/
  within : ∀ c ∈ r.callers, c.claimed.length ≤ c.limit
  sorted : ∀ c ∈ r.callers, c.claimed.Pairwise fun j k => j.precedes k
  /-- each of them runs, is stored so, and was due when its caller asked -/
  started : ∀ c ∈ r.callers, ∀ k ∈ c.claimed, k.status = .running ∧
    JobStore.peek r.store k.id = .ok (some k) ∧ ∃ j, JobStore.peek s k.id = .ok (some j) ∧
      j.isDue c.now ∧ k = j.start (Dispenser.round σ c.now)
  /-- all other jobs are as they were -/
  others : ∀ i, i ∉ r.claimed.map Job.id → JobStore.peek r.store i = JobStore.peek s i
  /-- a caller that is through, with a limit not below the number of jobs that waited, has left no
  due job behind: each is with one of the callers -/
  complete : ∃ n, (JobStore.counts s).1 = .ok n ∧ ∀ c ∈ r.callers, n.pending ≤ c.limit →
    ∀ js, c.stage = .ended (.ok js) → ∀ j, JobStore.peek s j.id = .ok (some j) → j.isDue c.now →
      ∃! i : Nat, ∃ c', r.callers[i]? = some c' ∧ j.id ∈ c'.claimed.map Job.id

theorem Fair.shares (h : Fair s r) (hs : Dispenser.IsOrderly s) : Shares s r where
  distinct := h.distinct
  within c hc := by
    obtain ⟨js, ⟨hseen, hsub⟩ | hnone⟩ := (h.stands c hc).claimed
    · have hlength := hsub.length_le
      rw [List.length_map] at hlength
      exact hlength.trans hseen.within
    · rw [hnone]
      exact Nat.zero_le _
  sorted c hc := by
    obtain ⟨js, ⟨hseen, hsub⟩ | hnone⟩ := (h.stands c hc).claimed
    · exact (List.pairwise_map.mpr hseen.sorted).sublist hsub
    · rw [hnone]
      exact .nil
  started c hc k hk := by
    obtain ⟨hheld, running⟩ := h.held k (List.mem_flatMap.mpr ⟨c, hc, hk⟩)
    refine ⟨running, hheld, ?_⟩
    obtain ⟨js, ⟨hseen, hsub⟩ | hnone⟩ := (h.stands c hc).claimed
    · obtain ⟨j, hj, rfl⟩ := List.mem_map.mp (hsub.mem hk)
      obtain ⟨hshown, hdue⟩ := hseen.shown j hj
      exact ⟨j, hshown, hdue, rfl⟩
    · rw [hnone] at hk
      cases hk
  others i hi := h.kept i fun ⟨k, hk, hki⟩ => hi (List.mem_map.mpr ⟨k, hk, hki⟩)
  complete := by
    obtain ⟨n, hn, htaken⟩ := h.taken_of_ended hs
    exact ⟨n, hn, fun c hc hlimit js hended j hj hdue =>
      h.existsUnique (htaken c hc hlimit js hended j hj hdue)⟩

end Rush

/-- **Callers that claim the due jobs at the same time share them** without loss or duplication, in
whatever order their steps are made. Here are calls with their times and limits, and a schedule that
tells whose turn it is. At any moment the callers share the due jobs; a caller that has had its
turns is through; and nobody fails if every job can be read. -/
theorem rivals_share_the_due_jobs {σ : Type} [Dispenser σ] {s : σ} (hs : Dispenser.IsOrderly s)
    (asks : List (Instant × Nat)) (schedule : List Nat) :
    ((Rush.start s asks).play schedule).Shares s ∧
      (∀ i now limit, asks[i]? = some (now, limit) →
        ∃ c, ((Rush.start s asks).play schedule).callers[i]? = some c ∧ c.now = now ∧
          c.limit = limit ∧ (limit + 2 ≤ schedule.count i → ∃ answer, c.stage = .ended answer)) ∧
      (Dispenser.IsLegible s → ∀ c ∈ ((Rush.start s asks).play schedule).callers, ∀ e,
        c.stage ≠ .ended (.error e)) := by
  have hfair := Rush.fair_start hs asks
  refine ⟨(hfair.play schedule).shares hs, fun i now limit hi => ?_, fun hlegible => ?_⟩
  · have hcaller : (Rush.start s asks).callers[i]? = some ⟨now, limit, .waiting⟩ := by
      rw [Rush.start, List.getElem?_map, hi, Option.map_some]
    obtain ⟨c, hc, hnow, hlimit, hsteps⟩ := Rush.getElem?_play hcaller schedule
    have hleft : (⟨now, limit, .waiting⟩ : Caller).stepsLeft = limit + 2 := rfl
    rw [hleft] at hsteps
    exact ⟨c, hc, hnow, hlimit, fun hturns => Caller.exists_ended (by omega)⟩
  · have hnone : (Rush.start s asks).NoFailure := by
      refine ⟨hlegible, fun c hc e he => ?_⟩
      obtain ⟨ask, -, rfl⟩ := List.mem_map.mp hc
      cases he
    exact (hnone.play hfair schedule).2

/-- Two callers share two jobs. -/
theorem two_callers_share_two_jobs :
    ((Rush.start (current .empty (Ledger.pairPast Memory)) [(.epoch, 2), (.epoch, 2)]).play
        [0, 1, 1, 0, 0, 1, 0, 1]).Shares (current .empty (Ledger.pairPast Memory)) ∧
      ((Rush.start (current .empty (Ledger.pairPast Table)) [(.epoch, 2), (.epoch, 2)]).play
        [0, 1, 1, 0, 0, 1, 0, 1]).Shares (current .empty (Ledger.pairPast Table)) := by
  have htable : History Table.empty (Ledger.pairPast Table) :=
    (History.nil.step (.enqueue .plain) ⟨List.not_mem_nil, by decide⟩).step
      (.enqueue { NewJob.plain with id := ⟨2⟩ }) ⟨by decide, by decide⟩
  exact ⟨(rivals_share_the_due_jobs trivial _ _).1,
    (rivals_share_the_due_jobs (Table.isOrderly htable (by decide)) _ _).1⟩

/-! ## Callers that cannot look -/

/-- **A caller that gets nothing:** its look at the due jobs fails, or has failed. -/
def Caller.IsBlind {σ : Type} [JobStore σ] (s : σ) (c : Caller) : Prop :=
  match c.stage with
  | .waiting => ∃ e, (JobStore.dueJobs c.now c.limit none s).1 = .error e
  | .claiming _ _ => False
  | .ended answer => ∃ e, answer = .error e

namespace Rush

variable {σ : Type} [Dispenser σ] {s : σ} {r : Rush σ}

/-- All callers get nothing, and nothing has happened. -/
def Blind (s : σ) (r : Rush σ) : Prop := r.store = s ∧ ∀ c ∈ r.callers, c.IsBlind s

theorem Blind.turn (h : Blind s r) (i : Nat) : Blind s (r.turn i) := by
  obtain ⟨rfl, hblind⟩ := h
  cases hc : r.callers[i]? with
  | none =>
    rw [Rush.turn, hc]
    exact ⟨rfl, hblind⟩
  | some c =>
    rw [turn_of_getElem? hc]
    have hcaller := hblind c (List.mem_of_getElem? hc)
    obtain ⟨now, limit, stage⟩ := c
    have hstep : (Caller.step ⟨now, limit, stage⟩ r.store).2 = r.store ∧
        (Caller.step ⟨now, limit, stage⟩ r.store).1.IsBlind r.store := by
      rcases stage with _ | ⟨left, js⟩ | answer
      · obtain ⟨e, he⟩ := hcaller
        have hlook : JobStore.dueJobs now limit none r.store = (.error e, r.store) :=
          Prod.ext he (Dispenser.dueJobs_same now limit none r.store)
        simp only [Caller.step, hlook]
        exact ⟨trivial, e, rfl⟩
      · cases hcaller
      · exact ⟨rfl, hcaller⟩
    refine ⟨hstep.1, fun d hd => ?_⟩
    rcases List.mem_or_eq_of_mem_set hd with hd | rfl
    · exact hblind d hd
    · exact hstep.2

theorem Blind.play (h : Blind s r) (schedule : List Nat) : Blind s (r.play schedule) := by
  induction schedule generalizing r with
  | nil => exact h
  | cons i schedule ih => exact ih (h.turn i)

/-- **Nobody gets a job** if every look at the due jobs fails. -/
theorem claimed_of_blind {asks : List (Instant × Nat)}
    (h : ∀ ask ∈ asks, ∃ e, (JobStore.dueJobs ask.1 ask.2 none s).1 = .error e)
    (schedule : List Nat) : ((start s asks).play schedule).claimed = [] := by
  have hstart : Blind s (start s asks) := by
    refine ⟨rfl, fun c hc => ?_⟩
    obtain ⟨ask, hask, rfl⟩ := List.mem_map.mp hc
    exact h ask hask
  refine List.flatMap_eq_nil_iff.mpr fun c hc => ?_
  have hblind := (hstart.play schedule).2 c hc
  obtain ⟨now, limit, stage⟩ := c
  rcases stage with _ | ⟨left, js⟩ | answer
  · rfl
  · cases hblind
  · obtain ⟨e, rfl⟩ := hblind
    rfl

end Rush

/-- **A deep job keeps callers away** from a plain job of another account. Both are due, and there is
room for both. But in whatever order two callers make their steps, neither of them gets a job. -/
theorem a_deep_job_keeps_callers_away :
    let t := current Table.empty (replay .empty deepCalls)
    t.IsOrderly ∧ (∃ n, (JobStore.counts t).1 = .ok n ∧ n.pending = 2) ∧
    (∃ j, JobStore.peek t ⟨2⟩ = .ok (some j) ∧ j.isDue .epoch) ∧
    ∀ schedule, ((Rush.start t [(.epoch, 2), (.epoch, 2)]).play schedule).claimed = [] := by
  intro t
  have hhistory : History Table.empty (replay .empty deepCalls) :=
    (History.nil.step (.enqueue (.nested 128)) ⟨List.not_mem_nil, by decide⟩).step
      (.enqueue { NewJob.plain with id := ⟨2⟩, account := ⟨2⟩ }) ⟨by decide, by decide⟩
  have hlook : ∃ e, (JobStore.dueJobs .epoch 2 none t).1 = .error e :=
    dueJobs_deepCalls_fails (Nat.le_refl 2) nofun
  refine ⟨Table.isOrderly hhistory (by decide), ⟨⟨2, 0, 0, 0⟩, by decide +kernel, rfl⟩,
    ⟨NewJob.toPending { NewJob.plain with id := ⟨2⟩, account := ⟨2⟩ }, rfl, by decide⟩,
    Rush.claimed_of_blind fun ask hask => ?_⟩
  obtain rfl | rfl := List.mem_pair.mp hask
  · exact hlook
  · exact hlook

end SyncJobs
