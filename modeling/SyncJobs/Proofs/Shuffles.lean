import Mathlib.Data.List.Pairwise
import Mathlib.Data.List.Perm.Basic
import SyncJobs.Proofs.Apart
import SyncJobs.Proofs.Tracking

/-!
# Completions in any order

Attempts end when they end, so the completions of a batch reach the store in any order, and the
claims and completions of other jobs come in between. If the jobs of the batch are distinct, none of
this can be seen afterwards (`completions_in_any_order`): every call is answered the same, the store
is the same in the end, and so is every summary that was kept meanwhile.

The reason is that calls about different jobs do not notice each other (`Separate`). A list of calls
may be sorted into the calls of some jobs and those of all others, and either part is answered as if
the other was not there (`told_filter`). Within a batch every completion is answered as if it was
the only call (`told_of_pairwise`).
-/

namespace SyncJobs

/-! ## What calls come to -/

section Calls

variable {σ : Type} [JobStore σ]

/-- The store after calls, the latest of which stands first. -/
def afterAll (start : σ) (calls : List StoreCall) : σ := current start (replay start calls)

/-- **The calls with what was answered to them,** the latest first. -/
def told (start : σ) (calls : List StoreCall) :
    List (StoreCall × Except StoreError StoreAnswer) :=
  (replay start calls).map fun e => (e.call, e.answer)

/-- **The summary of what was told:** each completion that was answered with a job is recorded, one
after the other. -/
def recorded (log : List (StoreCall × Except StoreError StoreAnswer)) : Summary :=
  log.foldr (fun x s =>
    match x with
    | (.complete _ d _, .ok (.job j)) => s.record j.domain d
    | _ => s) {}

theorem afterAll_cons (s : σ) (c : StoreCall) (cs : List StoreCall) :
    afterAll s (c :: cs) = (c.run (afterAll s cs)).2 := rfl

theorem told_cons (s : σ) (c : StoreCall) (cs : List StoreCall) :
    told s (c :: cs) = (c, (c.run (afterAll s cs)).1) :: told s cs := rfl

theorem afterAll_eq_foldr (s : σ) (cs : List StoreCall) :
    afterAll s cs = cs.foldr (fun c s => (c.run s).2) s := by
  induction cs with
  | nil => rfl
  | cons c cs ih => rw [afterAll_cons, ih, List.foldr_cons]

theorem afterAll_append (s : σ) (cs ds : List StoreCall) :
    afterAll s (cs ++ ds) = afterAll (afterAll s ds) cs := by
  simp only [afterAll_eq_foldr, List.foldr_append]

/-- What was told may be recorded in any order. -/
theorem recorded_perm {log log' : List (StoreCall × Except StoreError StoreAnswer)}
    (h : log.Perm log') : recorded log = recorded log' := by
  refine h.foldr_eq' (fun x _ y _ s => ?_) ({} : Summary)
  obtain ⟨c, a⟩ := x
  obtain ⟨d, b⟩ := y
  split
  · split
    · exact Summary.record_comm _ _ _ _ _
    · rfl
  · rfl

end Calls

/-! ## Calls about different jobs -/

/-- Two calls are about different jobs. -/
def StoreCall.Apart (c d : StoreCall) : Prop :=
  ∃ i j, c.subject? = some i ∧ d.subject? = some j ∧ i ≠ j

theorem StoreCall.Apart.symm {c d : StoreCall} : c.Apart d → d.Apart c := by
  rintro ⟨i, j, hi, hj, hne⟩
  exact ⟨j, i, hj, hi, hne.symm⟩

instance : Std.Symm StoreCall.Apart := ⟨fun _ _ => .symm⟩

section Sorting

variable {σ : Type} [Separate σ] {s : σ} {c : StoreCall} {cs ds : List StoreCall}

/-- A call is answered as if the calls about other jobs had not been made. -/
theorem answer_afterAll (h : ∀ d ∈ ds, d.Apart c) : (c.run (afterAll s ds)).1 = (c.run s).1 := by
  induction ds with
  | nil => rfl
  | cons d ds ih =>
    obtain ⟨i, j, hi, hj, hne⟩ := h d List.mem_cons_self
    rw [afterAll_cons, Separate.answer_after _ hi hj hne]
    exact ih fun e he => h e (List.mem_cons_of_mem d he)

/-- A call may as well be made after the calls about other jobs. -/
theorem afterAll_append_cons (h : ∀ d ∈ ds, d.Apart c) :
    afterAll s (ds ++ c :: cs) = afterAll s (c :: (ds ++ cs)) := by
  induction ds with
  | nil => rfl
  | cons d ds ih =>
    obtain ⟨i, j, hi, hj, hne⟩ := h d List.mem_cons_self
    rw [List.cons_append, afterAll_cons, ih fun e he => h e (List.mem_cons_of_mem d he)]
    simp only [List.cons_append, afterAll_cons]
    exact (Separate.after_comm _ hi hj hne).symm

variable {p : StoreCall → Bool}

/-- Some jobs are told apart from the others: a call that passes the test is about another job than
one that does not. -/
def Splits (p : StoreCall → Bool) (cs : List StoreCall) : Prop :=
  ∀ c ∈ cs, p c → ∀ d ∈ cs, ¬ p d → c.Apart d

theorem Splits.of_cons (h : Splits p (c :: cs)) : Splits p cs := fun d hd hpd e he =>
  h d (List.mem_cons_of_mem c hd) hpd e (List.mem_cons_of_mem c he)

theorem Splits.others (h : Splits p cs) : Splits (!p ·) cs := fun d hd hpd e he hpe =>
  (h e he (by simpa using hpe) d hd (by simpa using hpd)).symm

/-- **Calls may be sorted** into those about some jobs and, before them, those about the others. -/
theorem afterAll_filter (h : Splits p cs) :
    afterAll s cs = afterAll s (cs.filter p ++ cs.filter (!p ·)) := by
  induction cs with
  | nil => rfl
  | cons c cs ih =>
    have hrest := ih h.of_cons
    by_cases hp : p c
    · rw [List.filter_cons_of_pos hp, List.filter_cons_of_neg (by simpa using hp),
        List.cons_append, afterAll_cons, afterAll_cons, hrest]
    · have hothers : ∀ d ∈ cs.filter p, d.Apart c := fun d hd => by
        obtain ⟨hd, hpd⟩ := List.mem_filter.mp hd
        exact h d (List.mem_cons_of_mem c hd) hpd c List.mem_cons_self hp
      rw [List.filter_cons_of_neg hp, List.filter_cons_of_pos (by simpa using hp),
        afterAll_append_cons hothers, afterAll_cons, afterAll_cons, hrest]

/-- **Calls about some jobs are answered as if there were no others.** -/
theorem told_filter (h : Splits p cs) :
    ((told s cs).filter fun x => p x.1) = told s (cs.filter p) := by
  induction cs with
  | nil => rfl
  | cons c cs ih =>
    have hrest := ih h.of_cons
    by_cases hp : p c
    · have hothers : ∀ d ∈ cs.filter (!p ·), d.Apart c := fun d hd => by
        obtain ⟨hd, hpd⟩ := List.mem_filter.mp hd
        exact (h c List.mem_cons_self hp d (List.mem_cons_of_mem c hd) (by simpa using hpd)).symm
      have hanswer : (c.run (afterAll s cs)).1 = (c.run (afterAll s (cs.filter p))).1 := by
        rw [afterAll_filter h.of_cons.others, afterAll_append, answer_afterAll hothers]
        simp only [Bool.not_not]
      simp only [told_cons, List.filter_cons, hp, if_true, hrest, hanswer]
    · simp only [told_cons, List.filter_cons, hp, Bool.false_eq_true, if_false, hrest]

/-- **Calls about different jobs are answered as if each was the only one.** -/
theorem told_of_pairwise (h : cs.Pairwise StoreCall.Apart) :
    told s cs = cs.map fun c => (c, (c.run s).1) := by
  induction cs with
  | nil => rfl
  | cons c cs ih =>
    obtain ⟨hc, hcs⟩ := List.pairwise_cons.mp h
    rw [told_cons, ih hcs, List.map_cons, answer_afterAll fun d hd => (hc d hd).symm]

/-- Calls about different jobs may be made in any order. -/
theorem afterAll_perm (h : cs.Pairwise StoreCall.Apart) (hperm : cs.Perm ds) :
    afterAll s cs = afterAll s ds := by
  rw [afterAll_eq_foldr, afterAll_eq_foldr]
  refine hperm.foldr_eq' (fun c hc d hd s => ?_) s
  by_cases hsame : c = d
  · rw [hsame]
  · obtain ⟨i, j, hi, hj, hne⟩ := h.forall hc hd hsame
    exact Separate.after_comm s hi hj hne

end Sorting

/-! ## The completions of a batch -/

/-- **The end of an attempt:** the job as it was claimed, the decision on the attempt, and the time
at which it finished. -/
structure Finish where
  job : Job
  decision : Decision
  finished : Instant

/-- The completion that is called for. -/
def Finish.call (f : Finish) : StoreCall := .complete f.job.receipt f.decision f.finished

/-- Whether a call is about one of some jobs. -/
def StoreCall.isAbout (ids : List JobId) (c : StoreCall) : Bool := c.subject?.any (· ∈ ids)

/-- The ids of the jobs of a batch. -/
def batchIds (batch : List Finish) : List JobId := batch.map (·.job.id)

/-- **A shuffle:** the completions of a batch in some order, and anywhere among them the claims and
completions of other jobs in their own order. -/
structure Shuffle (batch : List Finish) (outside cs : List StoreCall) : Prop where
  /-- of the jobs of the batch, each is completed once, and no other call is about it -/
  inside : (cs.filter (·.isAbout (batchIds batch))).Perm (batch.map Finish.call)
  /-- the other calls come in their order -/
  others : (cs.filter (!·.isAbout (batchIds batch))) = outside
  /-- the other calls are claims and completions -/
  about : ∀ c ∈ outside, c.subject?.isSome

theorem StoreCall.isAbout_iff {ids : List JobId} {c : StoreCall} :
    c.isAbout ids ↔ ∃ i ∈ ids, c.subject? = some i := by
  rw [isAbout, Option.any_eq_true]
  constructor
  · rintro ⟨i, hi, hids⟩
    exact ⟨i, of_decide_eq_true hids, hi⟩
  · rintro ⟨i, hids, hi⟩
    exact ⟨i, hi, decide_eq_true hids⟩

/-- The completions of distinct jobs are about different jobs. -/
theorem pairwise_apart {batch : List Finish} (h : (batchIds batch).Nodup) :
    (batch.map Finish.call).Pairwise StoreCall.Apart := by
  rw [List.pairwise_map]
  refine (List.pairwise_map.mp h).imp fun {f g} hne => ?_
  exact ⟨f.job.id, g.job.id, rfl, rfl, hne⟩

namespace Shuffle

variable {σ : Type} [Separate σ] {batch : List Finish} {outside cs cs' : List StoreCall}

/-- The calls about the jobs of the batch are told apart from the others. -/
theorem splits (h : Shuffle batch outside cs) : Splits (·.isAbout (batchIds batch)) cs := by
  intro c _ hc d hd hdother
  obtain ⟨i, hi, hci⟩ := StoreCall.isAbout_iff.mp hc
  have hout : d ∈ outside := h.others ▸ List.mem_filter.mpr ⟨hd, by simpa using hdother⟩
  obtain ⟨j, hdj⟩ := Option.isSome_iff_exists.mp (h.about d hout)
  refine ⟨i, j, hci, hdj, fun hij => hdother (StoreCall.isAbout_iff.mpr ⟨i, hi, ?_⟩)⟩
  rw [hdj, hij]

theorem pairwise_inside (h : Shuffle batch outside cs) (hdistinct : (batchIds batch).Nodup) :
    (cs.filter (·.isAbout (batchIds batch))).Pairwise StoreCall.Apart :=
  (h.inside.pairwise_iff StoreCall.Apart.symm).mpr (pairwise_apart hdistinct)

/-- **Each completion of a batch is answered as if it was the only call.** -/
theorem told_inside (h : Shuffle batch outside cs) (hdistinct : (batchIds batch).Nodup) (s : σ) :
    ((told s cs).filter fun x => x.1.isAbout (batchIds batch)).Perm
      (batch.map fun f => (f.call, (f.call.run s).1)) := by
  have htold := told_filter (s := s) h.splits
  rw [htold, told_of_pairwise (h.pairwise_inside hdistinct)]
  have hperm := h.inside.map fun c => (c, (c.run s).1)
  rwa [List.map_map] at hperm

/-- **The other calls are answered as if nothing of the batch was completed.** -/
theorem told_others (h : Shuffle batch outside cs) (s : σ) :
    ((told s cs).filter fun x => !x.1.isAbout (batchIds batch)) = told s outside := by
  rw [← h.others]
  exact told_filter h.splits.others

/-- The store in the end is the one after the other calls and then the completions. -/
theorem afterAll_eq (h : Shuffle batch outside cs) (hdistinct : (batchIds batch).Nodup) (s : σ) :
    afterAll s cs = afterAll (afterAll s outside) (batch.map Finish.call) := by
  rw [afterAll_filter h.splits, afterAll_append, h.others]
  exact afterAll_perm (h.pairwise_inside hdistinct) h.inside

end Shuffle

/-- **Two orders of the same calls come to the same.** -/
structure SameOutcome {σ : Type} [JobStore σ] (s : σ) (batch : List Finish)
    (cs cs' : List StoreCall) : Prop where
  /-- each completion of the batch is answered the same, with a job or with an error -/
  inside : ∀ f ∈ batch, ∀ a, (f.call, a) ∈ told s cs ↔ (f.call, a) ∈ told s cs'
  /-- the other calls are answered the same -/
  outside : ((told s cs).filter fun x => !x.1.isAbout (batchIds batch)) =
    (told s cs').filter fun x => !x.1.isAbout (batchIds batch)
  /-- the store is the same in the end -/
  store : afterAll s cs = afterAll s cs'
  /-- whoever records some of the completions has the same summary in the end -/
  summary (mine : StoreCall → Bool) :
    recorded ((told s cs).filter fun x => mine x.1) =
      recorded ((told s cs').filter fun x => mine x.1)

/-- **Completions may come in any order.** Let a batch of attempts at distinct jobs be completed, in
two orders, while other jobs are claimed and completed, in one order but anywhere among the
completions. In any store whose jobs are kept apart, and from any state on, both come to the same. -/
theorem completions_in_any_order {σ : Type} [Separate σ] (s : σ) {batch : List Finish}
    {outside cs cs' : List StoreCall} (hdistinct : (batchIds batch).Nodup)
    (h : Shuffle batch outside cs) (h' : Shuffle batch outside cs') :
    SameOutcome s batch cs cs' := by
  have hinside := (h.told_inside hdistinct s).trans (h'.told_inside hdistinct s).symm
  have houtside := (h.told_others s).trans (h'.told_others s).symm
  have hall : (told s cs).Perm (told s cs') := by
    let about (x : StoreCall × Except StoreError StoreAnswer) := x.1.isAbout (batchIds batch)
    refine (List.filter_append_perm about _).symm.trans ?_
    exact (hinside.append (.of_eq houtside)).trans (List.filter_append_perm about _)
  exact {
    inside := fun _ _ _ => hall.mem_iff
    outside := houtside
    store := (h.afterAll_eq hdistinct s).trans (h'.afterAll_eq hdistinct s).symm
    summary := fun mine => recorded_perm (hall.filter _) }

/-! ## Two attempts that end while a third one begins -/

/-- Three jobs are stored and two of them claimed. -/
def twoUnderway : List StoreCall :=
  [.claim ⟨2⟩ .epoch, .claim ⟨1⟩ .epoch, .enqueue { NewJob.plain with id := ⟨3⟩ },
    .enqueue { NewJob.plain with id := ⟨2⟩ }, .enqueue .plain]

/-- The ends of two attempts, one of them under a receipt that was never handed out. -/
def twoFinishes : List Finish :=
  [⟨NewJob.plain.toPending, .succeed 1, .epoch⟩,
    ⟨{ NewJob.plain.toPending with id := ⟨2⟩, attempts := 1 }, .deadLetter "late", .epoch⟩]

/-- Two attempts end in either order, one of them in vain. -/
theorem two_finishes_in_either_order :
    SameOutcome (afterAll Memory.empty twoUnderway) twoFinishes
      (.claim ⟨3⟩ .epoch :: twoFinishes.map Finish.call)
      ((twoFinishes.map Finish.call).reverse ++ [.claim ⟨3⟩ .epoch]) ∧
    recorded (told (afterAll Memory.empty twoUnderway)
      (.claim ⟨3⟩ .epoch :: twoFinishes.map Finish.call)) = { completed := 1, emailItems := 1 } ∧
    SameOutcome (afterAll Table.empty twoUnderway) twoFinishes
      (.claim ⟨3⟩ .epoch :: twoFinishes.map Finish.call)
      ((twoFinishes.map Finish.call).reverse ++ [.claim ⟨3⟩ .epoch]) ∧
    recorded (told (afterAll Table.empty twoUnderway)
      (.claim ⟨3⟩ .epoch :: twoFinishes.map Finish.call)) = { completed := 1, emailItems := 1 } := by
  have hdistinct : (batchIds twoFinishes).Nodup := by decide
  have hlate : Shuffle twoFinishes [.claim ⟨3⟩ .epoch]
      (.claim ⟨3⟩ .epoch :: twoFinishes.map Finish.call) :=
    ⟨.refl _, rfl, by simp [StoreCall.subject?]⟩
  have hearly : Shuffle twoFinishes [.claim ⟨3⟩ .epoch]
      ((twoFinishes.map Finish.call).reverse ++ [.claim ⟨3⟩ .epoch]) :=
    ⟨.swap _ _ _, rfl, by simp [StoreCall.subject?]⟩
  exact ⟨completions_in_any_order _ hdistinct hlate hearly, by decide +kernel,
    completions_in_any_order _ hdistinct hlate hearly, by decide +kernel⟩

end SyncJobs
