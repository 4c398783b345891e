import SyncJobs.Proofs.Advance
import SyncJobs.Proofs.Permits
import SyncJobs.Proofs.Turns

/-!
# Limits hold for the attempts in flight

Runs that share a store and a pool make their steps in any order; claims are lost or fail, jobs are
taken back while they are worked on, and completions come too late. At every moment each attempt in
flight is worked on under a permit of its own, for the account and the domain of the job that was
claimed (`Orderly`). So the limits of the pool are limits of what is executed (`LimitsHold`).

A permit is taken for a job that was listed, and kept for the job that is claimed later. Both are
known from the time when the job was stored (`Known`), which is why they agree.
-/

namespace SyncJobs

/-! ## Permits on loan -/

namespace Loan

variable {l : Limits} {pool : Pool} {out out' : List Permit}

/-- A pool whose permits are all there counts exactly. -/
theorem exact_of_unused (hl : pool.limits = l) (h : pool.usage = {}) : Exact l ⟨pool, []⟩ := by
  refine exact_of hl ?_ ?_
  · rw [h]
    exact Usage.counts_empty
  · rw [h]
    exact ⟨Nat.zero_le _, fun _ => Nat.zero_le _, fun _ => Nat.zero_le _, fun _ => Nat.zero_le _⟩

/-- The order of the permits that are out does not matter. -/
theorem Exact.perm (h : Exact l ⟨pool, out⟩) (hp : out.Perm out') : Exact l ⟨pool, out'⟩ :=
  exact_of h.limits (h.counts.perm hp) h.within

/-- One of the permits comes back. -/
theorem Exact.release (h : Exact l ⟨pool, out⟩) {p : Permit} (hp : out.Perm (p :: out')) :
    Exact l ⟨pool.release p, out'⟩ := by
  have hcounts : pool.usage.Counts (p :: out') := h.counts.perm hp
  exact exact_of h.limits hcounts.release (hcounts.within_release h.within)

/-- Several of the permits come back. -/
theorem Exact.releaseAll {ps : List Permit} (h : Exact l ⟨pool, out⟩)
    (hp : out.Perm (ps ++ out')) : Exact l ⟨pool.releaseAll ps, out'⟩ := by
  induction ps generalizing pool out with
  | nil => exact h.perm hp
  | cons p ps ih => exact ih (h.release hp) (.refl _)

end Loan

/-! ## Runs -/

namespace Run

/-- The jobs that the run is about to claim, as far as it knows them. -/
def candidates (r : Run) : List Job :=
  match r.phase with
  | .looked _ js => js
  | .claiming _ granted _ => granted.map Prod.fst
  | _ => []

/-- The jobs that were granted a permit and are still to be claimed. -/
def granted (r : Run) : List (Job × Permit) :=
  match r.phase with
  | .claiming _ granted _ => granted
  | _ => []

/-- A run holds permits for jobs to be claimed, for attempts, and for settled attempts. -/
theorem permits_eq (r : Run) :
    r.permits = r.granted.map Prod.snd ++ r.batch.map Attempt.permit ++ r.leaving := by
  rw [permits, granted]
  cases r.phase <;> rfl

variable {r : Run} {now : Instant} {gs : List (Job × Permit)} {started : Nat}

theorem granted_of_claiming (h : r.phase = .claiming now gs started) : r.granted = gs := by
  rw [granted, h]

theorem candidates_of_claiming (h : r.phase = .claiming now gs started) :
    r.candidates = gs.map Prod.fst := by
  rw [candidates, h]

end Run

/-- Receipts tell the attempts of a batch apart. -/
theorem batch_perm {batch : List Attempt} (h : (batch.map fun a => a.job.receipt).Nodup)
    {a : Attempt} (ha : a ∈ batch) :
    batch.Perm (a :: batch.filter fun b => b.job.receipt ≠ a.job.receipt) := by
  have hnodup : (a :: batch.filter fun b => b.job.receipt ≠ a.job.receipt).Nodup := by
    refine List.nodup_cons.mpr ⟨fun hmem => ?_, (List.Nodup.of_map _ h).filter _⟩
    exact of_decide_eq_true (List.mem_filter.mp hmem).2 rfl
  refine (List.perm_ext_iff_of_nodup (List.Nodup.of_map _ h) hnodup).mpr fun b => ?_
  rw [List.mem_cons, List.mem_filter, decide_eq_true_eq]
  constructor
  · intro hb
    by_cases hreceipt : b.job.receipt = a.job.receipt
    · exact .inl (List.inj_on_of_nodup_map h hb ha hreceipt)
    · exact .inr ⟨hb, hreceipt⟩
  · rintro (rfl | ⟨hb, -⟩)
    · exact ha
    · exact hb

/-- **The attempts in flight.** -/
def System.inFlight {σ : Type} (s : System σ) : List Attempt := s.runs.flatMap Run.batch

/-- Each attempt of a run holds a permit of the run. -/
theorem batch_sublist_permits (runs : List Run) :
    ((runs.flatMap Run.batch).map Attempt.permit).Sublist (runs.flatMap Run.permits) := by
  induction runs with
  | nil => exact .slnil
  | cons r runs ih =>
    rw [List.flatMap_cons, List.flatMap_cons, List.map_append]
    refine List.Sublist.append ?_ ih
    rw [Run.permits_eq]
    exact (List.sublist_append_right _ _).trans (List.sublist_append_left _ _)

/-! ## Orderly runs -/

/-- **Every attempt in flight has a permit of its own,** and nobody has completed it. `others` are
permits that are not held by these runs. -/
structure Orderly {σ τ : Type} [Shelf σ] (view : τ → Journaled σ) (l : Limits)
    (others : List Permit) (q : Queue τ) (runs : List Run) : Prop where
  faithful : (view q.store).Faithful Ledger.start
  loan : Loan.Exact l ⟨q.pool, runs.flatMap Run.permits ++ others⟩
  /-- what a run is about to claim was stored at some time -/
  candidates : ∀ r ∈ runs, ∀ j ∈ r.candidates, Known (view q.store).journal j
  /-- a permit is granted for the job that it stands by -/
  granted : ∀ r ∈ runs, ∀ g ∈ r.granted, g.2 = Pool.permitFor g.1
  /-- the permit of an attempt is for the job that was handed out for it -/
  batch : ∀ r ∈ runs, ∀ a ∈ r.batch,
    a.job ∈ handedOut (view q.store).journal ∧ a.permit = Pool.permitFor a.job
  distinct : ((runs.flatMap Run.batch).map fun a => a.job.receipt).Nodup
  open_ : ∀ r ∈ runs, ∀ a ∈ r.batch, ∀ e ∈ (view q.store).journal, ¬ e.Completes a.job.receipt

namespace Orderly

variable {σ τ : Type} [Shelf σ] {view : τ → Journaled σ} {l : Limits} {others : List Permit}
  {q : Queue τ} {r r' : Run} {runs rest : List Run}

/-- The order of the runs does not matter. -/
theorem perm {runs' : List Run} (h : Orderly view l others q runs) (hp : runs.Perm runs') :
    Orderly view l others q runs' where
  faithful := h.faithful
  loan := h.loan.perm ((hp.flatMap_right _).append_right _)
  candidates r hr := h.candidates r (hp.symm.subset hr)
  granted r hr := h.granted r (hp.symm.subset hr)
  batch r hr := h.batch r (hp.symm.subset hr)
  distinct := (((hp.flatMap_right _).map _).nodup_iff).mp h.distinct
  open_ r hr := h.open_ r (hp.symm.subset hr)

/-- **The store may go on,** as long as no attempt in flight is completed. -/
theorem advance (h : Orderly view l others q runs) {s : τ} {rs : List Receipt}
    (hs : Advance rs (view q.store) (view s))
    (hrs : ∀ r ∈ runs, ∀ a ∈ r.batch, a.job.receipt ∉ rs) :
    Orderly view l others { q with store := s } runs where
  faithful := hs.faithful h.faithful
  loan := h.loan
  candidates r hr j hj := hs.known (h.candidates r hr j hj)
  granted := h.granted
  batch r hr a ha := ⟨hs.handedOut (h.batch r hr a ha).1, (h.batch r hr a ha).2⟩
  distinct := h.distinct
  open_ r hr a ha := hs.not_completes (hrs r hr a ha) (h.open_ r hr a ha)

/-- **A run may move on** with no more attempts than before, if its permits stay accounted for. -/
theorem move (h : Orderly view l others q (r :: rest)) {pool : Pool}
    (hloan : Loan.Exact l ⟨pool, (r' :: rest).flatMap Run.permits ++ others⟩)
    (hcandidates : ∀ j ∈ r'.candidates, Known (view q.store).journal j)
    (hgranted : ∀ g ∈ r'.granted, g.2 = Pool.permitFor g.1)
    (hbatch : r'.batch.Sublist r.batch) :
    Orderly view l others { q with pool } (r' :: rest) where
  faithful := h.faithful
  loan := hloan
  candidates := List.forall_mem_cons.mpr ⟨hcandidates, (List.forall_mem_cons.mp h.candidates).2⟩
  granted := List.forall_mem_cons.mpr ⟨hgranted, (List.forall_mem_cons.mp h.granted).2⟩
  batch := by
    obtain ⟨hr, hrest⟩ := List.forall_mem_cons.mp h.batch
    exact List.forall_mem_cons.mpr ⟨fun a ha => hr a (hbatch.subset ha), hrest⟩
  distinct := by
    refine h.distinct.sublist (List.Sublist.map _ ?_)
    rw [List.flatMap_cons, List.flatMap_cons]
    exact hbatch.append_right _
  open_ := by
    obtain ⟨hr, hrest⟩ := List.forall_mem_cons.mp h.open_
    exact List.forall_mem_cons.mpr ⟨fun a ha => hr a (hbatch.subset ha), hrest⟩

/-- A run that holds no permits for jobs to be claimed may come to another such phase. -/
theorem pass (h : Orderly view l others q (r :: rest)) (hr : r.granted = []) (hr' : r'.granted = [])
    (hbatch : r'.batch = r.batch) (hleaving : r'.leaving = r.leaving)
    (hcandidates : ∀ j ∈ r'.candidates, Known (view q.store).journal j) :
    Orderly view l others q (r' :: rest) := by
  have hpermits : r'.permits = r.permits := by
    rw [Run.permits_eq, Run.permits_eq, hr, hr', hbatch, hleaving]
  refine h.move ?_ hcandidates ?_ ?_
  · rw [List.flatMap_cons, hpermits]
    exact h.loan
  · rw [hr']
    exact fun _ hg => absurd hg List.not_mem_nil
  · rw [hbatch]

/-- The permits that a run gives back leave the others accounted for. -/
theorem loan_giveBack (h : Orderly view l others q (r :: rest)) {ps : List Permit}
    (hp : r.permits.Perm (ps ++ r'.permits)) :
    Loan.Exact l ⟨q.pool.releaseAll ps, (r' :: rest).flatMap Run.permits ++ others⟩ := by
  refine h.loan.releaseAll ?_
  rw [List.flatMap_cons, List.flatMap_cons, ← List.append_assoc, ← List.append_assoc]
  exact (hp.append_right _).append_right _

theorem allocate (h : Orderly view l others q (r :: rest)) (now : Instant) (candidates : List Job)
    (hphase : r.phase = .looked now candidates) :
    Orderly view l others (r.allocate now candidates q).2
      ((r.allocate now candidates q).1 :: rest) := by
  have hcandidates : ∀ j ∈ candidates, Known (view q.store).journal j := by
    have hall := h.candidates r List.mem_cons_self
    rwa [Run.candidates, hphase] at hall
  have hgranted : r.granted = [] := by rw [Run.granted, hphase]
  refine h.move ?_ (fun j hj => ?_) (fun g hg => (Pool.mem_allocate hg).2) (.refl _)
  · refine (h.loan.grant (q.pool.fairness.arrange candidates)).perm ?_
    rw [List.flatMap_cons, List.flatMap_cons, Run.permits_eq r, Run.permits_eq, hgranted]
    refine List.perm_append_comm.trans ?_
    simp only [List.map_nil, List.nil_append, List.append_assoc]
    exact .refl _
  · obtain ⟨g, hg, rfl⟩ := List.mem_map.mp hj
    exact hcandidates _ (Pool.mem_allocate hg).1

theorem giveUp (h : Orderly view l others q (r :: rest)) (now : Instant)
    (granted : List (Job × Permit)) (started : Nat)
    (hphase : r.phase = .claiming now granted started) :
    Orderly view l others (r.giveUp now granted started q).2
      ((r.giveUp now granted started q).1 :: rest) := by
  have hgranted := Run.granted_of_claiming hphase
  refine h.move (h.loan_giveBack ?_) (fun _ hj => absurd hj List.not_mem_nil)
    (fun _ hg => absurd hg List.not_mem_nil) (.refl _)
  rw [Run.permits_eq r, Run.permits_eq, hgranted, List.append_assoc]
  exact .refl _

theorem launch (h : Orderly view l others q (r :: rest)) (now : Instant) (started : Nat)
    (hphase : r.phase = .claiming now [] started) :
    Orderly view l others q (r.launch started :: rest) := by
  have hgranted := Run.granted_of_claiming hphase
  rw [Run.launch]
  split
  · exact h.pass hgranted rfl rfl rfl fun _ hj => absurd hj List.not_mem_nil
  · exact h.pass hgranted rfl rfl rfl fun _ hj => absurd hj List.not_mem_nil

theorem join (h : Orderly view l others q (r :: rest)) (hphase : r.phase = .waiting) :
    Orderly view l others q ({ r with phase := .idle } :: rest) := by
  have hgranted : r.granted = [] := by rw [Run.granted, hphase]
  exact h.pass hgranted rfl rfl rfl fun _ hj => absurd hj List.not_mem_nil

theorem release (h : Orderly view l others q (r :: rest)) {permit : Permit} {leaving : List Permit}
    (hleaving : r.leaving = permit :: leaving) :
    Orderly view l others { q with pool := q.pool.release permit }
      ({ r with leaving } :: rest) := by
  have hloan : Loan.Exact l ⟨q.pool.releaseAll [permit],
      (({ r with leaving } : Run) :: rest).flatMap Run.permits ++ others⟩ := by
    refine h.loan_giveBack ?_
    rw [Run.permits_eq, Run.permits_eq, hleaving]
    exact List.perm_middle
  refine h.move hloan ?_ ?_ (.refl _)
  · exact h.candidates r List.mem_cons_self
  · exact h.granted r List.mem_cons_self

/-- **An attempt may begin** under a permit that was granted for its job. -/
theorem begins (h : Orderly view l others q (r :: rest)) {now : Instant} {j k : Job}
    {permit : Permit} {granted : List (Job × Permit)} {started : Nat}
    (hphase : r.phase = .claiming now ((j, permit) :: granted) started)
    {s : τ} (hs : Advance [] (view q.store) (view s))
    (hk : Begins (view q.store).journal (view s).journal k) (hid : k.id = j.id) :
    Orderly view l others { q with store := s }
      ({ r with
          phase := .claiming now granted (started + 1)
          batch := r.batch ++ [⟨k, permit⟩] } :: rest) := by
  have hon := h.advance hs fun _ _ _ _ => List.not_mem_nil
  have hgranted := Run.granted_of_claiming hphase
  have hcandidates := Run.candidates_of_claiming hphase
  -- the listed job and the claimed job have one account and one domain
  have hpermit : permit = Pool.permitFor k := by
    have hlisted := hon.candidates r List.mem_cons_self
    rw [hcandidates] at hlisted
    obtain ⟨-, -, -, hclaimed⟩ := hon.faithful.history.origins
    obtain ⟨haccount, hdomain⟩ := hon.faithful.history.known_unique (hclaimed k hk.handed)
      (hlisted j List.mem_cons_self) hid
    have hj := h.granted r List.mem_cons_self (j, permit) (hgranted ▸ List.mem_cons_self)
    rw [Pool.permitFor, haccount, hdomain]
    exact hj
  have hbatch : ∀ a ∈ r.batch ++ [⟨k, permit⟩], a ∈ r.batch ∨ a = ⟨k, permit⟩ := fun a ha =>
    (List.mem_append.mp ha).imp_right List.mem_singleton.mp
  refine ⟨hon.faithful, ?_, ?_, ?_, ?_, ?_, ?_⟩
  · refine h.loan.perm ?_
    rw [List.flatMap_cons, List.flatMap_cons]
    refine List.Perm.append_right _ (List.Perm.append_right _ ?_)
    rw [Run.permits_eq r, Run.permits_eq, hgranted, Run.granted, List.map_append, List.map_cons]
    refine List.Perm.append_right _ ?_
    rw [List.cons_append, ← List.append_assoc]
    exact (List.perm_append_singleton _ _).symm
  · refine List.forall_mem_cons.mpr ⟨fun i hi => ?_, (List.forall_mem_cons.mp hon.candidates).2⟩
    exact hon.candidates r List.mem_cons_self i (hcandidates ▸ List.mem_cons_of_mem _ hi)
  · refine List.forall_mem_cons.mpr ⟨fun g hg => ?_, (List.forall_mem_cons.mp hon.granted).2⟩
    exact hon.granted r List.mem_cons_self g (hgranted ▸ List.mem_cons_of_mem _ hg)
  · refine List.forall_mem_cons.mpr ⟨fun a ha => ?_, (List.forall_mem_cons.mp hon.batch).2⟩
    rcases hbatch a ha with ha | rfl
    · exact hon.batch r List.mem_cons_self a ha
    · exact ⟨hk.handed, hpermit⟩
  · have hperm : ((r.batch ++ [(⟨k, permit⟩ : Attempt)]) ++ rest.flatMap Run.batch).Perm
        (⟨k, permit⟩ :: (r.batch ++ rest.flatMap Run.batch)) := by
      rw [List.append_assoc]
      exact List.perm_middle
    refine ((hperm.map fun a => a.job.receipt).nodup_iff).mpr ?_
    have hold : (((r :: rest).flatMap Run.batch).map fun a => a.job.receipt).Nodup := h.distinct
    refine List.nodup_cons.mpr ⟨fun hmem => ?_, hold⟩
    obtain ⟨a, ha, hreceipt⟩ := List.mem_map.mp hmem
    rw [← List.flatMap_cons] at ha
    obtain ⟨r₁, hr₁, ha⟩ := List.mem_flatMap.mp ha
    have hreceipt : a.job.receipt = k.receipt := hreceipt
    exact hk.fresh (hreceipt ▸ List.mem_map_of_mem (h.batch r₁ hr₁ a ha).1)
  · refine List.forall_mem_cons.mpr ⟨fun a ha => ?_, (List.forall_mem_cons.mp hon.open_).2⟩
    rcases hbatch a ha with ha | rfl
    · exact hon.open_ r List.mem_cons_self a ha
    · exact hk.open_

/-- An attempt may leave the batch, whatever has become of it: the run still holds its permit. -/
theorem retire (h : Orderly view l others q (r :: rest)) {a : Attempt} (ha : a ∈ r.batch) :
    Orderly view l others q (r.retire a :: rest) := by
  have hdistinct := h.distinct
  rw [List.flatMap_cons, List.map_append, List.nodup_append] at hdistinct
  have hbatch := (batch_perm hdistinct.1 ha).map Attempt.permit
  have hpermits : r.permits.Perm (r.retire a).permits := by
    rw [Run.permits_eq, Run.permits_eq, List.append_assoc, List.append_assoc]
    refine List.Perm.append_left _ ((hbatch.append_right _).trans ?_)
    rw [List.map_cons, List.cons_append, Run.retire, ← List.append_assoc]
    exact (List.perm_append_singleton _ _).symm
  refine h.move (h.loan.perm ?_) (h.candidates r List.mem_cons_self)
    (h.granted r List.mem_cons_self) List.filter_sublist
  rw [List.flatMap_cons, List.flatMap_cons]
  exact (hpermits.append_right _).append_right _

variable [JobStore τ] (hv : Records view) (rules : RunRules)

include hv

theorem look (h : Orderly view l others q (r :: rest)) (time : Nat) (now : Instant)
    (hphase : r.phase = .idle) :
    Orderly view l others (r.look rules time now q).2 ((r.look rules time now q).1 :: rest) := by
  have hgranted : r.granted = [] := by rw [Run.granted, hphase]
  have hnone : ∀ failure, (r.finish failure).candidates = [] := fun _ => rfl
  have hfinish : ∀ {q' : Queue τ}, Orderly view l others q' (r :: rest) →
      ∀ failure, Orderly view l others q' (r.finish failure :: rest) := fun h' failure =>
    h'.pass hgranted rfl rfl rfl (hnone failure ▸ fun _ hj => absurd hj List.not_mem_nil)
  rw [Run.look]
  split
  · exact hfinish h none
  · obtain ⟨hadvance, hknown⟩ := hv.dueJobs h.faithful now rules.window
      (some q.pool.limits.perAccount)
    have hon := h.advance hadvance fun _ _ _ _ => List.not_mem_nil
    split
    · rename_i heq
      rw [heq] at hon
      exact hfinish hon _
    · rename_i heq
      rw [heq] at hon
      exact hfinish hon none
    · rename_i heq
      rw [heq] at hon hadvance
      refine hon.pass hgranted rfl rfl rfl fun j hj => hadvance.known ?_
      exact hknown _ (congrArg Prod.fst heq) j hj

theorem claim (h : Orderly view l others q (r :: rest)) (now : Instant) (j : Job) (permit : Permit)
    (granted : List (Job × Permit)) (started : Nat)
    (hphase : r.phase = .claiming now ((j, permit) :: granted) started) :
    Orderly view l others (r.claim now j permit granted started q).2
      ((r.claim now j permit granted started q).1 :: rest) := by
  obtain ⟨hadvance, hbegins⟩ := hv.claim h.faithful j.id now
  rw [Run.claim]
  split
  · rename_i k d heq
    obtain ⟨hid, hk⟩ := hbegins k (congrArg Prod.fst heq)
    rw [heq] at hadvance hk
    exact h.begins hphase hadvance hk hid
  -- the claim was lost or failed
  · rename_i d _ heq
    rw [heq] at hadvance
    have hon := h.advance hadvance fun _ _ _ _ => List.not_mem_nil
    have hgranted := Run.granted_of_claiming hphase
    have hcandidates := Run.candidates_of_claiming hphase
    have hloan : Loan.Exact l ⟨q.pool.releaseAll [permit],
        (({ r with phase := .claiming now granted started } : Run) :: rest).flatMap Run.permits ++
          others⟩ := by
      refine hon.loan_giveBack ?_
      rw [Run.permits_eq r, Run.permits_eq, hgranted]
      exact .refl _
    refine hon.move hloan (fun i hi => ?_) (fun g hg => ?_) (.refl _)
    · exact hon.candidates r List.mem_cons_self i (hcandidates ▸ List.mem_cons_of_mem _ hi)
    · exact hon.granted r List.mem_cons_self g (hgranted ▸ List.mem_cons_of_mem _ hg)

theorem settle (h : Orderly view l others q (r :: rest)) {a : Attempt} (ha : a ∈ r.batch)
    (outcome : Outcome) (finished : Instant) (sample : Binary64) :
    Orderly view l others (r.settle rules a outcome finished sample q).2
      ((r.settle rules a outcome finished sample q).1 :: rest) := by
  have hdistinct := h.distinct
  rw [List.flatMap_cons, List.map_append, List.nodup_append] at hdistinct
  have hsettled := h.retire ha
  have hothers : ∀ r₁ ∈ r.retire a :: rest, ∀ b ∈ r₁.batch, b.job.receipt ∉ [a.job.receipt] := by
    intro r₁ hr₁ b hb
    rw [List.mem_singleton]
    rcases List.mem_cons.mp hr₁ with rfl | hr₁
    · exact of_decide_eq_true (List.mem_filter.mp hb).2
    · have hb' : b ∈ rest.flatMap Run.batch := List.mem_flatMap.mpr ⟨r₁, hr₁, hb⟩
      exact (hdistinct.2.2 _ (List.mem_map_of_mem ha) _ (List.mem_map_of_mem hb')).symm
  rw [Run.settle]
  cases hdecision : a.job.decide? rules.backoff outcome finished sample with
  | none => exact hsettled
  | some decision =>
    have hadvance := hv.complete h.faithful (h.batch r List.mem_cons_self a ha).1
      ⟨_, _, _, _, hdecision⟩ finished
    have hon := hsettled.advance hadvance hothers
    simp only
    split
    · rename_i heq
      rw [heq] at hon
      exact hon.move hon.loan (hon.candidates (r.retire a) List.mem_cons_self)
        (hon.granted (r.retire a) List.mem_cons_self) (.refl _)
    · rename_i heq
      rw [heq] at hon
      exact hon

/-- **Every step of a run keeps the runs orderly.** -/
theorem step (h : Orderly view l others q (r :: rest)) (step : Step) :
    Orderly view l others (r.apply rules step q).2 ((r.apply rules step q).1 :: rest) := by
  cases step with
  | look time now =>
    cases hphase : r.phase with
    | idle =>
      simp only [Run.apply, hphase]
      exact h.look hv rules time now hphase
    | looked | claiming | waiting | finished =>
      simp only [Run.apply, hphase]
      exact h
  | allocate =>
    cases hphase : r.phase with
    | looked now candidates =>
      simp only [Run.apply, hphase]
      exact h.allocate now candidates hphase
    | idle | claiming | waiting | finished =>
      simp only [Run.apply, hphase]
      exact h
  | claim time =>
    cases hphase : r.phase with
    | claiming now granted started =>
      cases granted with
      | nil =>
        simp only [Run.apply, hphase]
        exact h
      | cons g granted =>
        simp only [Run.apply, hphase]
        split
        · exact h.giveUp now _ started hphase
        · exact h.claim hv now g.1 g.2 granted started hphase
    | idle | looked | waiting | finished =>
      simp only [Run.apply, hphase]
      exact h
  | launch =>
    cases hphase : r.phase with
    | claiming now granted started =>
      cases granted with
      | nil =>
        simp only [Run.apply, hphase]
        exact h.launch now started hphase
      | cons g granted =>
        simp only [Run.apply, hphase]
        exact h
    | idle | looked | waiting | finished =>
      simp only [Run.apply, hphase]
      exact h
  | settle receipt outcome finished sample =>
    simp only [Run.apply]
    cases hfound : r.batch.find? fun a => a.job.receipt = receipt with
    | none => exact h
    | some a => exact h.settle hv rules (List.mem_of_find?_eq_some hfound) outcome finished sample
  | lose receipt =>
    simp only [Run.apply]
    cases hfound : r.batch.find? fun a => a.job.receipt = receipt with
    | none => exact h
    | some a => exact h.retire (List.mem_of_find?_eq_some hfound)
  | release =>
    simp only [Run.apply]
    cases hleaving : r.leaving with
    | nil => exact h
    | cons permit leaving => exact h.release hleaving
  | join =>
    cases hphase : r.phase with
    | waiting =>
      simp only [Run.apply, hphase]
      split
      · exact h.join hphase
      · exact h
    | idle | looked | claiming | finished =>
      simp only [Run.apply, hphase]
      exact h

/-- **Every event keeps the runs orderly.** -/
theorem apply {s : System τ} (h : Orderly view l others s.queue s.runs)
    (e : Event) : Orderly view l others (s.apply rules e).queue (s.apply rules e).runs := by
  cases e with
  | step i step =>
    rw [System.apply]
    cases hr : s.runs[i]? with
    | none => exact h
    | some r =>
      obtain ⟨hi, rfl⟩ := List.getElem?_eq_some_iff.mp hr
      have hhead := h.perm (List.getElem_cons_eraseIdx_perm hi).symm
      let moved := (s.runs[i].apply rules step s.queue).1
      have hperm : (s.runs.set i moved).Perm (moved :: s.runs.eraseIdx i) := by
        have hi' : i < (s.runs.set i moved).length := by rwa [List.length_set]
        have hset := (List.getElem_cons_eraseIdx_perm hi').symm
        rwa [List.getElem_set_self, List.eraseIdx_set_eq] at hset
      exact (hhead.step hv rules step).perm hperm.symm
  | recover staleBefore now =>
    exact h.advance (hv.recoverStale s.queue.store staleBefore now)
      fun _ _ _ _ => List.not_mem_nil

/-- **Whatever happens, the runs stay orderly.** -/
theorem applyAll {s : System τ} (h : Orderly view l others s.queue s.runs)
    (events : List Event) :
    Orderly view l others (s.applyAll rules events).queue (s.applyAll rules events).runs := by
  induction events generalizing s with
  | nil => exact h
  | cons e events ih => exact ih (h.apply hv rules e)

end Orderly

/-! ## Limits -/

/-- **The limits hold for the attempts in flight** after a history of the store, counted by the
jobs that are executed; and a job is executed twice only if it was taken back in between. -/
structure LimitsHold {σ : Type} [Ledger σ] (l : Limits) (past : List (Exchange σ))
    (attempts : List Attempt) : Prop where
  total : attempts.length ≤ l.total
  perDomain : ∀ d, attempts.countP (fun a => a.job.domain = d) ≤ l.perDomain
  perAccount : ∀ i, attempts.countP (fun a => a.job.account = i) ≤ l.perAccount
  perAccountDomain : ∀ i d, attempts.countP (fun a => a.job.account = i ∧ a.job.domain = d) ≤
    l.perAccountDomain
  again : attempts.Pairwise fun a b => a.job.id = b.job.id →
    a.job.attempts ≠ b.job.attempts ∧
      (RecoveredBetween past a.job b.job ∨ RecoveredBetween past b.job a.job)

section Limits

variable {σ τ : Type} [Shelf σ] {view : τ → Journaled σ} {l : Limits} {others : List Permit}

/-- **Orderly runs keep the limits.** -/
theorem Orderly.limitsHold {s : System τ} (h : Orderly view l others s.queue s.runs) :
    LimitsHold l (view s.queue.store).journal s.inFlight := by
  have hbatch : ∀ a ∈ s.inFlight, a.job ∈ handedOut (view s.queue.store).journal ∧
      a.permit = Pool.permitFor a.job := by
    intro a ha
    obtain ⟨r, hr, ha⟩ := List.mem_flatMap.mp ha
    exact h.batch r hr a ha
  have hopen : ∀ a ∈ s.inFlight, ∀ e ∈ (view s.queue.store).journal,
      ¬ e.Completes a.job.receipt := by
    intro a ha
    obtain ⟨r, hr, ha⟩ := List.mem_flatMap.mp ha
    exact h.open_ r hr a ha
  let out := s.runs.flatMap Run.permits ++ others
  have hheld : (s.inFlight.map Attempt.permit).Sublist out :=
    (batch_sublist_permits s.runs).trans (List.sublist_append_left _ _)
  -- attempts are counted by their permits, and these by the pool
  have hbound : ∀ {κ : Type} [DecidableEq κ] {key : Permit → κ} {t : Tally κ} {bound : Nat},
      t.Counts (out.map key) → (∀ k, t.count k ≤ bound) → ∀ k,
      s.inFlight.countP (fun a => key (Pool.permitFor a.job) = k) ≤ bound := by
    intro κ _ key t bound hcounts hwithin k
    have hkeys : s.inFlight.countP (fun a => key (Pool.permitFor a.job) = k) =
        ((s.inFlight.map Attempt.permit).map key).count k := by
      rw [List.map_map, List.count, List.countP_map]
      refine List.countP_congr fun a ha => ?_
      simp [← (hbatch a ha).2]
    calc s.inFlight.countP (fun a => key (Pool.permitFor a.job) = k)
        = ((s.inFlight.map Attempt.permit).map key).count k := hkeys
      _ ≤ (out.map key).count k := (hheld.map key).count_le k
      _ = t.count k := (hcounts.count_eq k).symm
      _ ≤ bound := hwithin k
  have hwithin := h.loan.within
  have hcounts := h.loan.counts
  refine ⟨?_, hbound hcounts.byDomain hwithin.byDomain, hbound hcounts.byAccount hwithin.byAccount,
    fun i d => ?_, ?_⟩
  · calc s.inFlight.length = (s.inFlight.map Attempt.permit).length := (List.length_map _).symm
      _ ≤ out.length := hheld.length_le
      _ = s.queue.pool.usage.total := hcounts.total.symm
      _ ≤ l.total := hwithin.total
  · have hpair := hbound hcounts.byPair hwithin.byPair (i, d)
    simp only [Prod.mk.injEq] at hpair
    exact hpair
  · refine (List.pairwise_map.mp h.distinct).imp_of_mem fun {a b} ha hb hne hid => ?_
    refine ⟨fun hattempts => hne ?_, ?_⟩
    · rw [Job.receipt, Job.receipt, hid, hattempts]
    · exact h.faithful.history.recoveredBetween (hbatch a ha).1 (hbatch b hb).1 hid hne
        fun e he => ⟨hopen a ha e he, hopen b hb e he⟩

/-- Some runs at their start. -/
def System.start {σ : Type} (store : σ) (pool : Pool) (deadlines : List (Option Nat)) : System σ :=
  ⟨⟨store, pool⟩, deadlines.map fun deadline => { deadline }⟩

/-- What holds of a new run, whatever its deadline, holds of all runs at their start. -/
theorem System.forall_start {σ : Type} {P : Run → Prop} (h : ∀ deadline, P { deadline })
    (store : σ) (pool : Pool) (deadlines : List (Option Nat)) :
    ∀ r ∈ (start store pool deadlines).runs, P r := by
  intro r hr
  obtain ⟨deadline, -, rfl⟩ := List.mem_map.mp hr
  exact h deadline

/-- Runs at their start have no attempts in flight. -/
theorem System.inFlight_start {σ : Type} (store : σ) (pool : Pool) (deadlines : List (Option Nat)) :
    (start store pool deadlines).inFlight = [] :=
  List.flatMap_eq_nil_iff.mpr (forall_start (fun _ => rfl) store pool deadlines)

/-- Runs at their start hold no permits. -/
theorem System.permits_start {σ : Type} (store : σ) (pool : Pool) (deadlines : List (Option Nat)) :
    (start store pool deadlines).runs.flatMap Run.permits = [] :=
  List.flatMap_eq_nil_iff.mpr (forall_start (fun _ => rfl) store pool deadlines)

/-- Runs at their start are orderly. -/
theorem orderly_start {s : τ} {pool : Pool} (hs : (view s).Faithful Ledger.start)
    (hpool : Loan.Exact l ⟨pool, others⟩) (deadlines : List (Option Nat)) :
    Orderly view l others (System.start s pool deadlines).queue
      (System.start s pool deadlines).runs := by
  have hruns : ∀ r ∈ (System.start s pool deadlines).runs,
      r.candidates = [] ∧ r.granted = [] ∧ r.batch = [] :=
    System.forall_start (fun _ => ⟨rfl, rfl, rfl⟩) s pool deadlines
  refine ⟨hs, ?_, fun r hr => ?_, fun r hr => ?_, fun r hr => ?_, ?_, fun r hr => ?_⟩
  · rw [System.permits_start]
    exact hpool
  · rw [(hruns r hr).1]
    exact fun _ h => absurd h List.not_mem_nil
  · rw [(hruns r hr).2.1]
    exact fun _ h => absurd h List.not_mem_nil
  · rw [(hruns r hr).2.2]
    exact fun _ h => absurd h List.not_mem_nil
  · rw [← System.inFlight, System.inFlight_start]
    exact List.nodup_nil
  · rw [(hruns r hr).2.2]
    exact fun _ h => absurd h List.not_mem_nil

/-- The store with a journal that begins with what is past. -/
def Disturbed.journaled {σ : Type} (d : Disturbed σ) (past : List (Exchange σ)) :
    Disturbed (Journaled σ) := d.map fun s => ⟨s, past⟩

/-- What is past after some events: what was past before, and what the runs asked of the store. -/
def System.past {σ : Type} [JobStore σ] (rules : RunRules) (d : Disturbed σ)
    (past : List (Exchange σ)) (pool : Pool) (deadlines : List (Option Nat))
    (events : List Event) : List (Exchange σ) :=
  ((start (d.journaled past) pool deadlines).applyAll rules events).queue.store.store.journal

/-- **The limits hold for what is executed,** over every ledger that shows its jobs. -/
theorem System.limitsHold {past : List (Exchange σ)} (h : History Ledger.start past)
    {d : Disturbed σ} (hd : d.store = current Ledger.start past) {pool : Pool}
    (hpool : Loan.Exact l ⟨pool, others⟩) (rules : RunRules) (deadlines : List (Option Nat))
    (events : List Event) :
    LimitsHold l (System.past rules d past pool deadlines events)
      ((start d pool deadlines).applyAll rules events).inFlight := by
  let s := start (d.journaled past) pool deadlines
  have hfaithful : (d.journaled past).store.Faithful Ledger.start := ⟨h, hd.symm⟩
  have hstart : Orderly (fun d : Disturbed (Journaled σ) => d.store) l others s.queue s.runs :=
    orderly_start hfaithful hpool deadlines
  have hsame : (start d pool deadlines).applyAll rules events =
      (s.applyAll rules events).map (Disturbed.map Journaled.store) :=
    storeMap_store.disturbed.applyAll rules events s
  rw [hsame]
  exact (hstart.applyAll records_journaled.disturbed rules events).limitsHold

end Limits

/-! ## Both stores -/

/-- **In both stores the limits hold for what is executed,** whatever runs do, and whatever goes
wrong with the store that they share. -/
theorem limits_hold_for_executions (l : Limits) (others : List Permit) (pool : Pool)
    (hpool : Loan.Exact l ⟨pool, others⟩) (rules : RunRules) (deadlines : List (Option Nat))
    (events : List Event) :
    (∀ (past : List (Exchange Memory)) (d : Disturbed Memory), History Memory.empty past →
      d.store = current .empty past →
      LimitsHold l (System.past rules d past pool deadlines events)
        ((System.start d pool deadlines).applyAll rules events).inFlight) ∧
    (∀ (past : List (Exchange Table)) (d : Disturbed Table), History Table.empty past →
      d.store = current .empty past →
      LimitsHold l (System.past rules d past pool deadlines events)
        ((System.start d pool deadlines).applyAll rules events).inFlight) :=
  ⟨fun _ _ h hd => System.limitsHold h hd hpool rules deadlines events,
    fun _ _ h hd => System.limitsHold h hd hpool rules deadlines events⟩

/-- Two runs that both look at the queue before one of them claims a job. -/
def racing : List Event :=
  [.step 0 (.look 0 .epoch), .step 1 (.look 0 .epoch), .step 0 .allocate, .step 1 .allocate,
    .step 0 (.claim 0), .step 1 (.claim 0)]

/-- The history of a store whose only job is the plain one. -/
def Ledger.plainPast (σ : Type) [Ledger σ] : List (Exchange σ) := replay start [.enqueue .plain]

/-- A store whose only job is the plain one, and with which nothing goes wrong. -/
def Ledger.plainQueue (σ : Type) [Ledger σ] : Disturbed σ where
  store := current start (plainPast σ)
  plan := []

/-- One of two racing runs works on the plain job, within the usual limits. -/
theorem racing_runs_keep_limits :
    (LimitsHold {} (System.past ⟨16, .usual⟩ (Ledger.plainQueue Memory) (Ledger.plainPast Memory) {}
        [none, none] racing)
        ((System.start (Ledger.plainQueue Memory) {} [none, none]).applyAll
          ⟨16, .usual⟩ racing).inFlight ∧
      (((System.start (Ledger.plainQueue Memory) {} [none, none]).applyAll
        ⟨16, .usual⟩ racing).inFlight.map fun a => a.job.id) = [NewJob.plain.id]) ∧
    (LimitsHold {} (System.past ⟨16, .usual⟩ (Ledger.plainQueue Table) (Ledger.plainPast Table) {}
        [none, none] racing)
        ((System.start (Ledger.plainQueue Table) {} [none, none]).applyAll
          ⟨16, .usual⟩ racing).inFlight ∧
      (((System.start (Ledger.plainQueue Table) {} [none, none]).applyAll
        ⟨16, .usual⟩ racing).inFlight.map fun a => a.job.id) = [NewJob.plain.id]) := by
  have hpool : Loan.Exact {} ⟨{}, []⟩ := Loan.exact_of_unused rfl rfl
  have hmemory : History Memory.empty (Ledger.plainPast Memory) :=
    .step .nil (.enqueue .plain) ⟨List.not_mem_nil, by decide⟩
  have htable : History Table.empty (Ledger.plainPast Table) :=
    .step .nil (.enqueue .plain) ⟨List.not_mem_nil, by decide⟩
  obtain ⟨inMemory, inTable⟩ :=
    limits_hold_for_executions {} [] {} hpool ⟨16, .usual⟩ [none, none] racing
  exact ⟨⟨inMemory _ (Ledger.plainQueue Memory) hmemory rfl, by decide +kernel⟩,
    ⟨inTable _ (Ledger.plainQueue Table) htable rfl, by decide +kernel⟩⟩

end SyncJobs
