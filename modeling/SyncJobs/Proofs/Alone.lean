import SyncJobs.Proofs.Exchanges
import SyncJobs.Proofs.InFlight
import SyncJobs.Proofs.Progress

/-!
# A run that is alone

What a run does when nobody else uses the store or the pool, and no call of the store fails: a pass
begins at least one attempt as long as a job is due (`Resting.pass`), an attempt that comes to an
outcome is completed (`Working.settle`), and one that breaks down is lost (`Working.lose`). The pool
has all its permits whenever no attempt is in progress (`Alone.unused`), so the first candidate of a
pass is always granted one, and nobody has changed the candidate since it was listed, so its claim
gets it (`Claiming.step`).
-/

namespace SyncJobs

/-! ## Passes -/

namespace Run

variable {σ : Type} [JobStore σ]

/-- Claims so many of the jobs that got permits. -/
def claimAll (rules : RunRules) (time : Nat) : Nat → Run × Queue σ → Run × Queue σ
  | 0, p => p
  | n + 1, p => claimAll rules time n (p.1.apply rules (.claim time) p.2)

/-- **A pass** up to the attempts of its batch. -/
def pass (rules : RunRules) (time : Nat) (now : Instant) (r : Run) (q : Queue σ) : Run × Queue σ :=
  let p := r.apply rules .join q
  let p := p.1.apply rules (.look time now) p.2
  let p := p.1.apply rules .allocate p.2
  let p := claimAll rules time (Simulation.toClaim p.1) p
  p.1.apply rules .launch p.2

/-- The run rests between two passes, or before the first one. -/
structure Rests (r : Run) : Prop where
  phase : r.phase = .idle ∨ r.phase = .waiting
  batch : r.batch = []
  leaving : r.leaving = []

/-- The first step of a pass. -/
theorem Rests.join {r : Run} (h : r.Rests) (rules : RunRules) (q : Queue σ) :
    r.apply rules .join q = ({ r with phase := .idle }, q) := by
  obtain ⟨hphase, hbatch, hleaving⟩ := h
  rcases hphase with hphase | hphase
  · simp only [apply, hphase]
    rw [← hphase]
  · simp only [apply, hphase, hbatch, hleaving, List.isEmpty_nil, Bool.and_self, if_true]

end Run

/-! ## What may be lost -/

/-- **What a run may lose:** attempts on jobs of risky accounts. All attempts on doomed jobs are
lost. -/
structure Hazard where
  risky : AccountId → Prop
  doomed : JobId → Prop

namespace Hazard

/-- **The hazard explains the jobs** that are kept now: `batch` are the attempts in progress, and all
others were settled or could be lost. -/
def Explains (σ : Type) [Ledger σ] (z : Hazard) (m₀ m : Memory) (batch : List Attempt) : Prop :=
  ∃ lost : List Attempt, (∀ a ∈ lost, z.risky a.job.account) ∧
    Memory.Progress (Ledger.reread σ) z.doomed m₀ m (batch ++ lost)

variable {σ : Type} [Shelf σ] {z : Hazard} {m₀ m : Memory} {batch : List Attempt} {a : Attempt}
  {now t : Instant}

/-- A claim of a job that is due begins one more attempt. -/
theorem Explains.claim (h : z.Explains σ m₀ m batch) {i : JobId} {k : Job}
    (hk : m.jobs.get? i = some k) (due : k.isDue t)
    (hread : (k.start t).readWith (Ledger.reread σ) = .ok a.job) :
    z.Explains σ m₀ (m.claim i t).2 (batch ++ [a]) := by
  obtain ⟨lost, hlost, hprogress⟩ := h
  refine ⟨lost, hlost, (hprogress.claim hk due hread).perm ?_⟩
  rw [List.append_assoc, List.append_assoc]
  exact (List.perm_append_singleton a lost).append_left batch

/-- A completion that is not refused ends one attempt. -/
theorem Explains.complete (h : z.Explains σ m₀ m batch) (hm : m.Sound) (ha : a ∈ batch)
    (hsafe : ¬ z.doomed a.job.id) {d : Decision} {k : Job}
    (hok : (m.complete a.job.receipt d t).1 = .ok k) :
    z.Explains σ m₀ (m.complete a.job.receipt d t).2
      (batch.filter fun b => b.job.receipt ≠ a.job.receipt) := by
  obtain ⟨lost, hlost, hprogress⟩ := h
  have hnext := hprogress.complete hm (List.mem_append_left lost ha) hsafe hok
  rw [List.filter_append] at hnext
  exact ⟨_, fun b hb => hlost b (List.mem_filter.mp hb).1, hnext⟩

/-- An attempt on a job of a risky account may be lost. -/
theorem Explains.lose (h : z.Explains σ m₀ m batch)
    (hdistinct : (batch.map fun b => b.job.receipt).Nodup) (ha : a ∈ batch)
    (hrisky : z.risky a.job.account) :
    z.Explains σ m₀ m (batch.filter fun b => b.job.receipt ≠ a.job.receipt) := by
  obtain ⟨lost, hlost, hprogress⟩ := h
  refine ⟨a :: lost, List.forall_mem_cons.mpr ⟨hrisky, hlost⟩, hprogress.perm ?_⟩
  exact ((batch_perm hdistinct ha).append_right lost).trans List.perm_middle.symm

end Hazard

/-! ## Calls that do not fail -/

/-- **No call failed** that is in the journal. -/
def Journaled.Answered {σ : Type} [JobStore σ] (s : Journaled σ) : Prop :=
  ∀ e ∈ s.journal, ∃ a, e.answer = .ok a

/-- What did not fail later did not fail before. -/
theorem Journaled.Answered.of_apply {σ : Type} [JobStore σ] {rules : RunRules} {step : Step}
    {r : Run} {q : Queue (Journaled σ)} (h : (r.apply rules step q).2.store.Answered) :
    q.store.Answered := fun e he => h e (Run.mem_journal he)

/-- The latest call did not fail. -/
theorem Journaled.Answered.latest {σ : Type} [JobStore σ] {s : Journaled σ} {c : StoreCall}
    (h : (s.after c).Answered) : ∃ a, (c.run s.store).1 = .ok a :=
  h _ List.mem_cons_self

/-- The job with the id is due. -/
def Memory.HasDue (m : Memory) (t : Instant) (i : JobId) : Prop :=
  ∃ j, m.jobs.get? i = some j ∧ j.isDue t

/-- **A run that is alone** with the store and the pool since the store kept the jobs `m₀`. Before
that, the store came about as `past` tells; now it keeps the jobs `m`. -/
structure Alone {σ : Type} [Shelf σ] (past : List (Exchange σ)) (l : Limits) (z : Hazard)
    (m₀ m : Memory) (q : Queue (Journaled σ)) (r : Run) : Prop where
  orderly : Orderly (Journaled.onto past) l [] q [r]
  tracks : Ledger.Tracks (q.store.onto past).journal m
  progress : z.Explains σ m₀ m r.batch
  /-- the run has no deadline -/
  endless : r.deadline = none

/-- A run that is alone and is between two passes. -/
structure Resting {σ : Type} [Shelf σ] (past : List (Exchange σ)) (l : Limits) (z : Hazard)
    (m₀ m : Memory) (q : Queue (Journaled σ)) (r : Run) : Prop extends Alone past l z m₀ m q r where
  rests : r.Rests

/-- A run that is alone and has attempts in progress. -/
structure Working {σ : Type} [Shelf σ] (past : List (Exchange σ)) (l : Limits) (z : Hazard)
    (m₀ m : Memory) (q : Queue (Journaled σ)) (r : Run) : Prop extends Alone past l z m₀ m q r where
  phase : r.phase = .waiting
  leaving : r.leaving = []
  begun : r.batch ≠ []

/-- A run that was alone and is over. -/
structure Ended {σ : Type} [Shelf σ] (past : List (Exchange σ)) (l : Limits) (z : Hazard)
    (m₀ m : Memory) (q : Queue (Journaled σ)) (r : Run) : Prop extends Alone past l z m₀ m q r where
  phase : r.phase = .finished none
  batch : r.batch = []

namespace Alone

variable {σ : Type} [Shelf σ] {past : List (Exchange σ)} {l : Limits} {z : Hazard}
  {m₀ m m' : Memory}
  {q : Queue (Journaled σ)} {r : Run} {rules : RunRules} {time : Nat} {now : Instant}

theorem records_onto (past : List (Exchange σ)) : Records (Journaled.onto past) :=
  records_journaled.comap (storeMap_onto past)

theorem keeps (h : Alone past l z m₀ m q r) : Ledger.Keeps q.store.store m := by
  have hkeeps := h.tracks.keeps
  rwa [h.orderly.faithful.current] at hkeeps

/-- A call is tracked. -/
theorem tracks_after (h : Alone past l z m₀ m q r) {c : StoreCall}
    (hc : c.Allowed (q.store.onto past).journal) (hs : Ledger.Step ⟨q.store.store, c⟩ m m') :
    Ledger.Tracks ((q.store.after c).onto past).journal m' := by
  have hcurrent : current Ledger.start (q.store.onto past).journal = q.store.store :=
    h.orderly.faithful.current
  have hstep := h.tracks.step hc (hcurrent ▸ hs)
  rwa [hcurrent] at hstep

theorem isPast (h : Alone past l z m₀ m q r) : r.isPast time = false := by
  rw [Run.isPast, h.endless]
  rfl

/-- **The pool has all its permits** when the run holds none. -/
theorem unused (h : Alone past l z m₀ m q r) (hgranted : r.granted = []) (hbatch : r.batch = [])
    (hleaving : r.leaving = []) : q.pool.usage = {} := by
  refine h.orderly.loan.empty ?_
  have hpermits : r.permits = [] := by
    rw [Run.permits_eq, hgranted, hbatch, hleaving]
    rfl
  simp only [List.flatMap_cons, hpermits, List.flatMap_nil, List.append_nil]

theorem pool_limits (h : Alone past l z m₀ m q r) : q.pool.limits = l := h.orderly.loan.limits

/-- A step that leaves the store and the batch alone. -/
theorem quiet (h : Alone past l z m₀ m q r) (rules : RunRules) (step : Step)
    (hstore : (r.apply rules step q).2.store = q.store)
    (hbatch : (r.apply rules step q).1.batch = r.batch)
    (hdeadline : (r.apply rules step q).1.deadline = r.deadline) :
    Alone past l z m₀ m (r.apply rules step q).2 (r.apply rules step q).1 where
  orderly := h.orderly.step (records_onto past) rules step
  tracks := hstore ▸ h.tracks
  progress := hbatch ▸ h.progress
  endless := hdeadline ▸ h.endless

/-! ## Looking -/

/-- **A look** at the queue ends the run or finds jobs that are due. -/
theorem look_cases (h : Alone past l z m₀ m q r) (hphase : r.phase = .idle) (hbatch : r.batch = [])
    (hleaving : r.leaving = []) (htotal : l.total ≠ 0)
    (hans : (r.apply rules (.look time now) q).2.store.Answered) :
    ∃ s, s = q.store.after (.dueJobs now rules.window (some l.perAccount)) ∧
      (((JobStore.dueJobs now rules.window (some l.perAccount) q.store.store).1 = .ok [] ∧
          r.apply rules (.look time now) q = (r.finish none, { q with store := s })) ∨
        ∃ js, js ≠ [] ∧ (∀ j ∈ js, m.HasDue (Ledger.round σ now) j.id) ∧
          r.apply rules (.look time now) q =
            ({ r with phase := .looked now js }, { q with store := s })) := by
  have hgranted : r.granted = [] := by rw [Run.granted, hphase]
  have havailable : q.pool.available ≠ 0 := by
    rw [Pool.available, h.unused hgranted hbatch hleaving, h.pool_limits]
    exact htotal
  have hlook : r.apply rules (.look time now) q = r.look rules time now q := by
    simp only [Run.apply, hphase]
  have hstore : JobStore.dueJobs now rules.window (some l.perAccount) q.store =
      ((JobStore.dueJobs now rules.window (some l.perAccount) q.store.store).1,
        q.store.after (.dueJobs now rules.window (some l.perAccount))) := rfl
  rw [hlook, Run.look, h.isPast, h.pool_limits, hstore] at hans ⊢
  simp only [havailable, decide_false, Bool.or_false, Bool.false_eq_true, if_false] at hans ⊢
  refine ⟨_, rfl, ?_⟩
  cases hdue : (JobStore.dueJobs now rules.window (some l.perAccount) q.store.store).1 with
  | error e =>
    rw [hdue] at hans
    obtain ⟨a, ha⟩ := hans.latest
    simp [StoreCall.run, StoreCall.answering, hdue, Except.map] at ha
  | ok js =>
    cases js with
    | nil => exact .inl ⟨rfl, rfl⟩
    | cons j js =>
      refine .inr ⟨j :: js, List.cons_ne_nil j js, fun k hk => ?_, rfl⟩
      obtain ⟨k', hk', due, -⟩ := Shelf.dueJobs_found h.keeps hdue k hk
      exact ⟨k', hk', due⟩

/-- The run is alone after a look. -/
theorem look (h : Alone past l z m₀ m q r) {r' : Run}
    (happly : r.apply rules (.look time now) q = (r', { q with
      store := q.store.after (.dueJobs now rules.window (some l.perAccount)) }))
    (hbatch : r'.batch = r.batch) (hdeadline : r'.deadline = r.deadline) :
    Alone past l z m₀ m (r.apply rules (.look time now) q).2
      (r.apply rules (.look time now) q).1 := by
  have hstep : Ledger.Step ⟨q.store.store, .dueJobs now rules.window (some l.perAccount)⟩ m m :=
    .of_same h.keeps (Ledger.dueJobs_state _ _ _ _) rfl (by rintro _ _ _ ⟨⟩)
  have horderly := h.orderly.step (records_onto past) rules (.look time now)
  rw [happly] at horderly ⊢
  exact ⟨horderly, h.tracks_after trivial hstep, hbatch ▸ h.progress, hdeadline ▸ h.endless⟩

end Alone

/-! ## Claiming -/

/-- What a claim of a job does that is due. -/
theorem Memory.claim_of_isDue {m : Memory} {t : Instant} {i : JobId} {j : Job}
    (hj : m.jobs.get? i = some j) (due : j.isDue t) : (m.claim i t).1 = some (j.start t) := by
  simp only [claim, hj, due, if_true]

/-- A claim of a job that is not due does nothing. -/
theorem Memory.claim_of_not_hasDue {m : Memory} {t : Instant} {i : JobId} (h : ¬ m.HasDue t i) :
    m.claim i t = (none, m) := by
  cases hj : m.jobs.get? i with
  | none => simp only [claim, hj]
  | some j =>
    have due : j.isDue t = false := Bool.eq_false_iff.mpr fun due => h ⟨j, hj, due⟩
    simp only [claim, hj, due, Bool.false_eq_true, if_false]

/-- **A run that is alone and claims** what it was granted permits for, `gs` still. Together, its
attempts and the claims that are left make up `total`. -/
structure Claiming {σ : Type} [Shelf σ] (past : List (Exchange σ)) (l : Limits) (z : Hazard)
    (m₀ : Memory) (total : Nat) (now : Instant) (gs : List (Job × Permit)) (m : Memory)
    (q : Queue (Journaled σ)) (r : Run) : Prop extends Alone past l z m₀ m q r where
  phase : r.phase = .claiming now gs r.batch.length
  leaving : r.leaving = []
  total : m.claimsLeft + r.batch.length = total
  /-- the first claim gets its job -/
  first : r.batch ≠ [] ∨ gs ≠ [] ∧ ∀ g ∈ gs, m.HasDue (Ledger.round σ now) g.1.id

section Claims

variable {σ : Type} [Shelf σ] {past : List (Exchange σ)} {l : Limits} {z : Hazard} {m₀ m : Memory}
  {q : Queue (Journaled σ)} {r : Run} {rules : RunRules} {time total : Nat} {now : Instant}
  {g : Job × Permit} {gs : List (Job × Permit)}

/-- The store answers a claim with the job if it is due, and with nothing if it is not. -/
theorem Alone.claim_cases (h : Alone past l z m₀ m q r) (i : JobId)
    (hans : (q.store.after (.claim i now)).Answered) :
    (∃ j k, (JobStore.claim i now q.store.store).1 = .ok (some j) ∧ m.jobs.get? i = some k ∧
        k.isDue (Ledger.round σ now) ∧
        (k.start (Ledger.round σ now)).readWith (Ledger.reread σ) = .ok j) ∨
      ((JobStore.claim i now q.store.store).1 = .ok none ∧
        ¬ m.HasDue (Ledger.round σ now) i) := by
  obtain ⟨hanswer, -⟩ := Ledger.keeps_claim i now h.keeps h.tracks.sound
  by_cases hdue : m.HasDue (Ledger.round σ now) i
  · obtain ⟨k, hk, due⟩ := hdue
    rw [Memory.claim_of_isDue hk due, Job.readFound] at hanswer
    cases hread : (k.start (Ledger.round σ now)).readWith (Ledger.reread σ) with
    | error e =>
      rw [hread] at hanswer
      obtain ⟨a, ha⟩ := hans.latest
      simp [StoreCall.run, StoreCall.answering, hanswer, Except.map] at ha
    | ok j =>
      rw [hread] at hanswer
      exact .inl ⟨j, k, hanswer, hk, due, hread⟩
  · rw [Memory.claim_of_not_hasDue hdue] at hanswer
    exact .inr ⟨hanswer, hdue⟩

omit [Shelf σ] in
/-- Whatever is answered to a claim, the store was asked for it. -/
theorem Run.store_claim [JobStore σ] (now : Instant) (j : Job) (permit : Permit)
    (rest : List (Job × Permit)) (started : Nat) (r : Run) (q : Queue (Journaled σ)) :
    (r.claim now j permit rest started q).2.store = q.store.after (.claim j.id now) := by
  rw [claim]
  split
  all_goals
    rename_i heq
    exact (congrArg Prod.snd heq).symm

/-- **A claim** gets its job if the job is due. -/
theorem Claiming.step (h : Claiming past l z m₀ total now (g :: gs) m q r)
    (hans : (r.apply rules (.claim time) q).2.store.Answered) :
    ∃ m', Claiming past l z m₀ total now gs m' (r.apply rules (.claim time) q).2
      (r.apply rules (.claim time) q).1 := by
  obtain ⟨j, permit⟩ := g
  have hclaim : r.apply rules (.claim time) q = r.claim now j permit gs r.batch.length q := by
    simp only [Run.apply, h.phase, h.isPast, Bool.false_eq_true, if_false]
  have hstore : JobStore.claim j.id now q.store = ((JobStore.claim j.id now q.store.store).1,
      q.store.after (.claim j.id now)) := rfl
  have horderly := h.orderly.step (Alone.records_onto past) rules (.claim time)
  have htracks := h.tracks_after (c := .claim j.id now) trivial
    (Ledger.step_claim h.keeps h.tracks.sound j.id now)
  rw [hclaim, Run.store_claim] at hans
  refine ⟨(m.claim j.id (Ledger.round σ now)).2, ?_⟩
  rcases h.claim_cases j.id hans with ⟨job, k, hok, hk, due, hread⟩ | ⟨hok, hno⟩
  · have hnext : r.apply rules (.claim time) q =
        ({ r with
            phase := .claiming now gs (r.batch.length + 1)
            batch := r.batch ++ [⟨job, permit⟩] },
          { q with store := q.store.after (.claim j.id now) }) := by
      rw [hclaim, Run.claim, hstore, hok]
    have hleft := Memory.claimsLeft_claim h.tracks.sound hk due
    have htotal := h.total
    have hlength : (r.batch ++ [(⟨job, permit⟩ : Attempt)]).length = r.batch.length + 1 := by
      rw [List.length_append, List.length_singleton]
    rw [hnext] at horderly ⊢
    have hprogress := h.progress.claim hk due (a := ⟨job, permit⟩) hread
    refine ⟨⟨horderly, htracks, hprogress, h.endless⟩, ?_, h.leaving, ?_, .inl (by simp)⟩
    · simp only [hlength]
    · simp only [hlength]
      omega
  · have hnext : r.apply rules (.claim time) q =
        ({ r with phase := .claiming now gs r.batch.length },
          ⟨q.store.after (.claim j.id now), q.pool.release permit⟩) := by
      rw [hclaim, Run.claim, hstore, hok]
    have hbegun : r.batch ≠ [] := h.first.resolve_right fun hall =>
      hno (hall.2 _ List.mem_cons_self)
    rw [Memory.claim_of_not_hasDue hno] at htracks ⊢
    rw [hnext] at horderly ⊢
    exact ⟨⟨horderly, htracks, h.progress, h.endless⟩, rfl, h.leaving, h.total, .inl hbegun⟩

theorem Journaled.Answered.of_claimAll {n : Nat} {p : Run × Queue (Journaled σ)}
    (h : (Run.claimAll rules time n p).2.store.Answered) : p.2.store.Answered := by
  induction n generalizing p with
  | zero => exact h
  | succ n ih => exact (ih h).of_apply

/-- **All claims** leave at least one attempt. -/
theorem Claiming.all (h : Claiming past l z m₀ total now gs m q r)
    (hans : (Run.claimAll rules time gs.length (r, q)).2.store.Answered) :
    ∃ m', Claiming past l z m₀ total now [] m' (Run.claimAll rules time gs.length (r, q)).2
      (Run.claimAll rules time gs.length (r, q)).1 := by
  induction gs generalizing m q r with
  | nil => exact ⟨m, h⟩
  | cons g gs ih =>
    have hfirst : (r.apply rules (.claim time) q).2.store.Answered :=
      Journaled.Answered.of_claimAll hans
    obtain ⟨m', hnext⟩ := h.step hfirst
    exact ih hnext hans

/-! ## Passes -/

/-- All limits allow at least one attempt. -/
structure Limits.Positive (l : Limits) : Prop where
  total : 0 < l.total
  perDomain : 0 < l.perDomain
  perAccount : 0 < l.perAccount
  perAccountDomain : 0 < l.perAccountDomain

/-- With such limits, an unused pool grants any permit. -/
theorem Limits.Positive.admits (h : l.Positive) {pool : Pool} (hl : pool.limits = l)
    (hu : pool.usage = {}) (permit : Permit) : pool.admits permit := by
  obtain ⟨htotal, hdomain, haccount, hpair⟩ := h
  rw [Pool.admits, Usage.admits, hl, hu]
  have hcount : ∀ {κ : Type} [DecidableEq κ] (k : κ), (Tally.empty : Tally κ).count k = 0 :=
    fun _ => rfl
  simp only [hcount, htotal, hdomain, haccount, hpair, decide_true, Bool.and_self]

/-- **Permits are granted** to at least one of the due jobs. -/
theorem Alone.allocate (h : Alone past l z m₀ m q r) (rules : RunRules) (hl : l.Positive)
    {js : List Job}
    (hphase : r.phase = .looked now js) (hbatch : r.batch = []) (hleaving : r.leaving = [])
    (hjs : js ≠ []) (hdue : ∀ j ∈ js, m.HasDue (Ledger.round σ now) j.id) :
    ∃ gs, Claiming past l z m₀ m.claimsLeft now gs m (r.apply rules .allocate q).2
      (r.apply rules .allocate q).1 := by
  have hgranted : r.granted = [] := by rw [Run.granted, hphase]
  have husage := h.unused hgranted hbatch hleaving
  have havailable : q.pool.available ≠ 0 := by
    rw [Pool.available, husage, h.pool_limits]
    exact Nat.pos_iff_ne_zero.mp hl.total
  have hnext : r.apply rules .allocate q =
      ({ r with phase := .claiming now (q.pool.allocate js).1 0 },
        { q with pool := (q.pool.allocate js).2 }) := by
    simp only [Run.apply, hphase, Run.allocate]
  have halone := h.quiet rules .allocate (by rw [hnext]) (by rw [hnext]) (by rw [hnext])
  rw [hnext] at halone ⊢
  refine ⟨(q.pool.allocate js).1, halone, ?_, hleaving, ?_,
    .inr ⟨?_, fun g hg => hdue _ (Pool.mem_allocate hg).1⟩⟩
  · simp only [hbatch, List.length_nil]
  · simp only [hbatch, List.length_nil, Nat.add_zero]
  · exact Pool.allocate_ne_nil hjs havailable (hl.admits h.pool_limits husage)

/-- What was claimed is worked on. -/
theorem Claiming.launch (h : Claiming past l z m₀ total now [] m q r) (rules : RunRules) :
    Working past l z m₀ m (r.apply rules .launch q).2 (r.apply rules .launch q).1 ∧
      m.claimsLeft + (r.apply rules .launch q).1.batch.length = total := by
  have hbegun : r.batch ≠ [] := h.first.resolve_right fun hall => hall.1 rfl
  have hlength : r.batch.length ≠ 0 := fun hzero => hbegun (List.length_eq_zero_iff.mp hzero)
  have hnext : r.apply rules .launch q =
      ({ r with phase := .waiting, passes := r.passes + 1 }, q) := by
    simp only [Run.apply, h.phase, Run.launch, hlength, if_false]
  have halone := h.quiet rules .launch (by rw [hnext]) (by rw [hnext]) (by rw [hnext])
  rw [hnext] at halone ⊢
  exact ⟨⟨halone, rfl, h.leaving, hbegun⟩, h.total⟩

/-- **A pass** finds nothing due and ends the run, or leaves it with attempts in progress. -/
theorem Resting.pass (h : Resting past l z m₀ m q r) (hl : l.Positive)
    (hans : (r.pass rules time now q).2.store.Answered) :
    ((JobStore.dueJobs now rules.window (some l.perAccount) q.store.store).1 = .ok [] ∧
        (r.pass rules time now q).2.store.store = q.store.store ∧
        Ended past l z m₀ m (r.pass rules time now q).2 (r.pass rules time now q).1) ∨
      ∃ m', Working past l z m₀ m' (r.pass rules time now q).2 (r.pass rules time now q).1 ∧
        m'.claimsLeft + (r.pass rules time now q).1.batch.length = m.claimsLeft := by
  have hrests := h.rests
  have hjoin := hrests.join rules q
  have hjoined := h.quiet rules .join (by rw [hjoin]) (by rw [hjoin]) (by rw [hjoin])
  rw [hjoin] at hjoined
  rw [Run.pass, hjoin] at hans ⊢
  dsimp only at hans hjoined ⊢
  have hlooked := (Journaled.Answered.of_claimAll hans.of_apply).of_apply
  obtain ⟨s, rfl, hcases⟩ := hjoined.look_cases rfl hrests.batch hrests.leaving
    (Nat.pos_iff_ne_zero.mp hl.total) hlooked
  rcases hcases with ⟨hnone, hlook⟩ | ⟨js, hjs, hdue, hlook⟩
  · have halone := hjoined.look hlook rfl rfl
    rw [hlook] at halone ⊢
    exact .inl ⟨hnone, Ledger.dueJobs_state _ _ _ _, halone, rfl, hrests.batch⟩
  · have halone := hjoined.look hlook rfl rfl
    rw [hlook] at halone hans ⊢
    obtain ⟨gs, hclaiming⟩ := halone.allocate rules hl rfl hrests.batch hrests.leaving hjs hdue
    dsimp only at hclaiming hans ⊢
    generalize ({ r with phase := .looked now js } : Run).apply rules .allocate { q with
      store := q.store.after (.dueJobs now rules.window (some l.perAccount)) } = p
      at hclaiming hans ⊢
    have htoClaim : Simulation.toClaim p.1 = gs.length := by
      rw [Simulation.toClaim, hclaiming.phase]
    rw [htoClaim] at hans ⊢
    obtain ⟨m', hclaimed⟩ := hclaiming.all hans.of_apply
    exact .inr ⟨m', hclaimed.launch rules⟩

/-! ## Settling -/

/-- A completion that the store does not refuse is not refused in memory. -/
theorem Ledger.complete_ok {s : σ} (hs : Ledger.Keeps s m) (hm : m.Sound) {receipt : Receipt}
    {d : Decision} {k : Job} (hok : (JobStore.complete receipt d now s).1 = .ok k) :
    ∃ j, (m.complete receipt (d.round (Ledger.round σ)) (Ledger.round σ now)).1 = .ok j := by
  cases hr : (m.complete receipt (d.round (Ledger.round σ)) (Ledger.round σ now)).1 with
  | ok j => exact ⟨j, rfl⟩
  | error e =>
    obtain ⟨-, hrefused⟩ := Ledger.refuses_complete receipt d now hs hm hr
    rw [hok] at hrefused
    cases hfound : Job.readFound (Ledger.reread σ) (m.jobs.get? receipt.job) with
    | error e' => rw [hfound] at hrefused; cases hrefused
    | ok found => rw [hfound] at hrefused; cases hrefused

omit [Shelf σ] in
/-- A receipt finds its attempt. -/
theorem find?_receipt {batch : List Attempt} (h : (batch.map fun a => a.job.receipt).Nodup)
    {a : Attempt} (ha : a ∈ batch) :
    (batch.find? fun b => b.job.receipt = a.job.receipt) = some a := by
  cases hb : batch.find? fun b => b.job.receipt = a.job.receipt with
  | none => exact absurd (decide_eq_true rfl) (List.find?_eq_none.mp hb a ha)
  | some b =>
    have hreceipt := List.find?_some hb
    rw [decide_eq_true_eq] at hreceipt
    rw [List.inj_on_of_nodup_map h (List.mem_of_find?_eq_some hb) ha hreceipt]

/-- **A completion** that does not fail ends the attempt in the jobs that are kept. -/
theorem Alone.complete (h : Alone past l z m₀ m q r) {a : Attempt} (ha : a ∈ r.batch)
    (hsafe : ¬ z.doomed a.job.id) {d : Decision} (hd : a.job.MayDecide d) {k : Job}
    (hok : (JobStore.complete a.job.receipt d now q.store.store).1 = .ok k) :
    ∃ m', Ledger.Tracks ((q.store.after (.complete a.job.receipt d now)).onto past).journal m' ∧
      z.Explains σ m₀ m' (r.batch.filter fun b => b.job.receipt ≠ a.job.receipt) ∧
      m'.claimsLeft ≤ m.claimsLeft := by
  have hallowed : (StoreCall.complete a.job.receipt d now).Allowed (q.store.onto past).journal :=
    ⟨a.job, (h.orderly.batch r List.mem_cons_self a ha).1, rfl, hd⟩
  obtain ⟨j, hj⟩ := Ledger.complete_ok h.keeps h.tracks.sound hok
  obtain ⟨m', hstep⟩ := Ledger.step h.keeps h.tracks.sound _ (h.tracks.fitsIn hallowed)
  obtain rfl := hstep.completes _ _ _ rfl
  exact ⟨_, h.tracks_after hallowed hstep, h.progress.complete h.tracks.sound ha hsafe hj,
    Memory.claimsLeft_complete h.tracks.sound _ _ _⟩

/-- The attempts of a run that is alone are distinct. -/
theorem Alone.distinct (h : Alone past l z m₀ m q r) :
    (r.batch.map fun a => a.job.receipt).Nodup := by
  have hdistinct := h.orderly.distinct
  rwa [List.flatMap_cons, List.flatMap_nil, List.append_nil] at hdistinct

/-- **A run that is relieved of an attempt** on a job: the attempt has left the batch that it was
in, and its permit is back. -/
structure Relieved {σ : Type} [Shelf σ] (past : List (Exchange σ)) (l : Limits) (z : Hazard)
    (m₀ m : Memory) (batch : List Attempt) (job : Job) (m' : Memory) (q : Queue (Journaled σ))
    (r : Run) : Prop extends Alone past l z m₀ m' q r where
  phase : r.phase = .waiting
  leaving : r.leaving = []
  rest : (batch.map Attempt.job).Perm (job :: r.batch.map Attempt.job)
  left : m'.claimsLeft ≤ m.claimsLeft

/-- The permit of an attempt comes back after the attempt has left the batch. -/
theorem Working.release (h : Working past l z m₀ m q r) {a : Attempt} (ha : a ∈ r.batch)
    {m' : Memory} {q' : Queue (Journaled σ)} {summary : Summary} (rules : RunRules)
    (halone : Alone past l z m₀ m' q' { r.retire a with summary })
    (hleft : m'.claimsLeft ≤ m.claimsLeft) :
    Relieved past l z m₀ m r.batch a.job m'
      (({ r.retire a with summary } : Run).apply rules .release q').2
      (({ r.retire a with summary } : Run).apply rules .release q').1 := by
  have hleaving : (r.retire a).leaving = [a.permit] := by
    rw [Run.retire, h.leaving, List.nil_append]
  have hnext : ({ r.retire a with summary } : Run).apply rules .release q' =
      ({ r.retire a with summary, leaving := [] },
        { q' with pool := q'.pool.release a.permit }) := by
    simp only [Run.apply, hleaving]
  have hreleased := halone.quiet rules .release (by rw [hnext]) (by rw [hnext]) (by rw [hnext])
  rw [hnext] at hreleased ⊢
  exact ⟨hreleased, h.phase, rfl, (batch_perm h.distinct ha).map Attempt.job, hleft⟩

/-- An attempt on a job of a risky account may leave the batch without being settled. -/
theorem Working.retire (h : Working past l z m₀ m q r) {a : Attempt} (ha : a ∈ r.batch)
    (hrisky : z.risky a.job.account) : Alone past l z m₀ m q (r.retire a) :=
  ⟨h.orderly.retire ha, h.tracks, h.progress.lose h.distinct ha hrisky, h.endless⟩

/-- **An attempt that broke down is lost,** and its permit comes back. -/
theorem Working.lose (h : Working past l z m₀ m q r) {job : Job}
    (hjob : job ∈ r.batch.map Attempt.job) (hrisky : z.risky job.account) (rules : RunRules) :
    let p := r.apply rules (.lose job.receipt) q
    Relieved past l z m₀ m r.batch job m (p.1.apply rules .release p.2).2
      (p.1.apply rules .release p.2).1 := by
  obtain ⟨a, ha, rfl⟩ := List.mem_map.mp hjob
  have hlose : r.apply rules (.lose a.job.receipt) q = (r.retire a, q) := by
    simp only [Run.apply, find?_receipt h.distinct ha]
  rw [hlose]
  exact h.release ha rules (h.retire ha hrisky) (Nat.le_refl _)

/-- **An attempt that has an outcome is settled,** and its permit comes back. It is lost if there is
no decision on it. -/
theorem Working.settle (h : Working past l z m₀ m q r) {job : Job}
    (hjob : job ∈ r.batch.map Attempt.job) (hsafe : ¬ z.doomed job.id) {outcome : Outcome}
    {finished : Instant} {sample : Binary64}
    (hdecides : z.risky job.account ∨
      (job.decide? rules.backoff outcome finished sample).isSome)
    {p : Run × Queue (Journaled σ)}
    (hp : r.apply rules (.settle job.receipt outcome finished sample) q = p)
    (hans : p.2.store.Answered) :
    ∃ m', Relieved past l z m₀ m r.batch job m' (p.1.apply rules .release p.2).2
      (p.1.apply rules .release p.2).1 := by
  obtain ⟨a, ha, rfl⟩ := List.mem_map.mp hjob
  have horderly := h.orderly.step (Alone.records_onto past) rules
    (.settle a.job.receipt outcome finished sample)
  rw [hp] at horderly
  simp only [Run.apply, find?_receipt h.distinct ha, Run.settle] at hp
  cases hd : a.job.decide? rules.backoff outcome finished sample with
  | none =>
    rw [hd] at hp hdecides
    subst hp
    have hrisky := hdecides.resolve_right Bool.false_ne_true
    exact ⟨m, h.release ha rules (h.retire ha hrisky) (Nat.le_refl _)⟩
  | some d =>
    have hstore : JobStore.complete a.job.receipt d finished q.store =
        ((JobStore.complete a.job.receipt d finished q.store.store).1,
          q.store.after (.complete a.job.receipt d finished)) := rfl
    simp only [hd, hstore] at hp
    cases hok : (JobStore.complete a.job.receipt d finished q.store.store).1 with
    | error e =>
      rw [hok] at hp
      subst hp
      obtain ⟨answer, hanswer⟩ := hans.latest
      simp [StoreCall.run, StoreCall.answering, hok, Except.map] at hanswer
    | ok k =>
      rw [hok] at hp
      subst hp
      obtain ⟨m', htracks, hprogress, hleft⟩ := h.complete ha hsafe ⟨_, _, _, _, hd⟩ hok
      exact ⟨m', h.release ha rules ⟨horderly, htracks, hprogress, h.endless⟩ hleft⟩

end Claims

end SyncJobs
