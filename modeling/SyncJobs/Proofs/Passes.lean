import SyncJobs.Proofs.Moves

/-!
# What a run has between its passes

A run rests between two passes, and as long as it has claimed nothing in a pass. Then it has no
attempts and no permits of attempts, and before its first pass it has counted nothing
(`Run.Tidy`). So a run that is over has left nothing behind, and a run that failed loses no
attempts with its summary.
-/

namespace SyncJobs

namespace Run

/-- Whether the run rests: it is between two passes or over, or has claimed nothing in its pass. -/
def isAtRest (r : Run) : Bool :=
  match r.phase with
  | .claiming _ _ started => started = 0
  | .waiting => false
  | _ => true

/-- **A run that rests has nothing to look after.** -/
structure Tidy (r : Run) : Prop where
  batch : r.isAtRest → r.batch = []
  leaving : r.isAtRest → r.leaving = []
  /-- nothing is counted before the first pass -/
  summary : r.isAtRest → r.passes = 0 → r.summary = {}
  /-- a pass in which attempts began is counted -/
  waiting : r.phase = .waiting → r.passes ≠ 0
  /-- only a run that has not begun any attempts fails -/
  failed : ∀ e, r.phase = .finished (some e) → r.passes = 0

/-- A run at its start is tidy. -/
theorem tidy_start (deadline : Option Nat) : Tidy { deadline } where
  batch _ := rfl
  leaving _ := rfl
  summary _ _ := rfl
  waiting := nofun
  failed := nofun

variable {σ : Type} [JobStore σ] {rules : RunRules} {r r' : Run} {q q' : Queue σ} {step : Step}
  {c : Option StoreCall}

/-- A tidy run that rests may come to rest elsewhere. -/
theorem Tidy.rest (h : r.Tidy) (hr : r.isAtRest) {phase : Phase} (hphase : phase ≠ .waiting)
    (hfailed : ∀ e, phase = .finished (some e) → r.passes = 0) : Tidy { r with phase } where
  batch _ := h.batch hr
  leaving _ := h.leaving hr
  summary _ := h.summary hr
  waiting hwaiting := absurd hwaiting hphase
  failed := hfailed

/-- A run that has attempts does not rest. -/
theorem Tidy.not_isAtRest (h : r.Tidy) {a : Attempt} (ha : a ∈ r.batch) : ¬ r.isAtRest := by
  intro hr
  rw [h.batch hr] at ha
  cases ha

/-- A run that does not rest may look after fewer things, or count more. -/
theorem Tidy.busy (h : r.Tidy) (hr : ¬ r.isAtRest) {batch : List Attempt} {leaving : List Permit}
    {summary : Summary} : Tidy { r with batch, leaving, summary } where
  batch hrest := absurd hrest hr
  leaving hrest := absurd hrest hr
  summary hrest := absurd hrest hr
  waiting := h.waiting
  failed := h.failed

/-- **Every move keeps a run tidy.** -/
theorem Move.tidy (h : r.Move rules q step c r' q') (ht : r.Tidy) : r'.Tidy := by
  cases h with
  | ignored => exact ht
  | closed hphase | nothingDue hphase | looked hphase | granted hphase =>
    exact ht.rest (by rw [isAtRest, hphase]) nofun nofun
  | unreadable hphase =>
    refine ht.rest (by rw [isAtRest, hphase]) nofun fun e he => ?_
    by_cases hpasses : r.passes = 0
    · exact hpasses
    · rw [if_neg hpasses] at he
      cases he
  | ended hphase => exact ht.rest (by rw [isAtRest, hphase]; rfl) nofun nofun
  | @gaveUp _ _ _ _ started hphase | @missed _ _ _ _ _ started _ _ hphase =>
    cases started with
    | zero => exact ht.rest (by rw [isAtRest, hphase]; rfl) nofun nofun
    | succ n => exact ⟨nofun, nofun, nofun, nofun, nofun⟩
  | claimed => exact ⟨nofun, nofun, nofun, nofun, nofun⟩
  | launched => exact ⟨nofun, nofun, nofun, fun _ => Nat.succ_ne_zero _, nofun⟩
  | lost hfound | brokeDown hfound | completed hfound | refused hfound =>
    exact ht.busy (ht.not_isAtRest (List.mem_of_find?_eq_some hfound))
  | released hleaving =>
    refine ht.busy fun hr => ?_
    rw [ht.leaving hr] at hleaving
    cases hleaving
  | joined hphase hbatch hleaving =>
    refine ⟨fun _ => hbatch, fun _ => hleaving, fun _ hpasses => ?_, nofun, nofun⟩
    exact absurd hpasses (ht.waiting hphase)

/-- **A run that is over has nothing left.** -/
theorem Tidy.permits_of_isFinished (h : r.Tidy) (hover : r.isFinished) :
    r.batch = [] ∧ r.permits = [] := by
  cases hphase : r.phase with
  | finished =>
    have hrest : r.isAtRest := by rw [isAtRest, hphase]
    rw [permits, hphase, h.batch hrest, h.leaving hrest]
    exact ⟨rfl, rfl⟩
  | idle | looked | claiming | waiting =>
    rw [isFinished, hphase] at hover
    cases hover

/-- **A run that failed has counted nothing.** -/
theorem Tidy.summary_of_failed (h : r.Tidy) {e : StoreError}
    (hphase : r.phase = .finished (some e)) : r.summary = {} :=
  h.summary (by rw [isAtRest, hphase]) (h.failed e hphase)

end Run

end SyncJobs
