import SyncJobs.Proofs.Arrangement
import SyncJobs.Proofs.InFlight
import SyncJobs.Proofs.Listing
import SyncJobs.Proofs.Moves

/-!
# Nobody is overtaken within an account and domain

In a pass of a run, a job that is granted a permit has all due jobs of its account and domain that
precede it granted one before it, and jobs are claimed in the order of the grants
(`Run.serves_in_line`). The order survives every stage:

* the store lists with a job all due jobs of its account that precede it (`Line`);
* taking turns keeps the order of each account (`Fairness.filter_arrange`);
* a pool refuses an account and domain for good within a pass, so the candidates of the account
  and domain that are granted permits are the first of them (`Pool.allocate_filter_prefix`);
* claims follow the grants, also where some are lost or fail, up to the deadline.

The queue may change in any way between the steps of the run, so that nothing is assumed of other
runs, nor of the pool and its limits.
-/

namespace SyncJobs

/-! ## Passes -/

/-- Whether a step begins a pass. -/
def Step.isLook : Step → Bool
  | .look _ _ => true
  | _ => false

/-- The jobs that a step grants permits to. -/
def Run.grants {σ : Type} (r : Run) (step : Step) (q : Queue σ) : List Job :=
  match step, r.phase with
  | .allocate, .looked _ candidates => (q.pool.allocate candidates).1.map Prod.fst
  | _, _ => []

/-- The jobs that a call claims. -/
def StoreCall.claimedId? : StoreCall → Option JobId
  | claim i _ => some i
  | _ => none

namespace Run

variable {σ : Type} [JobStore σ]

/-- The jobs that are granted permits by steps, each made on the queue as it is at the time. -/
def grantsAll (rules : RunRules) : List (Step × Queue σ) → Run → List Job
  | [], _ => []
  | (step, q) :: moves, r => r.grants step q ++ grantsAll rules moves (r.apply rules step q).1

/-- The jobs that are claimed by steps, each made on the queue as it is at the time. -/
def claimsAll (rules : RunRules) : List (Step × Queue σ) → Run → List JobId
  | [], _ => []
  | (step, q) :: moves, r =>
    ((r.call? rules step q.pool).bind StoreCall.claimedId?).toList ++
      claimsAll rules moves (r.apply rules step q).1

end Run

/-- **A pass in line:** what a pass that looked at a store at a time owes to the jobs, if it grants
permits to some and claims some. -/
structure InLine {σ : Type} [JobStore σ] (s : σ) (now : Instant) (granted : List Job)
    (claimed : List JobId) : Prop where
  /-- permits go to jobs that are stored and due -/
  due : ∀ j ∈ granted, JobStore.peek s j.id = .ok (some j) ∧ j.isDue now
  /-- whoever is due, of the same account and domain, and precedes a job is served before it -/
  behind : ∀ j ∈ granted, ∀ k, JobStore.peek s k.id = .ok (some k) → k.isDue now → k ≠ j →
    k.account = j.account → k.domain = j.domain → k.precedes j → [k, j].Sublist granted
  /-- jobs of an account and domain are served in dispatch order -/
  sorted : granted.Pairwise fun k j => k.account = j.account → k.domain = j.domain → k.precedes j
  /-- jobs are claimed in the order in which they are served -/
  claims : claimed <+: granted.map Job.id

section Lists

variable {α : Type} {R : α → α → Prop}

/-- What stands before an item of a beginning stands there within the beginning. -/
theorem sublist_of_beginning {l m : List α} {a b : α} (h : m <+: l) (hl : l.Nodup) (hb : b ∈ m)
    (hab : [a, b].Sublist l) : [a, b].Sublist m := by
  obtain ⟨rest, rfl⟩ := h
  obtain ⟨xs, ys, hxy, hxs, hys⟩ := List.sublist_append_iff.mp hab
  -- otherwise the last item of the pair would stand behind the beginning as well
  have hlast : b ∉ ys := fun hmem =>
    (List.nodup_append.mp hl).2.2 b hb b (hys.subset hmem) rfl
  rcases xs with _ | ⟨x, _ | ⟨y, xs⟩⟩
  · rw [List.nil_append] at hxy
    exact absurd (hxy ▸ List.mem_cons_of_mem a List.mem_cons_self) hlast
  · rw [List.singleton_append, List.cons.injEq] at hxy
    exact absurd (hxy.2 ▸ List.mem_cons_self) hlast
  · have htail := congrArg (List.drop 2) hxy
    obtain ⟨-, rfl⟩ := List.append_eq_nil_iff.mp htail.symm
    rwa [hxy, List.append_nil]

/-- Of two items of a list that is in order, the lower one stands first. -/
theorem sublist_of_rel {l : List α} {a b : α} (hl : l.Pairwise R) (ha : a ∈ l) (hb : b ∈ l)
    (hne : a ≠ b) (hba : ¬ R b a) : [a, b].Sublist l := by
  induction l with
  | nil => cases ha
  | cons c l ih =>
    obtain ⟨hc, hl⟩ := List.pairwise_cons.mp hl
    rcases List.mem_cons.mp ha with rfl | ha
    · exact List.Sublist.cons_cons a (List.singleton_sublist.mpr
        ((List.mem_cons.mp hb).resolve_left (Ne.symm hne)))
    · rcases List.mem_cons.mp hb with rfl | hb
      · exact absurd (hc a ‹_›) hba
      · exact (ih hl ha hb).cons c

/-- A list is in order within its classes if each class is in order. -/
theorem pairwise_of_classes {κ : Type} [DecidableEq κ] {f : α → κ} {l : List α}
    (h : ∀ k, (l.filter fun a => f a = k).Pairwise R) :
    l.Pairwise fun a b => f a = f b → R a b := by
  induction l with
  | nil => exact List.Pairwise.nil
  | cons a l ih =>
    refine List.pairwise_cons.mpr ⟨fun b hb hab => ?_, ih fun k => ?_⟩
    · have ha := h (f a)
      rw [List.filter_cons, if_pos (decide_eq_true rfl), List.pairwise_cons] at ha
      exact ha.1 b (List.mem_filter.mpr ⟨hb, decide_eq_true hab.symm⟩)
    · exact (h k).sublist ((List.sublist_cons_self a l).filter _)

end Lists

/-- **Grants keep to the line.** -/
theorem Line.inLine {σ : Type} [JobStore σ] {s : σ} {now : Instant} {candidates : List Job}
    (h : Line s now candidates) (p : Pool) {claimed : List JobId}
    (hclaims : claimed <+: ((p.allocate candidates).1.map Prod.fst).map Job.id) :
    InLine s now ((p.allocate candidates).1.map Prod.fst) claimed := by
  have hpair : ∀ {k j : Job}, k.account = j.account → k.domain = j.domain →
      Pool.permitFor k = Pool.permitFor j := fun ha hd => by
    rw [Pool.permitFor, Pool.permitFor, ha, hd]
  have hcandidate : ∀ j ∈ (p.allocate candidates).1.map Prod.fst, j ∈ candidates := by
    intro j hj
    obtain ⟨g, hg, rfl⟩ := List.mem_map.mp hj
    exact (Pool.mem_allocate hg).1
  refine ⟨fun j hj => h.stored j (hcandidate j hj), ?_, ?_, hclaims⟩
  · intro j hj k hk hdue hne haccount hdomain hkj
    have hcj := hcandidate j hj
    have hck := h.closed j hcj k hk hdue haccount hkj
    have hprefix := p.allocate_filter_prefix candidates (Pool.permitFor j)
    have hin : ∀ {l : List Job} {i : Job}, i ∈ l → Pool.permitFor i = Pool.permitFor j →
        i ∈ l.filter fun i => Pool.permitFor i = Pool.permitFor j :=
      fun hi hp => List.mem_filter.mpr ⟨hi, decide_eq_true hp⟩
    have hbefore : [k, j].Sublist
        (candidates.filter fun i => Pool.permitFor i = Pool.permitFor j) := by
      refine sublist_of_rel (h.sorted.sublist List.filter_sublist)
        (hin hck (hpair haccount hdomain)) (hin hcj rfl) hne fun hjk => hne ?_
      let jobs : Keyed Job.id := ⟨candidates, h.distinct⟩
      exact Keyed.eq_of_key_eq (c := jobs) hck hcj (Job.id_eq_of_precedes hkj hjk)
    have hnodup : (candidates.filter fun i => Pool.permitFor i = Pool.permitFor j).Nodup :=
      (List.Pairwise.of_map Job.id (fun _ _ hne hid => hne (congrArg _ hid)) h.distinct).sublist
        List.filter_sublist
    exact (sublist_of_beginning hprefix hnodup (hin hj rfl) hbefore).trans List.filter_sublist
  · refine (pairwise_of_classes (f := Pool.permitFor) fun x => ?_).imp fun hkj ha hd =>
      hkj (hpair ha hd)
    exact (h.sorted.sublist List.filter_sublist).sublist
      (p.allocate_filter_prefix candidates x).sublist

/-! ## Steps of a pass -/

namespace Run

variable {σ : Type} [JobStore σ] {rules : RunRules}

/-- Whether a run has looked at the queue and waits for permits. -/
def hasLooked (r : Run) : Bool :=
  match r.phase with
  | .looked _ _ => true
  | _ => false

omit [JobStore σ] in
/-- Only the candidates that a run has seen are granted permits. -/
theorem grants_eq_nil {r : Run} {step : Step} (q : Queue σ)
    (h : step = .allocate → r.hasLooked = false) : r.grants step q = [] := by
  cases step with
  | allocate =>
    have hr := h rfl
    cases hphase : r.phase with
    | looked now candidates =>
      rw [hasLooked, hphase] at hr
      cases hr
    | idle | claiming | waiting | finished => simp only [grants, hphase]
  | look | claim | launch | settle | lose | release | join => rfl

/-- Before a grant, nothing is granted; after it, jobs are claimed from the front. -/
theorem Move.claims {r r' : Run} {q q' : Queue σ} {step : Step} {c : Option StoreCall}
    (h : r.Move rules q step c r' q') (hlook : step.isLook = false) (hr : r.hasLooked = false) :
    r.grants step q = [] ∧ r'.hasLooked = false ∧
      (c.bind StoreCall.claimedId?).toList ++ r'.granted.map (·.1.id) <+:
        r.granted.map (·.1.id) := by
  have hsame : ∀ {r' : Run}, r'.phase = r.phase → r'.hasLooked = false ∧
      r'.granted.map (·.1.id) <+: r.granted.map (·.1.id) := by
    intro r' hphase
    rw [hasLooked, Run.granted, Run.granted, hphase]
    exact ⟨hr, List.prefix_rfl⟩
  refine ⟨grants_eq_nil q fun _ => hr, ?_⟩
  cases h with
  | closed | unreadable | nothingDue | looked => cases hlook
  | granted hphase =>
    rw [hasLooked, hphase] at hr
    cases hr
  | ignored | lost | brokeDown | completed | refused | released => exact hsame rfl
  | gaveUp | ended | launched | joined => exact ⟨rfl, List.nil_prefix⟩
  | claimed hphase =>
    rw [Run.granted, Run.granted, hphase]
    exact ⟨rfl, List.prefix_rfl⟩
  | missed hphase =>
    rw [Run.granted, Run.granted, hphase]
    exact ⟨rfl, List.prefix_rfl⟩

/-- After a grant, nothing more is granted in the pass, and jobs are claimed as they were
granted. -/
theorem claimsAll_prefix (rules : RunRules) {moves : List (Step × Queue σ)}
    (hmoves : ∀ x ∈ moves, x.1.isLook = false) {r : Run} (hr : r.hasLooked = false) :
    r.grantsAll rules moves = [] ∧ r.claimsAll rules moves <+: r.granted.map (·.1.id) := by
  induction moves generalizing r with
  | nil => exact ⟨rfl, List.nil_prefix⟩
  | cons x moves ih =>
    obtain ⟨step, q⟩ := x
    obtain ⟨hgrants, hr', hclaims⟩ :=
      (r.move rules step q).claims (hmoves _ List.mem_cons_self) hr
    obtain ⟨hnone, hrest⟩ := ih (fun y hy => hmoves y (List.mem_cons_of_mem _ hy)) hr'
    refine ⟨?_, ?_⟩
    · rw [grantsAll, hgrants, hnone, List.nil_append]
    · exact ((List.prefix_append_right_inj _).mpr hrest).trans hclaims

/-- **A pass grants permits once,** to the candidates that it saw, and then claims from the
front. -/
theorem grantsAll_of_looked (rules : RunRules) {moves : List (Step × Queue σ)}
    (hmoves : ∀ x ∈ moves, x.1.isLook = false) {r : Run} {now : Instant} {candidates : List Job}
    (hphase : r.phase = .looked now candidates) :
    r.grantsAll rules moves = [] ∧ r.claimsAll rules moves = [] ∨
      ∃ p : Pool, r.grantsAll rules moves = (p.allocate candidates).1.map Prod.fst ∧
        r.claimsAll rules moves <+: (r.grantsAll rules moves).map Job.id := by
  induction moves generalizing r with
  | nil => exact .inl ⟨rfl, rfl⟩
  | cons x moves ih =>
    obtain ⟨step, q⟩ := x
    have hrest : ∀ y ∈ moves, y.1.isLook = false := fun y hy => hmoves y (List.mem_cons_of_mem _ hy)
    have hmove := r.move rules step q
    generalize hcall : r.call? rules step q.pool = c at hmove
    -- until permits are granted, the run stays where it is
    have hstay : (r.apply rules step q).1.phase = r.phase → r.grants step q = [] →
        c.bind StoreCall.claimedId? = none →
        r.grantsAll rules ((step, q) :: moves) = [] ∧ r.claimsAll rules ((step, q) :: moves) = [] ∨
          ∃ p : Pool, r.grantsAll rules ((step, q) :: moves) =
            (p.allocate candidates).1.map Prod.fst ∧
            r.claimsAll rules ((step, q) :: moves) <+:
              (r.grantsAll rules ((step, q) :: moves)).map Job.id := by
      intro hsame hgrants hnone
      rw [grantsAll, claimsAll, hgrants, hcall, hnone]
      exact ih hrest (hsame.trans hphase)
    generalize happly : r.apply rules step q = result at hmove hstay
    obtain ⟨r', q'⟩ := result
    cases hmove with
    | closed | unreadable | nothingDue | looked => cases hmoves _ List.mem_cons_self
    | ignored hignored =>
      refine hstay rfl (grants_eq_nil _ ?_) rfl
      rintro rfl
      exact hignored
    | lost => exact hstay rfl rfl rfl
    | brokeDown => exact hstay rfl rfl rfl
    | completed => exact hstay rfl rfl rfl
    | refused => exact hstay rfl rfl rfl
    | released => exact hstay rfl rfl rfl
    | gaveUp h => rw [hphase] at h; cases h
    | claimed h => rw [hphase] at h; cases h
    | missed h => rw [hphase] at h; cases h
    | ended h => rw [hphase] at h; cases h
    | launched h => rw [hphase] at h; cases h
    | joined h => rw [hphase] at h; cases h
    | @granted now' candidates' h =>
      obtain ⟨rfl, rfl⟩ := Phase.looked.inj (hphase.symm.trans h)
      have hclaims := claimsAll_prefix rules hrest
        (r := { r with phase := .claiming now (q.pool.allocate candidates).1 0 }) rfl
      have hgrants : r.grants .allocate q = (q.pool.allocate candidates).1.map Prod.fst := by
        simp only [grants, hphase]
      rw [grantsAll, claimsAll, hcall, happly, hclaims.1, List.append_nil, hgrants]
      refine .inr ⟨q.pool, rfl, ?_⟩
      rw [List.map_map]
      exact hclaims.2

/-- **A pass serves in line.** If the store that a run looks at lists due jobs in line, grants and
claims of the pass keep to the line, whatever becomes of the queue meanwhile. -/
theorem serves_in_line {τ : Type} [JobStore τ] {r : Run} (hidle : r.phase = .idle) {q : Queue σ}
    {s : τ} {now : Instant} (hline : ∀ cap js,
      (JobStore.dueJobs now rules.window cap q.store).1 = .ok js → Line s now js)
    (time : Nat) {moves : List (Step × Queue σ)} (hmoves : ∀ x ∈ moves, x.1.isLook = false) :
    InLine s now ((r.apply rules (.look time now) q).1.grantsAll rules moves)
      ((r.apply rules (.look time now) q).1.claimsAll rules moves) := by
  have hnobody : InLine s now [] [] := ⟨fun _ h => absurd h List.not_mem_nil,
    fun _ h => absurd h List.not_mem_nil, List.Pairwise.nil, List.prefix_rfl⟩
  -- a run that is over serves nobody
  have hover : ∀ failure, InLine s now ((r.finish failure).grantsAll rules moves)
      ((r.finish failure).claimsAll rules moves) := by
    intro failure
    obtain ⟨hgrants, hclaims⟩ :=
      claimsAll_prefix rules hmoves (r := r.finish failure) rfl
    rw [hgrants, List.prefix_nil.mp hclaims]
    exact hnobody
  have hmove := r.move rules (.look time now) q
  generalize r.call? rules (.look time now) q.pool = c at hmove
  generalize r.apply rules (.look time now) q = result at hmove
  obtain ⟨r', q'⟩ := result
  cases hmove with
  | ignored h =>
    rw [accepts, hidle] at h
    cases h
  | closed | unreadable | nothingDue => exact hover _
  | looked _ _ _ _ h =>
    have hcandidates := hline _ _ (congrArg Prod.fst h)
    rcases grantsAll_of_looked rules hmoves (r := { r with phase := .looked now _ }) rfl
      with ⟨hgrants, hclaims⟩ | ⟨p, hgrants, hclaims⟩
    · rw [hgrants, hclaims]
      exact hnobody
    · rw [hgrants] at hclaims ⊢
      exact hcandidates.inLine p hclaims

end Run

/-! ## Both stores -/

/-- What a disturbed store lists, the store behind lists. -/
theorem Disturbed.dueJobs_eq_ok {σ : Type} [JobStore σ] {d : Disturbed σ} {now : Instant}
    {limit : Nat} {cap : Option Nat} {js : List Job}
    (h : (JobStore.dueJobs now limit cap d).1 = .ok js) :
    (JobStore.dueJobs now limit cap d.store).1 = .ok js := by
  have h' : (disturbInside .dueJobs (JobStore.dueJobs now limit cap) d).1 = .ok js := h
  rw [disturbInside, disturb] at h'
  split at h'
  · cases h'
  · exact h'

/-- **Nobody is overtaken** in either store, whatever is stored in it, whatever goes wrong with it,
for all pools, limits, windows and both rules of fairness. -/
theorem nobody_is_overtaken (rules : RunRules) (r : Run) (hidle : r.phase = .idle) (time : Nat)
    (now : Instant) (pool : Pool) :
    (∀ (d : Disturbed Memory) (moves : List (Step × Queue (Disturbed Memory))),
      (∀ x ∈ moves, x.1.isLook = false) →
      InLine d.store now ((r.apply rules (.look time now) ⟨d, pool⟩).1.grantsAll rules moves)
        ((r.apply rules (.look time now) ⟨d, pool⟩).1.claimsAll rules moves)) ∧
    (∀ (d : Disturbed Table) (moves : List (Step × Queue (Disturbed Table))),
      d.store.SpellsIds → (∀ x ∈ moves, x.1.isLook = false) →
      InLine d.store now ((r.apply rules (.look time now) ⟨d, pool⟩).1.grantsAll rules moves)
        ((r.apply rules (.look time now) ⟨d, pool⟩).1.claimsAll rules moves)) := by
  refine ⟨fun d moves hmoves => ?_, fun d moves hspells hmoves => ?_⟩
  · refine Run.serves_in_line hidle (fun cap js hjs => ?_) time hmoves
    obtain rfl := Except.ok.inj (Disturbed.dueJobs_eq_ok hjs)
    exact d.store.line_dueJobs now _ cap
  · refine Run.serves_in_line hidle (fun cap js hjs => ?_) time hmoves
    exact Table.line_dueJobs hspells (Disturbed.dueJobs_eq_ok hjs)

/-- A table that came about by calls spells ids as they are written. -/
theorem Table.spellsIds {past : List (Exchange Table)} (h : History Table.empty past) :
    (current .empty past).SpellsIds := by
  obtain ⟨m, hm⟩ := h.tracks
  have hholds : (current .empty past).Holds m := hm.keeps
  intro r hr j hj
  rw [hholds.rows] at hr
  obtain ⟨k, hk, rfl⟩ := List.mem_map.mp hr
  exact Row.spells_ofJob (hholds.whole k hk) hj

/-- A store with two jobs of one account and domain, of which one precedes the other by its id. -/
def Ledger.pairPast (σ : Type) [Ledger σ] : List (Exchange σ) :=
  replay start [.enqueue { NewJob.plain with id := ⟨2⟩ }, .enqueue .plain]

/-- A store with two jobs of one account and domain, and with which nothing goes wrong. -/
def Ledger.pairQueue (σ : Type) [Ledger σ] : Queue (Disturbed σ) where
  store := { store := current start (pairPast σ), plan := [] }
  pool := { limits := { perAccountDomain := 2 } }

/-- The steps of a pass that claims two jobs. -/
def Ledger.pairMoves (σ : Type) [Ledger σ] : List (SyncJobs.Step × Queue (Disturbed σ)) :=
  [.allocate, .claim 0, .claim 0, .launch].map fun step => (step, pairQueue σ)

/-- Two jobs of one account and domain are served in dispatch order. -/
theorem pair_is_served_in_line :
    (InLine (current .empty (Ledger.pairPast Memory)) .epoch
        ((({} : Run).apply ⟨16, .usual⟩ (.look 0 .epoch) (Ledger.pairQueue Memory)).1.grantsAll
          ⟨16, .usual⟩ (Ledger.pairMoves Memory))
        ((({} : Run).apply ⟨16, .usual⟩ (.look 0 .epoch) (Ledger.pairQueue Memory)).1.claimsAll
          ⟨16, .usual⟩ (Ledger.pairMoves Memory)) ∧
      (({} : Run).apply ⟨16, .usual⟩ (.look 0 .epoch) (Ledger.pairQueue Memory)).1.claimsAll
        ⟨16, .usual⟩ (Ledger.pairMoves Memory) = [⟨1⟩, ⟨2⟩]) ∧
    (InLine (current .empty (Ledger.pairPast Table)) .epoch
        ((({} : Run).apply ⟨16, .usual⟩ (.look 0 .epoch) (Ledger.pairQueue Table)).1.grantsAll
          ⟨16, .usual⟩ (Ledger.pairMoves Table))
        ((({} : Run).apply ⟨16, .usual⟩ (.look 0 .epoch) (Ledger.pairQueue Table)).1.claimsAll
          ⟨16, .usual⟩ (Ledger.pairMoves Table)) ∧
      (({} : Run).apply ⟨16, .usual⟩ (.look 0 .epoch) (Ledger.pairQueue Table)).1.claimsAll
        ⟨16, .usual⟩ (Ledger.pairMoves Table) = [⟨1⟩, ⟨2⟩]) := by
  have htable : History Table.empty (Ledger.pairPast Table) :=
    (History.nil.step (.enqueue .plain) ⟨List.not_mem_nil, by decide⟩).step
      (.enqueue { NewJob.plain with id := ⟨2⟩ }) ⟨by decide, by decide⟩
  -- the due jobs are stored in order, so that sorting them leaves them alone
  have hdue : Memory.due .epoch (Ledger.pairQueue Memory).store.store =
      (Ledger.pairQueue Memory).store.store.jobs.toList :=
    List.mergeSort_of_pairwise (by decide +kernel)
  have hrows : Table.dueRows Instant.epoch.millis 16 (some 2) (Ledger.pairQueue Table).store.store =
      (Ledger.pairQueue Table).store.store.rows.toList := by
    rw [Table.dueRows, List.mergeSort_of_pairwise (by decide +kernel)]
    decide +kernel
  have hmemory : JobStore.dueJobs .epoch (RunRules.window ⟨16, .usual⟩)
      (some (Ledger.pairQueue Memory).pool.limits.perAccount) (Ledger.pairQueue Memory).store =
      (.ok (takeWindow 16 (some 2) [] (Ledger.pairQueue Memory).store.store.jobs.toList),
        { (Ledger.pairQueue Memory).store with called := [.dueJobs] }) := by
    rw [← hdue]
    rfl
  have htable' : JobStore.dueJobs .epoch (RunRules.window ⟨16, .usual⟩)
      (some (Ledger.pairQueue Table).pool.limits.perAccount) (Ledger.pairQueue Table).store =
      (Table.readAll (Ledger.pairQueue Table).store.store.rows.toList,
        { (Ledger.pairQueue Table).store with called := [.dueJobs] }) := by
    rw [← hrows]
    rfl
  obtain ⟨inMemory, inTable⟩ := nobody_is_overtaken ⟨16, .usual⟩ {} rfl 0 .epoch
    { limits := { perAccountDomain := 2 } }
  refine ⟨⟨inMemory (Ledger.pairQueue Memory).store (Ledger.pairMoves Memory) (by decide), ?_⟩,
    ⟨inTable (Ledger.pairQueue Table).store (Ledger.pairMoves Table) (Table.spellsIds htable)
      (by decide), ?_⟩⟩
  · show (Run.look ⟨16, .usual⟩ 0 .epoch {} (Ledger.pairQueue Memory)).1.claimsAll ⟨16, .usual⟩
      (Ledger.pairMoves Memory) = _
    rw [Run.look, if_neg (by decide), hmemory]
    decide +kernel
  · show (Run.look ⟨16, .usual⟩ 0 .epoch {} (Ledger.pairQueue Table)).1.claimsAll ⟨16, .usual⟩
      (Ledger.pairMoves Table) = _
    rw [Run.look, if_neg (by decide), htable']
    decide +kernel

end SyncJobs
