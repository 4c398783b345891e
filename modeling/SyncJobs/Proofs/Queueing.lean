import SyncJobs.Proofs.Candidates
import SyncJobs.Proofs.Filing
import SyncJobs.Proofs.IdSources

/-!
# Jobs stand in line as they were queued

Requests with one waiting time are made to one scheduler, whose clock does not go back (`Queueing`).
The jobs that they create then stand in line in the order of the requests (`InLine`). Due times and
ages alone do not tell them apart: several requests are made within the same instant, rows keep whole
milliseconds, and due times stop at the latest instant there is. But the ids keep growing.

Until they are claimed, the jobs stay on file (`Filing.waits`). So a look at the due jobs lists them
in the order of the requests, from the front on (`jobs_are_listed_as_queued`). The table reads the
rows that it lists. A payload that is nested too deep is queued all the same, and then the look fails
(`a_deep_request_hides_the_line`).
-/

namespace SyncJobs

open Filing

/-! ## One request -/

namespace Scheduler

variable {σ ω : Type} [JobStore σ] [World ω] {r : Request} {s : Scheduler σ ω}

/-- The scheduler when the account of a request has been looked up: time has passed. The clock is
read for the job now. -/
def lookedUp (r : Request) (s : Scheduler σ ω) : Scheduler σ ω :=
  s.wait (World.lookup r.account s.world).delay

/-- The scheduler when the clock is read again, for an id. -/
def stamped (r : Request) (s : Scheduler σ ω) : Scheduler σ ω :=
  (s.lookedUp r).wait (World.lag (s.lookedUp r).time s.world)

/-- The job that is made for a request once its account is known. -/
def asked (r : Request) (s : Scheduler σ ω) : NewJob :=
  newJob s.settings r (s.ids.next (s.stamped r).now).1 (s.lookedUp r).now

/-- The scheduler when the job of a request was handed to the store: an id has been taken, and the
store is another one. -/
def handedOver (r : Request) (store : σ) (s : Scheduler σ ω) : Scheduler σ ω :=
  { s.stamped r with
    ids := (s.ids.next (s.stamped r).now).2
    queue := { s.queue with store } }

/-- A request without attempts is refused at once. -/
theorem request_of_ceiling_eq_zero (h : ceiling s.settings r = 0) :
    request r s = (.error .noAttempts, s) := if_pos h

section LookedUp

variable (hceiling : ceiling s.settings r ≠ 0)

include hceiling

theorem request_of_brokeDown {message : Option String}
    (h : (World.lookup r.account s.world).value = .brokeDown message) :
    request r s = (.error (.brokeDown message), s.lookedUp r) := by
  simp only [request, if_neg hceiling, h]
  rfl

theorem request_of_failure {failure : Failure}
    (h : (World.lookup r.account s.world).value = .answered (.error failure)) :
    request r s = (.error (.accountLookup failure), s.lookedUp r) := by
  simp only [request, if_neg hceiling, h]
  rfl

theorem request_of_unknown (h : (World.lookup r.account s.world).value = .answered (.ok none)) :
    request r s = (.error (.invalidAccount r.account), s.lookedUp r) := by
  simp only [request, if_neg hceiling, h]
  rfl

/-- **A request for a known account** is answered as the store answers. -/
theorem request_of_known {account : Account}
    (h : (World.lookup r.account s.world).value = .answered (.ok (some account))) :
    request r s = ((JobStore.enqueue (s.asked r) s.queue.store).1.mapError .store,
      s.handedOver r (JobStore.enqueue (s.asked r) s.queue.store).2) := by
  simp only [request, if_neg hceiling, h]
  rfl

end LookedUp

end Scheduler

/-! ## Requests one after the other -/

section Requests

variable {σ ρ ω : Type} [Filing σ ρ] [World ω]

/-- **Jobs are queued:** requests with one waiting time are made to a scheduler, and created these
jobs. In between, time passes and calls are made to the store; none stores another job under the id
of one of these, and none claims one. -/
inductive Queueing (offset : Duration) : List Job → Scheduler σ ω → Prop where
  | start (s : Scheduler σ ω) : Queueing offset [] s
  /-- a request is answered while the ids of its source keep growing, and the clock does not go back,
  nor does it between its readings for a job and for the id of that job -/
  | request {jobs : List Job} {s : Scheduler σ ω} (h : Queueing offset jobs s) (r : Request)
      (waiting : Scheduler.waitingTime r = offset) (clock : s.now ≤ (Scheduler.request r s).2.now)
      (created : ∀ j ∈ (Scheduler.request r s).1.toOption,
        s.now ≤ j.createdAt ∧ j.createdAt ≤ (Scheduler.request r s).2.now)
      (room : s.ids.HasRoom (Scheduler.request r s).2.now) :
      Queueing offset (jobs ++ (Scheduler.request r s).1.toOption.toList) (Scheduler.request r s).2
  /-- a call is made from somewhere else; a look is as good as none -/
  | meanwhile {jobs : List Job} {s s' : Scheduler σ ω} (h : Queueing offset jobs s) (c : StoreCall)
      (store : s'.queue.store = (c.run s.queue.store).2) (ids : s'.ids = s.ids)
      (clock : s.now ≤ s'.now)
      (unclaimed : ∀ j ∈ jobs, c.newId? ≠ some j.id ∧
        (entry s'.queue.store j.id).map (status σ) ≠ some Status.running.name) :
      Queueing offset jobs s'

/-- A request is refused before it takes an id, or its job is handed to the store. -/
theorem Scheduler.request_eq (r : Request) (s : Scheduler σ ω) :
    (∃ e ms, request r s = (.error e, s.wait ms)) ∨
      request r s = ((JobStore.enqueue (s.asked r) s.queue.store).1.mapError .store,
        s.handedOver r (JobStore.enqueue (s.asked r) s.queue.store).2) := by
  by_cases hceiling : ceiling s.settings r = 0
  · exact .inl ⟨.noAttempts, 0, request_of_ceiling_eq_zero hceiling⟩
  cases hfound : (World.lookup r.account s.world).value with
  | brokeDown message => exact .inl ⟨_, _, request_of_brokeDown hceiling hfound⟩
  | answered answer =>
    rcases answer with failure | (_ | account)
    · exact .inl ⟨_, _, request_of_failure hceiling hfound⟩
    · exact .inl ⟨_, _, request_of_unknown hceiling hfound⟩
    · exact .inr (request_of_known hceiling hfound)

/-- **What a request did that created a job:** the job has the next id, and is filed. -/
structure Scheduler.Creates (r : Request) (s s' : Scheduler σ ω) (n : NewJob) : Prop where
  id : n.id = (s.ids.next s'.now).1
  runAfter : n.runAfter = n.createdAt.add (waitingTime r)
  ids : s'.ids = (s.ids.next s'.now).2
  filed : entry s'.queue.store n.id = some (file σ n.toPending)
  others : ∀ i, i ≠ n.id → entry s'.queue.store i = entry s.queue.store i

/-- **What became of a request:** it was refused, or created a job. -/
theorem Scheduler.request_cases (r : Request) (s : Scheduler σ ω) :
    ((∃ e, (request r s).1 = .error e) ∧ (request r s).2.queue.store = s.queue.store ∧
      ((request r s).2.ids = s.ids ∨
        (request r s).2.ids = (s.ids.next (request r s).2.now).2)) ∨
    ∃ n, (request r s).1 = .ok n.toPending ∧ Creates r s (request r s).2 n := by
  obtain ⟨e, ms, hrefused⟩ | hrequest := request_eq r s
  · rw [hrefused]
    exact .inl ⟨⟨e, rfl⟩, rfl, .inl rfl⟩
  · rw [hrequest]
    obtain ⟨e, hrefused⟩ | ⟨store, hdone, hfiled, hothers⟩ :=
      enqueue_files (s.asked r) s.queue.store
    · rw [hrefused]
      exact .inl ⟨⟨_, rfl⟩, rfl, .inr rfl⟩
    · rw [hdone]
      exact .inr ⟨_, rfl, rfl, rfl, rfl, hfiled, hothers⟩

/-! ## What requests keep -/

/-- **Jobs as they were queued,** with the scheduler as it is by then. -/
structure Queued (offset : Duration) (jobs : List Job) (s : Scheduler σ ω) : Prop where
  runAfter : ∀ j ∈ jobs, j.runAfter = j.createdAt.add offset
  pending : ∀ j ∈ jobs, j.status = .pending
  past : ∀ j ∈ jobs, j.createdAt ≤ s.now
  passed : ∀ j ∈ jobs, s.ids.HasPassed j.id
  filed : ∀ j ∈ jobs, entry s.queue.store j.id = some (file σ j)
  /-- jobs that were queued later are not older, and have higher ids -/
  ordered : jobs.Pairwise fun a b => a.createdAt ≤ b.createdAt ∧ a.id.rank < b.id.rank

namespace Queued

variable {offset : Duration} {jobs : List Job} {s s' : Scheduler σ ω}

/-- Time passes, ids are taken, and the jobs stay on file. -/
theorem later (h : Queued offset jobs s) (clock : s.now ≤ s'.now)
    (ids : ∀ i, s.ids.HasPassed i → s'.ids.HasPassed i)
    (filed : ∀ j ∈ jobs, entry s'.queue.store j.id = some (file σ j)) : Queued offset jobs s' where
  runAfter := h.runAfter
  pending := h.pending
  past j hj := Int.le_trans (h.past j hj) clock
  passed j hj := ids j.id (h.passed j hj)
  filed := filed
  ordered := h.ordered

/-- A request that creates no job keeps the others in line. -/
theorem refused (h : Queued offset jobs s) (clock : s.now ≤ s'.now) (room : s.ids.HasRoom s'.now)
    (store : s'.queue.store = s.queue.store)
    (ids : s'.ids = s.ids ∨ s'.ids = (s.ids.next s'.now).2) : Queued offset jobs s' := by
  refine h.later clock (fun i hi => ?_) fun j hj => store ▸ h.filed j hj
  obtain hsame | hnext := ids
  · exact hsame ▸ hi
  · exact hnext ▸ hi.next room

/-- **A job that is created stands behind all others.** -/
theorem created {r : Request} {n : NewJob} (h : Queued offset jobs s)
    (waiting : Scheduler.waitingTime r = offset)
    (clock : s.now ≤ n.createdAt ∧ n.createdAt ≤ s'.now)
    (room : s.ids.HasRoom s'.now) (hn : Scheduler.Creates r s s' n) :
    Queued offset (jobs ++ [n.toPending]) s' := by
  have habove : ∀ j ∈ jobs, j.id.rank < n.id.rank := fun j hj =>
    hn.id ▸ (h.passed j hj).rank_lt_next room
  have hold : Queued offset jobs s' := by
    refine h.later (Int.le_trans clock.1 clock.2) (fun i hi => hn.ids ▸ hi.next room) fun j hj => ?_
    have hother : j.id ≠ n.id := fun hid => absurd (habove j hj) (hid ▸ Nat.lt_irrefl _)
    rw [hn.others j.id hother, h.filed j hj]
  have hall {p : Job → Prop} (h : ∀ j ∈ jobs, p j) (hlast : p n.toPending) :
      ∀ j ∈ jobs ++ [n.toPending], p j :=
    List.forall_mem_append.mpr ⟨h, List.forall_mem_singleton.mpr hlast⟩
  constructor
  case runAfter => exact hall hold.runAfter (hn.runAfter.trans (congrArg _ waiting))
  case pending => exact hall hold.pending rfl
  case past => exact hall hold.past clock.2
  case passed =>
    refine hall hold.passed ?_
    show s'.ids.HasPassed n.id
    rw [hn.ids, hn.id]
    exact IdSource.hasPassed_next room
  case filed => exact hall hold.filed hn.filed
  case ordered =>
    refine List.pairwise_append.mpr ⟨hold.ordered, List.pairwise_singleton _ _, fun j hj => ?_⟩
    exact List.forall_mem_singleton.mpr ⟨Int.le_trans (h.past j hj) clock.1, habove j hj⟩

end Queued

/-- **Requests keep their jobs in line,** by induction on the requests. -/
theorem Queueing.queued {offset : Duration} {jobs : List Job} {s : Scheduler σ ω}
    (h : Queueing offset jobs s) : Queued offset jobs s := by
  induction h with
  | start s => constructor <;> simp
  | @request jobs s _ r waiting clock created room ih =>
    obtain ⟨⟨e, hrefused⟩, store, ids⟩ | ⟨n, hcreated, hn⟩ := Scheduler.request_cases r s
    · rw [hrefused]
      exact (List.append_nil _).symm ▸ ih.refused clock room store ids
    · rw [hcreated] at created ⊢
      have hclock := created n.toPending rfl
      exact ih.created waiting hclock room hn
  | @meanwhile jobs s s' _ c store ids clock unclaimed ih =>
    refine ih.later clock (fun i hi => ids ▸ hi) fun j hj => ?_
    obtain ⟨hnew, hidle⟩ := unclaimed j hj
    have hpending : status σ (file σ j) = Status.pending.name :=
      (status_file j).trans (congrArg Status.name (ih.pending j hj))
    rw [store] at hidle ⊢
    refine (waits hnew (ih.filed j hj) hpending).resolve_right fun ⟨b, hb, running⟩ => hidle ?_
    rw [hb, Option.map_some, running]

end Requests

/-! ## The line -/

namespace Instant

/-- Adding a duration keeps the order, also where it stops at the latest instant. -/
theorem add_le_add {s t : Instant} (h : s ≤ t) (d : Duration) : s.add d ≤ t.add d := by
  rw [le_def] at *
  rw [nanos_add, nanos_add]
  omega

end Instant

/-- **A job stands in line before another one:** it precedes that one and not the other way round.
So does its row, which keeps whole milliseconds. -/
structure Job.IsBefore (a b : Job) : Prop where
  precedes : a.precedes b ∧ ¬ b.precedes a
  rows : (Row.ofJob a).precedes (Row.ofJob b) ∧ ¬ (Row.ofJob b).precedes (Row.ofJob a)

section Line

variable {a b : Job} (hr : a.runAfter ≤ b.runAfter) (hc : a.createdAt ≤ b.createdAt)
  (hid : a.id.rank < b.id.rank)

include hr hc hid

/-- Of jobs that are not due later and not younger, the one with the lower id precedes. -/
theorem Job.precedes_of_le : a.precedes b := by
  rw [Instant.le_def] at hr hc
  rw [precedes_iff]
  omega

/-- So do rows, whatever times fall into one millisecond. -/
theorem Row.precedes_ofJob_of_le : (ofJob a).precedes (ofJob b) := by
  have hr : (ofJob a).runAfter ≤ (ofJob b).runAfter := Instant.millis_mono hr
  have hc : (ofJob a).createdAt ≤ (ofJob b).createdAt := Instant.millis_mono hc
  have hid : (ofJob a).id ≤ (ofJob b).id := by
    rw [id_ofJob, id_ofJob]
    exact Id.storage_le_storage.mpr (Nat.le_of_lt hid)
  rw [precedes_iff]
  obtain hr | hr := Int.lt_or_eq_of_le hr
  · exact .inl hr
  obtain hc | hc := Int.lt_or_eq_of_le hc
  · exact .inr ⟨hr, .inl hc⟩
  · exact .inr ⟨hr, .inr ⟨hc, hid⟩⟩

theorem Job.isBefore : a.IsBefore b := by
  have hne : a.id ≠ b.id := fun h => absurd hid (h ▸ Nat.lt_irrefl _)
  have hjobs := precedes_of_le hr hc hid
  have hrows := Row.precedes_ofJob_of_le hr hc hid
  refine ⟨⟨hjobs, fun h => hne (id_eq_of_precedes hjobs h)⟩, hrows, fun h => hne ?_⟩
  have hids := Row.id_eq_of_precedes hrows h
  rwa [Row.id_ofJob, Row.id_ofJob, Id.storage_inj] at hids

end Line

/-- Jobs that were queued stand in line. -/
theorem Queued.isBefore {σ ρ ω : Type} [Filing σ ρ] [World ω] {offset : Duration}
    {jobs : List Job} {s : Scheduler σ ω} (h : Queued offset jobs s) :
    jobs.Pairwise Job.IsBefore := by
  refine h.ordered.imp_of_mem fun {a b} ha hb hab => Job.isBefore ?_ hab.1 hab.2
  rw [h.runAfter a ha, h.runAfter b hb]
  exact Instant.add_le_add hab.1 offset

/-! ## Looking at the line -/

section Lists

variable {α κ κ' : Type} [DecidableEq κ] [DecidableEq κ'] {key : α → κ}

/-- **A list begins with the front of a line:** of the items that stand in line, it has those in
front, in the order of the line, and all of them if it has room for everything that is due. -/
structure ListsFront (key : α → κ) (line due : List α) (limit : Nat) (listed : List α) : Prop where
  front : (listed.filter fun a => key a ∈ line.map key) <+: line
  all : due.length ≤ limit → (listed.filter fun a => key a ∈ line.map key) = line

/-- **A ranked prefix without a cap lists the front of every line** of items that are in order. -/
theorem RankedPrefix.listsFront {c : Keyed key} {p : α → Bool} {account : α → κ'}
    {le : α → α → Bool} {limit : Nat} {line listed : List α}
    (h : RankedPrefix account le limit none (c.toList.filter p) listed)
    (hdue : Rankable le (c.toList.filter p)) (hline : ∀ a ∈ line, c.get? (key a) = some a)
    (hsorted : line.Pairwise fun a b => le a b ∧ ¬ le b a) :
    ListsFront key (line.filter p) (c.toList.filter p) limit listed := by
  let due := c.toList.filter p
  let inLine (a : α) : Bool := key a ∈ (line.filter p).map key
  have hmem : ∀ a, a ∈ (due.mergeSort le).filter inLine ↔ a ∈ line.filter p := by
    intro a
    rw [List.mem_filter, List.mem_mergeSort, decide_eq_true_eq]
    constructor
    · rintro ⟨ha, hkey⟩
      obtain ⟨b, hb, hba⟩ := List.mem_map.mp hkey
      have hbc := Keyed.get?_eq_some_iff.mp (hline b (List.mem_filter.mp hb).1)
      exact Keyed.eq_of_key_eq hbc.1 (List.mem_filter.mp ha).1 hba ▸ hb
    · intro ha
      obtain ⟨hal, hp⟩ := List.mem_filter.mp ha
      have hac := Keyed.get?_eq_some_iff.mp (hline a hal)
      exact ⟨List.mem_filter.mpr ⟨hac.1, hp⟩, List.mem_map_of_mem ha⟩
  have hnodup : line.Nodup := by
    refine hsorted.imp fun {a b} hab heq => ?_
    subst heq
    exact hab.2 hab.1
  have hsort : (due.mergeSort le).filter inLine = line.filter p := by
    have hperm : ((due.mergeSort le).filter inLine).Perm (line.filter p) :=
      (List.perm_ext_iff_of_nodup
        (((List.mergeSort_perm due le).nodup_iff.mpr hdue.nodup).filter _)
        (hnodup.filter p)).mpr hmem
    refine hperm.eq_of_pairwise (fun a b ha hb hab hba => ?_)
      ((hdue.pairwise_mergeSort due).filter _) ((hsorted.imp And.left).filter p)
    have hin : ∀ d ∈ (due.mergeSort le).filter inLine, d ∈ due := fun d hd =>
      List.mem_mergeSort.mp (List.mem_filter.mp hd).1
    exact hdue.anti a (hin a ha) b (hin b (hperm.symm.subset hb)) hab hba
  have hlisted : listed = (due.mergeSort le).take limit := by
    have hall : due.filter (isWithin account le none due) = due :=
      List.filter_eq_self.mpr fun _ _ => rfl
    have hexactly := h.exactly
    rwa [hall] at hexactly
  constructor
  case front =>
    rw [hlisted]
    exact ((List.take_prefix limit (due.mergeSort le)).filter inLine).trans
      (hsort ▸ List.prefix_rfl)
  case all =>
    intro hroom
    rw [hlisted, List.take_of_length_le ((List.length_mergeSort due).trans_le hroom)]
    exact hsort

end Lists

/-! ## Both stores -/

theorem Row.ofJob_floor (j : Job) : ofJob j.floor = ofJob j := by
  simp [ofJob, Job.floor]

/-- A row cannot be read exactly if the payload of its job is nested too deep. -/
theorem Row.isGarbled_ofJob {j : Job} (hfit : j.payload.value.floatsFit) :
    (ofJob j).IsGarbled ↔ Json.maxDepth < j.payload.value.nesting := by
  have hwhole : j.floor.IsWhole :=
    Job.isWhole_of (Instant.floor_floor _) (Instant.floor_floor _) (Instant.floor_floor _)
  rw [← ofJob_floor]
  exact isGarbled_ofJob_iff hwhole hfit

section Stores

variable {ω : Type} [World ω] {offset : Duration} {jobs : List Job}

theorem Memory.listsFront {s : Scheduler Memory ω} (h : Queued offset jobs s) (now : Instant)
    (limit : Nat) : ListsFront Job.id (jobs.filter (·.isDue now))
      (s.queue.store.jobs.toList.filter (·.isDue now)) limit
      (s.queue.store.dueJobs now limit none) :=
  (s.queue.store.rankedPrefix_dueJobs now limit none).listsFront (s.queue.store.rankable_due now)
    h.filed (h.isBefore.imp Job.IsBefore.precedes)

theorem Table.listsFront {s : Scheduler Table ω} (h : Queued offset jobs s)
    (hfits : s.queue.store.rows.toList.length ≤ largest) (now : Instant) (limit : Nat) :
    ListsFront Row.id ((jobs.map Row.ofJob).filter (isDue now.millis))
      (s.queue.store.rows.toList.filter (isDue now.millis)) limit
      (s.queue.store.dueRows now.millis limit none) := by
  refine (rankedPrefix_dueRows hfits now.millis limit none).listsFront
    (s.queue.store.rankable_due now.millis) (fun r hr => ?_)
    (List.pairwise_map.mpr (h.isBefore.imp Job.IsBefore.rows))
  obtain ⟨j, hj, rfl⟩ := List.mem_map.mp hr
  exact h.filed j hj

end Stores

/-- **Jobs are listed as they were queued.** They stand in line in the order of their requests. As
long as they wait, a look without a cap lists those that are due from the front of the line on, at any
time. The store in memory always answers. The table answers unless it lists a row that cannot be read,
which of the rows in line are those whose payload is nested too deep. -/
theorem jobs_are_listed_as_queued {ω : Type} [World ω] (offset : Duration) (jobs : List Job) :
    (∀ s : Scheduler Memory ω, Queueing offset jobs s → jobs.Pairwise Job.IsBefore ∧
      ∀ now limit, ∃ js,
        JobStore.dueJobs now limit none s.queue.store = (.ok js, s.queue.store) ∧
        ListsFront Job.id (jobs.filter (·.isDue now))
          (s.queue.store.jobs.toList.filter (·.isDue now)) limit js) ∧
    ∀ s : Scheduler Table ω, Queueing offset jobs s → jobs.Pairwise Job.IsBefore ∧
      (∀ j ∈ jobs, j.payload.value.floatsFit →
        ((Row.ofJob j).IsGarbled ↔ Json.maxDepth < j.payload.value.nesting)) ∧
      (s.queue.store.rows.toList.length ≤ Table.largest → ∀ now limit, ∃ rows,
        JobStore.dueJobs now limit none s.queue.store = (Table.readAll rows, s.queue.store) ∧
        ((∃ js, Table.readAll rows = .ok js) ↔ ∀ r ∈ rows, ¬ r.IsGarbled) ∧
        ListsFront Row.id ((jobs.map Row.ofJob).filter (Table.isDue now.millis))
          (s.queue.store.rows.toList.filter (Table.isDue now.millis)) limit rows) := by
  refine ⟨fun s h => ⟨h.queued.isBefore, fun now limit => ?_⟩,
    fun s h => ⟨h.queued.isBefore, fun j _ hfit => Row.isGarbled_ofJob hfit,
      fun hfits now limit => ?_⟩⟩
  · exact ⟨_, rfl, Memory.listsFront h.queued now limit⟩
  · exact ⟨_, rfl, Table.readAll_answers_iff, Table.listsFront h.queued hfits now limit⟩

/-- Makes requests one after the other; the answer is the jobs that they created. -/
def Scheduler.queueAll {σ ω : Type} [JobStore σ] [World ω] (rs : List Request)
    (s : Scheduler σ ω) : List Job × Scheduler σ ω :=
  rs.foldl (fun q r => (q.1 ++ (request r q.2).1.toOption.toList, (request r q.2).2)) ([], s)

/-- A call is made to the store of a scheduler after some milliseconds. -/
def Scheduler.aside {σ ω : Type} [JobStore σ] (ms : Nat) (c : StoreCall) (s : Scheduler σ ω) :
    Scheduler σ ω :=
  { s.wait ms with queue := { s.queue with store := (c.run s.queue.store).2 } }

/-- A plain scheduler as 1970 begins, whose ids are stamped with the time, and which knows one
account. -/
def Scheduler.stamping {σ : Type} (store : σ) : Scheduler σ Demonstration :=
  { plain store 0 with
    ids := .ofRandom fun _ => 0
    world :=
      { start := .epoch
        directory := .ofAccounts [⟨⟨1⟩, "imap", "Demo", "demo@example.com"⟩] } }

/-- A request for one attempt at once. -/
def Request.plain (payload : Payload) : Request := ⟨⟨1⟩, .email, payload, 0, some 1⟩

/-- Two requests are made in one instant, and another job is claimed later on. -/
theorem two_requests_are_listed_as_queued :
    (let q := Scheduler.queueAll [.plain .null, .plain .null] (.stamping Memory.empty)
      let s := q.2.aside 5 (.claim ⟨7⟩ .epoch)
      Queueing .zero q.1 s ∧ q.1.map Job.id = [⟨1⟩, ⟨2⟩] ∧ q.1.Pairwise Job.IsBefore ∧
      ∃ js, JobStore.dueJobs .epoch 2 none s.queue.store = (.ok js, s.queue.store) ∧
        ListsFront Job.id (q.1.filter (·.isDue .epoch))
          (s.queue.store.jobs.toList.filter (·.isDue .epoch)) 2 js) ∧
    (let q := Scheduler.queueAll [.plain .null, .plain .null] (.stamping Table.empty)
      let s := q.2.aside 5 (.claim ⟨7⟩ .epoch)
      Queueing .zero q.1 s ∧ q.1.map Job.id = [⟨1⟩, ⟨2⟩] ∧ q.1.Pairwise Job.IsBefore ∧
      s.queue.store.rows.toList.length ≤ Table.largest ∧
      ∃ rows, JobStore.dueJobs .epoch 2 none s.queue.store =
          (Table.readAll rows, s.queue.store) ∧
        ListsFront Row.id ((q.1.map Row.ofJob).filter (Table.isDue 0))
          (s.queue.store.rows.toList.filter (Table.isDue 0)) 2 rows) := by
  constructor
  · intro q s
    have hq : Queueing .zero q.1 q.2 := by
      refine .request (.request (.start _) _ (by decide) ?_ ?_ ?_) _ (by decide) ?_ ?_ ?_
      all_goals decide +kernel
    have hs : Queueing .zero q.1 s :=
      .meanwhile hq (.claim ⟨7⟩ .epoch) rfl rfl (by decide +kernel) (by decide +kernel)
    obtain ⟨inLine, lists⟩ := (jobs_are_listed_as_queued .zero q.1).1 s hs
    exact ⟨hs, by decide +kernel, inLine, lists .epoch 2⟩
  · intro q s
    have hq : Queueing .zero q.1 q.2 := by
      refine .request (.request (.start _) _ (by decide) ?_ ?_ ?_) _ (by decide) ?_ ?_ ?_
      all_goals decide +kernel
    have hs : Queueing .zero q.1 s :=
      .meanwhile hq (.claim ⟨7⟩ .epoch) rfl rfl (by decide +kernel) (by decide +kernel)
    have hfits : s.queue.store.rows.toList.length ≤ Table.largest := by decide +kernel
    obtain ⟨inLine, -, lists⟩ := (jobs_are_listed_as_queued .zero q.1).2 s hs
    obtain ⟨rows, hrows, -, hfront⟩ := lists hfits .epoch 2
    exact ⟨hs, by decide +kernel, inLine, hfits, rows, hrows, hfront⟩

/-- **A deep request hides the line:** a job whose payload is nested one deeper than the reader goes
is queued, and then a plain job. Both are due, and looking for due jobs fails. The store in memory
does not fail. -/
theorem a_deep_request_hides_the_line :
    let rs : List Request := [.plain (.nested 128), .plain .null]
    let q := Scheduler.queueAll rs (.stamping Table.empty)
    Queueing .zero q.1 q.2 ∧ q.1.map Job.id = [⟨1⟩, ⟨2⟩] ∧ (∀ j ∈ q.1, j.isDue .epoch) ∧
    (∃ e, (JobStore.dueJobs .epoch 2 none q.2.queue.store).1 = .error e) ∧
    ∃ js, (JobStore.dueJobs .epoch 2 none
      (Scheduler.queueAll rs (.stamping Memory.empty)).2.queue.store).1 = .ok js := by
  intro rs q
  have hq : Queueing .zero q.1 q.2 := by
    refine .request (.request (.start _) _ (by decide) ?_ ?_ ?_) _ (by decide) ?_ ?_ ?_
    all_goals decide +kernel
  have hgarbled : (Row.ofNew (.nested 128)).IsGarbled := Row.isGarbled_nested_iff.mpr (by decide)
  exact ⟨hq, by decide +kernel, by decide +kernel,
    Table.dueJobs_fails hgarbled (by decide +kernel) (by decide +kernel) (by decide +kernel), _, rfl⟩

end SyncJobs
