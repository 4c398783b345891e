import Mathlib.Data.Option.Basic
import SyncJobs.Proofs.Custody
import SyncJobs.Proofs.Shadow

/-!
# Calls about different jobs

A claim and a completion are about one job. Both stores keep their jobs under ids, and such a call
looks up one item, answers by what it found, and changes at most this item (`Solo`). That holds on
every path: also a completion that is refused reads its own row again, to say why, and no other.

Hence calls about different jobs do not notice each other (`Separate`). Each is answered as if the
other had not been made, and both together come to the same in either order.
-/

namespace SyncJobs

/-! ## Changing one item -/

namespace Keyed

variable {α κ : Type} {key : α → κ} [DecidableEq κ]

/-- Changing the item with one key leaves alone what is found under another. -/
theorem get?_update_of_ne (c : Keyed key) {k l : κ} (h : k ≠ l) (f : α → α)
    (hf : ∀ a, key (f a) = key a) : (c.update (fun a => key a = k) f hf).get? l = c.get? l := by
  rw [get?_update]
  cases hl : c.get? l with
  | none => rfl
  | some a =>
    have hne : key a ≠ k := fun hk => h (hk.symm.trans (get?_eq_some_iff.mp hl).2)
    rw [Option.map_some, decide_eq_false hne, if_neg Bool.false_ne_true]

/-- The items with two keys may be changed in either order. -/
theorem update_comm (c : Keyed key) {k l : κ} (h : k ≠ l) {f g : α → α}
    (hf : ∀ a, key (f a) = key a) (hg : ∀ a, key (g a) = key a) :
    (c.update (fun a => key a = k) f hf).update (fun a => key a = l) g hg =
      (c.update (fun a => key a = l) g hg).update (fun a => key a = k) f hf := by
  refine ext ?_
  simp only [toList_update, List.map_map]
  refine List.map_congr_left fun a _ => ?_
  by_cases hk : key a = k
  · simp [hk, hf, h]
  · by_cases hl : key a = l
    · simp [hl, hg, Ne.symm h]
    · simp [hk, hl]

/-- Two changes of the item with a key are the same if they agree on what is found. -/
theorem update_congr {c : Keyed key} {k : κ} {f g : α → α} {hf : ∀ a, key (f a) = key a}
    {hg : ∀ a, key (g a) = key a} (h : ∀ a, c.get? k = some a → f a = g a) :
    c.update (fun a => key a = k) f hf = c.update (fun a => key a = k) g hg := by
  refine ext (List.map_congr_left fun a ha => ?_)
  by_cases hk : key a = k
  · simp [hk, h a (get?_eq_some_iff.mpr ⟨ha, hk⟩)]
  · simp [hk]

/-- The items with a key that pass a test: none, or the one that is found. -/
theorem filter_key_and (c : Keyed key) (k : κ) (p : α → Bool) :
    (c.toList.filter fun a => key a = k && p a) = ((c.get? k).filter p).toList := by
  rw [← find?_key_and, ← List.head?_filter]
  have hkey : ∀ a ∈ c.toList.filter (fun a => key a = k && p a), key a = k := by
    intro a ha
    have hpasses := (List.mem_filter.mp ha).2
    rw [Bool.and_eq_true, decide_eq_true_eq] at hpasses
    exact hpasses.1
  have hnodup : ((c.toList.filter fun a => key a = k && p a).map key).Nodup :=
    c.nodup.sublist (List.filter_sublist.map key)
  match c.toList.filter (fun a => key a = k && p a), hkey, hnodup with
  | [], _, _ => rfl
  | [a], _, _ => rfl
  | a :: b :: l, hkey, hnodup =>
    have hsame : key a = key b := (hkey a (by simp)).trans (hkey b (by simp)).symm
    simp [hsame] at hnodup

/-- A change that leaves alone what is found changes nothing. -/
theorem update_eq_self {c : Keyed key} {k : κ} {f : α → α} {hf : ∀ a, key (f a) = key a}
    (h : ∀ a, c.get? k = some a → f a = a) : c.update (fun a => key a = k) f hf = c := by
  have hid : c.update (fun a => key a = k) f hf =
      c.update (fun a => key a = k) id fun _ => rfl := update_congr h
  rw [hid]
  exact ext (by simp)

end Keyed

/-! ## Operations on one item -/

/-- **An operation on one item.** Its answer is told by the item with a key, and it changes at most
this item. -/
structure Solo {α κ σ β : Type} {key : α → κ} [DecidableEq κ] (view : σ → Keyed key) (k : κ)
    (op : σ → β × σ) where
  /-- the answer by what is found -/
  answer : Option α → β
  /-- what becomes of the item -/
  change : α → α
  keeps : ∀ a, key (change a) = key a
  answer_eq : ∀ s, (op s).1 = answer ((view s).get? k)
  view_eq : ∀ s, view (op s).2 = (view s).update (fun a => key a = k) change keeps

namespace Solo

variable {α κ σ β γ : Type} {key : α → κ} [DecidableEq κ] {view : σ → Keyed key} {k l : κ}
  {op : σ → β × σ} {op' : σ → γ × σ}

/-- The answer may be brought into another form. -/
def map (form : β → γ) (h : Solo view k op) : Solo view k fun s => (form (op s).1, (op s).2) where
  answer a := form (h.answer a)
  change := h.change
  keeps := h.keeps
  answer_eq s := congrArg form (h.answer_eq s)
  view_eq := h.view_eq

/-- An operation is answered as before an operation on another item. -/
theorem answer_after (h : Solo view k op) (h' : Solo view l op') (hkl : k ≠ l) (s : σ) :
    (op' (op s).2).1 = (op' s).1 := by
  rw [h'.answer_eq, h'.answer_eq, h.view_eq, Keyed.get?_update_of_ne _ hkl]

/-- Operations on different items may be done in either order. -/
theorem after_comm (hview : Function.Injective view) (h : Solo view k op) (h' : Solo view l op')
    (hkl : k ≠ l) (s : σ) : (op' (op s).2).2 = (op (op' s).2).2 := by
  refine hview ?_
  rw [h'.view_eq, h.view_eq, h.view_eq, h'.view_eq]
  exact Keyed.update_comm _ hkl h.keeps h'.keeps

end Solo

/-! ## Stores whose jobs are kept apart -/

/-- The job that a claim or a completion is about. -/
def StoreCall.subject? : StoreCall → Option JobId
  | .claim i _ => some i
  | .complete r _ _ => some r.job
  | _ => none

/-- **A store whose jobs are kept apart:** claims and completions of different jobs do not notice
each other. -/
class Separate (σ : Type) extends JobStore σ where
  answer_after (s : σ) {c d : StoreCall} {i j : JobId} : c.subject? = some i →
    d.subject? = some j → i ≠ j → (d.run (c.run s).2).1 = (d.run s).1
  after_comm (s : σ) {c d : StoreCall} {i j : JobId} : c.subject? = some i →
    d.subject? = some j → i ≠ j → (d.run (c.run s).2).2 = (c.run (d.run s).2).2

/-- A store keeps its jobs apart if claims and completions are operations on single items. -/
@[reducible] def Separate.ofSolo {α κ σ : Type} [JobStore σ] {key : α → κ} [DecidableEq κ]
    (view : σ → Keyed key) (hview : Function.Injective view) (name : JobId → κ)
    (hname : Function.Injective name)
    (claim : ∀ i now, Solo view (name i) (JobStore.claim i now : StoreM σ (Option Job)))
    (complete : ∀ r d now, Solo view (name r.job) (JobStore.complete r d now : StoreM σ Job)) :
    Separate σ :=
  have solo : ∀ (c : StoreCall) (i : JobId), c.subject? = some i →
      Nonempty (Solo view (name i) (c.run : StoreM σ StoreAnswer)) := by
    intro c i hc
    cases c with
    | claim k now =>
      obtain rfl := Option.some.inj hc
      exact ⟨(claim k now).map (Except.map StoreAnswer.found)⟩
    | complete r d now =>
      obtain rfl := Option.some.inj hc
      exact ⟨(complete r d now).map (Except.map StoreAnswer.job)⟩
    | enqueue | dueJobs | claimDue | get | counts | deadLetters | recoverStale
      | purgeSucceeded => cases hc
  { answer_after := fun s c d i j hc hd hij => by
      obtain ⟨hc⟩ := solo c i hc
      obtain ⟨hd⟩ := solo d j hd
      exact hc.answer_after hd (hname.ne hij) s
    after_comm := fun s c d i j hc hd hij => by
      obtain ⟨hc⟩ := solo c i hc
      obtain ⟨hd⟩ := solo d j hd
      exact hc.after_comm hview hd (hname.ne hij) s }

/-! ## The store in memory -/

namespace Memory

theorem jobs_injective : Function.Injective jobs := fun ⟨_⟩ ⟨_⟩ h => congrArg Memory.mk h

/-- A claim in memory is about one job. -/
def soloClaim (i : JobId) (now : Instant) :
    Solo jobs i (JobStore.claim i now : StoreM Memory (Option Job)) where
  answer found := .ok ((found.filter (·.isDue now)).map (Job.start now))
  change j := if j.isDue now then j.start now else j
  keeps j := by
    split
    · exact Job.id_start now j
    · rfl
  answer_eq m := congrArg (fun x => Except.ok x.1) (claim_eq i now m)
  view_eq m := by
    show (m.claim i now).2.jobs = _
    rw [claim_eq]
    simp only
    cases hfound : (m.jobs.get? i).filter (·.isDue now) with
    | none =>
      simp only [Option.isSome_none, Bool.false_eq_true, if_false]
      refine (Keyed.update_eq_self fun j hj => if_neg fun hdue => ?_).symm
      simp [hj, hdue] at hfound
    | some j =>
      show m.jobs.update _ _ (Job.id_start now) = _
      refine Keyed.update_congr fun k hk => (if_pos ?_).symm
      rw [hk, Option.filter_eq_some_iff] at hfound
      rw [Option.some.inj hfound.1]
      exact hfound.2

/-- A completion in memory is about one job. -/
def soloComplete (r : Receipt) (d : Decision) (now : Instant) :
    Solo jobs r.job (JobStore.complete r d now : StoreM Memory Job) where
  answer
    | none => .error (.notFound r.job)
    | some j =>
      if j.status ≠ .running then .error (.notRunning r.job j.status)
      else if j.attempts ≠ r.attempts then .error (.staleClaim r.job r.attempts j.attempts)
      else .ok (j.settle d now)
  change j := if j.status = .running ∧ j.attempts = r.attempts then j.settle d now else j
  keeps j := by
    split
    · exact Job.id_settle d now j
    · rfl
  answer_eq m := by
    show (m.complete r d now).1 = _
    rw [complete]
    cases m.jobs.get? r.job with
    | none => rfl
    | some j => simp only [apply_ite Prod.fst]
  view_eq m := by
    show (m.complete r d now).2.jobs = _
    cases hanswer : (m.complete r d now).1 with
    | error e =>
      rw [m.complete_state_of_error hanswer]
      refine (Keyed.update_eq_self fun j hj => if_neg fun hopen => ?_).symm
      simp [complete, hj, hopen] at hanswer
    | ok k =>
      obtain ⟨j, hj, running, current, -⟩ := complete_eq_ok hanswer
      have hstate : (m.complete r d now).2 = m.modify r.job (Job.settle d now)
          (Job.id_settle d now) := by
        simp [complete, hj, running, current]
      rw [hstate]
      show m.jobs.update _ _ (Job.id_settle d now) = _
      refine Keyed.update_congr fun k hk => (if_pos ?_).symm
      obtain rfl := Option.some.inj (hj.symm.trans hk)
      exact ⟨running, current⟩

instance : Separate Memory :=
  .ofSolo jobs jobs_injective id Function.injective_id soloClaim soloComplete

end Memory

/-! ## The table -/

namespace Table

theorem rows_injective : Function.Injective rows := fun ⟨_, _⟩ ⟨_, _⟩ h => by cases h; rfl

/-- What a statement on the row with an id answers: `missing` if no row with this id passes the
test, else what is read off the row as it is written. -/
def statementAnswer {β : Type} (p : Row → Bool) (f : Row → Row)
    (missing : Option Row → Except StoreError β) (read : Row → Except StoreError β)
    (found : Option Row) : Except StoreError β :=
  match found.filter p with
  | none => missing found
  | some r => match (f r).rule? with
    | some rule => refused (.check rule)
    | none => read (f r)

/-- What a statement makes of the row with an id: a change that would break a rule is not made. -/
def statementChange (p : Row → Bool) (f : Row → Row) (r : Row) : Row :=
  if p r ∧ (f r).rule? = none then f r else r

theorem id_statementChange {p : Row → Bool} {f : Row → Row} (hf : ∀ r, (f r).id = r.id) (r : Row) :
    (statementChange p f r).id = r.id := by
  rw [statementChange]
  split
  · exact hf r
  · rfl

/-- A statement that would break a rule is refused. -/
theorem update_of_broken {p : Row → Bool} {f : Row → Row} (hf : ∀ r, (f r).id = r.id) {t : Table}
    {rule : RowRule} (h : brokenRule? ((t.rows.toList.filter p).map f) = some rule) :
    t.update p f hf = .error (.check rule) := by
  rw [update]
  split
  · rename_i rule' hrule
    rw [Option.some.inj (h.symm.trans hrule)]
  · rename_i hkept
    rw [hkept] at h
    cases h

/-- A statement on the row with an id can only break a rule in this row. -/
theorem brokenRule?_eq (t : Table) (k : String) (p : Row → Bool) (f : Row → Row) :
    brokenRule? ((t.rows.toList.filter fun r => r.id = k && p r).map f) =
      ((t.rows.get? k).filter p).bind fun r => (f r).rule? := by
  rw [Keyed.filter_key_and, brokenRule?]
  cases (t.rows.get? k).filter p with
  | none => rfl
  | some r => exact List.findSome?_singleton

/-- **A statement on the row with an id** finds it, writes it unless a rule would be broken, and
reads it. -/
theorem statement_eq {β : Type} (t : Table) (k : String) (p : Row → Bool) {f : Row → Row}
    (hf : ∀ r, (f r).id = r.id) (missing : Option Row → Except StoreError β)
    (read : Row → Except StoreError β) {chosen : Row → Bool}
    (hchosen : ∀ r, chosen r = (decide (r.id = k) && p r)) {result : Except StoreError β × Table}
    (h : result =
      match t.rows.toList.find? chosen with
      | none => (missing (t.rows.get? k), t)
      | some r => match t.update chosen f hf with
        | .error e => (refused e, t)
        | .ok t => (read (f r), t)) :
    result.1 = statementAnswer p f missing read (t.rows.get? k) ∧
      result.2.rows = t.rows.update (fun r => r.id = k) (statementChange p f)
        (id_statementChange hf) := by
  obtain rfl : chosen = fun r => decide (r.id = k) && p r := funext hchosen
  subst h
  have hbroken := t.brokenRule?_eq k p f
  rw [Keyed.find?_key_and, statementAnswer]
  cases hfound : (t.rows.get? k).filter p with
  | none =>
    refine ⟨rfl, (Keyed.update_eq_self fun r hr => if_neg fun hp => ?_).symm⟩
    simp [hr, hp.1] at hfound
  | some r =>
    obtain ⟨hr, hp⟩ := Option.filter_eq_some_iff.mp hfound
    rw [hfound, Option.bind_some] at hbroken
    cases hrule : (f r).rule? with
    | some rule =>
      simp only [update_of_broken hf (hbroken.trans hrule), hrule]
      refine ⟨trivial, (Keyed.update_eq_self fun s hs => if_neg fun hkept => ?_).symm⟩
      obtain rfl := Option.some.inj (hr.symm.trans hs)
      rw [hkept.2] at hrule
      cases hrule
    | none =>
      obtain ⟨t', ht', hrows⟩ := update_of_kept hf (hbroken.trans hrule)
      simp only [ht', hrows, hrule]
      refine ⟨trivial, Keyed.ext (List.map_congr_left fun s hs => ?_)⟩
      by_cases hk : s.id = k
      · obtain rfl := Option.some.inj (hr.symm.trans (Keyed.get?_eq_some_iff.mpr ⟨hs, hk⟩))
        simp [hk, hp, hrule, statementChange]
      · simp [hk]

/-- A claim is a statement on one row. -/
theorem claim_statement (t : Table) (i : JobId) (now : Instant) :
    (t.claim i now).1 = statementAnswer (isDue now.millis) (Row.start now.millis)
        (fun _ => .ok none) (fun r => r.toJob?.map some) (t.rows.get? i.storage) ∧
      (t.claim i now).2.rows = t.rows.update (fun r => r.id = i.storage)
        (statementChange (isDue now.millis) (Row.start now.millis))
        (id_statementChange (Row.id_start now.millis)) :=
  t.statement_eq i.storage (isDue now.millis) (Row.id_start now.millis) (fun _ => .ok none)
    (fun r => r.toJob?.map some) (fun _ => rfl) rfl

/-- A claim on the table is about one row. -/
def soloClaim (i : JobId) (now : Instant) :
    Solo rows i.storage (JobStore.claim i now : StoreM Table (Option Job)) where
  answer := _
  change := _
  keeps := id_statementChange (Row.id_start now.millis)
  answer_eq t := (t.claim_statement i now).1
  view_eq t := (t.claim_statement i now).2

/-- Why a completion found no row for its receipt, by the row with the id. -/
def missingRow (receipt : Receipt) (found : Option Row) : StoreError :=
  match found with
  | none => .notFound receipt.job
  | some r => match r.toJob? with
    | .error e => e
    | .ok j =>
      if j.status ≠ .running then .notRunning receipt.job j.status
      else .staleClaim receipt.job receipt.attempts j.attempts

/-- A refusal is told by the row with the id. -/
theorem refusal_eq (t : Table) (receipt : Receipt) :
    t.refusal receipt = missingRow receipt (t.rows.get? receipt.job.storage) := by
  unfold refusal get missingRow
  cases t.rows.get? receipt.job.storage with
  | none => rfl
  | some r =>
    dsimp only
    cases r.toJob? <;> rfl

/-- The rows that a completion may settle, by what is asked of them besides the id. -/
def isUnderway (receipt : Receipt) (r : Row) : Bool :=
  r.status = Status.running.name && r.attempts = receipt.attempts.toNat

/-- A completion is a statement on one row. -/
theorem complete_statement (t : Table) (receipt : Receipt) (d : Decision) (now : Instant) :
    (t.complete receipt d now).1 = statementAnswer (isUnderway receipt) (Row.settle d now.millis)
        (fun found => .error (missingRow receipt found)) Row.toJob?
        (t.rows.get? receipt.job.storage) ∧
      (t.complete receipt d now).2.rows = t.rows.update (fun r => r.id = receipt.job.storage)
        (statementChange (isUnderway receipt) (Row.settle d now.millis))
        (id_statementChange (Row.id_settle d now.millis)) := by
  refine t.statement_eq receipt.job.storage (isUnderway receipt) (Row.id_settle d now.millis)
    (fun found => .error (missingRow receipt found)) Row.toJob?
    (fun _ => Bool.and_assoc _ _ _) ?_
  rw [← refusal_eq]
  rfl

/-- A completion on the table is about one row. -/
def soloComplete (receipt : Receipt) (d : Decision) (now : Instant) :
    Solo rows receipt.job.storage (JobStore.complete receipt d now : StoreM Table Job) where
  answer := _
  change := _
  keeps := id_statementChange (Row.id_settle d now.millis)
  answer_eq t := (t.complete_statement receipt d now).1
  view_eq t := (t.complete_statement receipt d now).2

instance : Separate Table :=
  .ofSolo rows rows_injective Id.storage (fun _ _ => Id.storage_inj.mp) soloClaim soloComplete

end Table

end SyncJobs
