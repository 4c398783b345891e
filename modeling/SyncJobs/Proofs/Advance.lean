import SyncJobs.Proofs.Journal
import SyncJobs.Proofs.Origins
import SyncJobs.Proofs.Shelf

/-!
# What a call does to a journaled store

Behind its disturbances a store may be asked for more than the call that a run makes: somebody
else claims the job first, or takes it back and claims it again. Whatever happens, the journal
grows by allowed calls, and completes no other attempt than the run's own (`Advance`). What a run
learns holds of the journal: listed jobs were stored, and a job that is handed out begins an
attempt under a new receipt (`Begins`). `Records` says so of every store that is seen through a
journal, and disturbances keep it (`Records.disturbed`).
-/

namespace SyncJobs

section Calls

variable {σ : Type} [Ledger σ]

/-- **A journaled store went on,** by allowed calls that complete attempts of some receipts only. -/
structure Advance (rs : List Receipt) (s s' : Journaled σ) : Prop where
  faithful : s.Faithful Ledger.start → s'.Faithful Ledger.start
  grows : ∃ new, s'.journal = new ++ s.journal ∧ ∀ e ∈ new, ∀ r, e.Completes r → r ∈ rs

namespace Advance

variable {rs rs' : List Receipt} {s s₁ s' : Journaled σ}

theorem refl (s : Journaled σ) : Advance rs s s :=
  ⟨fun h => h, [], rfl, fun _ he => absurd he List.not_mem_nil⟩

theorem trans (h : Advance rs s s₁) (h' : Advance rs s₁ s') : Advance rs s s' := by
  obtain ⟨new, hnew, hall⟩ := h.grows
  obtain ⟨new', hnew', hall'⟩ := h'.grows
  refine ⟨fun hs => h'.faithful (h.faithful hs), new' ++ new, ?_, fun e he => ?_⟩
  · rw [hnew', hnew, List.append_assoc]
  · rcases List.mem_append.mp he with he | he
    · exact hall' e he
    · exact hall e he

/-- More attempts may be completed. -/
theorem mono (h : Advance rs s s') (hrs : ∀ r ∈ rs, r ∈ rs') : Advance rs' s s' := by
  obtain ⟨new, hnew, hall⟩ := h.grows
  exact ⟨h.faithful, new, hnew, fun e he r hr => hrs r (hall e he r hr)⟩

/-- A single call. -/
theorem call {c : StoreCall} (hc : c.Allowed s.journal)
    (hrs : ∀ r d now, c = .complete r d now → r ∈ rs) : Advance rs s (s.after c) := by
  refine ⟨fun hs => hs.after hc, [⟨s.store, c⟩], rfl, fun e he r hr => ?_⟩
  obtain rfl := List.mem_singleton.mp he
  obtain ⟨d, now, -, hcall, -⟩ := hr
  exact hrs r d now hcall

theorem handedOut (h : Advance rs s s') {j : Job} (hj : j ∈ handedOut s.journal) :
    j ∈ SyncJobs.handedOut s'.journal := by
  obtain ⟨new, hnew, -⟩ := h.grows
  rw [hnew, SyncJobs.handedOut, List.flatMap_append]
  exact List.mem_append_right _ hj

theorem known (h : Advance rs s s') {j : Job} (hj : Known s.journal j) : Known s'.journal j := by
  obtain ⟨new, hnew, -⟩ := h.grows
  rw [hnew]
  exact hj.append new

/-- What was not completed before is not completed now, unless it is one of the receipts. -/
theorem not_completes (h : Advance rs s s') {r : Receipt} (hr : r ∉ rs)
    (hn : ∀ e ∈ s.journal, ¬ e.Completes r) : ∀ e ∈ s'.journal, ¬ e.Completes r := by
  obtain ⟨new, hnew, hall⟩ := h.grows
  intro e he
  rw [hnew] at he
  rcases List.mem_append.mp he with he | he
  · exact fun hc => hr (hall e he r hc)
  · exact hn e he

end Advance

/-- **An attempt has just begun:** the job was handed out, under a receipt that is new. -/
structure Begins (past past' : List (Exchange σ)) (j : Job) : Prop where
  handed : j ∈ handedOut past'
  fresh : j.receipt ∉ (handedOut past).map Job.receipt
  open_ : ∀ e ∈ past', ¬ e.Completes j.receipt

end Calls

section Stores

variable {σ τ : Type} [Shelf σ] [JobStore τ]

/-- **A store that is seen through a journal.** Whatever stands between the caller and the journal,
every call is one or more calls of the journaled store that do no harm. -/
structure Records (view : τ → Journaled σ) : Prop where
  /-- a look completes nothing, and lists jobs that were stored at some time -/
  dueJobs {s : τ} (hs : (view s).Faithful Ledger.start) (now : Instant) (limit : Nat)
    (cap : Option Nat) : Advance [] (view s) (view (JobStore.dueJobs now limit cap s).2) ∧
      ∀ js, (JobStore.dueJobs now limit cap s).1 = .ok js → ∀ j ∈ js, Known (view s).journal j
  /-- a claim completes nothing, and begins an attempt at the job if it is answered with one -/
  claim {s : τ} (hs : (view s).Faithful Ledger.start) (i : JobId) (now : Instant) :
    Advance [] (view s) (view (JobStore.claim i now s).2) ∧
      ∀ j, (JobStore.claim i now s).1 = .ok (some j) →
        j.id = i ∧ Begins (view s).journal (view (JobStore.claim i now s).2).journal j
  /-- a completion completes one attempt at most -/
  complete {s : τ} (hs : (view s).Faithful Ledger.start) {j : Job}
    (hj : j ∈ handedOut (view s).journal) {d : Decision} (hd : j.MayDecide d) (now : Instant) :
    Advance [j.receipt] (view s) (view (JobStore.complete j.receipt d now s).2)
  /-- a recovery completes nothing -/
  recoverStale (s : τ) (staleBefore now : Instant) :
    Advance [] (view s) (view (JobStore.recoverStale staleBefore now s).2)

/-- A claim that is answered with a job begins an attempt. -/
theorem Journaled.Faithful.begins {s : Journaled σ} (h : s.Faithful Ledger.start) {i : JobId}
    {now : Instant} {j : Job} (hj : (JobStore.claim i now s.store).1 = .ok (some j)) :
    j.id = i ∧ Begins s.journal (s.after (.claim i now)).journal j := by
  have hafter := h.after (c := .claim i now) trivial
  have hnew : j ∈ (Exchange.mk s.store (.claim i now)).handedOut := by
    have hans : (Exchange.mk s.store (.claim i now)).answer = .ok (.found (some j)) :=
      congrArg (Except.map StoreAnswer.found) hj
    simp only [Exchange.handedOut, hans]
    exact List.mem_singleton.mpr rfl
  have hfresh : j.receipt ∉ (handedOut s.journal).map Job.receipt := by
    have hnodup := hafter.history.settledOnce.distinct
    rw [Journaled.after, handedOut, List.flatMap_cons, List.map_append, List.nodup_append] at hnodup
    exact fun hold => hnodup.2.2 _ (List.mem_map_of_mem hnew) _ hold rfl
  have hid : j.id = i := by
    obtain ⟨m, hm⟩ := h.history.tracks
    have hkeeps := hm.keeps
    rw [h.current] at hkeeps
    exact Ledger.id_of_claim hkeeps hm.sound hj
  refine ⟨hid, mem_handedOut_cons.mpr (.inl hnew), hfresh, fun e he hc => ?_⟩
  obtain ⟨d, t, -, hcall, -⟩ := hc
  rcases List.mem_cons.mp he with rfl | he
  · cases hcall
  -- only receipts that were handed out are completed
  · exact hfresh (h.history.handedOut_of_complete he hcall)

/-- Listed jobs were stored at some time. -/
theorem History.known_of_dueJobs {past : List (Exchange σ)} (h : History Ledger.start past)
    {now : Instant} {limit : Nat} {cap : Option Nat} {js : List Job}
    (hjs : (JobStore.dueJobs now limit cap (current Ledger.start past)).1 = .ok js) :
    ∀ j ∈ js, Known past j := by
  intro j hj
  obtain ⟨m, hm, hstored, -⟩ := h.origins
  obtain ⟨k, hk, -, hread⟩ := Shelf.dueJobs_found hm.keeps hjs j hj
  obtain ⟨p, -, rfl⟩ := Job.readWith_eq_ok.mp hread
  exact (hstored _ k hk).congr rfl rfl rfl

/-- **A journaled store is seen as it is.** -/
theorem records_journaled : Records fun s : Journaled σ => s where
  dueJobs {s} hs now limit cap := by
    refine ⟨.call trivial (by rintro _ _ _ ⟨⟩), fun js hjs => ?_⟩
    have hlisted : (JobStore.dueJobs now limit cap s.store).1 = .ok js := hjs
    rw [← hs.current] at hlisted
    exact hs.history.known_of_dueJobs hlisted
  claim hs i now := ⟨.call trivial (by rintro _ _ _ ⟨⟩), fun _ hj => hs.begins hj⟩
  complete _ j hj d hd now := by
    refine .call ⟨j, hj, rfl, hd⟩ ?_
    rintro _ _ _ ⟨⟩
    exact List.mem_singleton_self _
  recoverStale s staleBefore now := .call trivial (by rintro _ _ _ ⟨⟩)

/-- What is seen of a store is seen of every store that cannot be told from it. -/
theorem Records.comap {ρ : Type} [JobStore ρ] {view : τ → Journaled σ} {f : ρ → τ}
    (h : Records view) (hf : StoreMap f) : Records fun s => view (f s) where
  dueJobs {s} hs now limit cap := by
    have hlook := h.dueJobs hs now limit cap
    rwa [hf.dueJobs] at hlook
  claim {s} hs i now := by
    have hclaim := h.claim hs i now
    rwa [hf.claim] at hclaim
  complete {s} hs j hj d hd now := by
    have hcomplete := h.complete hs hj hd now
    rwa [hf.complete] at hcomplete
  recoverStale s staleBefore now := by
    have hrecover := h.recoverStale (f s) staleBefore now
    rwa [hf.recoverStale] at hrecover

omit [JobStore τ] in
/-- A disturbed operation fails at once, or goes on with what else is planned. -/
theorem Disturbed.disturb_cases {α : Type} {o : StoreOperation}
    {op : Option Disturbance → StoreM (Disturbed τ) α} {d : Disturbed τ}
    {P : Except StoreError α × Disturbed τ → Prop}
    (fails : ∀ e, P (.error e, { d with called := o :: d.called }))
    (goes : P (op (d.planned? o) { d with called := o :: d.called })) : P (disturb o op d) := by
  simp only [disturb]
  split
  · exact fails _
  · exact goes

variable {view : τ → Journaled σ}

/-- **A disturbed store is seen through the journal behind,** whatever somebody else does first. -/
theorem Records.disturbed (h : Records view) : Records fun d : Disturbed τ => view d.store where
  dueJobs {d} hd now limit cap := by
    refine Disturbed.disturb_cases (P := fun r => Advance [] (view d.store) (view r.2.store) ∧
      ∀ js, r.1 = .ok js → ∀ j ∈ js, Known (view d.store).journal j) ?_ ?_
    · exact fun e => ⟨.refl _, by rintro _ ⟨⟩⟩
    · exact h.dueJobs hd now limit cap
  claim {d} hd i now := by
    refine Disturbed.disturb_cases (P := fun r => Advance [] (view d.store) (view r.2.store) ∧
      ∀ j, r.1 = .ok (some j) →
        j.id = i ∧ Begins (view d.store).journal (view r.2.store).journal j) ?_ ?_
    · exact fun e => ⟨.refl _, by rintro _ ⟨⟩⟩
    · cases d.planned? .claim with
      | none => exact h.claim hd i now
      | some p =>
        cases p with
        | lose => exact ⟨.refl _, by rintro _ ⟨⟩⟩
        | fail | reclaim => exact h.claim hd i now
        | steal =>
          obtain ⟨hstolen, -⟩ := h.claim hd i now
          obtain ⟨hadvance, hbegins⟩ := h.claim (hstolen.faithful hd) i now
          refine ⟨hstolen.trans hadvance, fun j hj => ?_⟩
          obtain ⟨hid, handed, hfresh, hopen⟩ := hbegins j hj
          refine ⟨hid, handed, fun hold => hfresh ?_, hopen⟩
          obtain ⟨k, hk, hr⟩ := List.mem_map.mp hold
          exact hr ▸ List.mem_map_of_mem (hstolen.handedOut hk)
  complete {d} hd j hj decision hdecision now := by
    refine Disturbed.disturb_cases
      (P := fun r => Advance [j.receipt] (view d.store) (view r.2.store)) ?_ ?_
    · exact fun e => .refl _
    · cases d.planned? .complete with
      | none => exact h.complete hd hj hdecision now
      | some p =>
        cases p with
        | fail | lose | steal => exact h.complete hd hj hdecision now
        | reclaim =>
          let later := now.add Disturbed.hour
          have hrecovered := h.recoverStale d.store later later
          obtain ⟨hclaimed, -⟩ := h.claim (hrecovered.faithful hd) j.id later
          have hfirst := hrecovered.trans hclaimed
          exact (hfirst.mono fun _ hr => absurd hr List.not_mem_nil).trans
            (h.complete (hfirst.faithful hd) (hfirst.handedOut hj) hdecision now)
  recoverStale d staleBefore now := by
    refine Disturbed.disturb_cases (P := fun r => Advance [] (view d.store) (view r.2.store)) ?_ ?_
    · exact fun e => .refl _
    · exact h.recoverStale d.store staleBefore now

end Stores

end SyncJobs
