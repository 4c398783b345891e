import Mathlib.Data.List.Nodup
import SyncJobs.Proofs.Fencing

/-!
# Where jobs come from

A job that is listed or handed out was stored at some time, and its account and domain are still
those that were stored (`Known`). Ids are given once, so that two sightings of one id agree on
both. What a run knows of a job before it claims it therefore holds of the job that it claims.
-/

namespace SyncJobs

section Known

variable {σ : Type}

/-- **The job was stored** in a history, for its account and its domain. -/
def Known (past : List (Exchange σ)) (j : Job) : Prop :=
  ∃ e ∈ past, ∃ n, e.call = .enqueue n ∧ n.id = j.id ∧ n.account = j.account ∧
    n.domain = j.domain

/-- What was known stays known. -/
theorem Known.append {past : List (Exchange σ)} {j : Job} (h : Known past j)
    (later : List (Exchange σ)) : Known (later ++ past) j := by
  obtain ⟨e, he, hn⟩ := h
  exact ⟨e, List.mem_append_right _ he, hn⟩

/-- What is known of a job is known of all jobs with the same id, account and domain. -/
theorem Known.congr {past : List (Exchange σ)} {j k : Job} (h : Known past j) (hid : j.id = k.id)
    (haccount : j.account = k.account) (hdomain : j.domain = k.domain) : Known past k := by
  obtain ⟨e, he, n, hn, hi, ha, hd⟩ := h
  exact ⟨e, he, n, hn, hi.trans hid, ha.trans haccount, hd.trans hdomain⟩

end Known

section Histories

variable {σ : Type} [JobStore σ] {start : σ} {past : List (Exchange σ)}

/-- **No id is given to two jobs.** -/
theorem History.newJob_unique (h : History start past) {e e' : Exchange σ} (he : e ∈ past)
    (he' : e' ∈ past) {n n' : NewJob} (hn : e.call = .enqueue n) (hn' : e'.call = .enqueue n')
    (hid : n.id = n'.id) : n = n' := by
  induction h with
  | nil => cases he
  | @step past _ c hc ih =>
    have hfresh : ∀ {f : Exchange σ} {k : NewJob}, f ∈ past → f.call = .enqueue k →
        k.id ∈ newIds past := by
      intro f k hf hk
      exact List.mem_filterMap.mpr ⟨f, hf, by rw [hk]; rfl⟩
    rcases List.mem_cons.mp he with rfl | hmem <;> rcases List.mem_cons.mp he' with rfl | hmem'
    · exact StoreCall.enqueue.inj (hn.symm.trans hn')
    -- the later of two ids would not have been free
    · obtain rfl : c = .enqueue n := hn
      exact absurd (hid ▸ hfresh hmem' hn') hc.1
    · obtain rfl : c = .enqueue n' := hn'
      exact absurd (hid ▸ hfresh hmem hn) hc.1
    · exact ih hmem hmem'

/-- **What is known of an id is known once.** -/
theorem History.known_unique (h : History start past) {j k : Job} (hj : Known past j)
    (hk : Known past k) (hid : j.id = k.id) : j.account = k.account ∧ j.domain = k.domain := by
  obtain ⟨e, he, n, hn, hi, ha, hd⟩ := hj
  obtain ⟨e', he', n', hn', hi', ha', hd'⟩ := hk
  obtain rfl := h.newJob_unique he he' hn hn' (hi.trans (hid.trans hi'.symm))
  exact ⟨ha.symm.trans ha', hd.symm.trans hd'⟩

/-- A receipt that is completed was handed out before. -/
theorem History.handedOut_of_complete (h : History start past) {e : Exchange σ} (he : e ∈ past)
    {r : Receipt} {d : Decision} {now : Instant} (hc : e.call = .complete r d now) :
    r ∈ (handedOut past).map Job.receipt := by
  induction h with
  | nil => cases he
  | @step past _ c hallowed ih =>
    have hmono : ∀ {r : Receipt}, r ∈ (handedOut past).map Job.receipt →
        r ∈ (handedOut (⟨current start past, c⟩ :: past)).map Job.receipt := by
      intro r hr
      obtain ⟨j, hj, rfl⟩ := List.mem_map.mp hr
      exact List.mem_map_of_mem (mem_handedOut_cons.mpr (.inr hj))
    rcases List.mem_cons.mp he with rfl | he
    · obtain rfl : c = .complete r d now := hc
      obtain ⟨j, hj, hr, -⟩ := hallowed
      exact hmono (hr ▸ List.mem_map_of_mem hj)
    · exact hmono (ih he)

end Histories

section Ledgers

variable {σ : Type} [Ledger σ] {past : List (Exchange σ)}

/-- **Stored jobs and jobs that were handed out are known.** -/
theorem History.origins (h : History Ledger.start past) :
    ∃ m, Ledger.Tracks past m ∧ (∀ i j, m.jobs.get? i = some j → Known past j) ∧
      ∀ j ∈ handedOut past, Known past j := by
  induction h with
  | nil => exact ⟨.empty, Ledger.tracks_nil, by rintro _ _ ⟨⟩, by rintro _ ⟨⟩⟩
  | @step past _ c hc ih =>
    obtain ⟨m, hm, hstored, hhanded⟩ := ih
    obtain ⟨m', hs⟩ := Ledger.step hm.keeps hm.sound c (hm.fitsIn hc)
    refine ⟨m', hm.step hc hs, fun i k hk => ?_, fun j hj => ?_⟩
    · have hch := hs.change i
      rw [hk] at hch
      cases hj : m.jobs.get? i with
      | none =>
        rw [hj] at hch
        obtain ⟨n, rfl, -, rfl⟩ := hch.of_none
        exact ⟨_, List.mem_cons_self, n, rfl, rfl, rfl, rfl⟩
      | some j =>
        rw [hj] at hch
        have hknown := (hstored i j hj).append [⟨current Ledger.start past, c⟩]
        rcases hch.evolves (hm.sound.of_get? hj) with rfl | ⟨-, origin⟩
        · exact hknown
        · exact hknown.congr origin.id origin.account origin.domain
    · rcases mem_handedOut_cons.mp hj with hj | hj
      · obtain ⟨now, hands⟩ := hs.hands
        obtain ⟨k, hk, -, -, hread⟩ := hands.started j hj
        obtain ⟨p, -, rfl⟩ := Job.readWith_eq_ok.mp hread
        exact ((hstored _ k hk).append [⟨current Ledger.start past, c⟩]).congr rfl rfl rfl
      · exact (hhanded j hj).append [⟨current Ledger.start past, c⟩]

/-- A claim answers with the job that it was asked for. -/
theorem Ledger.id_of_claim {s : σ} {m : Memory} (hs : Keeps s m) (hm : m.Sound) {i : JobId}
    {now : Instant} {j : Job} (h : (JobStore.claim i now s).1 = .ok (some j)) : j.id = i := by
  have hanswer := (keeps_claim i now hs hm).1
  rw [h, Memory.claim_eq] at hanswer
  cases hk : (m.jobs.get? i).filter (·.isDue (round σ now)) with
  | none => rw [hk] at hanswer; cases hanswer
  | some k =>
    rw [hk] at hanswer
    have hid : k.id = i := Memory.id_of_get? (Option.filter_eq_some_iff.mp hk).1
    cases hread : (k.start (round σ now)).readWith (reread σ) with
    | error e => simp [Job.readFound, hread, Except.map] at hanswer
    | ok k' =>
      obtain ⟨p, -, rfl⟩ := Job.readWith_eq_ok.mp hread
      simp only [Job.readFound, Option.map_some, hread, Except.map, Except.ok.injEq,
        Option.some.injEq] at hanswer
      rw [hanswer]
      exact hid

/-! ## Two claims of one job -/

/-- **A recovery took the job back** between two claims that handed it out. -/
def RecoveredBetween (past : List (Exchange σ)) (j k : Job) : Prop :=
  ∃ later between earlier e₁ e₂, past = later ++ e₂ :: (between ++ e₁ :: earlier) ∧
    j ∈ e₁.handedOut ∧ k ∈ e₂.handedOut ∧ ∃ e ∈ between, e.Recovers j.receipt

/-- **Of two claims of one job that nobody completed,** a recovery took the job back after the
earlier one. -/
theorem History.recoveredBetween (h : History Ledger.start past) {j k : Job}
    (hj : j ∈ handedOut past) (hk : k ∈ handedOut past) (hid : j.id = k.id)
    (hne : j.receipt ≠ k.receipt) (hopen : ∀ e ∈ past, ¬ e.Completes j.receipt ∧
      ¬ e.Completes k.receipt) :
    RecoveredBetween past j k ∨ RecoveredBetween past k j := by
  have hsettled := h.settledOnce.separated
  obtain ⟨e₁, he₁, hj₁⟩ := List.mem_flatMap.mp hj
  obtain ⟨e₂, he₂, hk₂⟩ := List.mem_flatMap.mp hk
  obtain ⟨later, earlier, rfl⟩ := List.append_of_mem he₁
  rcases List.mem_append.mp he₂ with he₂ | he₂
  -- `k` was handed out after `j`
  · obtain ⟨latest, between, rfl⟩ := List.append_of_mem he₂
    have hpast : latest ++ e₂ :: between ++ e₁ :: earlier =
        latest ++ e₂ :: (between ++ e₁ :: earlier) := by
      rw [List.append_assoc, List.cons_append]
    obtain ⟨e, he, hsettles⟩ := hsettled _ _ _ _ _ _ _ hpast hj₁ hk₂ hid
    have hmem : e ∈ latest ++ e₂ :: between ++ e₁ :: earlier :=
      List.mem_append_left _ (List.mem_append_right _ (List.mem_cons_of_mem _ he))
    exact .inl ⟨_, _, _, _, _, hpast, hj₁, hk₂, e, he, hsettles.resolve_left (hopen e hmem).1⟩
  rcases List.mem_cons.mp he₂ with rfl | he₂
  -- one exchange hands a job out once
  · obtain ⟨m, m', -, hstep⟩ := h.of_append.fences_step
    obtain ⟨now, hands⟩ := hstep.hands
    have hsame := List.inj_on_of_nodup_map hands.nodup hj₁ hk₂ hid
    exact absurd (congrArg Job.receipt hsame) hne
  · obtain ⟨between, earliest, rfl⟩ := List.append_of_mem he₂
    obtain ⟨e, he, hsettles⟩ := hsettled _ _ _ _ _ _ _ rfl hk₂ hj₁ hid.symm
    have hmem : e ∈ later ++ e₁ :: (between ++ e₂ :: earliest) :=
      List.mem_append_right _ (List.mem_cons_of_mem _ (List.mem_append_left _ he))
    exact .inr ⟨_, _, _, _, _, rfl, hk₂, hj₁, e, he, hsettles.resolve_left (hopen e hmem).2⟩

end Ledgers

end SyncJobs
