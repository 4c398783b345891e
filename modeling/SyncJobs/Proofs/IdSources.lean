import Mathlib.Data.List.MinMax
import Mathlib.Order.Nat
import SyncJobs.Id.Source

/-!
# Ids keep growing

A timed source yields one id above the other, however its clock goes, as long as it has room for
another one (`IdSource.HasRoom`). If the clock has moved on, the stamp of the new id is above the one
before, whatever the random bits are. If it has not, the new id is the next one of the same stamp.

So the stamp of an id is the later of two (`IdSource.millis_next`): what the clock shows, and the
stamp of the id before. Over a whole series of ids it is the latest time that the clock has shown, and
no id comes twice (`IdSource.ids_never_go_back`).
-/

namespace SyncJobs

namespace Id

variable {kind : IdKind}

/-- An id with a later time stands higher, whatever the lower bits are. -/
theorem rank_lt_of_millis_lt {i j : Id kind} (h : i.millis < j.millis) : i.rank < j.rank :=
  Nat.lt_of_div_lt_div h

end Id

namespace IdSource

/-- **A source has room for another id** at a time: the time fits the upper bits, and the lower bits
are not used up if the source must count up from the id before. Stepping sources wrap around. -/
def HasRoom (now : Instant) : IdSource → Prop
  | .stepping _ _ => False
  | .timed previous _ _ =>
    stamp now < Id.millisRange ∧ (stamp now ≤ previous.millis → successor? previous ≠ none)

instance (now : Instant) : (ids : IdSource) → Decidable (ids.HasRoom now)
  | .stepping _ _ => isFalse id
  | .timed previous _ _ => inferInstanceAs (Decidable
      (stamp now < Id.millisRange ∧ (stamp now ≤ previous.millis → successor? previous ≠ none)))

/-- A source that goes with the time has come as far as an id. -/
def HasPassed (i : JobId) : IdSource → Prop
  | .stepping _ _ => False
  | .timed previous _ _ => i.rank ≤ previous.rank

/-- The next id of the same stamp is the next number. -/
theorem rank_of_successor? {i j : JobId} (h : successor? i = some j) : j.rank = i.rank + 1 := by
  rw [successor?] at h
  split at h
  · cases h
  · rename_i hroom
    obtain rfl := Option.some.inj h
    have hlt := i.bits.isLt
    rw [Id.entropy, Id.entropyRange] at hroom
    have hnext : (i.bits + 1).toNat = (i.bits.toNat + 1) % 2 ^ 128 := BitVec.toNat_add _ _
    show (i.bits + 1).toNat = i.bits.toNat + 1
    -- the largest number of all has its lower bits used up
    omega

/-- A stamp that fits is found in the upper bits. -/
theorem millis_fresh {kind : IdKind} {stamp : Nat} (h : stamp < Id.millisRange)
    (random : BitVec 80) : (fresh stamp random : Id kind).millis = stamp := by
  have hrandom := random.isLt
  rw [Id.millisRange] at h
  have hbits : (fresh stamp random : Id kind).bits.toNat =
      (stamp % Id.millisRange * Id.entropyRange + random.toNat) % 2 ^ 128 := BitVec.toNat_ofNat _ _
  rw [Id.millis, hbits, Id.millisRange, Id.entropyRange]
  omega

variable {now : Instant} {ids : IdSource} {i : JobId}

/-- **What a source yields that has room:** the next id of the same stamp, or one of a later stamp. -/
theorem next_cases (hroom : ids.HasRoom now) :
    ∃ previous random used j used', ids = .timed previous random used ∧
      ids.next now = (j, .timed j random used') ∧
      (stamp now ≤ previous.millis ∧ successor? previous = some j ∨
        previous.millis < stamp now ∧ j = fresh (stamp now) (random used)) := by
  cases ids with
  | stepping next step => exact hroom.elim
  | timed previous random used =>
    by_cases hstill : stamp now ≤ previous.millis
    · obtain ⟨j, hsucc⟩ := Option.ne_none_iff_exists'.mp (hroom.2 hstill)
      exact ⟨previous, random, used, j, used, rfl, by simp only [next, if_pos hstill, hsucc],
        .inl ⟨hstill, hsucc⟩⟩
    · exact ⟨previous, random, used, _, used + 1, rfl, if_neg hstill,
        .inr ⟨Nat.lt_of_not_le hstill, rfl⟩⟩

/-- **The next id is above all before it.** -/
theorem HasPassed.rank_lt_next (hi : ids.HasPassed i) (hroom : ids.HasRoom now) :
    i.rank < (ids.next now).1.rank := by
  obtain ⟨previous, random, used, j, _, rfl, hnext, hj⟩ := next_cases hroom
  rw [hnext]
  refine Nat.lt_of_le_of_lt hi ?_
  obtain ⟨-, hsucc⟩ | ⟨hmoved, rfl⟩ := hj
  · exact Nat.lt_of_lt_of_eq (Nat.lt_succ_self _) (rank_of_successor? hsucc).symm
  · exact Id.rank_lt_of_millis_lt (Nat.lt_of_lt_of_eq hmoved (millis_fresh hroom.1 _).symm)

/-- A source has come as far as the id that it has yielded. -/
theorem hasPassed_next (hroom : ids.HasRoom now) : (ids.next now).2.HasPassed (ids.next now).1 := by
  obtain ⟨_, _, _, j, _, -, hnext, -⟩ := next_cases hroom
  rw [hnext]
  exact Nat.le_refl j.rank

theorem HasPassed.of_le {j : JobId} (hj : ids.HasPassed j) (h : i.rank ≤ j.rank) :
    ids.HasPassed i := by
  cases ids with
  | stepping next step => exact hj
  | timed previous random used => exact Nat.le_trans h hj

/-- It has still come as far as all before it. -/
theorem HasPassed.next (hi : ids.HasPassed i) (hroom : ids.HasRoom now) :
    (ids.next now).2.HasPassed i :=
  (hasPassed_next hroom).of_le (Nat.le_of_lt (hi.rank_lt_next hroom))

/-! ## Stamps -/

/-- The stamp that a source has come to: that of the id before, or zero before the first one. -/
def reached : IdSource → Nat
  | .stepping next _ => next.millis
  | .timed previous _ _ => previous.millis

/-- The next id of the same stamp does have the same stamp. -/
theorem millis_of_successor? {i j : JobId} (h : successor? i = some j) : j.millis = i.millis := by
  have hrank : j.bits.toNat = i.bits.toNat + 1 := rank_of_successor? h
  rw [successor?] at h
  split at h
  · cases h
  · rename_i hroom
    rw [Id.entropy, Id.entropyRange] at hroom
    rw [Id.millis, Id.millis, Id.entropyRange, hrank]
    omega

/-- **The next id is stamped with the later of two times,** that of the clock and that of the id
before it. -/
theorem millis_next (hroom : ids.HasRoom now) :
    (ids.next now).1.millis = max ids.reached (stamp now) := by
  obtain ⟨previous, random, used, j, _, rfl, hnext, hj⟩ := next_cases hroom
  rw [hnext, reached]
  obtain ⟨hstill, hsucc⟩ | ⟨hmoved, rfl⟩ := hj
  · rw [Nat.max_eq_left hstill, millis_of_successor? hsucc]
  · rw [Nat.max_eq_right (Nat.le_of_lt hmoved), millis_fresh hroom.1]

theorem reached_next (hroom : ids.HasRoom now) :
    (ids.next now).2.reached = (ids.next now).1.millis := by
  obtain ⟨_, _, _, _, _, -, hnext, -⟩ := next_cases hroom
  rw [hnext, reached]

/-! ## One id after the other -/

/-- **Takes ids,** one at each of several times. -/
def takeAt : List Instant → IdSource → List JobId × IdSource
  | [], ids => ([], ids)
  | now :: later, ids =>
    let (i, ids) := ids.next now
    let (is, ids) := ids.takeAt later
    (i :: is, ids)

/-- There is room for an id at each of several times, one after the other. -/
def HasRoomAt : List Instant → IdSource → Prop
  | [], _ => True
  | now :: later, ids => ids.HasRoom now ∧ (ids.next now).2.HasRoomAt later

instance decidableHasRoomAt :
    (times : List Instant) → (ids : IdSource) → Decidable (ids.HasRoomAt times)
  | [], _ => isTrue trivial
  | now :: later, ids =>
    have := decidableHasRoomAt later (ids.next now).2
    inferInstanceAs (Decidable (ids.HasRoom now ∧ (ids.next now).2.HasRoomAt later))

variable {times : List Instant}

theorem length_takeAt (times : List Instant) (ids : IdSource) :
    (ids.takeAt times).1.length = times.length := by
  induction times generalizing ids with
  | nil => rfl
  | cons now later ih => exact congrArg (· + 1) (ih _)

/-- All ids that are taken are above those that the source has passed. -/
theorem HasPassed.rank_lt_of_mem (hi : ids.HasPassed i) (hroom : ids.HasRoomAt times) :
    ∀ j ∈ (ids.takeAt times).1, i.rank < j.rank := by
  induction times generalizing ids with
  | nil => exact fun j hj => absurd hj List.not_mem_nil
  | cons now later ih =>
    intro j hj
    obtain ⟨hnow, hlater⟩ := hroom
    rcases List.mem_cons.mp hj with rfl | hj
    · exact hi.rank_lt_next hnow
    · exact ih (hi.next hnow) hlater j hj

/-- **Ids that are taken one after the other go up.** -/
theorem pairwise_takeAt (hroom : ids.HasRoomAt times) :
    (ids.takeAt times).1.Pairwise fun i j => i.rank < j.rank := by
  induction times generalizing ids with
  | nil => exact .nil
  | cons now later ih =>
    obtain ⟨hnow, hlater⟩ := hroom
    exact List.pairwise_cons.mpr ⟨(hasPassed_next hnow).rank_lt_of_mem hlater, ih hlater⟩

/-- The latest stamp of several times, or zero. -/
def latestStamp (times : List Instant) : Nat := (times.map stamp).foldr max 0

theorem latestStamp_cons (now : Instant) (later : List Instant) :
    latestStamp (now :: later) = max (stamp now) (latestStamp later) := rfl

/-- **An id is stamped with the latest time so far,** by induction on the times before. -/
theorem millis_takeAt (hroom : ids.HasRoomAt times) {k : Nat}
    (hi : (ids.takeAt times).1[k]? = some i) :
    i.millis = max ids.reached (latestStamp (times.take (k + 1))) := by
  induction times generalizing ids k with
  | nil => cases hi
  | cons now later ih =>
    obtain ⟨hnow, hlater⟩ := hroom
    cases k with
    | zero =>
      have hfirst : (ids.next now).1 = i := Option.some.inj hi
      rw [← hfirst, millis_next hnow, List.take_succ_cons, latestStamp_cons]
      exact congrArg (max ids.reached) (Nat.max_zero _).symm
    | succ k =>
      rw [ih hlater hi, reached_next hnow, millis_next hnow, List.take_succ_cons,
        latestStamp_cons, Nat.max_assoc]

/-- A time that is later than all before it gives the latest stamp. -/
theorem latestStamp_take {now : Instant} {k : Nat} (hk : times[k]? = some now)
    (hlatest : ∀ t ∈ times.take k, t.millis < now.millis) :
    latestStamp (times.take (k + 1)) = stamp now := by
  have htake : times.take (k + 1) = times.take k ++ [now] := by
    rw [List.take_add_one, hk, Option.toList_some]
  have hmem : stamp now ∈ (times.take (k + 1)).map stamp :=
    List.mem_map_of_mem (htake ▸ List.mem_append_right _ (List.mem_singleton.mpr rfl))
  refine Nat.le_antisymm (List.max_le_of_forall_le _ _ fun n hn => ?_)
    (List.le_max_of_le hmem (Nat.le_refl _))
  obtain ⟨t, ht, rfl⟩ := List.mem_map.mp hn
  rcases List.mem_append.mp (htake ▸ ht) with ht | ht
  · exact Int.toNat_le_toNat (Int.le_of_lt (hlatest t ht))
  · rw [List.mem_singleton.mp ht]

/-- **Ids never repeat and never go back.** A timed source takes ids at any times: the clock may go
on, stand still or be set back, also to before 1970. As long as there is room, each id is above all
before it. It is stamped with the latest time so far; so it has the time of the clock, if that is
after 1970 and later than at all ids before. -/
theorem ids_never_go_back {random : Nat → BitVec 80} (hroom : (ofRandom random).HasRoomAt times) :
    let ids := ((ofRandom random).takeAt times).1
    ids.length = times.length ∧ ids.Pairwise (fun i j => i.rank < j.rank) ∧ ids.Nodup ∧
    ∀ (k : Nat) (i : JobId) (now : Instant), ids[k]? = some i → times[k]? = some now →
      i.millis = latestStamp (times.take (k + 1)) ∧
      (.epoch ≤ now → (∀ t ∈ times.take k, t.millis < now.millis) →
        (i.millis : Int) = now.millis) := by
  have hpairwise := pairwise_takeAt hroom
  refine ⟨length_takeAt _ _, hpairwise, hpairwise.imp fun hlt heq => ?_, ?_⟩
  · exact Nat.lt_irrefl _ (heq ▸ hlt)
  intro k i now hi hnow
  have hstamp : i.millis = latestStamp (times.take (k + 1)) := by
    rw [millis_takeAt hroom hi]
    exact Nat.zero_max _
  refine ⟨hstamp, fun hepoch hlatest => ?_⟩
  rw [hstamp, latestStamp_take hnow hlatest, stamp]
  refine Int.toNat_of_nonneg ?_
  rw [Instant.millis, Int.fdiv_eq_ediv_of_nonneg _ (by decide)]
  exact Int.ediv_nonneg hepoch (by decide)

/-- Readings of a clock that is set to before 1970, then goes on, stands still for less than a
millisecond, is set back and goes on again. -/
def turningClock : List Instant :=
  [⟨-5000000, by decide, by decide⟩, ⟨7000000, by decide, by decide⟩,
    ⟨7000400, by decide, by decide⟩, ⟨-1, by decide, by decide⟩, ⟨9000000, by decide, by decide⟩]

/-- Ids go up on a clock that turns back, though the random bits go down. -/
theorem ids_go_up_on_a_turning_clock :
    let source := ofRandom fun n => BitVec.ofNat 80 (9 - n)
    let ids := (source.takeAt turningClock).1
    source.HasRoomAt turningClock ∧ ids.map Id.millis = [0, 7, 7, 7, 9] ∧
    ids.map Id.entropy = [1, 9, 10, 11, 8] ∧
    ids.Pairwise (fun i j => i.rank < j.rank) ∧ ids.Nodup := by
  intro source ids
  have hroom : source.HasRoomAt turningClock := by decide +kernel
  obtain ⟨-, hpairwise, hnodup, -⟩ := ids_never_go_back hroom
  exact ⟨hroom, by decide +kernel, by decide +kernel, hpairwise, hnodup⟩

end IdSource

end SyncJobs
