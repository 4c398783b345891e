import SyncJobs.Job
import SyncJobs.Outcome
import SyncJobs.Proofs.IdTexts
import SyncJobs.Proofs.JsonText
import SyncJobs.Proofs.TimeTexts

/-!
# Records are read back

Jobs, requests, decisions and outcomes are read back from the texts they were written as
(`records_are_read_back`). The text gives back the value that was written, unless a payload is nested
too deep for the reader, and from the value the record is read field by field. A reader that finds
its field leaves all members in place for the next one (`Json.Fields.reads_on`), so each record comes
down to its fields, one after the other: ids, names, numbers, times and payloads are what they were.
A field that was left out or is `null` has no value again, and a tag says which fields there are.
-/

namespace SyncJobs

namespace Json

/-! ## Numbers and times -/

theorem uint32?_ofUInt32 (n : UInt32) : uint32? (.ofUInt32 n) = some n := by
  have hlt := n.toNat_lt
  simp [uint32?, ofUInt32, natBelow?, hlt]

theorem uint64?_ofUInt64 (n : UInt64) : uint64? (.ofUInt64 n) = some n := by
  have hlt := n.toNat_lt
  simp [uint64?, ofUInt64, natBelow?, hlt]

theorem int64?_ofInt64 (n : Int64) : int64? (.ofInt64 n) = some n := by
  have hlt : n.toInt < 0x8000000000000000 := n.toInt_lt
  simp [int64?, ofInt64, hlt]

theorem instant?_ofInstant (t : Instant) : instant? (ofInstant t) = some t := t.parse?_text

/-! ## Fields -/

namespace Fields

variable {α β : Type} {name : String} {ms : List (String × Json)} {v : Json} {a : α}

/-- A reader that leaves all members in place is followed by the next one. -/
theorem reads_on {source : Fields} {reader : Reader α} {next : α → Reader β} {b : β}
    (h : reader source = some (a, source)) (hnext : next a source = some (b, source)) :
    (reader >>= next) source = some (b, source) := by
  show (reader source >>= fun x => next x.1 x.2) = _
  rw [h]
  exact hnext

theorem required_of_named {read : Json → Option α} (h : named name ms = [v])
    (hread : read v = some a) : required name read (.members ms) = some (a, .members ms) := by
  simp only [required, h, hread, Option.map_some]

theorem defaulted_of_named {read : Json → Option α} {default : α} (h : named name ms = [v])
    (hread : read v = some a) :
    defaulted name read default (.members ms) = some (a, .members ms) := by
  simp only [defaulted, h, hread, Option.map_some]

/-- A field that was written as `null` for want of a value has none again. -/
theorem nullable_of_named {read : Json → Option α} {write : α → Json} (value : Option α)
    (h : named name ms = [.ofOption write value]) (hread : ∀ a, read (write a) = some a)
    (hnull : ∀ a, write a ≠ .null) :
    nullable name read (.members ms) = some (value, .members ms) := by
  cases value with
  | none => simp [nullable, h, ofOption]
  | some a => simp [nullable, h, ofOption, hread, hnull]

/-- A record is what its reader makes of the members. -/
theorem record_object {reader : Reader α} (h : reader (.members ms) = some (a, .members ms)) :
    record reader (.object ms) = some a := by
  rw [record, run, h]

/-- A tagged record is what the reader for its tag makes of the other members. -/
theorem tagged_object {tag : String} {variant : String → Option (Reader α)} {reader : Reader α}
    (kind : String) {others : List (String × Json)} (htag : named tag ms = [.string kind])
    (hvariant : variant kind = some reader) (hothers : ms.filter (fun m => m.1 ≠ tag) = others)
    (h : reader (.members others) = some (a, .members others)) :
    tagged tag variant (.object ms) = some a := by
  rw [tagged, htag]
  simp only [hvariant, hothers, Option.bind_some, run, h]

end Fields

end Json

theorem Id.ofJson?_toJson {kind : IdKind} (i : Id kind) : Id.ofJson? i.toJson = some i := by
  rw [toJson, ofJson?, ofStorage, storage, Crockford.decode_encode]
  rfl

theorem Domain.ofJson?_toJson (d : Domain) : ofJson? d.toJson = some d := d.ofName?_name

theorem Status.ofJson?_toJson (s : Status) : ofJson? s.toJson = some s := s.ofName?_name

/-! ## Records -/

open Json.Fields

/-- **Jobs are read back from their values.** -/
theorem Job.ofJson?_toJson (j : Job) : ofJson? j.toJson = some j := by
  refine record_object ?_
  refine reads_on (required_of_named rfl j.id.ofJson?_toJson) ?_
  refine reads_on (required_of_named rfl j.account.ofJson?_toJson) ?_
  refine reads_on (required_of_named rfl j.domain.ofJson?_toJson) ?_
  refine reads_on (required_of_named rfl j.status.ofJson?_toJson) ?_
  refine reads_on (required_of_named rfl (congrArg some j.payload.ofJson_value)) ?_
  refine reads_on (required_of_named rfl (Json.uint32?_ofUInt32 j.attempts)) ?_
  refine reads_on (required_of_named rfl (Json.uint32?_ofUInt32 j.maxAttempts)) ?_
  refine reads_on (required_of_named rfl (Json.instant?_ofInstant j.runAfter)) ?_
  refine reads_on (nullable_of_named j.lastError rfl (fun _ => rfl) nofun) ?_
  refine reads_on (required_of_named rfl (Json.instant?_ofInstant j.createdAt)) ?_
  exact reads_on (required_of_named rfl (Json.instant?_ofInstant j.updatedAt)) rfl

/-- **Requests are read back from their values,** with a ceiling or without. -/
theorem Request.ofJson?_toJson (r : Request) : ofJson? r.toJson = some r := by
  obtain ⟨account, domain, payload, offset, ceiling⟩ := r
  cases ceiling with
  | none =>
    refine record_object ?_
    refine reads_on (required_of_named rfl account.ofJson?_toJson) ?_
    refine reads_on (required_of_named rfl domain.ofJson?_toJson) ?_
    refine reads_on (defaulted_of_named rfl (congrArg some payload.ofJson_value)) ?_
    refine reads_on (defaulted_of_named rfl (Json.int64?_ofInt64 offset)) ?_
    exact reads_on (a := none) rfl rfl
  | some n =>
    have hceiling := congrArg (Option.map some) (Json.uint32?_ofUInt32 n)
    refine record_object ?_
    refine reads_on (required_of_named rfl account.ofJson?_toJson) ?_
    refine reads_on (required_of_named rfl domain.ofJson?_toJson) ?_
    refine reads_on (defaulted_of_named rfl (congrArg some payload.ofJson_value)) ?_
    refine reads_on (defaulted_of_named rfl (Json.int64?_ofInt64 offset)) ?_
    exact reads_on (defaulted_of_named rfl hceiling) rfl

/-- **Decisions are read back from their values.** -/
theorem Decision.ofJson?_toJson (d : Decision) : ofJson? d.toJson = some d := by
  cases d with
  | succeed n =>
    refine tagged_object "succeed" rfl rfl rfl ?_
    exact reads_on (required_of_named rfl (Json.uint64?_ofUInt64 n)) rfl
  | retry t e =>
    refine tagged_object "retry" rfl rfl rfl ?_
    refine reads_on (required_of_named rfl (Json.instant?_ofInstant t)) ?_
    exact reads_on (required_of_named rfl (v := .string e) rfl) rfl
  | deadLetter e =>
    refine tagged_object "dead_letter" rfl rfl rfl ?_
    exact reads_on (required_of_named rfl (v := .string e) rfl) rfl

/-- **Outcomes are read back from their values.** -/
theorem Outcome.ofJson?_toJson (o : Outcome) : ofJson? o.toJson = some o := by
  cases o with
  | success n =>
    refine tagged_object "success" rfl rfl rfl ?_
    exact reads_on (required_of_named rfl (Json.uint64?_ofUInt64 n)) rfl
  | transient e =>
    refine tagged_object "transient" rfl rfl rfl ?_
    exact reads_on (required_of_named rfl (v := .string e) rfl) rfl
  | permanent e =>
    refine tagged_object "permanent" rfl rfl rfl ?_
    exact reads_on (required_of_named rfl (v := .string e) rfl) rfl

/-! ## Texts of records -/

/-- **What is read from the text of a record.** -/
def Json.reread? {α : Type} (write : α → Json) (read : Json → Option α) (a : α) : Option α :=
  (parse? (write a).compact).bind read

/-- Without floats a record is read back exactly if what it holds is not nested too deep. -/
theorem Json.reread?_eq {α : Type} {write : α → Json} {read : Json → Option α} {a : α} {depth : Nat}
    (hread : read (write a) = some a) (hfree : (write a).isFloatFree)
    (hnesting : (write a).nesting = depth + 1) :
    reread? write read a = if depth ≤ 126 then some a else none := by
  have hdepth : (write a).nesting ≤ maxDepth ↔ depth ≤ 126 := by
    rw [hnesting, maxDepth]
    omega
  obtain ⟨hfit, hsame⟩ := plain_of_isFloatFree _ hfree
  rw [reread?, parse?_compact_eq hfit, hsame]
  simp only [hdepth]
  split
  · exact hread
  · rfl

/-- Of the fields of a job, only the payload may hold floats, and it is nested the deepest. -/
theorem Job.plain_toJson (j : Job) : j.toJson.isFloatFree = j.payload.value.isFloatFree ∧
    j.toJson.nesting = j.payload.value.nesting + 1 := by
  cases hlast : j.lastError <;>
    simp [toJson, hlast, Id.toJson, Domain.toJson, Status.toJson, Json.ofUInt32, Json.ofInstant,
      Json.ofOption, Json.isFloatFree, Json.membersFloatFree, Json.nesting, Json.membersNesting]

/-- Of the fields of a request, only the payload may hold floats, and it is nested the deepest. -/
theorem Request.plain_toJson (r : Request) : r.toJson.isFloatFree = r.payload.value.isFloatFree ∧
    r.toJson.nesting = r.payload.value.nesting + 1 := by
  cases hceiling : r.maxAttempts <;>
    simp [toJson, hceiling, Id.toJson, Domain.toJson, Json.ofUInt32, Json.ofInt64,
      Json.isFloatFree, Json.membersFloatFree, Json.nesting, Json.membersNesting]

theorem Decision.plain_toJson (d : Decision) : d.toJson.isFloatFree ∧ d.toJson.nesting = 0 + 1 := by
  cases d <;> exact ⟨rfl, rfl⟩

theorem Outcome.plain_toJson (o : Outcome) : o.toJson.isFloatFree ∧ o.toJson.nesting = 0 + 1 := by
  cases o <;> exact ⟨rfl, rfl⟩

/-- **Records are read back from their texts,** whatever their ids, names, numbers, times and errors
are. The payload of a job or a request must hold no floats, and the record is read back exactly if
that payload is nested at most 126 deep. -/
theorem records_are_read_back :
    (∀ j : Job, j.payload.value.isFloatFree → Json.reread? Job.toJson Job.ofJson? j =
      if j.payload.value.nesting ≤ 126 then some j else none) ∧
    (∀ r : Request, r.payload.value.isFloatFree → Json.reread? Request.toJson Request.ofJson? r =
      if r.payload.value.nesting ≤ 126 then some r else none) ∧
    (∀ d : Decision, Json.reread? Decision.toJson Decision.ofJson? d = some d) ∧
    ∀ o : Outcome, Json.reread? Outcome.toJson Outcome.ofJson? o = some o := by
  refine ⟨fun j hj => ?_, fun r hr => ?_, fun d => ?_, fun o => ?_⟩
  · obtain ⟨hfree, hnesting⟩ := j.plain_toJson
    exact Json.reread?_eq j.ofJson?_toJson (hfree.trans hj) hnesting
  · obtain ⟨hfree, hnesting⟩ := r.plain_toJson
    exact Json.reread?_eq r.ofJson?_toJson (hfree.trans hr) hnesting
  · exact Json.reread?_eq d.ofJson?_toJson d.plain_toJson.1 d.plain_toJson.2
  · exact Json.reread?_eq o.ofJson?_toJson o.plain_toJson.1 o.plain_toJson.2

/-- A payload of names and numbers that must be escaped or have a sign. -/
def Payload.mixed : Payload where
  value := .object [("", .array [.null, .bool true]), ("\n\"", .string "\x01 \\ \u00e9"),
    ("min", .integer ⟨-0x8000000000000000, by decide, by decide⟩)]
  canonical := by decide +kernel

/-- A failed job between the ends of time. -/
def Job.extreme : Job where
  id := ⟨BitVec.allOnes 128⟩
  account := ⟨0⟩
  domain := .tasks
  status := .deadLetter
  payload := .mixed
  attempts := 0xffffffff
  maxAttempts := 0
  runAfter := .latest
  lastError := some "\t503"
  createdAt := .earliest
  updatedAt := .epoch

/-- A request that names no ceiling. -/
def Request.extreme : Request := ⟨⟨1⟩, .email, .mixed, -1, none⟩

/-- Such a job and such a request are read back. -/
theorem extreme_records_are_read_back :
    Payload.mixed.value.isFloatFree ∧
    Json.reread? Job.toJson Job.ofJson? .extreme = some Job.extreme ∧
    Json.reread? Request.toJson Request.ofJson? .extreme = some Request.extreme := by
  have hfree : Payload.mixed.value.isFloatFree := rfl
  have hnesting : Payload.mixed.value.nesting ≤ 126 := by decide
  exact ⟨hfree, (records_are_read_back.1 .extreme hfree).trans (if_pos hnesting),
    (records_are_read_back.2.1 .extreme hfree).trans (if_pos hnesting)⟩

end SyncJobs
