import SyncJobs.Binary64

/-!
# JSON values

A `Json` value keeps the members of an object in the order in which they were written, with
repeated names if there are any. A `Payload` is a value in *canonical* form: in every object the
names are strictly ascending, so that two payloads are equal exactly if they hold the same data.
`Json.canonical` brings any value to that form (`isCanonical_canonical`); of members with one name
the last one is kept.
-/

namespace SyncJobs

/-- An integer that a JSON value can hold: from `-2 ^ 63` up to `2 ^ 64 - 1`. -/
structure Json.Integer where
  value : Int
  lower : -0x8000000000000000 ≤ value
  upper : value < 0x10000000000000000
  deriving DecidableEq, Repr

/-- **A JSON value.** Members of objects stand in the order of the text. -/
inductive Json where
  | null
  | bool (b : Bool)
  | integer (n : Json.Integer)
  | float (x : Binary64)
  | string (s : String)
  | array (items : List Json)
  | object (members : List (String × Json))
  deriving BEq, Repr, Inhabited

namespace Json

/-- The integer, if a JSON value can hold it. -/
def Integer.ofInt? (n : Int) : Option Integer :=
  if h : -0x8000000000000000 ≤ n ∧ n < 0x10000000000000000 then some ⟨n, h.1, h.2⟩ else none

/-- A number of at most 64 bits as a value. -/
def ofUInt64 (n : UInt64) : Json :=
  .integer ⟨n.toNat, by omega, by have := n.toNat_lt; omega⟩

/-- A number of at most 32 bits as a value. -/
def ofUInt32 (n : UInt32) : Json :=
  .integer ⟨n.toNat, by omega, by have := n.toNat_lt; omega⟩

/-- A signed number of 64 bits as a value. -/
def ofInt64 (n : Int64) : Json :=
  .integer ⟨n.toInt, by have := n.le_toInt; omega, by have := n.toInt_lt; omega⟩

/-- A natural number as a value; one that is too large for an integer becomes the largest. -/
def ofNat (n : Nat) : Json :=
  .integer ⟨min n 0xffffffffffffffff, by omega, by omega⟩

/-- The value `null` for what is missing. -/
def ofOption {α : Type} (f : α → Json) : Option α → Json
  | none => .null
  | some a => f a

/-- The value of the last member with a name. -/
def member? (name : String) : Json → Option Json
  | .object ms => (ms.reverse.find? fun m => m.1 = name).map (·.2)
  | _ => none

/-! ## Canonical form -/

/-- Puts a member at its place among members in ascending order of names. -/
def insertMember (name : String) (v : Json) : List (String × Json) → List (String × Json)
  | [] => [(name, v)]
  | (m, w) :: rest =>
    if name < m then (name, v) :: (m, w) :: rest
    else if m < name then (m, w) :: insertMember name v rest
    else (name, v) :: rest

mutual

/-- The canonical form of a value. -/
def canonical : Json → Json
  | .array items => .array (canonicalItems items)
  | .object members => .object (canonicalMembers [] members)
  | v => v

/-- The canonical forms of the items. -/
def canonicalItems : List Json → List Json
  | [] => []
  | v :: vs => canonical v :: canonicalItems vs

/-- The canonical forms of the members, entered one by one into an ascending list. -/
def canonicalMembers (done : List (String × Json)) :
    List (String × Json) → List (String × Json)
  | [] => done
  | (name, v) :: ms => canonicalMembers (insertMember name (canonical v) done) ms

end

/-- Whether names are strictly ascending. -/
def ascending : List (String × Json) → Bool
  | [] => true
  | [_] => true
  | (m, _) :: (n, w) :: rest => decide (m < n) && ascending ((n, w) :: rest)

mutual

/-- Whether a value is in canonical form. -/
def isCanonical : Json → Bool
  | .array items => allCanonical items
  | .object members => ascending members && membersCanonical members
  | _ => true

/-- Whether all items are in canonical form. -/
def allCanonical : List Json → Bool
  | [] => true
  | v :: vs => isCanonical v && allCanonical vs

/-- Whether the values of all members are in canonical form. -/
def membersCanonical : List (String × Json) → Bool
  | [] => true
  | (_, v) :: ms => isCanonical v && membersCanonical ms

end

theorem membersCanonical_insertMember {name : String} {v : Json} (hv : isCanonical v)
    {ms : List (String × Json)} (h : membersCanonical ms) :
    membersCanonical (insertMember name v ms) := by
  induction ms with
  | nil => simpa [insertMember, membersCanonical] using hv
  | cons m ms ih =>
    obtain ⟨n, w⟩ := m
    simp only [membersCanonical, Bool.and_eq_true] at h
    unfold insertMember
    split
    · simp [membersCanonical, hv, h.1, h.2]
    · split
      · simp [membersCanonical, h.1, ih h.2]
      · simp [membersCanonical, hv, h.2]

/-- A list is ascending if its tail is and every later name is above the first. -/
theorem ascending_cons_iff {m : String × Json} {ms : List (String × Json)} :
    ascending (m :: ms) ↔ (∀ n ∈ ms.head?, m.1 < n.1) ∧ ascending ms := by
  cases ms with
  | nil => simp [ascending]
  | cons n ms => obtain ⟨a, b⟩ := m; obtain ⟨c, d⟩ := n; simp [ascending]

theorem ascending_insertMember {name : String} {v : Json} {ms : List (String × Json)}
    (h : ascending ms) : ascending (insertMember name v ms) := by
  induction ms with
  | nil => simp [insertMember, ascending]
  | cons m ms ih =>
    obtain ⟨n, w⟩ := m
    rw [ascending_cons_iff] at h
    unfold insertMember
    split
    · rename_i hlt
      rw [ascending_cons_iff, ascending_cons_iff]
      exact ⟨by simpa using hlt, h⟩
    · rename_i hge
      split
      · rename_i hgt
        rw [ascending_cons_iff]
        refine ⟨?_, ih h.2⟩
        intro p hp
        cases ms with
        | nil =>
          simp only [insertMember, List.head?_cons, Option.mem_some_iff] at hp
          subst hp; exact hgt
        | cons q ms =>
          obtain ⟨q₁, q₂⟩ := q
          have hq : n < q₁ := h.1 (q₁, q₂) rfl
          unfold insertMember at hp
          split at hp
          · simp only [List.head?_cons, Option.mem_some_iff] at hp; subst hp; exact hgt
          · split at hp
            · simp only [List.head?_cons, Option.mem_some_iff] at hp; subst hp; exact hq
            · simp only [List.head?_cons, Option.mem_some_iff] at hp; subst hp; exact hgt
      · rename_i hle
        have : name = n := by
          have h₁ : ¬ name < n := hge
          have h₂ : ¬ n < name := hle
          exact String.le_antisymm (String.not_lt.mp h₂) (String.not_lt.mp h₁)
        subst this
        rw [ascending_cons_iff]
        exact ⟨h.1, h.2⟩

mutual

/-- **The canonical form is canonical.** -/
theorem isCanonical_canonical : ∀ v : Json, isCanonical (canonical v)
  | .null => rfl
  | .bool _ => rfl
  | .integer _ => rfl
  | .float _ => rfl
  | .string _ => rfl
  | .array items => by
    simpa [canonical, isCanonical] using allCanonical_canonicalItems items
  | .object members => by
    simpa [canonical, isCanonical] using
      canonicalMembers_canonical [] rfl rfl members

theorem allCanonical_canonicalItems : ∀ vs : List Json, allCanonical (canonicalItems vs)
  | [] => rfl
  | v :: vs => by
    simp [canonicalItems, allCanonical, isCanonical_canonical v, allCanonical_canonicalItems vs]

theorem canonicalMembers_canonical (done : List (String × Json)) (h₁ : ascending done)
    (h₂ : membersCanonical done) : ∀ ms : List (String × Json),
    ascending (canonicalMembers done ms) ∧ membersCanonical (canonicalMembers done ms)
  | [] => ⟨h₁, h₂⟩
  | (name, v) :: ms => by
    unfold canonicalMembers
    exact canonicalMembers_canonical _ (ascending_insertMember h₁)
      (membersCanonical_insertMember (isCanonical_canonical v) h₂) ms

end

end Json

/-! ## Payloads -/

/-- **A value in canonical form.** -/
structure Payload where
  value : Json
  canonical : value.isCanonical

namespace Payload

/-- The canonical form of a value. -/
def ofJson (v : Json) : Payload := ⟨v.canonical, Json.isCanonical_canonical v⟩

/-- The payload `null`. -/
def null : Payload := ⟨.null, rfl⟩

instance : Inhabited Payload := ⟨null⟩

instance : Repr Payload := ⟨fun p => reprPrec p.value⟩

/-- The value of a member, if the payload is an object that has it. -/
def member? (name : String) (p : Payload) : Option Json := p.value.member? name

end Payload

end SyncJobs
