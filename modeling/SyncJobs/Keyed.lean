/-!
# Keyed collections: at most one item per key

A `Keyed` collection is a list in which no two items have the same key. It is the common shape of
everything here that is looked up by name: the jobs of a store, the rows of a table, the accounts
of a directory.

Its view is the list itself (`toList`). Each operation is described once through that view, so
that nothing above this file has to look inside: `toList_insert`, `toList_filter`,
`toList_update`, and for look-ups `get?_eq_some_iff`.
-/

namespace SyncJobs

/-- **A list with distinct keys.** The order of the list is the order of insertion. -/
structure Keyed {α κ : Type} (key : α → κ) where
  /-- the items, oldest first -/
  toList : List α
  /-- no two items share a key -/
  nodup : (toList.map key).Nodup

namespace Keyed

variable {α κ : Type} {key : α → κ}

/-- The collection with no items. -/
def empty : Keyed key := ⟨[], List.nodup_nil⟩

instance : EmptyCollection (Keyed key) := ⟨empty⟩

@[simp] theorem toList_empty : (∅ : Keyed key).toList = [] := rfl

@[ext] theorem ext {c d : Keyed key} (h : c.toList = d.toList) : c = d := by
  cases c; cases d; cases h; rfl

/-! ## Look-up -/

/-- The item with the given key. -/
def get? [DecidableEq κ] (c : Keyed key) (k : κ) : Option α :=
  c.toList.find? fun a => key a = k

/-- Whether an item has the given key. -/
def contains [DecidableEq κ] (c : Keyed key) (k : κ) : Bool :=
  (c.get? k).isSome

/-- Two items of one collection with the same key are the same item. -/
theorem eq_of_key_eq {c : Keyed key} {a b : α} (ha : a ∈ c.toList) (hb : b ∈ c.toList)
    (h : key a = key b) : a = b := by
  obtain ⟨l, hl⟩ := c
  simp only at ha hb
  induction l with
  | nil => cases ha
  | cons x l ih =>
    rw [List.map_cons, List.nodup_cons] at hl
    rcases List.mem_cons.mp ha with rfl | ha' <;> rcases List.mem_cons.mp hb with rfl | hb'
    · rfl
    · exact absurd (h ▸ List.mem_map_of_mem hb') hl.1
    · exact absurd (h.symm ▸ List.mem_map_of_mem ha') hl.1
    · exact ih hl.2 ha' hb'

/-- Looking a key up finds exactly the item that carries it. -/
theorem get?_eq_some_iff [DecidableEq κ] {c : Keyed key} {k : κ} {a : α} :
    c.get? k = some a ↔ a ∈ c.toList ∧ key a = k := by
  constructor
  · intro h
    have hk : key a = k := by simpa using List.find?_some h
    exact ⟨List.mem_of_find?_eq_some h, hk⟩
  · rintro ⟨ha, rfl⟩
    cases h : c.get? (key a) with
    | none => simpa using List.find?_eq_none.mp h a ha
    | some b =>
      have hb : b ∈ c.toList := List.mem_of_find?_eq_some h
      have hk : key b = key a := by simpa using List.find?_some h
      rw [eq_of_key_eq hb ha hk]

/-- A key is missing exactly if no item carries it. -/
theorem get?_eq_none_iff [DecidableEq κ] {c : Keyed key} {k : κ} :
    c.get? k = none ↔ ∀ a ∈ c.toList, key a ≠ k := by
  simp [get?]

/-! ## Change -/

/-- The items that satisfy a test. -/
def filter (c : Keyed key) (p : α → Bool) : Keyed key where
  toList := c.toList.filter p
  nodup := c.nodup.sublist ((List.filter_sublist).map key)

@[simp] theorem toList_filter (c : Keyed key) (p : α → Bool) :
    (c.filter p).toList = c.toList.filter p := rfl

/-- Adds an item at the end; an item that has the same key gives way to it. -/
def insert [DecidableEq κ] (c : Keyed key) (a : α) : Keyed key where
  toList := c.toList.filter (fun b => key b ≠ key a) ++ [a]
  nodup := by
    rw [List.map_append, List.nodup_append]
    refine ⟨(c.filter _).nodup, by simp, ?_⟩
    intro k hk l hl
    obtain ⟨b, hb, rfl⟩ := List.mem_map.mp hk
    have hne := (List.mem_filter.mp hb).2
    simp only [List.map_cons, List.map_nil, List.mem_singleton] at hl
    simpa [hl] using hne

@[simp] theorem toList_insert [DecidableEq κ] (c : Keyed key) (a : α) :
    (c.insert a).toList = c.toList.filter (fun b => key b ≠ key a) ++ [a] := rfl

/-- Takes out the item with the given key. -/
def erase [DecidableEq κ] (c : Keyed key) (k : κ) : Keyed key :=
  c.filter fun a => key a ≠ k

/-- Changes the items that satisfy a test, by a function that keeps keys. -/
def update (c : Keyed key) (p : α → Bool) (f : α → α) (hf : ∀ a, key (f a) = key a) :
    Keyed key where
  toList := c.toList.map fun a => if p a then f a else a
  nodup := by
    have h : (c.toList.map fun a => if p a then f a else a).map key = c.toList.map key := by
      rw [List.map_map]
      refine List.map_congr_left fun a _ => ?_
      simp only [Function.comp]
      split
      · exact hf a
      · rfl
    rw [h]
    exact c.nodup

@[simp] theorem toList_update (c : Keyed key) (p : α → Bool) (f : α → α)
    (hf : ∀ a, key (f a) = key a) :
    (c.update p f hf).toList = c.toList.map fun a => if p a then f a else a := rfl

/-! ## Look-up after a change -/

/-- An item that is kept is found under its key. -/
theorem get?_key [DecidableEq κ] {c : Keyed key} {a : α} (ha : a ∈ c.toList) :
    c.get? (key a) = some a :=
  get?_eq_some_iff.mpr ⟨ha, rfl⟩

/-- Adding an item changes what is found under its key and nothing else. -/
theorem get?_insert [DecidableEq κ] (c : Keyed key) (a : α) (k : κ) :
    (c.insert a).get? k = if key a = k then some a else c.get? k := by
  split
  · rename_i h
    exact get?_eq_some_iff.mpr ⟨by simp, h⟩
  · rename_i h
    have hne : decide (key a = k) = false := decide_eq_false h
    simp only [get?, toList_insert, List.find?_append, List.find?_filter, List.find?_singleton,
      hne, Option.or_none, Bool.false_eq_true, if_false]
    congr 1
    funext b
    by_cases hb : key b = k
    · subst hb
      simp [Ne.symm h]
    · simp [hb]

/-- Of the items that satisfy a test, the same are found as before. -/
theorem get?_filter [DecidableEq κ] (c : Keyed key) (p : α → Bool) (k : κ) :
    (c.filter p).get? k = (c.get? k).filter p := by
  cases h : c.get? k with
  | none =>
    refine get?_eq_none_iff.mpr fun a ha => ?_
    exact get?_eq_none_iff.mp h a (List.mem_filter.mp ha).1
  | some a =>
    obtain ⟨ha, hk⟩ := get?_eq_some_iff.mp h
    by_cases hp : p a
    · rw [Option.filter_some, if_pos hp]
      exact get?_eq_some_iff.mpr ⟨List.mem_filter.mpr ⟨ha, hp⟩, hk⟩
    · rw [Option.filter_some, if_neg hp]
      refine get?_eq_none_iff.mpr fun b hb he => hp ?_
      obtain ⟨hb, hpb⟩ := List.mem_filter.mp hb
      rwa [eq_of_key_eq ha hb (hk.trans he.symm)]

/-- Changing items changes what is found. -/
theorem get?_update [DecidableEq κ] (c : Keyed key) (p : α → Bool) (f : α → α)
    (hf : ∀ a, key (f a) = key a) (k : κ) :
    (c.update p f hf).get? k = (c.get? k).map fun a => if p a then f a else a := by
  rw [get?, get?, toList_update, List.find?_map]
  congr 2
  funext a
  simp only [Function.comp]
  split
  · rw [hf a]
  · rfl

/-- The first item with a key that passes a test is the item with that key, if it passes. -/
theorem find?_key_and [DecidableEq κ] (c : Keyed key) (k : κ) (p : α → Bool) :
    c.toList.find? (fun a => key a = k && p a) = (c.get? k).filter p := by
  rw [← get?_filter, get?, toList_filter, List.find?_filter]
  congr 1
  funext a
  by_cases hk : key a = k <;> simp [hk]

/-- Builds a collection from a list; of items with one key the last is kept. -/
def ofList [DecidableEq κ] (l : List α) : Keyed key :=
  l.foldl insert ∅

end Keyed

end SyncJobs
