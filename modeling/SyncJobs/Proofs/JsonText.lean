import Mathlib.Data.Option.Basic
import SyncJobs.Proofs.FloatTexts

/-!
# JSON texts are read back

A value is read back from its text if it is nested no deeper than the reader goes, and only then
(`Json.parse?_compact_eq`). It is read as what it was, but for its floats, each of which is read as
some float (`Json.readBack`). Reading goes on behind a value, so each fact is stated for a text with
more behind it; a number is the only value that has to know what that is (`Reader.Closes`).

A value in canonical form is its own canonical form (`Json.canonical_of_isCanonical`). So a payload
that is written and read is the payload that it was.
-/

namespace SyncJobs

namespace Json

/-! ## Plain values -/

mutual

/-- Whether a value holds no floats. -/
def isFloatFree : Json → Bool
  | .float _ => false
  | .array items => allFloatFree items
  | .object members => membersFloatFree members
  | _ => true

/-- Whether items hold no floats. -/
def allFloatFree : List Json → Bool
  | [] => true
  | v :: vs => isFloatFree v && allFloatFree vs

/-- Whether the values of members hold no floats. -/
def membersFloatFree : List (String × Json) → Bool
  | [] => true
  | (_, v) :: ms => isFloatFree v && membersFloatFree ms

end

mutual

/-- Whether the floats of a value are floats of 64 bits. -/
def floatsFit : Json → Bool
  | .float x => x.fits
  | .array items => allFloatsFit items
  | .object members => membersFloatsFit members
  | _ => true

/-- Whether the floats of items are floats of 64 bits. -/
def allFloatsFit : List Json → Bool
  | [] => true
  | v :: vs => floatsFit v && allFloatsFit vs

/-- Whether the floats of the values of members are floats of 64 bits. -/
def membersFloatsFit : List (String × Json) → Bool
  | [] => true
  | (_, v) :: ms => floatsFit v && membersFloatsFit ms

end

mutual

/-- **What a value is read back as:** the value with what its floats are read back as. -/
def readBack : Json → Json
  | .float x => x.readBack
  | .array items => .array (itemsReadBack items)
  | .object members => .object (membersReadBack members)
  | v => v

/-- What items are read back as. -/
def itemsReadBack : List Json → List Json
  | [] => []
  | v :: vs => readBack v :: itemsReadBack vs

/-- What members are read back as. -/
def membersReadBack : List (String × Json) → List (String × Json)
  | [] => []
  | (name, v) :: ms => (name, readBack v) :: membersReadBack ms

end

mutual

/-- A value without floats is read back as it was. -/
theorem plain_of_isFloatFree : ∀ v : Json, v.isFloatFree → v.floatsFit ∧ v.readBack = v
  | .null => fun _ => ⟨rfl, rfl⟩
  | .bool _ => fun _ => ⟨rfl, rfl⟩
  | .integer _ => fun _ => ⟨rfl, rfl⟩
  | .float _ => fun h => nomatch h
  | .string _ => fun _ => ⟨rfl, rfl⟩
  | .array items => fun h =>
    (plain_of_allFloatFree items h).imp_right (congrArg array)
  | .object members => fun h =>
    (plain_of_membersFloatFree members h).imp_right (congrArg object)

theorem plain_of_allFloatFree : ∀ vs : List Json, allFloatFree vs →
    allFloatsFit vs ∧ itemsReadBack vs = vs
  | [] => fun _ => ⟨rfl, rfl⟩
  | v :: vs => by
    intro h
    obtain ⟨hv, hvs⟩ := Bool.and_eq_true_iff.mp h
    obtain ⟨hfit, hsame⟩ := plain_of_isFloatFree v hv
    obtain ⟨hfits, hsames⟩ := plain_of_allFloatFree vs hvs
    exact ⟨Bool.and_eq_true_iff.mpr ⟨hfit, hfits⟩, by rw [itemsReadBack, hsame, hsames]⟩

theorem plain_of_membersFloatFree : ∀ ms : List (String × Json), membersFloatFree ms →
    membersFloatsFit ms ∧ membersReadBack ms = ms
  | [] => fun _ => ⟨rfl, rfl⟩
  | (name, v) :: ms => by
    intro h
    obtain ⟨hv, hms⟩ := Bool.and_eq_true_iff.mp h
    obtain ⟨hfit, hsame⟩ := plain_of_isFloatFree v hv
    obtain ⟨hfits, hsames⟩ := plain_of_membersFloatFree ms hms
    exact ⟨Bool.and_eq_true_iff.mpr ⟨hfit, hfits⟩, by rw [membersReadBack, hsame, hsames]⟩

end

mutual

/-- How deep arrays and objects are nested in a value. -/
def nesting : Json → Nat
  | .array items => itemsNesting items + 1
  | .object members => membersNesting members + 1
  | _ => 0

/-- How deep arrays and objects are nested in items. -/
def itemsNesting : List Json → Nat
  | [] => 0
  | v :: vs => max (nesting v) (itemsNesting vs)

/-- How deep arrays and objects are nested in the values of members. -/
def membersNesting : List (String × Json) → Nat
  | [] => 0
  | (_, v) :: ms => max (nesting v) (membersNesting ms)

end

namespace Reader

/-! ## Strings -/

/-- Control characters are read back from their codes. -/
theorem hex4?_control {n : Nat} (h : n < 32) :
    hex4? '0' '0' (hexDigit (n / 16)) (hexDigit (n % 16)) = some n := by
  have hall : ∀ n < 32, hex4? '0' '0' (hexDigit (n / 16)) (hexDigit (n % 16)) = some n := by decide
  exact hall n h

/-- **Each character is read back** from how it is written in a string. -/
theorem string?_escapeChar (c : Char) (rest : List Char) :
    string? (escapeChar c ++ rest) = (string? rest).map fun (s, r) => (c :: s, r) := by
  rw [escapeChar]
  -- seven characters have a short form
  split
  · subst_vars; simp [string?, escaped?]
  split
  · subst_vars; simp [string?, escaped?]
  split
  · subst_vars; simp [string?, escaped?]
  split
  · subst_vars; simp [string?, escaped?]
  split
  · subst_vars; simp [string?, escaped?]
  split
  · subst_vars; simp [string?, escaped?]
  split
  · subst_vars; simp [string?, escaped?]
  split
  -- the other control characters are written by their codes, which are no surrogates
  · rename_i h
    simp only [List.cons_append, List.nil_append, string?, hex4?_control h, Char.ofNat_toNat]
    rw [if_neg (by omega), if_neg (by omega)]
  -- all others stand for themselves
  · rename_i hquote hbackslash _ _ _ _ _ hprint
    rw [List.singleton_append, string?.eq_def]
    split
    · rename_i he
      cases he
    · rename_i he
      exact absurd (List.cons.inj he).1 hquote
    · rename_i he
      exact absurd (List.cons.inj he).1 hbackslash
    · rename_i he
      exact absurd (List.cons.inj he).1 hbackslash
    · rename_i he
      obtain ⟨rfl, rfl⟩ := List.cons.inj he
      exact if_neg (not_or.mpr ⟨hprint, hbackslash⟩)

/-- **Strings are read back.** -/
theorem string?_escaped (cs rest : List Char) :
    string? (cs.flatMap escapeChar ++ '"' :: rest) = some (cs, rest) := by
  induction cs with
  | nil => rfl
  | cons c cs ih =>
    rw [List.flatMap_cons, List.append_assoc, string?_escapeChar, ih]
    rfl

/-! ## Values -/

/-- The characters that separate nothing. -/
def blanks : List Char := [' ', '\n', '\t', '\r']

/-- What does not begin with a blank has no leading blanks. -/
theorem skipBlanks_cons {c : Char} {cs : List Char} (h : c ∉ blanks) :
    skipBlanks (c :: cs) = c :: cs := by
  simp only [blanks, List.mem_cons, List.not_mem_nil, or_false, not_or] at h
  simp [skipBlanks, h]

/-- How values begin: not with a blank, and not with a closing bracket. -/
def Opens (cs : List Char) : Prop :=
  ∃ c ds, cs = c :: ds ∧ c ∉ blanks ∧ c ≠ ']'

theorem Opens.append {cs : List Char} (h : Opens cs) (ds : List Char) : Opens (cs ++ ds) := by
  obtain ⟨c, ds', rfl, hc⟩ := h
  exact ⟨c, ds' ++ ds, rfl, hc⟩

/-- What begins as a number is read as a number. -/
theorem value?_number (fuel depth : Nat) {c : Char} {cs : List Char} (h : c.isDigit ∨ c = '-') :
    value? (fuel + 1) depth (c :: cs) = number? (c :: cs) := by
  have hne : ∀ d : Char, d.isDigit = false → d ≠ '-' → c ≠ d := by
    intro d hd hminus
    rcases h with h | rfl
    · exact isDigit_ne h hd
    · exact Ne.symm hminus
  have hblank : c ∉ blanks := by
    simp only [blanks, List.mem_cons, List.not_mem_nil, or_false, not_or]
    exact ⟨hne _ (by decide) (by decide), hne _ (by decide) (by decide),
      hne _ (by decide) (by decide), hne _ (by decide) (by decide)⟩
  have hn := hne 'n' (by decide) (by decide)
  have ht := hne 't' (by decide) (by decide)
  have hf := hne 'f' (by decide) (by decide)
  have hq := hne '"' (by decide) (by decide)
  have hb := hne '[' (by decide) (by decide)
  have hc := hne '\x7b' (by decide) (by decide)
  rw [value?, skipBlanks_cons hblank]
  split <;> simp_all

/-- A string in its text, with more behind it. -/
theorem toList_quote (t : String) (rest : List Char) :
    (quote t).toList ++ rest = '"' :: (t.toList.flatMap escapeChar ++ '"' :: rest) := by
  simp [quote]

/-- What begins as a number begins as a value. -/
theorem opens_number {c : Char} {cs : List Char} (h : c.isDigit ∨ c = '-') : Opens (c :: cs) := by
  obtain h | rfl := h
  · refine ⟨c, cs, rfl, ?_, isDigit_ne h (by decide)⟩
    simp only [blanks, List.mem_cons, List.not_mem_nil, or_false, not_or]
    exact ⟨isDigit_ne h (by decide), isDigit_ne h (by decide), isDigit_ne h (by decide),
      isDigit_ne h (by decide)⟩
  · exact ⟨'-', cs, rfl, by decide, by decide⟩

/-- **Floats are read back.** What is not finite is written as nothing. -/
theorem value?_float {x : Binary64} (h : x.fits) (fuel depth : Nat) {rest : List Char}
    (hrest : Closes rest) : Opens (compact (.float x)).toList ∧
      value? (fuel + 1) depth ((compact (.float x)).toList ++ rest) = some (x.readBack, rest) := by
  have hnull : Opens (compact .null).toList := ⟨'n', ['u', 'l', 'l'], rfl, by decide, by decide⟩
  cases x with
  | nan | infinity =>
    refine ⟨hnull, ?_⟩
    simp [compact, Binary64.written?, value?, skipBlanks, Binary64.readBack]
  | finite negative m e =>
    obtain ⟨n, text, x, hproper, htext, hchars, hvalue, hread⟩ := Binary64.exists_readBack h
    obtain ⟨c, cs, hcons, hc⟩ := chars_eq_cons hproper
    have hnumber := Numeral.number?_chars hproper hrest
    rw [hvalue, hcons, List.cons_append] at hnumber
    rw [compact, htext, Option.getD_some, hchars, hcons, hread, List.cons_append,
      value?_number fuel depth hc, hnumber]
    exact ⟨opens_number hc, rfl⟩

/-- How the texts of values begin. -/
theorem opens_compact {v : Json} (h : v.floatsFit) : Opens (compact v).toList := by
  cases v with
  | null => exact ⟨'n', ['u', 'l', 'l'], rfl, by decide, by decide⟩
  | bool b =>
    cases b
    · exact ⟨'f', ['a', 'l', 's', 'e'], rfl, by decide, by decide⟩
    · exact ⟨'t', ['r', 'u', 'e'], rfl, by decide, by decide⟩
  | integer n =>
    obtain ⟨d, ds, hds, hd⟩ := integerText_eq_cons n.value
    rw [compact, hds]
    exact opens_number hd
  | float x => exact (value?_float h 0 0 (show Closes [] by rintro _ ⟨⟩)).1
  | string t => exact ⟨'"', t.toList.flatMap escapeChar ++ ['"'], by simp [compact, quote],
      by decide, by decide⟩
  | array items => exact ⟨'[', (compactItems items).toList ++ [']'], by simp [compact],
      by decide, by decide⟩
  | object members => exact ⟨'\x7b', (compactMembers members).toList ++ ['\x7d'],
      by simp [compact], by decide, by decide⟩

/-- How the texts of items begin. -/
theorem opens_compactItems {v : Json} (h : v.floatsFit) (vs : List Json) :
    Opens (compactItems (v :: vs)).toList := by
  cases vs with
  | nil => exact opens_compact h
  | cons w vs =>
    rw [compactItems, String.toList_append, String.toList_append]
    exact ((opens_compact h).append _).append _

/-- How the texts of members begin. -/
theorem compactMembers_eq_cons (name : String) (v : Json) (ms : List (String × Json)) :
    ∃ cs, (compactMembers ((name, v) :: ms)).toList = '"' :: cs := by
  cases ms with
  | nil => exact ⟨_, by simp [compactMembers, quote]; rfl⟩
  | cons m ms => exact ⟨_, by simp [compactMembers, quote]; rfl⟩

/-- A comma or a bracket may stand behind a value. -/
theorem closes_cons {c : Char} {cs : List Char} (h : c ∈ [',', ']', '\x7d']) :
    Closes (c :: cs) := by
  rintro _ ⟨⟩
  exact h

/-- No value is read without fuel, and none is empty. -/
theorem exists_fuel {v : Json} (h : v.floatsFit) {fuel : Nat}
    (hf : 2 * (compact v).toList.length ≤ fuel) : ∃ n, fuel = n + 1 := by
  obtain ⟨c, ds, hc, -⟩ := opens_compact h
  rw [hc, List.length_cons] at hf
  exact Nat.exists_eq_succ_of_ne_zero (by omega)

mutual

/-- **Values are read back as deep as the reader goes,** whatever stands behind them, with two steps
of fuel a character. -/
theorem value?_compact : ∀ (v : Json) (fuel depth : Nat) (rest : List Char), v.floatsFit →
    2 * (compact v).toList.length ≤ fuel → Closes rest →
    value? fuel depth ((compact v).toList ++ rest) =
      if v.nesting ≤ depth then some (v.readBack, rest) else none
  | .null => by
    intro fuel depth rest hv hf _
    obtain ⟨fuel, rfl⟩ := exists_fuel hv hf
    simp [compact, value?, skipBlanks, nesting, readBack]
  | .bool b => by
    intro fuel depth rest hv hf _
    obtain ⟨fuel, rfl⟩ := exists_fuel hv hf
    cases b <;> simp [compact, value?, skipBlanks, nesting, readBack]
  | .integer n => by
    intro fuel depth rest hv hf hrest
    obtain ⟨fuel, rfl⟩ := exists_fuel hv hf
    obtain ⟨d, ds, hds, hd⟩ := integerText_eq_cons n.value
    have hnumber := number?_integerText n hrest
    rw [hds, List.cons_append] at hnumber
    rw [compact, hds, List.cons_append, value?_number fuel depth hd, hnumber]
    exact (if_pos (Nat.zero_le depth)).symm
  | .float x => by
    intro fuel depth rest hv hf hrest
    obtain ⟨fuel, rfl⟩ := exists_fuel hv hf
    rw [(value?_float hv fuel depth hrest).2]
    exact (if_pos (Nat.zero_le depth)).symm
  | .string t => by
    intro fuel depth rest hv hf _
    obtain ⟨fuel, rfl⟩ := exists_fuel hv hf
    rw [compact, toList_quote, value?, skipBlanks_cons (by decide)]
    simp [string?_escaped, nesting, readBack]
  | .array [] => by
    intro fuel depth rest hv hf _
    obtain ⟨fuel, rfl⟩ := exists_fuel hv hf
    by_cases hdepth : depth = 0
    · simp [compact, compactItems, value?, skipBlanks, hdepth, nesting, itemsNesting]
    · have hone : 1 ≤ depth := Nat.one_le_iff_ne_zero.mpr hdepth
      simp [compact, compactItems, value?, skipBlanks, hdepth, hone, nesting, itemsNesting,
        readBack, itemsReadBack]
  | .array (v :: vs) => by
    intro fuel depth rest hv hf _
    obtain ⟨fuel, rfl⟩ := exists_fuel hv hf
    simp only [floatsFit] at hv
    have htext : (compact (.array (v :: vs))).toList ++ rest =
        '[' :: ((compactItems (v :: vs)).toList ++ ']' :: rest) := by
      simp [compact]
    have hlen : (compactItems (v :: vs)).toList.length + 2 =
        (compact (.array (v :: vs))).toList.length := by
      simp [compact]
    have hitems := items?_compactItems (v :: vs) fuel (depth - 1) rest (List.cons_ne_nil _ _) hv
      (by omega)
    have hopens := (opens_compactItems (Bool.and_eq_true_iff.mp hv).1 vs).append
      (']' :: rest)
    -- the items do not begin with a bracket, so the array is not taken for an empty one
    obtain ⟨c, ds, hc, hblank, hclose⟩ := hopens
    rw [hc] at hitems htext
    rw [htext, value?, skipBlanks_cons (by decide), nesting, readBack]
    simp only [skipBlanks_cons hblank]
    by_cases hdepth : depth = 0
    · rw [if_pos hdepth, if_neg (by omega)]
    · rw [if_neg hdepth]
      split
      · rename_i he
        exact absurd (List.cons.inj he).1 hclose
      · rw [hitems]
        by_cases hdeep : itemsNesting (v :: vs) ≤ depth - 1
        · rw [if_pos hdeep, if_pos (by omega)]
          rfl
        · rw [if_neg hdeep, if_neg (by omega)]
          rfl
  | .object [] => by
    intro fuel depth rest hv hf _
    obtain ⟨fuel, rfl⟩ := exists_fuel hv hf
    by_cases hdepth : depth = 0
    · simp [compact, compactMembers, value?, skipBlanks, hdepth, nesting, membersNesting]
    · have hone : 1 ≤ depth := Nat.one_le_iff_ne_zero.mpr hdepth
      simp [compact, compactMembers, value?, skipBlanks, hdepth, hone, nesting, membersNesting,
        readBack, membersReadBack]
  | .object ((name, v) :: ms) => by
    intro fuel depth rest hv hf _
    obtain ⟨fuel, rfl⟩ := exists_fuel hv hf
    simp only [floatsFit] at hv
    have htext : (compact (.object ((name, v) :: ms))).toList ++ rest =
        '\x7b' :: ((compactMembers ((name, v) :: ms)).toList ++ '\x7d' :: rest) := by
      simp [compact]
    have hlen : (compactMembers ((name, v) :: ms)).toList.length + 2 =
        (compact (.object ((name, v) :: ms))).toList.length := by
      simp [compact]
    have hmembers := members?_compactMembers ((name, v) :: ms) fuel (depth - 1) rest
      (List.cons_ne_nil _ _) hv (by omega)
    obtain ⟨cs, hcs⟩ := compactMembers_eq_cons name v ms
    rw [hcs, List.cons_append] at hmembers htext
    rw [htext, value?, skipBlanks_cons (by decide), nesting, readBack]
    simp only [skipBlanks_cons (show '"' ∉ blanks by decide)]
    by_cases hdepth : depth = 0
    · rw [if_pos hdepth, if_neg (by omega)]
    · rw [if_neg hdepth]
      split
      · rename_i he
        exact absurd (List.cons.inj he).1 (by decide)
      · rw [hmembers]
        by_cases hdeep : membersNesting ((name, v) :: ms) ≤ depth - 1
        · rw [if_pos hdeep, if_pos (by omega)]
          rfl
        · rw [if_neg hdeep, if_neg (by omega)]
          rfl

/-- Items are read back, up to the bracket behind them. -/
theorem items?_compactItems : ∀ (vs : List Json) (fuel depth : Nat) (rest : List Char), vs ≠ [] →
    allFloatsFit vs → 2 * (compactItems vs).toList.length < fuel →
    items? fuel depth ((compactItems vs).toList ++ ']' :: rest) =
      if itemsNesting vs ≤ depth then some (itemsReadBack vs, rest) else none
  | [] => fun _ _ _ hne => absurd rfl hne
  | [v] => by
    intro fuel depth rest _ hv hf
    obtain ⟨fuel, rfl⟩ := Nat.exists_eq_succ_of_ne_zero (Nat.ne_zero_of_lt hf)
    have hvalue := value?_compact v fuel depth (']' :: rest) (Bool.and_eq_true_iff.mp hv).1
      (by simp only [compactItems] at hf; omega) (closes_cons (by decide))
    rw [compactItems, items?, hvalue]
    by_cases hdeep : v.nesting ≤ depth
    · simp [hdeep, skipBlanks_cons (show ']' ∉ blanks by decide), itemsNesting, itemsReadBack]
    · simp [hdeep, itemsNesting]
  | v :: w :: vs => by
    intro fuel depth rest _ hv hf
    obtain ⟨fuel, rfl⟩ := Nat.exists_eq_succ_of_ne_zero (Nat.ne_zero_of_lt hf)
    obtain ⟨hv₁, hv₂⟩ := Bool.and_eq_true_iff.mp hv
    have hlen : (compactItems (v :: w :: vs)).toList.length =
        (compact v).toList.length + 1 + (compactItems (w :: vs)).toList.length := by
      simp [compactItems]
      omega
    have htext : (compactItems (v :: w :: vs)).toList ++ ']' :: rest =
        (compact v).toList ++ ',' :: ((compactItems (w :: vs)).toList ++ ']' :: rest) := by
      simp [compactItems]
    have hvalue := value?_compact v fuel depth
      (',' :: ((compactItems (w :: vs)).toList ++ ']' :: rest)) hv₁ (by omega)
      (closes_cons (by decide))
    have hitems := items?_compactItems (w :: vs) fuel depth rest (List.cons_ne_nil _ _) hv₂
      (by omega)
    rw [htext, items?, hvalue, itemsNesting, itemsReadBack]
    by_cases hdeep : v.nesting ≤ depth
    · simp only [hdeep, if_true, skipBlanks_cons (show ',' ∉ blanks by decide), hitems,
        Nat.max_le, true_and]
      split <;> rfl
    · simp [hdeep]

/-- Members are read back, up to the brace behind them. -/
theorem members?_compactMembers : ∀ (ms : List (String × Json)) (fuel depth : Nat)
    (rest : List Char), ms ≠ [] → membersFloatsFit ms →
    2 * (compactMembers ms).toList.length < fuel →
    members? fuel depth ((compactMembers ms).toList ++ '\x7d' :: rest) =
      if membersNesting ms ≤ depth then some (membersReadBack ms, rest) else none
  | [] => fun _ _ _ hne => absurd rfl hne
  | [(name, v)] => by
    intro fuel depth rest _ hv hf
    obtain ⟨fuel, rfl⟩ := Nat.exists_eq_succ_of_ne_zero (Nat.ne_zero_of_lt hf)
    have hlen : (compactMembers [(name, v)]).toList.length =
        (quote name).toList.length + 1 + (compact v).toList.length := by
      simp [compactMembers]
      omega
    have htext : (compactMembers [(name, v)]).toList ++ '\x7d' :: rest =
        '"' :: (name.toList.flatMap escapeChar ++ '"' :: ':' ::
          ((compact v).toList ++ '\x7d' :: rest)) := by
      simp [compactMembers, quote]
    have hvalue := value?_compact v fuel depth ('\x7d' :: rest) (Bool.and_eq_true_iff.mp hv).1
      (by omega) (closes_cons (by decide))
    rw [htext, members?, skipBlanks_cons (by decide)]
    simp only [string?_escaped, String.ofList_toList, hvalue,
      skipBlanks_cons (show ':' ∉ blanks by decide)]
    by_cases hdeep : v.nesting ≤ depth
    · simp [hdeep, skipBlanks_cons (show '\x7d' ∉ blanks by decide), membersNesting,
        membersReadBack]
    · simp [hdeep, membersNesting]
  | (name, v) :: (name', w) :: ms => by
    intro fuel depth rest _ hv hf
    obtain ⟨fuel, rfl⟩ := Nat.exists_eq_succ_of_ne_zero (Nat.ne_zero_of_lt hf)
    obtain ⟨hv₁, hv₂⟩ := Bool.and_eq_true_iff.mp hv
    have hlen : (compactMembers ((name, v) :: (name', w) :: ms)).toList.length =
        (quote name).toList.length + 1 + (compact v).toList.length + 1 +
          (compactMembers ((name', w) :: ms)).toList.length := by
      simp [compactMembers]
      omega
    have htext : (compactMembers ((name, v) :: (name', w) :: ms)).toList ++ '\x7d' :: rest =
        '"' :: (name.toList.flatMap escapeChar ++ '"' :: ':' :: ((compact v).toList ++ ',' ::
          ((compactMembers ((name', w) :: ms)).toList ++ '\x7d' :: rest))) := by
      simp [compactMembers, quote]
    have hvalue := value?_compact v fuel depth
      (',' :: ((compactMembers ((name', w) :: ms)).toList ++ '\x7d' :: rest)) hv₁ (by omega)
      (closes_cons (by decide))
    have hmembers := members?_compactMembers ((name', w) :: ms) fuel depth rest
      (List.cons_ne_nil _ _) hv₂ (by omega)
    rw [htext, members?, skipBlanks_cons (by decide), membersNesting, membersReadBack]
    simp only [string?_escaped, String.ofList_toList, hvalue,
      skipBlanks_cons (show ':' ∉ blanks by decide)]
    by_cases hdeep : v.nesting ≤ depth
    · simp only [hdeep, if_true, skipBlanks_cons (show ',' ∉ blanks by decide), hmembers,
        Nat.max_le, true_and]
      split <;> rfl
    · simp [hdeep]

end

end Reader

/-- **Values are read back from their texts** exactly if they are not nested too deep. -/
theorem parse?_compact_eq {v : Json} (h : v.floatsFit) :
    parse? (compact v) = if v.nesting ≤ maxDepth then some v.readBack else none := by
  have hvalue := Reader.value?_compact v (2 * (compact v).toList.length + 2) maxDepth [] h
    (Nat.le_add_right _ _) (by rintro _ ⟨⟩)
  rw [List.append_nil] at hvalue
  rw [parse?, hvalue]
  by_cases hdeep : v.nesting ≤ maxDepth <;> simp [hdeep, Reader.skipBlanks]

/-- A value without floats is read back as it was. -/
theorem parse?_compact {v : Json} (h : v.isFloatFree) (hd : v.nesting ≤ maxDepth) :
    parse? (compact v) = some v := by
  obtain ⟨hfit, hsame⟩ := plain_of_isFloatFree v h
  rw [parse?_compact_eq hfit, if_pos hd, hsame]

/-! ## Canonical values -/

theorem ascending_iff_pairwise {ms : List (String × Json)} :
    ascending ms ↔ ms.Pairwise fun m n => m.1 < n.1 := by
  induction ms with
  | nil => simp [ascending]
  | cons m ms ih =>
    rw [ascending_cons_iff, ih, List.pairwise_cons]
    refine and_congr_left fun hms => ⟨fun hhead n hn => ?_, fun hall n hn => ?_⟩
    · cases ms with
      | nil => cases hn
      | cons l ms =>
        have hl : m.1 < l.1 := hhead l rfl
        rcases List.mem_cons.mp hn with rfl | hn
        · exact hl
        · exact String.lt_trans hl ((List.pairwise_cons.mp hms).1 n hn)
    · exact hall n (List.mem_of_mem_head? hn)

/-- A member whose name is above all others is entered at the end. -/
theorem insertMember_of_lt {name : String} (v : Json) {done : List (String × Json)}
    (h : ∀ m ∈ done, m.1 < name) : insertMember name v done = done ++ [(name, v)] := by
  induction done with
  | nil => rfl
  | cons m done ih =>
    have hm : m.1 < name := h m List.mem_cons_self
    have hnot : ¬ name < m.1 := String.lt_asymm hm
    rw [insertMember, if_neg hnot, if_pos hm, ih fun n hn => h n (List.mem_cons_of_mem _ hn)]
    rfl

mutual

/-- **Canonical values are their own canonical forms.** -/
theorem canonical_of_isCanonical : ∀ v : Json, v.isCanonical → v.canonical = v
  | .null => fun _ => rfl
  | .bool _ => fun _ => rfl
  | .integer _ => fun _ => rfl
  | .float _ => fun _ => rfl
  | .string _ => fun _ => rfl
  | .array items => fun h => congrArg array (canonicalItems_of_allCanonical items h)
  | .object members => by
    intro h
    obtain ⟨hasc, hmembers⟩ := Bool.and_eq_true_iff.mp h
    exact congrArg object (canonicalMembers_of_membersCanonical members [] hasc hmembers)

theorem canonicalItems_of_allCanonical : ∀ vs : List Json, allCanonical vs →
    canonicalItems vs = vs
  | [] => fun _ => rfl
  | v :: vs => by
    intro h
    obtain ⟨hv, hvs⟩ := Bool.and_eq_true_iff.mp h
    rw [canonicalItems, canonical_of_isCanonical v hv, canonicalItems_of_allCanonical vs hvs]

theorem canonicalMembers_of_membersCanonical : ∀ (ms done : List (String × Json)),
    ascending (done ++ ms) → membersCanonical ms → canonicalMembers done ms = done ++ ms
  | [] => fun done _ _ => (List.append_nil done).symm
  | (name, v) :: ms => by
    intro done hasc h
    obtain ⟨hv, hms⟩ := Bool.and_eq_true_iff.mp h
    have hbelow : ∀ m ∈ done, m.1 < name := fun m hm =>
      (List.pairwise_append.mp (ascending_iff_pairwise.mp hasc)).2.2 m hm _ List.mem_cons_self
    have happend : done ++ (name, v) :: ms = (done ++ [(name, v)]) ++ ms := by simp
    rw [canonicalMembers, canonical_of_isCanonical v hv, insertMember_of_lt v hbelow,
      canonicalMembers_of_membersCanonical ms _ (happend ▸ hasc) hms, happend]

end

/-! ## Nested arrays -/

/-- Arrays in arrays, as many as are asked for. -/
def nested : Nat → Json
  | 0 => .null
  | n + 1 => .array [nested n]

theorem nesting_nested (n : Nat) : (nested n).nesting = n := by
  induction n with
  | zero => rfl
  | succ n ih => simp [nested, nesting, itemsNesting, ih]

theorem floatsFit_nested (n : Nat) : (nested n).floatsFit := by
  induction n with
  | zero => rfl
  | succ n ih => simp [nested, floatsFit, allFloatsFit, ih]

theorem isCanonical_nested (n : Nat) : (nested n).isCanonical := by
  induction n with
  | zero => rfl
  | succ n ih => simp [nested, isCanonical, allCanonical, ih]

end Json

/-- Nested arrays as a payload. -/
def Payload.nested (n : Nat) : Payload := ⟨.nested n, Json.isCanonical_nested n⟩

/-- A payload is the one that is made of its value. -/
theorem Payload.ofJson_value (p : Payload) : ofJson p.value = p := by
  simp [ofJson, Json.canonical_of_isCanonical _ p.canonical]

end SyncJobs
