import Mathlib.Algebra.Group.Nat.Defs
import SyncJobs.Id

/-!
# The texts of identifiers

The bare text of an id is read back as the id (`Id.parse_storage`), and texts are ordered as ids
are (`Id.storage_le_storage`). So a table that looks rows up by text, and orders them by text,
does the same as a collection that looks jobs up by id and orders them by rank.

Both facts are shown for lists of digits first. All lists that `Crockford.digits` writes have the
same length, and for such lists the leading digits decide (`append_lt_append`). Each digit takes one
byte, and digits are ordered as their bytes, so texts may be compared byte by byte
(`Id.bytes_lt_bytes`).

The text that is shown has a tag in front, which no text of the other kind begins with. Behind it
there are 26 bytes, so the whole is too long for a reader that does not take the tag off
(`Id.parse_display_of_ne`).
-/

namespace SyncJobs

namespace Crockford

/-! ## Reading -/

/-- Digits are read as the values they were written for. -/
theorem value?_digit {v : Nat} (h : v < 32) : value? (digit v) = some v := by
  have hall : ∀ v < 32, value? (digit v) = some v := by decide
  exact hall v h

/-- Digits are ordered as their values. -/
theorem digit_lt_digit {v w : Nat} (hw : w < 32) (h : v < w) : digit v < digit w := by
  have hall : ∀ w < 32, ∀ v < w, digit v < digit w := by decide
  exact hall w hw v h

/-- Reading goes on from what was read. -/
theorem number?_append (acc : Nat) (cs ds : List Char) :
    number? acc (cs ++ ds) = (number? acc cs).bind fun n => number? n ds := by
  induction cs generalizing acc with
  | nil => rfl
  | cons c cs ih =>
    rw [List.cons_append, number?, number?]
    cases value? c with
    | none => rfl
    | some v => exact ih _

/-- Of the digits of a number its last part is read back. -/
theorem number?_digits (acc n u : Nat) :
    number? acc (digits n u) = some (acc * 32 ^ n + u % 32 ^ n) := by
  induction n generalizing u with
  | zero => simp [digits, number?, Nat.mod_one]
  | succ n ih =>
    have hv := value?_digit (Nat.mod_lt u (by decide : 32 > 0))
    rw [digits, number?_append, ih]
    simp only [Option.bind_some, number?, hv]
    have hsplit : u % 32 ^ (n + 1) = u / 32 % 32 ^ n * 32 + u % 32 := by
      rw [Nat.pow_succ, Nat.mul_comm, Nat.mod_mul]
      omega
    rw [hsplit, Nat.pow_succ, ← Nat.mul_assoc]
    congr 1
    omega

theorem mem_alphabet_of_mem_digits {n u : Nat} {c : Char} (h : c ∈ digits n u) : c ∈ alphabet := by
  have hall : ∀ v < 32, digit v ∈ alphabet := by decide
  induction n generalizing u with
  | zero => cases h
  | succ n ih =>
    rcases List.mem_append.mp h with h | h
    · exact ih h
    · rw [List.mem_singleton.mp h]
      exact hall _ (Nat.mod_lt _ (by decide))

/-- Each digit takes one byte. -/
theorem utf8Size_of_mem_alphabet {c : Char} (h : c ∈ alphabet) : c.utf8Size = 1 := by
  have hall : alphabet.all fun c => c.utf8Size = 1 := by decide
  exact of_decide_eq_true (List.all_eq_true.mp hall c h)

theorem utf8ByteSize_ofList {cs : List Char} (h : ∀ c ∈ cs, c.utf8Size = 1) :
    (String.ofList cs).utf8ByteSize = cs.length := by
  induction cs with
  | nil => rfl
  | cons c cs ih =>
    rw [String.ofList_cons, String.utf8ByteSize_append, String.utf8ByteSize_singleton,
      h c List.mem_cons_self, ih fun d hd => h d (List.mem_cons_of_mem _ hd), List.length_cons,
      Nat.add_comm]

theorem utf8ByteSize_encode (u : BitVec 128) : (encode u).utf8ByteSize = width := by
  rw [encode, utf8ByteSize_ofList, length_digits]
  exact fun c hc => utf8Size_of_mem_alphabet (mem_alphabet_of_mem_digits hc)

/-- **What was written is read back.** -/
theorem decode_encode (u : BitVec 128) : decode (encode u) = .ok u := by
  have hnum : number? 0 (encode u).toList = some u.toNat := by
    have hlt : u.toNat < 32 ^ width := Nat.lt_of_lt_of_le u.isLt (by decide)
    rw [encode, String.toList_ofList, number?_digits, Nat.mod_eq_of_lt hlt, Nat.zero_mul,
      Nat.zero_add]
  simp only [decode, utf8ByteSize_encode, hnum, ne_eq, not_true_eq_false, if_false,
    BitVec.ofNat_toNat, BitVec.setWidth_eq]

/-! ## Order -/

/-- Of lists that begin with lists of one length, the beginnings decide. -/
theorem append_lt_append {a b x y : List Char} (hlen : a.length = b.length) (h : a < b) :
    a ++ x < b ++ y := by
  induction a generalizing b with
  | nil =>
    obtain rfl := List.length_eq_zero_iff.mp hlen.symm
    cases h
  | cons c a ih =>
    cases b with
    | nil => cases hlen
    | cons d b =>
      rw [List.cons_append, List.cons_append, List.cons_lt_cons_iff]
      rcases List.cons_lt_cons_iff.mp h with hc | ⟨hc, hlt⟩
      · exact .inl hc
      · exact .inr ⟨hc, ih (Nat.succ.inj hlen) hlt⟩

/-- Lists of digits are ordered as the numbers they were written for. -/
theorem digits_lt_digits {n u v : Nat} (hv : v < 32 ^ n) (h : u < v) : digits n u < digits n v := by
  induction n generalizing u v with
  | zero => simp at hv; omega
  | succ n ih =>
    rw [digits, digits]
    rcases Nat.lt_or_eq_of_le (Nat.div_le_div_right (c := 32) (Nat.le_of_lt h)) with hlt | heq
    · have hv' : v / 32 < 32 ^ n := by
        rw [Nat.pow_succ] at hv
        exact Nat.div_lt_of_lt_mul (by omega)
      exact append_lt_append (by simp) (ih hv' hlt)
    -- the leading digits are the same, and the last one decides
    · rw [heq]
      refine List.append_left_lt (List.cons_lt_cons_iff.mpr (.inl ?_))
      exact digit_lt_digit (Nat.mod_lt _ (by decide)) (by omega)

/-- **Texts are ordered as the values they stand for.** -/
theorem encode_le_encode {u v : BitVec 128} : encode u ≤ encode v ↔ u.toNat ≤ v.toNat := by
  have hlt : ∀ {u v : BitVec 128}, u.toNat < v.toNat → encode u < encode v := by
    intro u v h
    rw [String.lt_iff, encode, encode, String.toList_ofList, String.toList_ofList]
    exact digits_lt_digits (Nat.lt_of_lt_of_le v.isLt (by decide)) h
  constructor
  · intro h
    refine Nat.le_of_not_lt fun hvu => ?_
    exact String.not_lt.mpr h (hlt hvu)
  · intro h
    rcases Nat.lt_or_eq_of_le h with h | h
    · exact String.not_lt.mp (String.lt_asymm (hlt h))
    · obtain rfl := BitVec.eq_of_toNat_eq h
      exact String.le_refl _

/-! ## Bytes -/

/-- A text of characters that take one byte each has one byte for each of them. -/
theorem bytes_ofList {cs : List Char} (h : ∀ c ∈ cs, c.utf8Size = 1) :
    (String.ofList cs).toUTF8.data.toList = cs.map fun c => c.val.toUInt8 := by
  have hencode : cs.flatMap String.utf8EncodeChar = cs.map fun c => c.val.toUInt8 := by
    induction cs with
    | nil => rfl
    | cons c cs ih =>
      rw [List.flatMap_cons, String.utf8EncodeChar_eq_singleton (h c List.mem_cons_self),
        ih fun d hd => h d (List.mem_cons_of_mem c hd)]
      rfl
  rw [String.toUTF8, String.toByteArray_ofList, List.utf8Encode, hencode, List.data_toByteArray]

/-- Lists keep their order under a map that keeps the order of their items. -/
theorem map_lt_map {α β : Type} [LT α] [LT β] {f : α → β} {as bs : List α}
    (hf : ∀ a ∈ as, ∀ b ∈ bs, a < b → f a < f b) (h : as < bs) : as.map f < bs.map f := by
  induction as generalizing bs with
  | nil => cases bs with
    | nil => cases h
    | cons b bs => exact List.nil_lt_cons _ _
  | cons a as ih => cases bs with
    | nil => cases h
    | cons b bs =>
      rw [List.map_cons, List.map_cons, List.cons_lt_cons_iff]
      rcases List.cons_lt_cons_iff.mp h with hab | ⟨rfl, hlt⟩
      · exact .inl (hf a List.mem_cons_self b List.mem_cons_self hab)
      · refine .inr ⟨rfl, ih (fun c hc d hd => ?_) hlt⟩
        exact hf c (List.mem_cons_of_mem a hc) d (List.mem_cons_of_mem a hd)

end Crockford

/-! ## Identifiers -/

namespace Id

variable {kind : IdKind}

/-- A bare id carries no tag. -/
theorem withoutTag_storage (i : Id kind) : withoutTag kind i.storage = i.storage := by
  refine if_neg fun h => ?_
  have hdash : '-' ∈ kind.tag.toList := by cases kind <;> decide
  have hmem : '-' ∈ i.storage.toList := (List.isPrefixOf_iff_prefix.mp h).subset hdash
  rw [storage, Crockford.encode, String.toList_ofList] at hmem
  exact absurd (Crockford.mem_alphabet_of_mem_digits hmem) (by decide)

/-- **Stored ids are read back.** -/
theorem parse_storage (i : Id kind) : parse i.storage = .ok i := by
  rw [parse, withoutTag_storage, ofStorage, storage, Crockford.decode_encode]
  rfl

/-- Ids are told apart by their texts. -/
theorem storage_inj {i j : Id kind} : i.storage = j.storage ↔ i = j := by
  refine ⟨fun h => ?_, fun h => h ▸ rfl⟩
  have hp := parse_storage i
  rw [h, parse_storage] at hp
  exact (Except.ok.inj hp).symm

/-- Texts of ids are ordered as the ids. -/
theorem storage_le_storage {i j : Id kind} : i.storage ≤ j.storage ↔ i.rank ≤ j.rank :=
  Crockford.encode_le_encode

/-- The bytes of the bare text. -/
def bytes (i : Id kind) : List UInt8 := i.storage.toUTF8.data.toList

theorem bytes_eq (i : Id kind) :
    i.bytes = (Crockford.digits Crockford.width i.rank).map fun c => c.val.toUInt8 := by
  rw [bytes, storage, Crockford.encode, Crockford.bytes_ofList fun c hc =>
    Crockford.utf8Size_of_mem_alphabet (Crockford.mem_alphabet_of_mem_digits hc)]
  rfl

/-- **Texts are compared byte by byte as the ids are.** -/
theorem bytes_lt_bytes {i j : Id kind} : i.bytes < j.bytes ↔ i.rank < j.rank := by
  have hmono : ∀ c ∈ Crockford.alphabet, ∀ d ∈ Crockford.alphabet,
      c < d → c.val.toUInt8 < d.val.toUInt8 := by
    intro c hc d hd hlt
    have hval : c.val.toNat < d.val.toNat := UInt32.lt_iff_toNat_lt.mp hlt
    have hascii : d.val.toNat ≤ 127 :=
      Char.utf8Size_eq_one_iff.mp (Crockford.utf8Size_of_mem_alphabet hd)
    rw [UInt8.lt_iff_toNat_lt, UInt32.toNat_toUInt8, UInt32.toNat_toUInt8]
    omega
  have hlt : ∀ {i j : Id kind}, i.rank < j.rank → i.bytes < j.bytes := by
    intro i j h
    have hj : j.rank < 32 ^ Crockford.width := Nat.lt_of_lt_of_le j.bits.isLt (by decide)
    rw [bytes_eq, bytes_eq]
    refine Crockford.map_lt_map (fun c hc d hd => ?_) (Crockford.digits_lt_digits hj h)
    exact hmono c (Crockford.mem_alphabet_of_mem_digits hc) d
      (Crockford.mem_alphabet_of_mem_digits hd)
  refine ⟨fun h => Nat.lt_of_not_le fun hle => ?_, hlt⟩
  rcases Nat.lt_or_eq_of_le hle with hji | heq
  · exact List.lt_asymm h (hlt hji)
  · rw [rank_injective heq] at h
    exact List.lt_irrefl _ h

theorem length_storage (i : Id kind) : i.storage.length = Crockford.width := by
  rw [storage, Crockford.encode, String.length_ofList, Crockford.length_digits]

/-! ## Texts that are shown -/

theorem toList_display (i : Id kind) :
    i.display.toList = kind.tag.toList ++ i.storage.toList :=
  String.toList_append

/-- The text that is shown, less its tag, is the bare text. -/
theorem withoutTag_display (i : Id kind) : withoutTag kind i.display = i.storage := by
  rw [withoutTag, toList_display,
    if_pos (List.isPrefixOf_iff_prefix.mpr (List.prefix_append _ _)),
    ← String.length_toList, List.drop_left, String.ofList_toList]

/-- **Ids that were shown are read back.** -/
theorem parse_display (i : Id kind) : parse i.display = .ok i := by
  rw [parse, withoutTag_display, ofStorage, storage, Crockford.decode_encode]
  rfl

/-- No text that is shown begins with the tag of another kind. -/
theorem withoutTag_display_of_ne {other : IdKind} (h : other ≠ kind) (i : Id kind) :
    withoutTag other i.display = i.display := by
  have hprefix : other.tag.toList.isPrefixOf (kind.tag.toList ++ i.storage.toList) = false := by
    cases other with
    | job => cases kind with
      | job => exact absurd rfl h
      | account => rfl
    | account => cases kind with
      | job => rfl
      | account => exact absurd rfl h
  rw [withoutTag, toList_display, hprefix, if_neg Bool.false_ne_true]

/-- **An id of one kind is not taken for one of another kind** when it is shown with its tag. -/
theorem parse_display_of_ne {other : IdKind} (h : other ≠ kind) (i : Id kind) :
    (parse i.display : Except IdError (Id other)) = .error ⟨i.display, .length⟩ := by
  have hsize : i.display.utf8ByteSize = kind.tag.utf8ByteSize + Crockford.width := by
    rw [display, String.utf8ByteSize_append, storage, Crockford.utf8ByteSize_encode]
  have htag : kind.tag.utf8ByteSize ≠ 0 := by cases kind <;> decide
  have hlength : i.display.utf8ByteSize ≠ Crockford.width := by omega
  rw [parse, withoutTag_display_of_ne h, ofStorage, Crockford.decode, if_pos hlength]
  rfl

/-! ## Lists -/

/-- Texts that are ordered as their ids are sorted as their ids are. -/
theorem map_mergeSort_of_le {α : Type} {text : Id kind → α} {le : α → α → Bool}
    (h : ∀ i j, le (text i) (text j) = decide (i.rank ≤ j.rank)) (is : List (Id kind)) :
    (is.map text).mergeSort le = (is.mergeSort fun i j => i.rank ≤ j.rank).map text :=
  (List.map_mergeSort fun i _ j _ => (h i j).symm).symm

/-- **The texts of ids are faithful.** Either form is read back as the id. The bare form has 26
characters of one byte each. Ids are ordered as their bare forms are, character by character and byte
by byte, so a column of texts is sorted as the ids are. The form that is shown is not the text of an
id of another kind. -/
theorem texts_are_faithful (kind : IdKind) :
    (∀ u : BitVec 128, let i : Id kind := ⟨u⟩
      parse i.display = .ok i ∧ parse i.storage = .ok i ∧
      i.storage.length = 26 ∧ i.bytes.length = 26) ∧
    (∀ i j : Id kind, (i.bytes < j.bytes ↔ i.bits.toNat < j.bits.toNat) ∧
      (i.storage ≤ j.storage ↔ i.bits.toNat ≤ j.bits.toNat)) ∧
    (∀ is : List (Id kind),
      (is.map bytes).mergeSort (fun a b => a ≤ b) =
        (is.mergeSort fun i j => i.rank ≤ j.rank).map bytes ∧
      (is.map storage).mergeSort (fun a b => a ≤ b) =
        (is.mergeSort fun i j => i.rank ≤ j.rank).map storage) ∧
    ∀ other, other ≠ kind → ∀ i : Id kind,
      (parse i.display : Except IdError (Id other)) = .error ⟨i.display, .length⟩ := by
  refine ⟨fun u => ⟨parse_display _, parse_storage _, length_storage _, ?_⟩,
    fun i j => ⟨bytes_lt_bytes, storage_le_storage⟩, fun is => ⟨?_, ?_⟩,
    fun other h i => parse_display_of_ne h i⟩
  · rw [bytes_eq, List.length_map, Crockford.length_digits]
    rfl
  · refine map_mergeSort_of_le (fun i j => decide_eq_decide.mpr ?_) is
    rw [← List.not_lt, bytes_lt_bytes, Nat.not_lt]
  · exact map_mergeSort_of_le (fun i j => decide_eq_decide.mpr storage_le_storage) is

end Id

end SyncJobs
