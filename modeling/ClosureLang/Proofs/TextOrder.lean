import Mathlib.Data.String.Basic
import ClosureLang.Operator.Apply

/-!
# Texts are totally ordered

Six operators compare two texts. Two of them ask for equality and four for an order, by different
paths, and `texts_totally_ordered` says that they are about one total order: it is the
lexicographic one by code points, and the lexicographic one by the bytes of UTF-8.

The second half is a fact about the encoding. A code point is written as a lead byte and up to
three groups of six bits, the highest first (`Utf8.bytes`). Of two code points the greater one has
the greater lead byte, or one that is equal and the greater groups (`Utf8.lex_bytes`); so the
encodings of two characters differ before either ends, and whatever follows them does not matter
(`Utf8.lex_encode`).
-/

namespace ClosureLang

/-! ## The bytes of a text -/

namespace Utf8

/-- A code point in `n + 1` bytes: what is above `n` groups of six bits, behind a mark, and then
the groups. -/
def bytes (mark : Nat) : Nat → Nat → List UInt8
  | 0, v => [UInt8.ofNat (v + mark)]
  | n + 1, v => bytes mark n (v / 64) ++ [UInt8.ofNat (v % 64 + 128)]

/-- What is above `n` groups of six bits. -/
def above : Nat → Nat → Nat
  | 0, v => v
  | n + 1, v => above n (v / 64)

/-- The groups that follow the lead byte of a code point. -/
def groups (v : Nat) : Nat :=
  if v ≤ 127 then 0 else if v ≤ 2047 then 1 else if v ≤ 65535 then 2 else 3

/-- The mark that tells how many groups follow. -/
def mark : Nat → Nat
  | 0 => 0
  | 1 => 192
  | 2 => 224
  | _ => 240

/-- The lead byte of a code point. -/
def lead (v : Nat) : Nat := above (groups v) v + mark (groups v)

variable {m n v w : Nat} {c d : Char}

theorem bytes_eq_cons (m n v : Nat) :
    ∃ rest, bytes m n v = UInt8.ofNat (above n v + m) :: rest := by
  induction n generalizing v with
  | zero => exact ⟨[], rfl⟩
  | succ n ih =>
    obtain ⟨rest, h⟩ := ih (v / 64)
    exact ⟨rest ++ [UInt8.ofNat (v % 64 + 128)], by rw [bytes, h, List.cons_append, above]⟩

theorem ofNat_lt (h : v < w) (hw : w < 256) : UInt8.ofNat v < UInt8.ofNat w :=
  (UInt8.ofNat_lt_iff_lt (Nat.lt_trans h hw) hw).mpr h

/-- **In equally many bytes**, the greater code point comes later, whatever follows. -/
theorem lex_bytes (h : v < w) (hw : above n w + m < 256) (s t : List UInt8) :
    List.Lex (· < ·) (bytes m n v ++ s) (bytes m n w ++ t) := by
  induction n generalizing v w s t with
  | zero => exact .rel (ofNat_lt (Nat.add_lt_add_right h m) hw)
  | succ n ih =>
    rw [bytes, bytes, List.append_assoc, List.append_assoc]
    by_cases hhigh : v / 64 < w / 64
    · exact ih hhigh hw _ _
    · -- The last group decides.
      have heq : v / 64 = w / 64 := by omega
      have hlow : v % 64 + 128 < w % 64 + 128 := by omega
      rw [heq]
      exact .append_left _ (.rel (ofNat_lt hlow (by omega))) _

theorem lead_lt (hv : v < 0x110000) : lead v < 256 := by
  unfold lead groups
  split_ifs <;> simp only [above, mark] <;> omega

/-- A code point that takes more bytes has the greater lead byte. -/
theorem groups_eq_or_lead_lt (h : v < w) (hw : w < 0x110000) :
    groups v = groups w ∨ lead v < lead w := by
  unfold lead groups
  split_ifs <;> simp only [above, mark, true_or] <;> omega

theorem toNat_lt (c : Char) : c.toNat < 0x110000 := by
  have hvalid : c.toNat.isValidChar := c.valid
  unfold Nat.isValidChar at hvalid
  omega

theorem utf8EncodeChar_eq (c : Char) :
    String.utf8EncodeChar c = bytes (mark (groups c.toNat)) (groups c.toNat) c.toNat := by
  have hc := toNat_lt c
  unfold String.utf8EncodeChar groups
  simp only [show c.val.toNat = c.toNat from rfl]
  split_ifs with h1 h2 h3
  · rfl
  · simp only [bytes, mark]
    rw [Nat.mod_eq_of_lt (a := c.toNat / 64) (by omega)]
    rfl
  · simp only [bytes, mark, Nat.div_div_eq_div_mul]
    rw [Nat.mod_eq_of_lt (a := c.toNat / 4096) (by omega)]
    rfl
  · simp only [bytes, mark, Nat.div_div_eq_div_mul]
    rw [Nat.mod_eq_of_lt (a := c.toNat / 262144) (by omega)]
    rfl

/-- **The greater character comes later**, whatever follows. -/
theorem lex_encode (h : c < d) (s t : List UInt8) :
    List.Lex (· < ·) (String.utf8EncodeChar c ++ s) (String.utf8EncodeChar d ++ t) := by
  have hlt : c.toNat < d.toNat := h
  rw [utf8EncodeChar_eq, utf8EncodeChar_eq]
  rcases groups_eq_or_lead_lt hlt (toNat_lt d) with hgroups | hlead
  · rw [hgroups]
    exact lex_bytes hlt (lead_lt (toNat_lt d)) s t
  · obtain ⟨r, hr⟩ := bytes_eq_cons (mark (groups c.toNat)) (groups c.toNat) c.toNat
    obtain ⟨r', hr'⟩ := bytes_eq_cons (mark (groups d.toNat)) (groups d.toNat) d.toNat
    rw [hr, hr']
    exact .rel (ofNat_lt hlead (lead_lt (toNat_lt d)))

/-- **Texts in lexicographic order** are so when written in bytes. -/
theorem lex_flatMap {cs ds : List Char} (h : List.Lex (· < ·) cs ds) :
    List.Lex (· < ·) (cs.flatMap String.utf8EncodeChar) (ds.flatMap String.utf8EncodeChar) := by
  induction h with
  | @nil d ds =>
    obtain ⟨rest, hd⟩ := bytes_eq_cons (mark (groups d.toNat)) (groups d.toNat) d.toNat
    rw [List.flatMap_nil, List.flatMap_cons, utf8EncodeChar_eq, hd]
    exact .nil
  | cons _ ih => exact .append_left _ ih _
  | rel h => exact lex_encode h _ _

end Utf8

/-- The bytes of a text in UTF-8. -/
def utf8Bytes (s : String) : List UInt8 := s.toUTF8.data.toList

/-- The code points of a text. -/
def codePoints (s : String) : List Nat := s.toList.map Char.toNat

theorem utf8Bytes_eq (s : String) : utf8Bytes s = s.toList.flatMap String.utf8EncodeChar := by
  rw [utf8Bytes, ← String.ofList_toList (s := s), String.toUTF8_eq_toByteArray,
    String.toByteArray_ofList, List.utf8Encode, List.toList_data_toByteArray, String.toList_ofList]

theorem lex_utf8Bytes_of_lt {a b : String} (h : a < b) :
    List.Lex (· < ·) (utf8Bytes a) (utf8Bytes b) := by
  rw [utf8Bytes_eq, utf8Bytes_eq]
  exact Utf8.lex_flatMap h

/-- **By bytes.** -/
theorem lex_utf8Bytes_iff (a b : String) :
    List.Lex (· < ·) (utf8Bytes a) (utf8Bytes b) ↔ a < b := by
  refine ⟨fun h => ?_, lex_utf8Bytes_of_lt⟩
  rcases lt_trichotomy a b with hlt | rfl | hgt
  · exact hlt
  · exact absurd h (irrefl _)
  · exact absurd h (asymm (lex_utf8Bytes_of_lt hgt))

/-- **By code points.** -/
theorem lex_codePoints_iff (a b : String) :
    List.Lex (· < ·) (codePoints a) (codePoints b) ↔ a < b := by
  have hchars : ∀ cs ds : List Char, List.Lex (· < ·) (cs.map Char.toNat) (ds.map Char.toNat) ↔
      List.Lex (· < ·) cs ds := by
    intro cs ds
    induction cs generalizing ds with
    | nil => cases ds <;> simp
    | cons c cs ih =>
      cases ds with
      | nil => simp
      | cons d ds =>
        rw [List.map_cons, List.map_cons, List.cons_lex_cons_iff, List.cons_lex_cons_iff, ih,
          Char.toNat_inj]
        rfl
  exact hchars a.toList b.toList

/-- Joining something to a text makes it greater. -/
theorem lt_append {a s : String} (hs : s ≠ "") : a < a ++ s := by
  have hlist : s.toList ≠ [] := by simpa using hs
  obtain ⟨c, cs, hcs⟩ := List.exists_cons_of_ne_nil hlist
  have hlex : List.Lex (· < ·) (a.toList ++ []) (a.toList ++ s.toList) := by
    rw [hcs]
    exact .append_left _ .nil _
  rw [List.append_nil, ← String.toList_append] at hlex
  exact hlex

/-! ## The comparisons -/

namespace BinaryOp

/-- The operators that compare. -/
def comparisons : List BinaryOp := [eq, ne, lt, le, gt, ge]

/-- What a comparison asks of two texts. -/
def Asks : BinaryOp → String → String → Prop
  | eq, a, b => a = b
  | ne, a, b => a ≠ b
  | lt, a, b => a < b
  | le, a, b => a ≤ b
  | gt, a, b => b < a
  | ge, a, b => b ≤ a
  | _, _, _ => False

/-- The value of `a op b` is true. -/
def Holds (op : BinaryOp) (a b : String) : Prop := op.apply (.str a) (.str b) = .ok (.bool true)

variable {op : BinaryOp} {a b : String}

/-- **A comparison of texts has an answer**, and it is the one asked for. -/
theorem apply_texts (hop : op ∈ comparisons) (a b : String) :
    ∃ holds, op.apply (.str a) (.str b) = .ok (.bool holds) ∧ (holds = true ↔ op.Asks a b) := by
  simp only [comparisons, List.mem_cons, List.not_mem_nil, or_false] at hop
  rcases hop with rfl | rfl | rfl | rfl | rfl | rfl
  · exact ⟨a == b, rfl, beq_iff_eq⟩
  · exact ⟨a != b, rfl, bne_iff_ne⟩
  · exact ⟨decide (a < b), rfl, decide_eq_true_iff⟩
  · exact ⟨!decide (b < a), rfl, by rw [Bool.not_eq_true', decide_eq_false_iff_not, Asks, not_lt]⟩
  · exact ⟨decide (b < a), rfl, decide_eq_true_iff⟩
  · exact ⟨!decide (a < b), rfl, by rw [Bool.not_eq_true', decide_eq_false_iff_not, Asks, not_lt]⟩

theorem holds_iff (hop : op ∈ comparisons) : op.Holds a b ↔ op.Asks a b := by
  obtain ⟨holds, happly, hasks⟩ := apply_texts hop a b
  rw [Holds, happly, ← hasks]
  simp

theorem eq_holds : eq.Holds a b ↔ a = b := holds_iff (by decide)
theorem ne_holds : ne.Holds a b ↔ a ≠ b := holds_iff (by decide)
theorem lt_holds : lt.Holds a b ↔ a < b := holds_iff (by decide)
theorem le_holds : le.Holds a b ↔ a ≤ b := holds_iff (by decide)
theorem gt_holds : gt.Holds a b ↔ b < a := holds_iff (by decide)
theorem ge_holds : ge.Holds a b ↔ b ≤ a := holds_iff (by decide)

/-- **One total order** that all comparisons are about. -/
structure OrderTexts : Prop where
  answers : ∀ op ∈ comparisons, ∀ a b, ∃ holds, op.apply (.str a) (.str b) = .ok (.bool holds)
  /-- Exactly one holds. -/
  trichotomy : ∀ a b, (lt.Holds a b ∧ ¬ eq.Holds a b ∧ ¬ gt.Holds a b) ∨
    (¬ lt.Holds a b ∧ eq.Holds a b ∧ ¬ gt.Holds a b) ∨
    (¬ lt.Holds a b ∧ ¬ eq.Holds a b ∧ gt.Holds a b)
  eq_iff : ∀ a b, eq.Holds a b ↔ a = b
  ne_iff : ∀ a b, ne.Holds a b ↔ ¬ eq.Holds a b
  le_iff : ∀ a b, (le.Holds a b ↔ ¬ gt.Holds a b) ∧ (le.Holds a b ↔ lt.Holds a b ∨ eq.Holds a b)
  gt_iff : ∀ a b, gt.Holds a b ↔ lt.Holds b a
  ge_iff : ∀ a b, ge.Holds a b ↔ le.Holds b a
  trans : ∀ a b c, lt.Holds a b → lt.Holds b c → lt.Holds a c
  least : ∀ a, le.Holds "" a
  lt_iff_bytes : ∀ a b, lt.Holds a b ↔ List.Lex (· < ·) (utf8Bytes a) (utf8Bytes b)
  lt_iff_codePoints : ∀ a b, lt.Holds a b ↔ List.Lex (· < ·) (codePoints a) (codePoints b)
  /-- `+` joins, and what is joined to a text makes it greater. -/
  joined : ∀ a s, s ≠ "" →
    add.apply (.str a) (.str s) = .ok (.str (a ++ s)) ∧ lt.Holds a (a ++ s)

/-- **The comparisons of texts agree on one total order**, lexicographic by bytes and by code
points alike. -/
theorem texts_totally_ordered : OrderTexts where
  answers op hop a b := by
    obtain ⟨holds, happly, -⟩ := apply_texts hop a b
    exact ⟨holds, happly⟩
  trichotomy a b := by
    rw [lt_holds, eq_holds, gt_holds]
    rcases lt_trichotomy a b with h | rfl | h
    · exact .inl ⟨h, h.ne, h.not_gt⟩
    · exact .inr (.inl ⟨lt_irrefl a, rfl, lt_irrefl a⟩)
    · exact .inr (.inr ⟨h.not_gt, h.ne', h⟩)
  eq_iff a b := eq_holds
  ne_iff a b := by
    rw [ne_holds, eq_holds]
  le_iff a b := by
    rw [le_holds, lt_holds, eq_holds, gt_holds]
    exact ⟨not_lt.symm, le_iff_lt_or_eq⟩
  gt_iff a b := by
    rw [gt_holds, lt_holds]
  ge_iff a b := by
    rw [ge_holds, le_holds]
  trans a b c := by
    rw [lt_holds, lt_holds, lt_holds]
    exact lt_trans
  least a := by
    rw [le_holds]
    intro h
    exact List.not_lex_nil h
  lt_iff_bytes a b := by
    rw [lt_holds, lex_utf8Bytes_iff]
  lt_iff_codePoints a b := by
    rw [lt_holds, lex_codePoints_iff]
  joined a s hs := ⟨rfl, lt_holds.mpr (lt_append hs)⟩

/-- A character with two code units in UTF-16 comes after all that have one. -/
example : lt.compareTexts? "\uffff" "😀" = some true := by decide

end BinaryOp
end ClosureLang
