import Mathlib.Algebra.Group.Nat.Defs
import Mathlib.Data.List.TakeWhile

/-!
# C strings

* `decimal`, `atoi`, `strchr` — numbers and characters in C strings, which are lists without their
  terminator; `atoi_decimal`, `strchr_append`.
* `words` — the words of a line; `words_line`.
-/

namespace CString

/-- A number as `%u` prints it. -/
def decimal (n : Nat) : List Char := Nat.toDigits 10 n

theorem isDigit_of_mem_decimal {n : Nat} {c : Char} (h : c ∈ decimal n) : c.isDigit = true :=
  Nat.isDigit_of_mem_toDigits (by decide) (by decide) h

theorem decimal_ne_nil (n : Nat) : decimal n ≠ [] := Nat.toDigits_ne_nil

/-- What is not a digit is not in a number. -/
theorem not_mem_decimal {c : Char} (h : c.isDigit = false) (n : Nat) : c ∉ decimal n := by
  intro hmem
  rw [isDigit_of_mem_decimal hmem] at h
  cases h

theorem ofDigitChars_decimal (n : Nat) : Nat.ofDigitChars 10 (decimal n) 0 = n :=
  Nat.ofDigitChars_ten_toDigits

theorem decimal_injective : Function.Injective decimal := by
  intro m n h
  rw [← ofDigitChars_decimal m, h, ofDigitChars_decimal]

/-- `isspace`. -/
def isspace (c : Char) : Bool := c = ' ' || (9 ≤ c.toNat && c.toNat ≤ 13)

theorem isspace_of_isDigit {c : Char} (h : c.isDigit = true) : isspace c = false := by
  have hrange : 48 ≤ c.toNat := by
    simp only [Char.isDigit, Bool.and_eq_true, decide_eq_true_eq] at h
    exact UInt32.le_iff_toNat_le.mp h.1
  have hne : c ≠ ' ' := by
    rintro rfl
    cases h
  simp only [isspace, Bool.or_eq_false_iff, decide_eq_false_iff_not, Bool.and_eq_false_iff]
  exact ⟨hne, Or.inr (by omega)⟩

/-- `atoi`: blanks, a sign and digits, up to the first character that is none.  What a 32-bit `int` cannot hold
wraps around. -/
def atoi (s : List Char) : Int :=
  let s := s.dropWhile isspace
  let digits (s : List Char) : Int := Nat.ofDigitChars 10 (s.takeWhile Char.isDigit) 0
  let value :=
    match s with
    | '-' :: s => -digits s
    | '+' :: s => digits s
    | s => digits s
  (BitVec.ofInt 32 value).toInt

theorem takeWhile_decimal (n : Nat) : (decimal n).takeWhile Char.isDigit = decimal n :=
  List.takeWhile_eq_self_iff.mpr fun _ h => isDigit_of_mem_decimal h

theorem toInt_ofNat_of_lt {n : Nat} (h : n < 2 ^ 31) : (BitVec.ofInt 32 (n : Int)).toInt = n := by
  rw [BitVec.ofInt_natCast, BitVec.toInt_eq_toNat_cond, BitVec.toNat_ofNat]
  omega

/-- A number that was printed is read back. -/
theorem atoi_decimal {n : Nat} (h : n < 2 ^ 31) : atoi (decimal n) = n := by
  obtain ⟨d, ds, hds⟩ := List.exists_cons_of_ne_nil (decimal_ne_nil n)
  have hd : d.isDigit = true := isDigit_of_mem_decimal (hds ▸ List.mem_cons_self)
  have hdrop : (decimal n).dropWhile isspace = decimal n := by
    rw [hds, List.dropWhile_cons_of_neg]
    rw [isspace_of_isDigit hd]
    exact Bool.false_ne_true
  have hminus : d ≠ '-' := by
    rintro rfl
    cases hd
  have hplus : d ≠ '+' := by
    rintro rfl
    cases hd
  unfold atoi
  rw [hdrop, hds]
  dsimp only
  split
  next heq => exact absurd (List.cons.inj heq).1 hminus
  next heq => exact absurd (List.cons.inj heq).1 hplus
  next => rw [← hds, takeWhile_decimal, ofDigitChars_decimal, toInt_ofNat_of_lt h]

/-- `strchr`: what stands before the first `c` and what after it. -/
def strchr (c : Char) : List Char → Option (List Char × List Char)
  | [] => none
  | d :: s => if d = c then some ([], s) else (strchr c s).map fun (before, after) => (d :: before, after)

theorem strchr_append {c : Char} {s : List Char} (h : c ∉ s) (t : List Char) :
    strchr c (s ++ c :: t) = some (s, t) := by
  induction s with
  | nil => exact if_pos rfl
  | cons d s ih =>
      rw [List.mem_cons, not_or] at h
      rw [List.cons_append, strchr, if_neg (Ne.symm h.1), ih h.2]
      rfl

theorem strchr_eq_none {c : Char} {s : List Char} (h : c ∉ s) : strchr c s = none := by
  induction s with
  | nil => rfl
  | cons d s ih =>
      rw [List.mem_cons, not_or] at h
      rw [strchr, if_neg (Ne.symm h.1), ih h.2]
      rfl

/-- The words of a line. -/
def words (line : List Char) : List (List Char) := (line.splitOnP isspace).filter (· ≠ [])

/-- A word is not empty and has no blank in it. -/
def IsWord (w : List Char) : Prop := w ≠ [] ∧ ∀ c ∈ w, isspace c = false

theorem words_cons {w : List Char} (hw : IsWord w) {c : Char} (hc : isspace c = true) (line : List Char) :
    words (w ++ c :: line) = w :: words line := by
  rw [words, List.splitOnP_append_cons_of_forall_mem hw.2 c hc, List.filter_cons_of_pos (by simpa using hw.1)]
  rfl

/-- Words with a blank between them are the words of their line. -/
theorem words_line {w : List Char} {ws : List (List Char)} (hw : IsWord w) (hws : ∀ w ∈ ws, IsWord w) {c : Char}
    (hc : isspace c = true) : words (w ++ ws.flatMap (' ' :: ·) ++ [c]) = w :: ws := by
  induction ws generalizing w with
  | nil =>
      rw [List.flatMap_nil, List.append_nil, words_cons hw hc]
      rfl
  | cons v ws ih =>
      rw [List.flatMap_cons, List.cons_append, List.append_assoc, List.cons_append, words_cons hw rfl]
      rw [ih (hws v List.mem_cons_self) fun u hu => hws u (List.mem_cons_of_mem v hu)]

end CString
