import Atari.AddressText
import Mathlib.Algebra.GroupWithZero.Nat

/-!
# Addresses are read back

* `hexNumber_hexDigits`: digits stand for the number that they were written for;
* `trimChars_of_not_isBlank`: a text without blanks is left alone by trimming;
* **`Address.parse_text`**: the text of an address is read as that address.
-/

namespace Atari

variable {c : LetterCase}

/-! ## Digits -/

theorem hexDigit_of_lt : ∀ n < 16, hexValue? (hexDigit c n) = some n ∧
    (hexDigit c n).utf8Size = 1 ∧ isBlank (hexDigit c n) = false := by
  cases c with
  | lower => decide
  | upper => decide

theorem hexDigit_mod (c : LetterCase) (n : Nat) : hexDigit c (n % 16) = hexDigit c n := by
  unfold hexDigit
  rw [Nat.mod_mod]

theorem hexValue?_hexDigit (n : Nat) : hexValue? (hexDigit c n) = some (n % 16) := by
  rw [← hexDigit_mod]
  exact (hexDigit_of_lt (n % 16) (Nat.mod_lt n (by decide))).1

theorem utf8Size_hexDigit (n : Nat) : (hexDigit c n).utf8Size = 1 := by
  rw [← hexDigit_mod]
  exact (hexDigit_of_lt (n % 16) (Nat.mod_lt n (by decide))).2.1

theorem isBlank_hexDigit (n : Nat) : isBlank (hexDigit c n) = false := by
  rw [← hexDigit_mod]
  exact (hexDigit_of_lt (n % 16) (Nat.mod_lt n (by decide))).2.2

theorem exists_of_mem_hexDigits {w n : Nat} {x : Char} (h : x ∈ hexDigits c w n) :
    ∃ m, x = hexDigit c m := by
  induction w generalizing n with
  | zero => cases h
  | succ w ih =>
    rw [hexDigits, List.mem_append, List.mem_singleton] at h
    exact h.elim ih fun last => ⟨n, last⟩

theorem byteLength_append (cs ds : List Char) :
    byteLength (cs ++ ds) = byteLength cs + byteLength ds := by
  induction cs with
  | nil => exact (Nat.zero_add _).symm
  | cons x cs ih =>
    show x.utf8Size + byteLength (cs ++ ds) = x.utf8Size + byteLength cs + byteLength ds
    rw [ih, Nat.add_assoc]

theorem byteLength_hexDigits (w n : Nat) : byteLength (hexDigits c w n) = w := by
  induction w generalizing n with
  | zero => rfl
  | succ w ih =>
    rw [hexDigits, byteLength_append, ih]
    exact congrArg (w + ·) (utf8Size_hexDigit n)

theorem hexNumber_hexDigits (w n m position : Nat) (cs : List Char) :
    hexNumber m position (hexDigits c w n ++ cs) =
      hexNumber (m * 16 ^ w + n % 16 ^ w) (position + w) cs := by
  induction w generalizing n cs with
  | zero => rw [hexDigits, Nat.pow_zero, Nat.mod_one, Nat.mul_one]; rfl
  | succ w ih =>
    have number : (m * 16 ^ w + n / 16 % 16 ^ w) * 16 + n % 16 =
        m * 16 ^ (w + 1) + n % 16 ^ (w + 1) := by
      rw [Nat.pow_succ, Nat.mul_comm (16 ^ w) 16, Nat.mod_mul, Nat.add_mul, Nat.mul_assoc,
        Nat.mul_comm (16 ^ w) 16, Nat.mul_comm (n / 16 % 16 ^ w) 16]
      omega
    rw [hexDigits, List.append_assoc, ih, List.singleton_append, hexNumber, hexValue?_hexDigit,
      utf8Size_hexDigit]
    dsimp only
    rw [number, Nat.add_assoc]

theorem hex_of_lt {w n : Nat} (h : n < 16 ^ w) (positive : 0 < w) :
    hex c w n = String.ofList (hexDigits c w n) := by
  have enough : n.log2 / 4 + 1 ≤ w := by
    by_cases zero : n = 0
    · subst zero
      exact positive
    · have : n.log2 < 4 * w := (Nat.log2_lt zero).mpr (by rwa [Nat.pow_mul])
      omega
  rw [hex, Nat.max_eq_left enough]

/-! ## Blanks -/

theorem dropWhile_isBlank {cs : List Char} (h : ∀ x ∈ cs, isBlank x = false) :
    cs.dropWhile isBlank = cs := by
  cases cs with
  | nil => rfl
  | cons x cs => rw [List.dropWhile_cons, h x List.mem_cons_self, if_neg Bool.false_ne_true]

theorem trimChars_of_not_isBlank {cs : List Char} (h : ∀ x ∈ cs, isBlank x = false) :
    trimChars cs = cs := by
  have reversed : ∀ x ∈ cs.reverse, isBlank x = false := fun x hx => h x (List.mem_reverse.mp hx)
  rw [trimChars, dropWhile_isBlank h, trimEndChars, dropWhile_isBlank reversed, List.reverse_reverse]

/-! ## Addresses -/

namespace Address

theorem text_eq (a : Address) : a.text = String.ofList ('$' :: hexDigits .upper 4 a.toNat) := by
  rw [text, hex_of_lt a.toNat_lt (by decide)]
  exact String.toList_inj.mp (by simp)

/-- **The text of an address is read as that address.** -/
theorem parse_text (a : Address) : parse a.text = .ok a := by
  have visible : ∀ x ∈ '$' :: hexDigits .upper 4 a.toNat, isBlank x = false := by
    intro x hx
    obtain rfl | hx := List.mem_cons.mp hx
    · decide
    · obtain ⟨m, rfl⟩ := exists_of_mem_hexDigits hx
      exact isBlank_hexDigit m
  have digits : dropMark ('$' :: hexDigits .upper 4 a.toNat) = hexDigits .upper 4 a.toNat := rfl
  have filled : fillDigits (hexDigits .upper 4 a.toNat) = hexDigits .upper 4 a.toNat := by
    rw [fillDigits, length_hexDigits]
    rfl
  have some : hexDigits .upper 4 a.toNat ≠ [] := List.ne_nil_of_length_eq_add_one (length_hexDigits ..)
  have number : hexNumber 0 0 (hexDigits .upper 4 a.toNat) = .ok a.toNat := by
    have small : a.toNat < 16 ^ 4 := a.toNat_lt
    have := hexNumber_hexDigits (c := .upper) 4 a.toNat 0 0 []
    rwa [List.append_nil, Nat.zero_mul, Nat.zero_add, Nat.mod_eq_of_lt small] at this
  rw [parse, text_eq, String.toList_ofList, trimChars_of_not_isBlank visible, parseChars]
  dsimp only
  rw [digits, filled, byteLength_hexDigits, number]
  simp [some]

end Address

end Atari
