import Atari.Proofs.AddressText
import Atari.Proofs.Words
import Mathlib.Data.List.Basic
import Mathlib.Data.List.TakeWhile
import Mathlib.Data.Nat.Digits.Defs

/-!
# Spelling addresses

A text is an address if, but for blanks around it, it is a mark and one to four hexadecimal digits. Nothing else is
taken, and no text leaves the digits without an answer, for every decoder that takes pairs of digits and nothing else.

* `HexBytes`, `DecodesHex`: the bytes that pairs of digits stand for, and what is asked of a decoder;
* `Address.Spells`: a text that spells an address;
* **`Address.parseWith_iff`**: the texts that are read, and the address of each.
-/

namespace Atari

/-! ## Digits -/

/-- Pairs of digits stand for bytes. -/
inductive HexBytes : List Char → List Byte → Prop
  | nil : HexBytes [] []
  | pair {x y : Char} {m n : Nat} {cs : List Char} {bytes : List Byte} : hexValue? x = some m →
      hexValue? y = some n → HexBytes cs bytes → HexBytes (x :: y :: cs) (UInt8.ofNat (m * 16 + n) :: bytes)

/-- A decoder takes an even number of digits and nothing else, and gives a byte for each pair. -/
def DecodesHex (decode : List Char → Except DigitError (List Byte)) : Prop :=
  ∀ cs bytes, decode cs = .ok bytes ↔ HexBytes cs bytes

theorem digit_of_hexValue? {c : Char} {n : Nat} (h : hexValue? c = some n) :
    n < 16 ∧ c.utf8Size = 1 ∧ isBlank c = false ∧ c ≠ '#' ∧ c ≠ '$' ∧ c ≠ 'x' := by
  have small : c.toNat < 128 := by
    unfold hexValue? at h
    split_ifs at h with h₁ h₂ h₃
    · exact lt_of_le_of_lt h₁.2 (by decide)
    · exact lt_of_le_of_lt h₂.2 (by decide)
    · exact lt_of_le_of_lt h₃.2 (by decide)
  have checked : ∀ k < 128, ∀ n ∈ hexValue? (Char.ofNat k), n < 16 ∧ (Char.ofNat k).utf8Size = 1 ∧
      isBlank (Char.ofNat k) = false ∧ Char.ofNat k ≠ '#' ∧ Char.ofNat k ≠ '$' ∧ Char.ofNat k ≠ 'x' := by
    decide +kernel
  have := checked c.toNat small n
  rw [Char.ofNat_toNat] at this
  exact this h

theorem byteLength_digits {cs : List Char} (h : ∀ c ∈ cs, ∃ n, hexValue? c = some n) : byteLength cs = cs.length := by
  induction cs with
  | nil => rfl
  | cons c cs ih =>
    obtain ⟨n, hn⟩ := h c List.mem_cons_self
    have rest := ih fun d hd => h d (List.mem_cons_of_mem c hd)
    have one := (digit_of_hexValue? hn).2.1
    simp only [byteLength, List.foldr_cons, List.length_cons] at rest ⊢
    omega

theorem length_le_byteLength (cs : List Char) : cs.length ≤ byteLength cs := by
  induction cs with
  | nil => exact Nat.le_refl 0
  | cons c cs ih =>
    have := c.utf8Size_pos
    simp only [byteLength, List.foldr_cons, List.length_cons] at ih ⊢
    omega

theorem HexBytes.digits {cs : List Char} {bytes : List Byte} (h : HexBytes cs bytes) :
    ∀ c ∈ cs, ∃ n, hexValue? c = some n := by
  induction h with
  | nil => simp
  | pair hx hy _ ih => simpa [hx, hy] using ih

theorem HexBytes.even {cs : List Char} {bytes : List Byte} (h : HexBytes cs bytes) : cs.length % 2 = 0 := by
  induction h with
  | nil => rfl
  | pair _ _ _ ih => simpa [Nat.add_assoc] using ih

theorem hexPairs_eq_ok_iff {position : Nat} {cs : List Char} {bytes : List Byte} :
    hexPairs position cs = .ok bytes ↔ HexBytes cs bytes := by
  constructor
  · intro h
    fun_induction hexPairs position cs generalizing bytes with
    | case1 =>
      cases h
      exact .nil
    | case3 position x y cs m n hy hx ih =>
      cases hr : hexPairs (position + 2) cs with
      | error e => simp [hr, Except.map] at h
      | ok rest =>
        simp only [hr, Except.map, Except.ok.injEq] at h
        exact h ▸ .pair hx hy (ih hr)
    | case2 | case4 | case5 => cases h
  · intro h
    induction h generalizing position with
    | nil => rfl
    | pair hx hy _ ih => simp [hexPairs, hx, hy, ih, Except.map]

theorem decodesHex_decodeHex : DecodesHex decodeHex := by
  intro cs bytes
  unfold decodeHex
  by_cases odd : byteLength cs % 2 = 1
  · simp only [if_pos odd]
    refine ⟨nofun, fun h => ?_⟩
    rw [byteLength_digits h.digits, h.even] at odd
    omega
  · rw [if_neg odd, hexPairs_eq_ok_iff]

/-! ## Marks and blanks -/

def marks : List (List Char) := [['#', '0', 'x'], ['0', 'x'], ['$'], []]

theorem dropMark_cases (cs : List Char) : ∃ mark ∈ marks, cs = mark ++ dropMark cs := by
  fun_cases dropMark cs with
  | case1 cs => exact ⟨['#', '0', 'x'], by simp [marks], rfl⟩
  | case2 cs => exact ⟨['0', 'x'], by simp [marks], rfl⟩
  | case3 cs => exact ⟨['$'], by simp [marks], rfl⟩
  | case4 => exact ⟨[], by simp [marks], rfl⟩

theorem dropMark_mark {mark cs : List Char} (h : mark ∈ marks) (digits : ∀ c ∈ cs, ∃ n, hexValue? c = some n) :
    dropMark (mark ++ cs) = cs := by
  simp only [marks, List.mem_cons, List.not_mem_nil, or_false] at h
  rcases h with rfl | rfl | rfl | rfl
  · rfl
  · rfl
  · rfl
  · -- No digit is the beginning of a mark.
    fun_cases dropMark cs with
    | case1 cs => simpa [hexValue?] using digits '#' (by simp)
    | case2 cs => simpa [hexValue?] using digits 'x' (by simp)
    | case3 cs => simpa [hexValue?] using digits '$' (by simp)
    | case4 => simp_all

theorem isBlank_of_mem_mark {mark : List Char} (h : mark ∈ marks) : ∀ c ∈ mark, isBlank c = false := by
  have checked : marks.all fun mark => mark.all fun c => !isBlank c := by decide
  intro c hc
  simpa using List.all_eq_true.mp (List.all_eq_true.mp checked mark h) c hc

theorem exists_trimChars (cs : List Char) :
    ∃ left right, cs = left ++ trimChars cs ++ right ∧ ∀ c ∈ left ++ right, isBlank c = true := by
  refine ⟨cs.takeWhile isBlank, ((cs.dropWhile isBlank).reverse.takeWhile isBlank).reverse, ?_, ?_⟩
  · rw [trimChars, trimEndChars, List.append_assoc, ← List.reverse_append, List.takeWhile_append_dropWhile,
      List.reverse_reverse, List.takeWhile_append_dropWhile]
  · intro c hc
    rcases List.mem_append.mp hc with hc | hc
    · exact List.mem_takeWhile_imp hc
    · exact List.mem_takeWhile_imp (List.mem_reverse.mp hc)

theorem trimChars_eq_iff {cs text : List Char} (some : text ≠ []) (visible : ∀ c ∈ text, isBlank c = false) :
    trimChars cs = text ↔ ∃ left right, cs = left ++ text ++ right ∧ ∀ c ∈ left ++ right, isBlank c = true := by
  constructor
  · rintro rfl
    exact exists_trimChars cs
  · rintro ⟨left, right, rfl, blank⟩
    have hl : ∀ c ∈ left, isBlank c = true := fun c hc => blank c (List.mem_append_left right hc)
    have hr : ∀ c ∈ right.reverse, isBlank c = true := fun c hc =>
      blank c (List.mem_append_right left (List.mem_reverse.mp hc))
    have front : (text ++ right).dropWhile isBlank = text ++ right := by
      cases text with
      | nil => exact absurd rfl some
      | cons c text => simp [visible c List.mem_cons_self]
    have back : text.reverse.dropWhile isBlank = text.reverse :=
      dropWhile_isBlank fun c hc => visible c (List.mem_reverse.mp hc)
    rw [trimChars, List.append_assoc, List.dropWhile_append_of_pos hl, front, trimEndChars, List.reverse_append,
      List.dropWhile_append_of_pos hr, back, List.reverse_reverse]

/-! ## Addresses -/

/-- Digits stand for a number, the highest first. -/
def StandFor (digits : List Char) (n : Nat) : Prop :=
  ∃ values : List Nat, digits.map hexValue? = values.map some ∧ Nat.ofDigits 16 values.reverse = n

theorem StandFor.digits {digits : List Char} {n : Nat} (h : StandFor digits n) :
    ∀ c ∈ digits, ∃ n, hexValue? c = some n := by
  intro c hc
  obtain ⟨values, hvalues, -⟩ := h
  have : hexValue? c ∈ values.map some := hvalues ▸ List.mem_map_of_mem hc
  obtain ⟨n, -, hn⟩ := List.mem_map.mp this
  exact ⟨n, hn.symm⟩

theorem standFor_fillDigits {digits : List Char} {n : Nat} : StandFor (fillDigits digits) n ↔ StandFor digits n := by
  have zero : hexValue? '0' = some 0 := by decide
  unfold fillDigits
  induction 4 - digits.length with
  | zero => rfl
  | succ k ih =>
    refine Iff.trans ?_ ih
    rw [List.replicate_succ, List.cons_append]
    constructor
    · rintro ⟨values, hvalues, rfl⟩
      obtain ⟨v, rest, rfl, hv, hrest⟩ := List.map_eq_cons_iff.mp hvalues.symm
      obtain rfl : v = 0 := by simpa [zero] using hv
      exact ⟨rest, hrest.symm, by simp [Nat.ofDigits_append]⟩
    · rintro ⟨values, hvalues, rfl⟩
      exact ⟨0 :: values, by simp [zero, hvalues], by simp [Nat.ofDigits_append]⟩

theorem toNat_ofBytes_digits {k l m n : Nat} (hk : k < 16) (hl : l < 16) (hm : m < 16) (hn : n < 16) :
    (Address.ofBytes (UInt8.ofNat (m * 16 + n)) (UInt8.ofNat (k * 16 + l))).toNat =
      Nat.ofDigits 16 [n, m, l, k] := by
  rw [Address.toNat_ofBytes, UInt8.toNat_ofNat_of_lt' (by show _ < 256; omega),
    UInt8.toNat_ofNat_of_lt' (by show _ < 256; omega)]
  simp only [Nat.ofDigits_cons, Nat.ofDigits_nil]
  omega

theorem HexBytes.standFor {cs : List Char} {high low : Byte} (h : HexBytes cs [high, low]) :
    StandFor cs (Address.ofBytes low high).toNat := by
  rcases h with _ | ⟨hx, hy, _ | ⟨hz, hw, _ | _⟩⟩
  have number := toNat_ofBytes_digits (digit_of_hexValue? hx).1 (digit_of_hexValue? hy).1
    (digit_of_hexValue? hz).1 (digit_of_hexValue? hw).1
  exact ⟨[_, _, _, _], by simp [hx, hy, hz, hw], number.symm⟩

theorem StandFor.hexBytes {cs : List Char} (four : cs.length = 4) {a : Address} (h : StandFor cs a.toNat) :
    HexBytes cs [a.high, a.low] := by
  obtain ⟨values, hvalues, value⟩ := h
  have length : values.length = 4 := by simpa [four] using (congrArg List.length hvalues).symm
  obtain ⟨x, y, z, w, rfl⟩ := List.length_eq_four.mp four
  obtain ⟨k, l, m, n, rfl⟩ := List.length_eq_four.mp length
  simp only [List.map_cons, List.map_nil, List.cons.injEq, and_true] at hvalues
  obtain ⟨hx, hy, hz, hw⟩ := hvalues
  have number := toNat_ofBytes_digits (digit_of_hexValue? hx).1 (digit_of_hexValue? hy).1
    (digit_of_hexValue? hz).1 (digit_of_hexValue? hw).1
  rw [← UInt16.toNat_inj.mp (number.trans value), Address.high_ofBytes, Address.low_ofBytes]
  exact .pair hx hy (.pair hz hw .nil)

theorem HexBytes.length {cs : List Char} {bytes : List Byte} (h : HexBytes cs bytes) :
    cs.length = 2 * bytes.length := by
  induction h with
  | nil => rfl
  | pair _ _ _ ih => simp [ih]; omega

theorem standFor_hexDigits (c : LetterCase) (w n : Nat) : StandFor (hexDigits c w n) (n % 16 ^ w) := by
  induction w generalizing n with
  | zero => exact ⟨[], rfl, by simp [Nat.mod_one]⟩
  | succ w ih =>
    obtain ⟨values, hvalues, value⟩ := ih (n / 16)
    refine ⟨values ++ [n % 16], by simp [hexDigits, hvalues, hexValue?_hexDigit], ?_⟩
    rw [List.reverse_append, List.reverse_singleton, List.singleton_append, Nat.ofDigits_cons, value,
      Nat.pow_succ, Nat.mul_comm (16 ^ w), Nat.mod_mul]

namespace Address

/-- A text spells an address if, but for blanks around it, it is a mark and one to four digits that stand for it. -/
def Spells (text : String) (a : Address) : Prop :=
  ∃ left mark digits right, text.toList = left ++ (mark ++ digits) ++ right ∧
    (∀ c ∈ left ++ right, isBlank c = true) ∧
    mark ∈ [['#', '0', 'x'], ['0', 'x'], ['$'], []] ∧
    1 ≤ digits.length ∧ digits.length ≤ 4 ∧ StandFor digits a.toNat

/-- A text spells an address if what is left without blanks and mark does. -/
theorem spells_iff {text : String} {a : Address} : Spells text a ↔
    let digits := dropMark (trimChars text.toList)
    1 ≤ digits.length ∧ digits.length ≤ 4 ∧ StandFor digits a.toNat := by
  constructor
  · rintro ⟨left, mark, digits, right, htext, blank, hmark, one, four, value⟩
    have some : mark ++ digits ≠ [] := by
      intro h
      simp [(List.append_eq_nil_iff.mp h).2] at one
    have visible : ∀ c ∈ mark ++ digits, isBlank c = false := by
      intro c hc
      rcases List.mem_append.mp hc with hc | hc
      · exact isBlank_of_mem_mark hmark c hc
      · obtain ⟨n, hn⟩ := value.digits c hc
        exact (digit_of_hexValue? hn).2.2.1
    rw [(trimChars_eq_iff some visible).mpr ⟨left, right, htext, blank⟩, dropMark_mark hmark value.digits]
    exact ⟨one, four, value⟩
  · rintro ⟨one, four, value⟩
    obtain ⟨mark, hmark, split⟩ := dropMark_cases (trimChars text.toList)
    obtain ⟨left, right, htext, blank⟩ := exists_trimChars text.toList
    exact ⟨left, mark, dropMark (trimChars text.toList), right, by rwa [← split], blank, hmark, one, four, value⟩

theorem spells_hexDigits {mark : List Char} (h : mark ∈ marks) (a : Address) :
    Spells (String.ofList (mark ++ hexDigits .upper 4 a.toNat)) a := by
  have value := standFor_hexDigits .upper 4 a.toNat
  rw [Nat.mod_eq_of_lt (show a.toNat < 16 ^ 4 from a.toNat_lt)] at value
  exact ⟨[], mark, _, [], by simp, by simp, h, by simp, by simp, value⟩

theorem listed_eq (a : Address) :
    a.listed = String.ofList (['#', '0', 'x'] ++ hexDigits .upper 4 a.toNat) := by
  rw [listed, hex_of_lt a.toNat_lt (by decide)]
  exact String.toList_inj.mp (by simp)

section Reading

variable {decode : List Char → Except DigitError (List Byte)} (h : DecodesHex decode) (text : String)

include h

/-- Every text has an answer, and it is an address exactly if the text spells it. -/
theorem exists_parseWith : ∃ r, parseWith decode text = some r ∧ ∀ a, r = .ok a ↔ Spells text a := by
  simp only [spells_iff]
  unfold parseWith
  dsimp only
  generalize dropMark (trimChars text.toList) = digits
  split_ifs with bad
  · refine ⟨_, rfl, fun a => ⟨by simp, ?_⟩⟩
    rintro ⟨one, four, value⟩
    rcases bad with rfl | long
    · simp at one
    · rw [byteLength_digits value.digits] at long
      omega
  · have short := length_le_byteLength digits
    have length : (fillDigits digits).length = 4 := by
      simp [fillDigits]
      omega
    cases hd : decode (fillDigits digits) with
    | error e =>
      refine ⟨_, rfl, fun a => ⟨by simp, ?_⟩⟩
      rintro ⟨-, -, value⟩
      have := (h _ _).mpr ((standFor_fillDigits.mpr value).hexBytes length)
      simp [hd] at this
    | ok bytes =>
      have read := (h _ _).mp hd
      have two : bytes.length = 2 := by
        have := read.length
        omega
      obtain ⟨high, low, rfl⟩ := List.length_eq_two.mp two
      refine ⟨.ok (.ofBytes low high), rfl, fun a => ⟨?_, ?_⟩⟩
      · intro same
        cases same
        have one : digits ≠ [] := fun none => bad (.inl none)
        exact ⟨List.length_pos_iff.mpr one, by omega, standFor_fillDigits.mp read.standFor⟩
      · rintro ⟨-, -, value⟩
        have same := (h _ _).mpr ((standFor_fillDigits.mpr value).hexBytes length)
        rw [hd] at same
        cases same
        rw [ofBytes_low_high]

theorem parseWith_of_spells {a : Address} (spells : Spells text a) : parseWith decode text = some (.ok a) := by
  obtain ⟨r, hr, hiff⟩ := exists_parseWith h text
  rw [hr, (hiff a).mpr spells]

end Reading

/-- Reading four digits one by one finds the same number, or the same fault, as reading them in pairs. -/
theorem hexNumber_eq_hexPairs {cs : List Char} (four : cs.length = 4) :
    hexNumber 0 0 cs = (hexPairs 0 cs).map fun bytes => (ofBytes (bytes.getD 1 0) (bytes.getD 0 0)).toNat := by
  obtain ⟨x, y, z, w, rfl⟩ := List.length_eq_four.mp four
  simp only [hexNumber, hexPairs]
  cases hx : hexValue? x with
  | none => rfl
  | some k =>
    have sx := (digit_of_hexValue? hx).2.1
    cases hy : hexValue? y with
    | none => simp [sx, Except.map]
    | some l =>
      have sy := (digit_of_hexValue? hy).2.1
      cases hz : hexValue? z with
      | none => simp [sx, sy, Except.map]
      | some m =>
        have sz := (digit_of_hexValue? hz).2.1
        cases hw : hexValue? w with
        | none => simp [sx, sy, sz, Except.map]
        | some n =>
          have number := toNat_ofBytes_digits (digit_of_hexValue? hx).1 (digit_of_hexValue? hy).1
            (digit_of_hexValue? hz).1 (digit_of_hexValue? hw).1
          simp only [Except.map, List.getD_cons_succ, List.getD_cons_zero, number, Nat.ofDigits_cons, Nat.ofDigits_nil,
            Except.ok.injEq]
          omega

/-- Picking the bytes by their places gives what reading the digits one by one does. -/
theorem parseWith_decodeHex (text : String) : parseWith decodeHex text = some (parse text) := by
  unfold parseWith parse parseChars decodeHex
  dsimp only
  generalize trimChars text.toList = cs
  generalize dropMark cs = digits
  split_ifs with bad odd
  · rfl
  · rfl
  · have length : (fillDigits digits).length = 4 := by
      have := length_le_byteLength digits
      simp [fillDigits]
      omega
    rw [hexNumber_eq_hexPairs length]
    cases hp : hexPairs 0 (fillDigits digits) with
    | error e => rfl
    | ok bytes =>
      have two : bytes.length = 2 := by
        have := (hexPairs_eq_ok_iff.mp hp).length
        omega
      obtain ⟨high, low, rfl⟩ := List.length_eq_two.mp two
      simp [Except.map]

/-- **The texts that are read.** Whatever decoder takes pairs of digits and nothing else, every text has an answer, and
it is an address exactly if the text spells it. In particular each address is read back from both of its texts. The
decoder of this library is one of them. -/
theorem parseWith_iff {decode : List Char → Except DigitError (List Byte)} (h : DecodesHex decode) (text : String) :
    (∃ r, parseWith decode text = some r ∧ ∀ a, r = .ok a ↔ Spells text a) ∧
    (∀ a : Address, parseWith decode a.text = some (.ok a) ∧ parseWith decode a.listed = some (.ok a)) ∧
    DecodesHex decodeHex ∧ parseWith decodeHex text = some (parse text) := by
  refine ⟨exists_parseWith h text, fun a => ⟨?_, ?_⟩, decodesHex_decodeHex, parseWith_decodeHex text⟩
  · have dollar : ['$'] ∈ marks := by decide
    rw [text_eq]
    exact parseWith_of_spells h _ (spells_hexDigits dollar a)
  · rw [listed_eq]
    exact parseWith_of_spells h _ (spells_hexDigits (by decide) a)

/-- Blanks of any kind, a mark and digits in both cases spell an address. A mark too many does not, and neither do two
characters that take four bytes. -/
theorem parseWith_iff_samples : DecodesHex decodeHex ∧ Spells "\u3000#0xD4a\t" 0x0D4A ∧
    (¬ ∃ a, Spells "$$12" a) ∧ (¬ ∃ a, Spells "0xéé" a) ∧
    parseWith decodeHex (text 0xD40A) = some (.ok 0xD40A) := by
  have read : parseWith decodeHex "\u3000#0xD4a\t" = some (.ok 0x0D4A) := by decide +kernel
  have doubled : parseWith decodeHex "$$12" =
      some (.error (.digits "$$12" (.invalidDigit '$' 1))) := by decide +kernel
  have accents : parseWith decodeHex "0xéé" =
      some (.error (.digits "0xéé" (.invalidDigit 'Ã' 2))) := by decide +kernel
  obtain ⟨⟨_, hr, iff⟩, printed, decodes, -⟩ := parseWith_iff decodesHex_decodeHex "\u3000#0xD4a\t"
  obtain ⟨⟨_, hr', iff'⟩, -⟩ := parseWith_iff decodesHex_decodeHex "$$12"
  obtain ⟨⟨_, hr'', iff''⟩, -⟩ := parseWith_iff decodesHex_decodeHex "0xéé"
  cases read.symm.trans hr
  cases doubled.symm.trans hr'
  cases accents.symm.trans hr''
  refine ⟨decodes, (iff _).mp rfl, ?_, ?_, (printed 0xD40A).1⟩
  · rintro ⟨a, ha⟩
    cases (iff' a).mpr ha
  · rintro ⟨a, ha⟩
    cases (iff'' a).mpr ha

end Address

end Atari
