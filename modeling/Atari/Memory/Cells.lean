/-!
# Tables of `2 ^ n` cells

A table with one cell for each number of `n` bits, as a perfect binary tree: the lowest bit of the
number chooses the half. A table of equal cells is made in `n` steps, and a changed table shares all
but one path with the table before.

* `Cells.fill`, `Cells.get`, `Cells.set`;
* **`Cells.get_set`**: reading after writing;
* **`Cells.ext`**: a table is determined by what is read from it.
-/

namespace Atari

/-- A table with one cell for each number below `2 ^ n`. -/
inductive Cells (α : Type) : Nat → Type
  | cell (x : α) : Cells α 0
  | halves {n : Nat} (even odd : Cells α n) : Cells α (n + 1)

namespace Cells

variable {α : Type} {n : Nat}

/-- The number of cells of a table. -/
def size : Nat → Nat
  | 0 => 1
  | n + 1 => 2 * size n

/-- The table whose cells all hold `x`. -/
def fill (x : α) : (n : Nat) → Cells α n
  | 0 => cell x
  | n + 1 => let half := fill x n; halves half half

/-- What the cell of `i` holds; only the `n` lowest bits of `i` count. -/
def get : {n : Nat} → Cells α n → Nat → α
  | _, cell x, _ => x
  | _, halves even odd, i => if i % 2 = 0 then even.get (i / 2) else odd.get (i / 2)

/-- The table with `x` in the cell of `i`. -/
def set : {n : Nat} → Cells α n → Nat → α → Cells α n
  | _, cell _, _, x => cell x
  | _, halves even odd, i, x =>
    if i % 2 = 0 then halves (even.set (i / 2) x) odd else halves even (odd.set (i / 2) x)

@[simp] theorem get_fill (x : α) (n i : Nat) : (fill x n).get i = x := by
  induction n generalizing i with
  | zero => rfl
  | succ n ih => simp [fill, get, ih]

theorem get_set {n : Nat} (t : Cells α n) {i j : Nat} (hi : i < size n) (hj : j < size n) (x : α) :
    (t.set i x).get j = if i = j then x else t.get j := by
  induction t generalizing i j with
  | cell y =>
    have : i = j := by
      simp only [size] at hi hj
      omega
    simp [set, get, this]
  | halves even odd ihe iho =>
    have hi' : i / 2 < size _ := Nat.div_lt_of_lt_mul hi
    have hj' : j / 2 < size _ := Nat.div_lt_of_lt_mul hj
    rcases Nat.mod_two_eq_zero_or_one i with hi2 | hi2 <;>
      rcases Nat.mod_two_eq_zero_or_one j with hj2 | hj2
    · have : i / 2 = j / 2 ↔ i = j := by omega
      simp only [set, get, hi2, hj2, if_true, ihe hi' hj', this]
    · have : i ≠ j := by omega
      simp [set, get, hi2, hj2, this]
    · have : i ≠ j := by omega
      simp [set, get, hi2, hj2, this]
    · have : i / 2 = j / 2 ↔ i = j := by omega
      simp only [set, get, hi2, hj2, Nat.one_ne_zero, if_false, iho hi' hj', this]

theorem ext {n : Nat} {s t : Cells α n} (h : ∀ i < size n, s.get i = t.get i) : s = t := by
  induction n with
  | zero =>
    cases s; cases t
    exact congrArg cell (h 0 (by decide))
  | succ n ih =>
    cases s with | halves s₀ s₁ =>
    cases t with | halves t₀ t₁ =>
    have he : s₀ = t₀ := ih fun i hi => by
      have := h (2 * i) (by rw [size]; omega)
      simpa [get] using this
    have ho : s₁ = t₁ := ih fun i hi => by
      have := h (2 * i + 1) (by rw [size]; omega)
      simpa [get, Nat.add_mod, show (2 * i + 1) / 2 = i by omega] using this
    rw [he, ho]

end Cells

end Atari
