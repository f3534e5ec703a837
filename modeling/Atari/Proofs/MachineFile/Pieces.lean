import Atari.MachineFile.Variables
import Mathlib.Data.List.Infix

/-!
# The pieces of a text

A text is cut into its references, from left to right and none within another, and the characters in between.
So all references can be filled at once, each with the value of its own variable.

* `Piece`: a character or a reference; `Cut`: how a text is cut; `pieces`: its pieces, with `cut_pieces`;
* `Piece.names`: the variables that are referred to; **`Cut.references_eq`**: they are found in a text;
* `Piece.fill`: the text with values in the places of its references.
-/

namespace Atari

/-! ## Names -/

/-- What can stand between the braces of a reference. -/
def IsName (name : List Char) : Prop := name ≠ [] ∧ '\x7d' ∉ name

variable {name n m : List Char} {c : Char} {cs t : List Char}

theorem reference_append (name t : List Char) :
    reference name ++ t = '$' :: '\x7b' :: (name ++ '\x7d' :: t) := by
  simp [reference]

theorem takeWhile_name (h : '\x7d' ∉ name) (t : List Char) :
    (name ++ '\x7d' :: t).takeWhile (· ≠ '\x7d') = name := by
  have inside : ∀ c ∈ name, decide (c ≠ '\x7d') = true := by
    rintro c member
    refine decide_eq_true ?_
    rintro rfl
    exact h member
  rw [List.takeWhile_append_of_pos inside]
  simp

theorem reference_inj (hn : IsName n) (hm : IsName m) (h : reference n <+: reference m ++ t) : n = m := by
  obtain ⟨s, h⟩ := h
  rw [reference_append, reference_append, List.cons_inj_right, List.cons_inj_right] at h
  rw [← takeWhile_name hn.2 s, h, takeWhile_name hm.2]

/-! ## Cutting -/

/-- A part of a text: a character that stands for itself, or a reference. -/
inductive Piece
  | plain (c : Char)
  | ref (name : List Char)
  deriving DecidableEq, Repr

/-- How a text is cut into pieces. A reference is taken where one begins, and no other one begins within it. -/
inductive Cut : List Char → List Piece → Prop
  | nil : Cut [] []
  | plain {c : Char} {cs : List Char} {ps : List Piece} :
      (∀ name, IsName name → ¬ reference name <+: c :: cs) → Cut cs ps → Cut (c :: cs) (.plain c :: ps)
  | ref {name cs : List Char} {ps : List Piece} : IsName name → Cut cs ps →
      Cut (reference name ++ cs) (.ref name :: ps)

/-- The name of the reference that a text begins with, if it begins with one. -/
def nameAt? : List Char → Option (List Char)
  | '$' :: '\x7b' :: cs =>
    let name := cs.takeWhile (· ≠ '\x7d')
    if name ≠ [] ∧ '\x7d' ∈ cs then some name else none
  | _ => none

/-- The pieces of a text. The next `skipped` characters belong to the last reference. -/
def pieces : (skipped : Nat) → List Char → List Piece
  | _, [] => []
  | skipped + 1, _ :: cs => pieces skipped cs
  | 0, c :: cs =>
    match nameAt? (c :: cs) with
    | some name => .ref name :: pieces (name.length + 2) cs
    | none => .plain c :: pieces 0 cs

theorem nameAt?_reference (h : IsName name) (t : List Char) : nameAt? (reference name ++ t) = some name := by
  rw [reference_append, nameAt?, takeWhile_name h.2, if_pos ⟨h.1, by simp⟩]

theorem reference_of_nameAt? (h : nameAt? cs = some name) : IsName name ∧ reference name <+: cs := by
  unfold nameAt? at h
  split at h
  · rename_i cs
    dsimp only at h
    split at h
    · rename_i found
      obtain ⟨a, b, rfl, first⟩ := List.eq_append_cons_of_mem found.2
      rw [takeWhile_name first] at h found
      cases h
      exact ⟨⟨found.1, first⟩, b, reference_append _ b⟩
    · cases h
  · cases h

theorem pieces_skip (xs t : List Char) : pieces xs.length (xs ++ t) = pieces 0 t := by
  induction xs with
  | nil => rfl
  | cons x xs ih => exact ih

/-- **Every text is cut into its pieces.** -/
theorem cut_pieces (cs : List Char) : Cut cs (pieces 0 cs) := by
  induction h : cs.length using Nat.strong_induction_on generalizing cs with
  | h k ih =>
    subst h
    cases cs with
    | nil => exact .nil
    | cons c cs =>
      rw [pieces]
      cases found : nameAt? (c :: cs) with
      | none =>
        refine .plain ?_ (ih _ (Nat.lt_succ_self _) cs rfl)
        rintro name named ⟨t, text⟩
        rw [← text, nameAt?_reference named] at found
        cases found
      | some name =>
        obtain ⟨named, t, text⟩ := reference_of_nameAt? found
        have rest : ('\x7b' :: name ++ ['\x7d']) ++ t = cs := (List.cons.inj text).2
        have skip : pieces (name.length + 2) cs = pieces 0 t := by
          rw [← rest, ← pieces_skip ('\x7b' :: name ++ ['\x7d']) t]
          simp
        dsimp only
        rw [skip, ← text]
        refine .ref named (ih _ ?_ t rfl)
        rw [← text, reference_append]
        simp
        omega

/-! ## Names of variables -/

namespace Piece

/-- The variable that a piece refers to. -/
def name? : Piece → Option (List Char)
  | plain _ => none
  | ref name => some name

def names (ps : List Piece) : List (List Char) := ps.filterMap name?

theorem names_plain (c : Char) (ps : List Piece) : names (.plain c :: ps) = names ps := rfl

theorem mem_names_cons {p : Piece} {ps : List Piece} (h : n ∈ names ps) : n ∈ names (p :: ps) := by
  cases p with
  | plain => exact h
  | ref => exact .tail _ h

/-! ## Values -/

/-- What stands in the place of a piece. A reference to a variable without a value stays as it is. -/
def filled (f : List Char → Option (List Char)) : Piece → List Char
  | plain c => [c]
  | ref name => (f name).getD (reference name)

/-- The text that pieces make, with values in the places of their references, all at once. -/
def fill (f : List Char → Option (List Char)) (ps : List Piece) : List Char := ps.flatMap (filled f)

variable {f g : List Char → Option (List Char)} {ps : List Piece}

theorem fill_plain (c : Char) (ps : List Piece) : fill f (.plain c :: ps) = c :: fill f ps := rfl

theorem fill_ref (name : List Char) (ps : List Piece) :
    fill f (.ref name :: ps) = (f name).getD (reference name) ++ fill f ps := rfl

theorem fill_congr (h : ∀ n ∈ names ps, f n = g n) : fill f ps = fill g ps := by
  induction ps with
  | nil => rfl
  | cons p ps ih =>
    cases p with
    | plain c => rw [fill_plain, fill_plain, ih h]
    | ref name => rw [fill_ref, fill_ref, h name List.mem_cons_self, ih fun n hn => h n (.tail _ hn)]

theorem infix_fill {v : List Char} (h : n ∈ names ps) (value : f n = some v) : v <:+: fill f ps := by
  induction ps with
  | nil => cases h
  | cons p ps ih =>
    cases p with
    | plain c => exact (ih h).trans (List.suffix_cons c _).isInfix
    | ref name =>
      rw [fill_ref]
      cases h with
      | head =>
        rw [value]
        exact (List.prefix_append v _).isInfix
      | tail _ h => exact (ih h).trans (List.suffix_append _ _).isInfix

end Piece

open Piece

namespace Cut

variable {ps : List Piece}

theorem fill_none (h : Cut cs ps) : fill (fun _ => none) ps = cs := by
  induction h with
  | nil => rfl
  | plain _ _ ih => rw [fill_plain, ih]
  | ref _ _ ih => rw [fill_ref, ih]; rfl

theorem isName (h : Cut cs ps) : ∀ n ∈ names ps, IsName n := by
  induction h with
  | nil => exact fun _ hn => nomatch hn
  | plain _ _ ih => exact ih
  | ref named _ ih =>
    rintro n (_ | ⟨_, hn⟩)
    · exact named
    · exact ih n hn

theorem names_eq_nil (h : Cut cs ps) (free : '\x7d' ∉ cs) : names ps = [] := by
  induction h with
  | nil => rfl
  | plain _ _ ih => exact ih fun closing => free (.tail _ closing)
  | ref =>
    refine absurd ?_ free
    rw [reference_append]
    simp

theorem closed_of_plain (none : ∀ name, IsName name → ¬ reference name <+: '$' :: '\x7b' :: cs) :
    '\x7d' ∉ cs ∨ ∃ t, cs = '\x7d' :: t := by
  refine Classical.or_iff_not_imp_left.mpr fun closing => ?_
  obtain ⟨a, b, rfl, first⟩ := List.eq_append_cons_of_mem (Classical.not_not.mp closing)
  cases a with
  | nil => exact ⟨b, rfl⟩
  | cons x a => exact absurd ⟨b, reference_append _ b⟩ (none (x :: a) ⟨nofun, first⟩)

end Cut

/-! ## References -/

theorem references_some (acc : List Char) (free : '\x7d' ∉ name) (some' : acc ≠ [] ∨ name ≠ [])
    (t : List Char) : references (some acc) (name ++ '\x7d' :: t) = (acc.reverse ++ name) :: references none t := by
  induction name generalizing acc with
  | nil =>
    cases acc with
    | nil => simp at some'
    | cons a acc => simp [references]
  | cons x name ih =>
    have other : x ≠ '\x7d' := by
      rintro rfl
      exact free (.head _)
    have next : references (some acc) (x :: (name ++ '\x7d' :: t)) =
        references (some (x :: acc)) (name ++ '\x7d' :: t) := by
      cases acc <;> simp [references, other]
    rw [List.cons_append, next, ih (x :: acc) (fun h => free (.tail _ h)) (.inl (nofun))]
    simp

theorem references_unclosed (acc : List Char) (free : '\x7d' ∉ cs) : references (some acc) cs = [] := by
  induction cs generalizing acc with
  | nil => rfl
  | cons x cs ih =>
    have other : x ≠ '\x7d' := by
      rintro rfl
      exact free (.head _)
    have next : references (some acc) (x :: cs) = references (some (x :: acc)) cs := by
      cases acc <;> simp [references, other]
    rw [next, ih _ fun h => free (.tail _ h)]

/-- **The references that are found in a text are those that it is cut into**, in order. -/
theorem Cut.references_eq {ps : List Piece} (h : Cut cs ps) : references none cs = names ps := by
  induction h with
  | nil => rfl
  | @ref name cs ps named _ ih =>
    rw [reference_append, references, references_some [] named.2 (.inr named.1), ih]
    rfl
  | @plain c cs ps unopened cut ih =>
    rw [names_plain]
    by_cases opens : ∃ rest, c = '$' ∧ cs = '\x7b' :: rest
    · obtain ⟨rest, rfl, rfl⟩ := opens
      rw [references]
      obtain unclosed | ⟨t, rfl⟩ := closed_of_plain unopened
      · rw [references_unclosed [] unclosed, cut.names_eq_nil (by simpa using unclosed)]
      · rw [← ih]
        simp [references]
    · rw [← ih]
      have other : ∀ rest, c = '$' → cs = '\x7b' :: rest → False := fun rest h k => opens ⟨rest, h, k⟩
      rw [references]
      exact other

end Atari
