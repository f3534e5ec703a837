import Atari.MachineFile.Load
import Atari.Proofs.MachineFile.Pieces

/-!
# Variables in a machine file

The references of a machine file are taken from its text, and their values are put in one after the other, each
in all places of its reference. By then the text holds earlier values, so that one of them can be filled itself.

* `Replaced`: a text with a value in the places of a reference, with `replaced_replaceAll`;
* `Shut`, `Piece.Inert`: values that make no reference; `Cut.replaceAll_fill`: one of them is put in as if all
  were put in at once;
* **`Environment.expand_filled_iff`**: the texts in which all values are put in at once, whatever they are;
* **`MachineFile.read_references`**: how a machine file with references is read.
-/

namespace Atari

open Piece

variable {name n m value v : List Char} {c : Char} {cs t r : List Char} {ps : List Piece}

/-! ## Places of a reference -/

/-- A text with a value in the places of a reference, from left to right. -/
inductive Replaced (name value : List Char) : List Char → List Char → Prop
  | nil : Replaced name value [] []
  | place {t r : List Char} : Replaced name value t r →
      Replaced name value (reference name ++ t) (value ++ r)
  | plain {c : Char} {t r : List Char} : ¬ reference name <+: c :: t → Replaced name value t r →
      Replaced name value (c :: t) (c :: r)

theorem replaceAll_skip (pattern value xs t : List Char) :
    replaceAll pattern value xs.length (xs ++ t) = replaceAll pattern value 0 t := by
  induction xs with
  | nil => rfl
  | cons x xs ih => exact ih

theorem replaceAll_reference (name value t : List Char) :
    replaceAll (reference name) value 0 (reference name ++ t) =
      value ++ replaceAll (reference name) value 0 t := by
  have begins : (reference name).isPrefixOf (reference name ++ t) = true := by
    simp [List.isPrefixOf_iff_prefix]
  have skip := replaceAll_skip (reference name) value (reference name).tail t
  rw [List.length_tail] at skip
  exact (if_pos begins).trans (congrArg (value ++ ·) skip)

theorem replaceAll_of_not_begins (h : ¬ reference name <+: c :: t) :
    replaceAll (reference name) value 0 (c :: t) = c :: replaceAll (reference name) value 0 t := by
  rw [replaceAll, if_neg (by rwa [List.isPrefixOf_iff_prefix])]

theorem replaced_replaceAll (name value t : List Char) :
    Replaced name value t (replaceAll (reference name) value 0 t) := by
  induction h : t.length using Nat.strong_induction_on generalizing t with
  | h k ih =>
    subst h
    by_cases begins : reference name <+: t
    · obtain ⟨t, rfl⟩ := begins
      rw [replaceAll_reference]
      refine .place (ih _ ?_ t rfl)
      simp [reference]
      omega
    · cases t with
      | nil => exact .nil
      | cons c t =>
        rw [replaceAll_of_not_begins begins]
        exact .plain begins (ih _ (Nat.lt_succ_self _) t rfl)

theorem reference_not_infix_nil (name : List Char) : ¬ reference name <:+: [] := by
  simp [reference]

theorem infix_of_infix_append {xs : List Char} (free : '$' ∉ xs) (h : reference name <:+: xs ++ t) :
    reference name <:+: t := by
  induction xs with
  | nil => exact h
  | cons x xs ih =>
    obtain ⟨u, begins⟩ | within := List.infix_cons_iff.mp h
    · rw [reference_append] at begins
      exact absurd (List.cons.inj begins).1 fun same => free (same ▸ .head _)
    · exact ih (fun h => free (.tail _ h)) within

namespace Replaced

theorem length_le (h : Replaced name value t r) (longer : (reference name).length ≤ value.length) :
    t.length ≤ r.length := by
  induction h with
  | nil => exact Nat.le_refl _
  | place _ ih =>
    rw [List.length_append, List.length_append]
    exact Nat.add_le_add longer ih
  | plain _ _ ih => exact Nat.succ_le_succ ih

theorem grows (h : Replaced name value t r) (holds : reference name <:+: value)
    (longer : (reference name).length < value.length) (found : reference name <:+: t) :
    reference name <:+: r ∧ t.length < r.length := by
  induction h with
  | nil => exact absurd found (reference_not_infix_nil name)
  | place rest =>
    refine ⟨holds.trans (List.prefix_append value _).isInfix, ?_⟩
    rw [List.length_append, List.length_append]
    exact Nat.add_lt_add_of_lt_of_le longer (rest.length_le longer.le)
  | @plain c t r other _ ih =>
    obtain ⟨kept, longer⟩ := ih ((List.infix_cons_iff.mp found).resolve_left other)
    exact ⟨kept.trans (List.suffix_cons c r).isInfix, Nat.succ_lt_succ longer⟩

theorem begins_of_begins (h : Replaced name value t r) {q : List Char} (closed : '\x7d' ∉ value)
    (short : (q ++ ['\x7d']).length ≤ value.length) (begins : q ++ ['\x7d'] <+: r) : q ++ ['\x7d'] <+: t := by
  induction h generalizing q with
  | nil => exact begins
  | place =>
    have inside := List.prefix_of_prefix_length_le begins (List.prefix_append value _) short
    exact absurd (inside.subset (by simp)) closed
  | plain _ _ ih =>
    cases q with
    | nil =>
      obtain ⟨rfl, -⟩ := List.cons_prefix_cons.mp begins
      exact List.cons_prefix_cons.mpr ⟨rfl, List.nil_prefix⟩
    | cons x q =>
      obtain ⟨rfl, rest⟩ := List.cons_prefix_cons.mp begins
      rw [List.length_append, List.length_cons] at short
      exact List.cons_prefix_cons.mpr ⟨rfl, ih (by rw [List.length_append]; omega) rest⟩

/-- Behind a long value without dollar signs and closing braces, the reference is gone: none is left, and the
value makes none with what stands around it. -/
theorem gone (h : Replaced name value t r) (opened : '$' ∉ value) (closed : '\x7d' ∉ value)
    (long : (reference name).length ≤ value.length) : ¬ reference name <:+: r := by
  induction h with
  | nil => exact reference_not_infix_nil name
  | place _ ih => exact fun found => ih (infix_of_infix_append opened found)
  | plain other rest ih =>
    intro found
    obtain begins | within := List.infix_cons_iff.mp found
    · exact other ((plain other rest).begins_of_begins (q := '$' :: '\x7b' :: name) closed long begins)
    · exact ih within

end Replaced

/-! ## Expansion -/

namespace Environment

variable (e : Environment)

/-- The text with the value of a variable in all places of its reference. -/
def put (text name : List Char) : List Char :=
  replaceAll (reference name) ((e.value? name).getD []) 0 text

variable {e}

theorem put_of_value? (value : e.value? name = some v) (text : List Char) :
    e.put text name = replaceAll (reference name) v 0 text := by
  rw [put, value]
  rfl

theorem foldlM_substitute (e : Environment) (names : List (List Char)) (text : List Char) :
    names.foldlM e.substitute text =
      match names.find? fun n => (e.value? n).isNone with
      | some n => .error ⟨String.ofList n⟩
      | none => .ok (names.foldl e.put text) := by
  induction names generalizing text with
  | nil => rfl
  | cons n names ih =>
    rw [List.foldlM_cons, substitute, List.find?_cons]
    cases value : e.value? n with
    | none => rfl
    | some v =>
      rw [List.foldl_cons, put_of_value? value]
      exact ih _

/-- **What comes of a text.** -/
theorem expand_eq (e : Environment) (text : String) :
    e.expand text =
      match (names (pieces 0 text.toList)).find? fun n => (e.value? n).isNone with
      | some n => .error ⟨String.ofList n⟩
      | none => .ok (String.ofList ((names (pieces 0 text.toList)).foldl e.put text.toList)) := by
  unfold expand
  dsimp only
  rw [(cut_pieces text.toList).references_eq, foldlM_substitute]
  split <;> rfl

end Environment

/-! ## Values that make no reference -/

def opening : List Char := ['$', '\x7b']

/-- No reference to some variables stands in a text, and none is left open at its end. -/
def Shut (ns : List (List Char)) (xs : List Char) : Prop :=
  (∀ n ∈ ns, ¬ reference n <:+: xs) ∧ ∀ w ∈ xs.tails, w ≠ ['$'] ∧ (opening <+: w → '\x7d' ∈ w)

instance (ns : List (List Char)) (xs : List Char) : Decidable (Shut ns xs) :=
  inferInstanceAs (Decidable (_ ∧ _))

variable {ns : List (List Char)}

theorem Shut.tail (h : Shut ns (c :: cs)) : Shut ns cs where
  left n hn within := h.1 n hn (within.trans (List.suffix_cons c cs).isInfix)
  right w hw := h.2 w (by rw [List.tails_cons]; exact .tail _ hw)

theorem shut_reference (h : ∀ n ∈ ns, ¬ reference n <:+: (reference m).tail) : Shut ns (reference m).tail := by
  refine ⟨h, fun w hw => ?_⟩
  obtain ⟨u, whole⟩ := (List.mem_tails w _).mp hw
  obtain rfl | ⟨w, x, rfl⟩ := w.eq_nil_or_concat'
  · exact ⟨nofun, by decide⟩
  · have last : x = '\x7d' := by
      have ends := congrArg List.getLast? whole
      simpa [reference, List.getLast?_cons] using ends
    subst last
    refine ⟨fun same => ?_, fun _ => by simp⟩
    cases w with
    | nil => exact absurd (List.cons.inj same).1 (by decide)
    | cons => simp at same

namespace Piece

/-- Values that make no reference to some variables, neither by themselves nor with what stands around them. They
may hold dollar signs, and references to other variables. -/
structure Inert (ns : List (List Char)) (f : List Char → Option (List Char)) (ps : List Piece) : Prop where
  /-- No reference stands within another one. -/
  name : ∀ m ∈ names ps, ∀ n ∈ ns, ¬ reference n <:+: (reference m).tail
  /-- No reference stands in a value, or is left open there. -/
  value : ∀ m ∈ names ps, ∀ v, f m = some v → Shut ns v
  /-- No dollar sign opens a reference with the value that follows it. -/
  before : ∀ us m vs, ps = us ++ .plain '$' :: .ref m :: vs → ∀ v, f m = some v →
    ∃ c t, v = c :: t ∧ c ≠ '\x7b'

variable {f g : List Char → Option (List Char)}

theorem Inert.mono (h : Inert ns g ps) (known : ∀ n v, f n = some v → g n = some v) : Inert ns f ps where
  name := h.name
  value m hm v value := h.value m hm v (known m v value)
  before us m vs parts v value := h.before us m vs parts v (known m v value)

theorem Inert.of_not_mem (plain : .plain '$' ∉ ps)
    (name : ∀ m ∈ names ps, ∀ n ∈ ns, ¬ reference n <:+: (reference m).tail)
    (value : ∀ m ∈ names ps, ∀ v ∈ f m, Shut ns v) : Inert ns f ps where
  name := name
  value := value
  before us m vs parts := absurd (by rw [parts]; simp) plain

theorem Inert.tail {p : Piece} (h : Inert ns f (p :: ps)) : Inert ns f ps where
  name m hm := h.name m (mem_names_cons hm)
  value m hm := h.value m (mem_names_cons hm)
  before us m vs parts := h.before (p :: us) m vs (congrArg (p :: ·) parts)

end Piece

namespace Cut

variable {f : List Char → Option (List Char)}

theorem plain_of_cons (h : Cut (c :: cs) ps) (other : c ≠ '$') : ∃ qs, ps = .plain c :: qs := by
  generalize text : c :: cs = whole at h
  cases h with
  | nil => cases text
  | plain =>
    cases text
    exact ⟨_, rfl⟩
  | ref =>
    rw [reference_append] at text
    exact absurd (List.cons.inj text).1 other

/-- With values that make no reference, none begins with a character of the file. -/
theorem not_prefix_plain (unopened : ∀ name, IsName name → ¬ reference name <+: c :: cs) (h : Cut cs ps)
    (inert : Inert ns f (.plain c :: ps)) (named : IsName n) : ¬ reference n <+: c :: fill f ps := by
  rintro ⟨u, begins⟩
  rw [reference_append] at begins
  obtain ⟨rfl, opens⟩ := List.cons.inj begins
  cases h with
  | nil => cases opens
  | @ref name cs ps =>
    rw [fill_ref] at opens
    cases value : f name with
    | none =>
      rw [value, Option.getD_none, reference_append] at opens
      exact absurd (List.cons.inj opens).1 (by decide)
    | some v =>
      obtain ⟨x, t, rfl, other⟩ := inert.before [] name ps rfl v value
      rw [value] at opens
      exact other (List.cons.inj opens).1.symm
  | @plain d cs ps _ rest =>
    obtain ⟨rfl, -⟩ := List.cons.inj opens
    have body : n ++ '\x7d' :: u = fill f ps := (List.cons.inj opens).2
    obtain unclosed | ⟨t, rfl⟩ := closed_of_plain unopened
    · have same : fill f ps = cs := by
        refine (fill_congr ?_).trans rest.fill_none
        rw [rest.names_eq_nil unclosed]
        nofun
      rw [← same, ← body] at unclosed
      simp at unclosed
    · obtain ⟨qs, rfl⟩ := rest.plain_of_cons (by decide)
      cases n with
      | nil => exact named.1 rfl
      | cons x n =>
        obtain ⟨rfl, -⟩ := List.cons.inj body
        exact named.2 (.head _)

end Cut

theorem replaceAll_append_of_shut (named : IsName n) (hn : n ∈ ns) {xs : List Char} (shut : Shut ns xs)
    (t : List Char) : replaceAll (reference n) v 0 (xs ++ t) = xs ++ replaceAll (reference n) v 0 t := by
  induction xs with
  | nil => rfl
  | cons x xs ih =>
    have other : ¬ reference n <+: (x :: xs) ++ t := by
      intro begins
      obtain long | short := Nat.lt_or_ge (x :: xs).length (reference n).length
      · -- A reference that goes on behind these characters has not been closed within them.
        have unclosed : x :: xs <+: opening ++ n :=
          List.prefix_of_prefix_length_le (List.prefix_append ..)
            ((List.prefix_append _ _).trans begins) (by simp [reference, opening] at long ⊢; omega)
        obtain ⟨dollar, closed⟩ := shut.2 (x :: xs) (by simp)
        obtain ⟨rfl, rest⟩ := List.cons_prefix_cons.mp unclosed
        cases xs with
        | nil => exact dollar rfl
        | cons y xs =>
          obtain ⟨rfl, -⟩ := List.cons_prefix_cons.mp rest
          have brace := unclosed.subset (closed (List.prefix_append opening xs))
          simp [opening] at brace
          exact named.2 brace
      · exact shut.1 n hn (List.prefix_of_prefix_length_le begins (List.prefix_append ..) short).isInfix
    exact (replaceAll_of_not_begins other).trans (congrArg (x :: ·) (ih shut.tail))

theorem replaceAll_other (named : IsName n) (hn : n ∈ ns) (hm : IsName m) (other : m ≠ n)
    (apart : ∀ n ∈ ns, ¬ reference n <:+: (reference m).tail) (t : List Char) :
    replaceAll (reference n) v 0 (reference m ++ t) = reference m ++ replaceAll (reference n) v 0 t := by
  have begins : ¬ reference n <+: '$' :: ((reference m).tail ++ t) :=
    fun h => other (reference_inj named hm h).symm
  exact (replaceAll_of_not_begins begins).trans
    (congrArg ('$' :: ·) (replaceAll_append_of_shut named hn (shut_reference apart) t))

namespace Cut

variable {f : List Char → Option (List Char)}

/-- One more variable is put in as if all were put in at once, where values make no reference. -/
theorem replaceAll_fill (h : Cut cs ps) (inert : Inert ns f ps) (hn : n ∈ ns) (named : IsName n)
    (fresh : ∀ w, f n = some w → w = v) :
    replaceAll (reference n) v 0 (fill f ps) = fill (fun m => if m = n then some v else f m) ps := by
  induction h with
  | nil => rfl
  | plain unopened rest ih =>
    rw [fill_plain, replaceAll_of_not_begins (not_prefix_plain unopened rest inert named), ih inert.tail,
      fill_plain]
  | @ref m cs ps hm _ ih =>
    rw [fill_ref, fill_ref]
    cases value : f m with
    | none =>
      rw [Option.getD_none]
      by_cases same : m = n
      · rw [same, replaceAll_reference, ih inert.tail, if_pos rfl]
        rfl
      · rw [replaceAll_other named hn hm same (inert.name m (.head _)), ih inert.tail, if_neg same]
        rfl
    | some w =>
      rw [Option.getD_some, replaceAll_append_of_shut named hn (inert.value m (.head _) w value), ih inert.tail]
      by_cases same : m = n
      · rw [if_pos same, fresh w (same ▸ value)]
        rfl
      · rw [if_neg same]
        rfl

theorem replaceAll_single (h : Cut cs ps) (named : IsName n) (single : ∀ m ∈ names ps, m = n) :
    replaceAll (reference n) v 0 cs = fill (fun _ => some v) ps := by
  induction h with
  | nil => rfl
  | plain unopened _ ih => rw [replaceAll_of_not_begins (unopened n named), ih single, fill_plain]
  | ref _ _ ih =>
    obtain rfl := single _ (.head _)
    rw [replaceAll_reference, ih fun m hm => single m (.tail _ hm), fill_ref]
    rfl

end Cut

namespace Environment

variable {e : Environment}

def known (e : Environment) (done : List (List Char)) : List Char → Option (List Char) :=
  fun n => if n ∈ done then e.value? n else none

theorem known_le (e : Environment) (done : List (List Char)) (n v : List Char) (h : e.known done n = some v) :
    e.value? n = some v := by
  unfold known at h
  split at h
  · exact h
  · cases h

theorem foldl_put_known (h : Cut cs ps) (inert : Inert ns e.value? ps) {todo : List (List Char)}
    (among : ∀ n ∈ todo, n ∈ ns ∧ IsName n ∧ (e.value? n).isSome) (done : List (List Char)) :
    todo.foldl e.put (fill (e.known done) ps) = fill (e.known (todo.reverse ++ done)) ps := by
  induction todo generalizing done with
  | nil => rfl
  | cons n todo ih =>
    obtain ⟨hn, named, some'⟩ := among n (.head _)
    obtain ⟨v, value⟩ := Option.isSome_iff_exists.mp some'
    have fresh : ∀ w, e.known done n = some w → w = v := fun w h =>
      Option.some.inj ((known_le e done n w h).symm.trans value)
    have next : (fun m => if m = n then some v else e.known done m) = e.known (n :: done) := by
      funext m
      by_cases same : m = n
      · simp [known, same, value]
      · simp [known, same]
    rw [List.foldl_cons, put_of_value? value,
      h.replaceAll_fill (inert.mono (known_le e done)) hn named fresh, next,
      ih (fun m hm => among m (.tail _ hm)), List.reverse_cons, List.append_assoc]
    rfl

/-- **Values that make no reference are put in as if all at once.** -/
theorem foldl_put_of_inert (h : Cut cs ps) (inert : Inert (names ps) e.value? ps)
    (defined : ∀ n ∈ names ps, (e.value? n).isSome) :
    (names ps).foldl e.put cs = fill e.value? ps := by
  have start : fill (e.known []) ps = cs := by
    refine (fill_congr fun n _ => ?_).trans h.fill_none
    simp [known]
  rw [← start, foldl_put_known h inert fun n hn => ⟨hn, h.isName n hn, defined n hn⟩]
  refine fill_congr fun n hn => ?_
  simp [known, hn]

/-- A single reference is filled as if all were filled at once, whatever its value is. -/
theorem foldl_put_of_single (h : Cut cs ps) (single : (names ps).length ≤ 1)
    (defined : ∀ n ∈ names ps, (e.value? n).isSome) :
    (names ps).foldl e.put cs = fill e.value? ps := by
  match found : names ps with
  | [] =>
    refine h.fill_none.symm.trans (fill_congr ?_)
    rw [found]
    exact fun _ hn => nomatch hn
  | [n] =>
    have here : n ∈ names ps := by
      rw [found]
      exact .head _
    have only : ∀ m ∈ names ps, m = n := by
      rw [found]
      exact fun m hm => List.mem_singleton.mp hm
    obtain ⟨v, value⟩ := Option.isSome_iff_exists.mp (defined n here)
    rw [List.foldl_cons, put_of_value? value]
    refine (h.replaceAll_single (h.isName n here) only).trans (fill_congr fun m hm => ?_)
    rw [only m hm, value]
  | _ :: _ :: _ =>
    rw [found] at single
    simp at single

/-! ## Values that make references -/

section Values

variable {g : List Char → List Char}

/-- An entry for a shorter name is not taken for another one, when its value does not look like the rest of the
name. -/
theorem eq_of_entry {q : List Char} (shorter : q.length ≤ n.length) (named : '\x7d' ∉ n)
    (clear : ∀ x, '\x7d' ∉ x → ¬ x ++ ['='] <+: v) (h : n ++ ['='] <+: q ++ '=' :: v) : n = q := by
  obtain ⟨w, entry⟩ := h
  obtain ⟨x, rfl⟩ : q <+: n :=
    List.prefix_of_prefix_length_le (List.prefix_append q _) ⟨['='] ++ w, by rw [← entry]; simp⟩ shorter
  rw [List.append_assoc, List.append_assoc, List.append_cancel_left_eq] at entry
  cases x with
  | nil => exact List.append_nil q
  | cons y x =>
    have rest : x ++ ['='] ++ w = v := by simpa using (List.cons.inj entry).2
    exact absurd ⟨w, rest⟩ (clear x fun h => named (by simp [h]))

/-- Variables have the values that they are given, in an environment in which shorter names come first, when no
value looks like the rest of a name. -/
theorem value?_of_pairwise (sorted : ns.Pairwise fun a b => a.length ≤ b.length)
    (clear : ∀ q ∈ ns, ∀ x, '\x7d' ∉ x → ¬ x ++ ['='] <+: g q) (h : n ∈ ns) (named : '\x7d' ∉ n) :
    value? (ns.map fun q => (String.ofList q, String.ofList (g q))) n = some (g n) := by
  induction ns with
  | nil => cases h
  | cons q ns ih =>
    obtain ⟨shorter, sorted⟩ := List.pairwise_cons.mp sorted
    rw [value?, List.map_cons, List.findSome?_cons]
    dsimp only
    rw [String.toList_ofList, String.toList_ofList]
    by_cases same : n = q
    · have found : (n ++ ['=']).isPrefixOf? (q ++ '=' :: g q) = some (g n) := by
        rw [List.isPrefixOf?_eq_some_iff_append_eq, same]
        simp
      rw [found]
    · have later : n ∈ ns := by
        cases h with
        | head => exact absurd rfl same
        | tail _ h => exact h
      have none : (n ++ ['=']).isPrefixOf? (q ++ '=' :: g q) = none := by
        cases found : (n ++ ['=']).isPrefixOf? (q ++ '=' :: g q) with
        | none => rfl
        | some w =>
          rw [List.isPrefixOf?_eq_some_iff_append_eq] at found
          exact absurd (eq_of_entry (shorter n later) named (clear q (.head _)) ⟨w, found⟩) same
      rw [none]
      exact ih sorted (fun q hq => clear q (.tail _ hq)) later

theorem exists_environment (g : List Char → List Char) (ns : List (List Char))
    (clear : ∀ q ∈ ns, ∀ x, '\x7d' ∉ x → ¬ x ++ ['='] <+: g q) (named : ∀ q ∈ ns, '\x7d' ∉ q) :
    ∃ e : Environment, ∀ n ∈ ns, e.value? n = some (g n) := by
  have sorted : (ns.mergeSort fun a b => a.length ≤ b.length).Pairwise fun a b =>
      decide (a.length ≤ b.length) = true :=
    List.pairwise_mergeSort (fun a b c h k => by simp at *; omega) (fun a b => by simp; omega) ns
  refine ⟨_, fun n hn => value?_of_pairwise (g := g) (sorted.imp of_decide_eq_true) (fun q hq => ?_)
    (List.mem_mergeSort.mpr hn) (named n hn)⟩
  exact clear q (List.mem_mergeSort.mp hq)

end Values

/-- The text grows with each of several references to one variable, when its value holds the reference itself. -/
theorem length_add_le_foldl_put {e : Environment} (value : e.value? n = some v)
    (holds : reference n <:+: v) (longer : (reference n).length < v.length) (ns : List (List Char))
    (single : ∀ m ∈ ns, m = n) (found : reference n <:+: t) :
    t.length + ns.length ≤ (ns.foldl e.put t).length := by
  induction ns generalizing t with
  | nil => exact Nat.le_refl _
  | cons m ns ih =>
    obtain rfl := single m (.head _)
    obtain ⟨kept, grown⟩ := (replaced_replaceAll m v t).grows holds longer found
    rw [List.foldl_cons, put_of_value? value]
    have rest := ih (fun k hk => single k (.tail _ hk)) kept
    rw [List.length_cons]
    omega

end Environment

namespace Cut

open Environment

/-- A value that holds a reference, and that is no part of a name. -/
def echo (n : List Char) : List Char := '\x7d' :: reference n

/-- A value as long as a reference that holds none, and that is no part of a name. -/
def blank (n : List Char) : List Char := List.replicate (reference n).length 'x'

theorem echo_clear (n x : List Char) (free : '\x7d' ∉ x) : ¬ x ++ ['='] <+: echo n := by
  intro begins
  cases x with
  | nil => exact absurd (List.cons_prefix_cons.mp begins).1 (by decide)
  | cons y x => exact free ((List.cons_prefix_cons.mp begins).1 ▸ .head _)

theorem not_mem_blank {c : Char} (other : c ≠ 'x') (n : List Char) : c ∉ blank n :=
  fun h => other (List.eq_of_mem_replicate h)

theorem blank_clear (n x : List Char) : ¬ x ++ ['='] <+: blank n :=
  fun begins => not_mem_blank (c := '=') (by decide) n (begins.subset (by simp))

/-- **Two references can get in each other's way**: some values make a reference that the file does not have. -/
theorem exists_unlike (h : Cut cs ps) (several : 1 < (names ps).length) :
    ∃ e : Environment, (∀ n ∈ names ps, (e.value? n).isSome) ∧
      (names ps).foldl e.put cs ≠ fill e.value? ps := by
  have closed : ∀ n ∈ names ps, '\x7d' ∉ n := fun n hn => (h.isName n hn).2
  have holds (n : List Char) : reference n <:+: echo n := (List.suffix_cons ..).isInfix
  obtain none | ⟨first, n, split⟩ := (names ps).eq_nil_or_concat
  · rw [none] at several
    cases several
  rw [List.concat_eq_append] at split
  have last : n ∈ names ps := by simp [split]
  by_cases single : ∀ m ∈ names ps, m = n
  · -- All references are to one variable: its value is filled again for the second one.
    obtain ⟨e, value⟩ := exists_environment (fun _ => echo n) (names ps) (fun _ _ => echo_clear n) closed
    refine ⟨e, fun m hm => by rw [value m hm]; rfl, fun same => ?_⟩
    obtain ⟨a, b, rest, whole⟩ : ∃ a b rest, names ps = a :: b :: rest := by
      match names ps, several with
      | a :: b :: rest, _ => exact ⟨a, b, rest, rfl⟩
    have first : a = n := single a (by rw [whole]; exact .head _)
    have once : e.put cs n = fill e.value? ps := by
      rw [put_of_value? (value n last)]
      exact (h.replaceAll_single (h.isName n last) single).trans (fill_congr fun m hm => (value m hm).symm)
    have grown := length_add_le_foldl_put (value n last) (holds n) (Nat.lt_succ_self _) (b :: rest)
      (fun m hm => single m (by rw [whole]; exact .tail _ hm)) ((holds n).trans (infix_fill last (value n last)))
    rw [whole, List.foldl_cons, first, once] at same
    rw [same, List.length_cons] at grown
    omega
  · -- The value of another variable refers to the last one, which is filled behind it.
    obtain ⟨m, hm, other⟩ : ∃ m ∈ names ps, m ≠ n := by simpa using single
    obtain ⟨e, value⟩ := exists_environment (fun q => if q = n then blank n else echo n) (names ps)
      (fun q _ x free => by split; exacts [blank_clear n x, echo_clear n x free]) closed
    refine ⟨e, fun m hm => by rw [value m hm]; rfl, fun same => ?_⟩
    have echoes : e.value? m = some (echo n) := (value m hm).trans (congrArg some (if_neg other))
    have blanks : e.value? n = some (blank n) := (value n last).trans (congrArg some (if_pos rfl))
    have gone := (replaced_replaceAll n (blank n) (first.foldl e.put cs)).gone
      (not_mem_blank (by decide) n) (not_mem_blank (by decide) n) (by simp [blank])
    rw [split, List.foldl_append, List.foldl_cons, List.foldl_nil, put_of_value? blanks] at same
    rw [same] at gone
    exact gone ((holds n).trans (infix_fill hm echoes))

end Cut

/-! ## Machine files -/

namespace Environment

variable {e : Environment} {text : String}

/-- All variables that a text refers to have values. -/
def Defines (e : Environment) (text : String) : Prop :=
  ∀ n ∈ names (pieces 0 text.toList), (e.value? n).isSome

instance (e : Environment) (text : String) : Decidable (e.Defines text) := List.decidableBAll ..

/-- The values that a text refers to make no reference in it. -/
def Harmless (e : Environment) (text : String) : Prop :=
  Inert (names (pieces 0 text.toList)) e.value? (pieces 0 text.toList)

/-- The text with values in the places of its references, all at once. -/
def filled (e : Environment) (text : String) : String := String.ofList (fill e.value? (pieces 0 text.toList))

theorem expand_of_defines (h : e.Defines text) :
    e.expand text =
      .ok (String.ofList ((names (pieces 0 text.toList)).foldl e.put text.toList)) := by
  have none : (names (pieces 0 text.toList)).find? (fun n => (e.value? n).isNone) = none := by
    rw [List.find?_eq_none]
    intro n hn
    simpa [Option.isSome_iff_ne_none] using h n hn
  rw [expand_eq, none]

/-- **A text cannot be expanded if a variable that it refers to has no value, and only then.** -/
theorem expand_error_iff : (∃ u, e.expand text = .error u) ↔ ¬ e.Defines text := by
  constructor
  · rintro ⟨u, failed⟩ defines
    rw [expand_of_defines defines] at failed
    cases failed
  · intro undefined
    rw [expand_eq]
    cases found : (names (pieces 0 text.toList)).find? fun n => (e.value? n).isNone with
    | some n => exact ⟨_, rfl⟩
    | none =>
      refine absurd (fun n hn => ?_) undefined
      simpa [Option.isSome_iff_ne_none] using List.find?_eq_none.mp found n hn

theorem expand_of_harmless (h : e.Defines text) (harmless : e.Harmless text) :
    e.expand text = .ok (e.filled text) := by
  rw [expand_of_defines h, foldl_put_of_inert (cut_pieces _) harmless h, filled]

/-- **All values are put in at once, whatever they are, if there is one reference at most, and only then.** -/
theorem expand_filled_iff :
    (∀ e : Environment, e.Defines text → e.expand text = .ok (e.filled text)) ↔
      (names (pieces 0 text.toList)).length ≤ 1 := by
  constructor
  · intro all
    by_contra several
    obtain ⟨e, defines, unlike⟩ := (cut_pieces text.toList).exists_unlike (Nat.lt_of_not_le several)
    have same := all e defines
    rw [expand_of_defines defines, filled] at same
    exact unlike (String.ofList_injective (Except.ok.inj same))
  · intro single e defines
    rw [expand_of_defines defines, foldl_put_of_single (cut_pieces _) single defines, filled]

end Environment

namespace MachineFile

variable {d : Disk} {e : Environment} {path text : String}

theorem read_of_text (found : (d.read path >>= Disk.decode) = .ok text) :
    read d e path =
      match e.expand text with
      | .error u => .error (.undefined u)
      | .ok t => (parse t).mapError (.invalid path) := by
  rw [read, found]
  show ((e.expand text).mapError MachineFileError.undefined >>= fun t =>
    (parse t).mapError (MachineFileError.invalid path)) = _
  cases e.expand text <;> rfl

/-- **How a machine file with references is read.** It fails for want of a variable exactly if its text refers to
one without a value. Values that make no reference are put in all at once. Whatever the values are, they are put
in at once exactly if there is one reference at most: the values of several can be filled again. -/
theorem read_references (found : (d.read path >>= Disk.decode) = .ok text) :
    ((∃ u, read d e path = .error (.undefined u)) ↔ ¬ e.Defines text) ∧
      (e.Defines text → e.Harmless text →
        read d e path = (parse (e.filled text)).mapError (.invalid path)) ∧
      ((∀ e : Environment, e.Defines text → e.expand text = .ok (e.filled text)) ↔
        (names (pieces 0 text.toList)).length ≤ 1) := by
  refine ⟨?_, fun defines harmless => ?_, Environment.expand_filled_iff⟩
  · rw [← Environment.expand_error_iff, read_of_text found]
    cases e.expand text with
    | error u => exact ⟨fun _ => ⟨u, rfl⟩, fun _ => ⟨u, rfl⟩⟩
    | ok t =>
      -- What a parser refuses is told in another way.
      cases parsed : parse t <;> simp [Except.mapError, parsed]
  · rw [read_of_text found, Environment.expand_of_harmless defines harmless]

/-- A machine file that refers to two variables. -/
def referring : String := "name: \"$\x7bSOFT800_A\x7d $\x7bSOFT800_B\x7d\"\n"

/-- The file on a disk. -/
def referringDisk : Disk where
  size := 1
  content _ := .ok referring.toUTF8.toList
  find p := if p = "m.yaml" then .ok 0 else .error .notFound

/-- Two plain values are put in, and one of them is not enough. -/
theorem read_references_referring :
    read referringDisk [("SOFT800_A", "$0600"), ("SOFT800_B", "inner")] "m.yaml" =
        .ok { name := some "$0600 inner" } ∧
      ∃ u, read referringDisk [("SOFT800_A", "$0600")] "m.yaml" = .error (.undefined u) := by
  have found : (referringDisk.read "m.yaml" >>= Disk.decode) = .ok referring := by decide +kernel
  have harmless : Environment.Harmless [("SOFT800_A", "$0600"), ("SOFT800_B", "inner")] referring :=
    .of_not_mem (by decide +kernel) (by decide +kernel) (by decide +kernel)
  have parsed : (parse (Environment.filled [("SOFT800_A", "$0600"), ("SOFT800_B", "inner")] referring)).mapError
      (MachineFileError.invalid "m.yaml") = .ok { name := some "$0600 inner" } := by decide +kernel
  refine ⟨((read_references found).2.1 (by decide +kernel) harmless).trans parsed, ?_⟩
  exact (read_references found).1.mpr (by decide +kernel)

/-- The first value looks like a reference to the second variable. -/
def nested : Environment := [("SOFT800_A", "$\x7bSOFT800_B\x7d"), ("SOFT800_B", "inner")]

/-- A value that looks like a reference to another variable is filled itself. -/
theorem load_fills_value :
    nested.filled referring = "name: \"$\x7bSOFT800_B\x7d inner\"\n" ∧
      nested.expand referring = .ok "name: \"inner inner\"\n" ∧
      load referringDisk nested "m.yaml" = .ok { name := some "inner inner" } := by
  refine ⟨by decide +kernel, by decide +kernel, by decide +kernel⟩

end MachineFile

end Atari
