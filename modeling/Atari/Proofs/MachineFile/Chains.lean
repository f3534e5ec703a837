import Atari.MachineFile.Load

/-!
# Chains of includes

A chain of includes leads from one machine file to another. Chains that are followed one after the other
can lead to different files, or to a file for the second time.

* `MachineFile.follow`: where a chain of includes leads;
* `MachineFile.Circular`, `MachineFile.Repeated`: chains that come back to a file, and two chains that lead
  to the same one;
* `MachineFile.Once`, `MachineFile.Twice`: what is known of the chains that were followed.
-/

namespace Atari

/-- Two paths lead to the same file. -/
def Disk.SameFile (d : Disk) (p q : String) : Prop := ∃ i, d.resolve p = .ok i ∧ d.resolve q = .ok i

namespace MachineFile

variable (d : Disk) (e : Environment)

/-- The paths that the machine file at a path includes. -/
def included (path : String) : List String :=
  match read d e path with
  | .ok f => (f.includes.getD []).map (Path.join (Path.parent path))
  | .error _ => []

/-- Where a chain of includes leads from a path. Each number tells which of the paths that a file
includes comes next. -/
def follow : (chain : List Nat) → (path : String) → Option String
  | [], path => some path
  | k :: chain, path => (included d e path)[k]?.bind (follow chain)

/-- Some chain of includes leads from a file back to itself. -/
def Circular (root : String) : Prop :=
  ∃ chain k loop p q, follow d e chain root = some p ∧ follow d e (k :: loop) p = some q ∧ d.SameFile p q

/-- A chain of includes leads to a path, and another chain leads to the same file. -/
def RepeatedAt (root p : String) : Prop :=
  ∃ chain chain' q, chain ≠ chain' ∧ follow d e chain root = some p ∧
    follow d e chain' root = some q ∧ d.SameFile p q

/-- Two chains of includes lead to the same file. -/
def Repeated (root : String) : Prop := ∃ p, RepeatedAt d e root p

section Chains

variable {d e} {path root p : String}

theorem follow_append (chain chain' : List Nat) (path : String) :
    follow d e (chain ++ chain') path = (follow d e chain path).bind (follow d e chain') := by
  induction chain generalizing path with
  | nil => rfl
  | cons k chain ih =>
    rw [List.cons_append, follow, follow, Option.bind_assoc]
    congr 1
    funext below
    exact ih below

/-- A chain that comes back to a file and the part of it up to there lead to the same file. -/
theorem Circular.repeated (h : Circular d e root) : Repeated d e root := by
  obtain ⟨chain, k, loop, p, q, first, back, same⟩ := h
  refine ⟨p, chain, chain ++ k :: loop, q, ?_, first, ?_, same⟩
  · intro eq
    have := congrArg List.length eq
    simp at this
  · rw [follow_append, first]
    exact back

/-- Where a chain leads that begins with one of several paths. -/
def branch (d : Disk) (e : Environment) (paths : List String) : List Nat → Option String
  | [] => none
  | k :: chain => paths[k]?.bind (follow d e chain)

@[simp] theorem follow_nil : follow d e [] path = some path := rfl

theorem follow_cons (k : Nat) (chain : List Nat) :
    follow d e (k :: chain) path = branch d e (included d e path) (k :: chain) := rfl

@[simp] theorem branch_nil (chain : List Nat) : branch d e [] chain = none := by
  cases chain <;> rfl

@[simp] theorem branch_zero (paths : List String) (chain : List Nat) :
    branch d e (path :: paths) (0 :: chain) = follow d e chain path := rfl

@[simp] theorem branch_succ (paths : List String) (k : Nat) (chain : List Nat) :
    branch d e (path :: paths) ((k + 1) :: chain) = branch d e paths (k :: chain) := rfl

theorem exists_read_of_mem_included (h : p ∈ included d e path) : ∃ f, read d e path = .ok f := by
  cases hf : read d e path with
  | ok f => exact ⟨f, rfl⟩
  | error cause => simp [included, hf] at h

theorem follow_invariant (P : String → Prop) (kept : ∀ path, P path → ∀ p ∈ included d e path, P p)
    {chain : List Nat} (h : P path) (lead : follow d e chain path = some p) : P p := by
  induction chain generalizing path with
  | nil =>
    cases lead
    exact h
  | cons k chain ih =>
    obtain ⟨below, hbelow, lead⟩ := Option.bind_eq_some_iff.mp lead
    exact ih (kept path h below (List.mem_of_getElem? hbelow)) lead

theorem not_circular_of_level (level : String → Nat)
    (down : ∀ path, ∀ p ∈ included d e path, level p < level path)
    (same : ∀ p q, d.SameFile p q → level p = level q) : ¬Circular d e root := by
  rintro ⟨chain, k, loop, p, q, -, back, here⟩
  obtain ⟨below, hbelow, lead⟩ := Option.bind_eq_some_iff.mp back
  have first : level below < level p := down p below (List.mem_of_getElem? hbelow)
  have behind : level q < level p := follow_invariant (level · < level p)
    (fun path lower r mem => Nat.lt_trans (down path r mem) lower) first lead
  have := same p q here
  omega

end Chains

/-! ## Chains that were followed -/

variable {d e} {leads : List Nat → Option String} {path p : String} {paths : List String}
  {i : Fin d.size} {new others seen : List (Fin d.size)}

/-- All chains were followed, and no two of them lead to the same file. The files are `new`. -/
structure Once (d : Disk) (leads : List Nat → Option String) (new : List (Fin d.size)) : Prop where
  each : ∀ {chain q}, leads chain = some q → ∃ i ∈ new, d.resolve q = .ok i
  only : ∀ {i}, i ∈ new → ∃ chain q, leads chain = some q ∧ d.resolve q = .ok i
  once : ∀ {chain chain' q q' i}, leads chain = some q → leads chain' = some q' →
    d.resolve q = .ok i → d.resolve q' = .ok i → chain = chain'

/-- A chain leads to a path whose file was seen before, or another chain leads there, too. -/
def Twice (d : Disk) (leads : List Nat → Option String) (seen : List (Fin d.size)) (p : String) : Prop :=
  ∃ chain i, leads chain = some p ∧ d.resolve p = .ok i ∧
    (i ∈ seen ∨ ∃ chain' q, chain' ≠ chain ∧ leads chain' = some q ∧ d.resolve q = .ok i)

theorem Once.nil : Once d (branch d e []) [] where
  each h := by simp at h
  only h := by simp at h
  once h := by simp at h

/-- The chains through a path and those through the paths behind it. -/
theorem Once.cons (h : Once d (follow d e · path) new) (k : Once d (branch d e paths) others)
    (apart : ∀ i ∈ others, i ∉ new) : Once d (branch d e (path :: paths)) (others ++ new) where
  each {chain q} lead := by
    match chain, lead with
    | 0 :: chain, lead =>
      obtain ⟨i, hi, file⟩ := h.each lead
      exact ⟨i, List.mem_append_right _ hi, file⟩
    | (n + 1) :: chain, lead =>
      rw [branch_succ] at lead
      obtain ⟨i, hi, file⟩ := k.each lead
      exact ⟨i, List.mem_append_left _ hi, file⟩
  only {i} hi := by
    obtain hi | hi := List.mem_append.mp hi
    · obtain ⟨chain, q, lead, file⟩ := k.only hi
      match chain, lead with
      | n :: chain, lead => exact ⟨(n + 1) :: chain, q, lead, file⟩
    · obtain ⟨chain, q, lead, file⟩ := h.only hi
      exact ⟨0 :: chain, q, lead, file⟩
  once {chain chain' q q' i} lead lead' file file' := by
    -- A file on a chain of each kind would be in both lists.
    have mixed {chain chain' : List Nat} {q q' : String} (lead : follow d e chain path = some q)
        (lead' : branch d e paths chain' = some q') (file : d.resolve q = .ok i)
        (file' : d.resolve q' = .ok i) : False := by
      obtain ⟨j, hj, same⟩ := h.each lead
      obtain ⟨j', hj', same'⟩ := k.each lead'
      rw [file] at same
      rw [file'] at same'
      cases same
      cases same'
      exact apart i hj' hj
    match chain, chain', lead, lead' with
    | 0 :: chain, 0 :: chain', lead, lead' => rw [h.once lead lead' file file']
    | 0 :: chain, (n + 1) :: chain', lead, lead' =>
      rw [branch_succ] at lead'
      exact (mixed lead lead' file file').elim
    | (n + 1) :: chain, 0 :: chain', lead, lead' =>
      rw [branch_succ] at lead
      exact (mixed lead' lead file' file).elim
    | (n + 1) :: chain, (m + 1) :: chain', lead, lead' =>
      have same : n :: chain = m :: chain' := k.once lead lead' file file'
      cases same
      rfl

/-- The chains from a file: the one that stays there, and those through what it includes. -/
theorem Once.file (h : Once d (branch d e (included d e path)) new) (file : d.resolve path = .ok i)
    (fresh : i ∉ new) : Once d (follow d e · path) (new ++ [i]) where
  each {chain q} lead := by
    match chain, lead with
    | [], lead =>
      cases lead
      exact ⟨i, by simp, file⟩
    | n :: chain, lead =>
      rw [follow_cons] at lead
      obtain ⟨j, hj, file⟩ := h.each lead
      exact ⟨j, List.mem_append_left _ hj, file⟩
  only {j} hj := by
    obtain hj | hj := List.mem_append.mp hj
    · obtain ⟨chain, q, lead, file⟩ := h.only hj
      match chain, lead with
      | n :: chain, lead => exact ⟨n :: chain, q, lead, file⟩
    · obtain rfl := List.mem_singleton.mp hj
      exact ⟨[], path, rfl, file⟩
  once {chain chain' q q' j} lead lead' here here' := by
    have back {n : Nat} {chain : List Nat} {q : String}
        (lead : branch d e (included d e path) (n :: chain) = some q)
        (same : d.resolve q = d.resolve path) : False := by
      obtain ⟨j, hj, there⟩ := h.each lead
      rw [same, file] at there
      cases there
      exact fresh hj
    match chain, chain', lead, lead' with
    | [], [], _, _ => rfl
    | [], n :: chain', lead, lead' =>
      cases lead
      exact (back lead' (here'.trans here.symm)).elim
    | n :: chain, [], lead, lead' =>
      cases lead'
      exact (back lead (here.trans here'.symm)).elim
    | n :: chain, m :: chain', lead, lead' => exact h.once lead lead' here here'

theorem Once.not_repeated (h : Once d (follow d e · path) new) : ¬Repeated d e path := by
  rintro ⟨p, chain, chain', q, apart, lead, lead', i, file, file'⟩
  exact apart (h.once lead lead' file file')

theorem Twice.head (h : Twice d (follow d e · path) seen p) :
    Twice d (branch d e (path :: paths)) seen p := by
  obtain ⟨chain, i, lead, file, known | ⟨chain', q, apart, lead', file'⟩⟩ := h
  · exact ⟨0 :: chain, i, lead, file, .inl known⟩
  · exact ⟨0 :: chain, i, lead, file, .inr ⟨0 :: chain', q, by simpa using apart, lead', file'⟩⟩

/-- A repetition below the other paths. What was seen below the first one is on a chain, too. -/
theorem Twice.tail (first : Once d (follow d e · path) new)
    (h : Twice d (branch d e paths) (new ++ seen) p) : Twice d (branch d e (path :: paths)) seen p := by
  obtain ⟨chain, i, lead, file, cause⟩ := h
  match chain, lead with
  | n :: chain, lead =>
    refine ⟨(n + 1) :: chain, i, lead, file, ?_⟩
    obtain known | ⟨chain', q, apart, lead', file'⟩ := cause
    · obtain hi | hi := List.mem_append.mp known
      · obtain ⟨chain', q, lead', file'⟩ := first.only hi
        exact .inr ⟨0 :: chain', q, by simp, lead', file'⟩
      · exact .inl hi
    · match chain', lead' with
      | m :: chain', lead' => exact .inr ⟨(m + 1) :: chain', q, by simpa using apart, lead', file'⟩

theorem Twice.file (here : d.resolve path = .ok i)
    (h : Twice d (branch d e (included d e path)) (i :: seen) p) : Twice d (follow d e · path) seen p := by
  obtain ⟨chain, j, lead, file, cause⟩ := h
  match chain, lead with
  | n :: chain, lead =>
    refine ⟨n :: chain, j, lead, file, ?_⟩
    obtain known | ⟨chain', q, apart, lead', file'⟩ := cause
    · obtain rfl | known := List.mem_cons.mp known
      · exact .inr ⟨[], path, by simp, rfl, here⟩
      · exact .inl known
    · match chain', lead' with
      | m :: chain', lead' => exact .inr ⟨m :: chain', q, apart, lead', file'⟩

end MachineFile

end Atari
