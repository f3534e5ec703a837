import Atari.Proofs.MachineFile.Includes

/-!
# The order of machine files

Machine files are loaded in the order of a walk that comes to a file behind all that it includes. So a file
takes precedence over those that it includes, and over those that they include.

* `MachineFile.Listed`: files in the order of such a walk; **`MachineFile.visit_yields`**: a walk that succeeds
  comes to them in this order;
* `MachineFile.Ordered`: each file once, behind all that it includes;
* `MachineFile.lastSet`, `MachineFile.gathered`: a field of the last file that sets it, and the lists of all
  files;
* **`MachineFile.load_ok`**: what comes of loading.
-/

namespace Atari

namespace MachineFile

variable (d : Disk) (e : Environment)

/-! ## Walks that succeed -/

/-- The files that several paths lead to, in order: those below the first path, the file at it, and then those
of the other paths. -/
inductive Listed : (paths : List String) → (files : List (String × MachineFile)) → Prop
  | nil : Listed [] []
  | cons {path : String} {paths : List String} {f : MachineFile} {below files : List (String × MachineFile)} :
    read d e path = .ok f → Listed (included d e path) below → Listed paths files →
    Listed (path :: paths) (below ++ (path, f) :: files)

/-- A walk along some paths lists their files behind those of the walk before. They are other ones, and no two
of them are the same. -/
def Yields (paths : List String) (walk : Walk d → Except MachineFileError (Walk d)) : Prop :=
  ∀ files seen w, walk (files, seen) = .ok w → ∃ block new, w = (files ++ block, new ++ seen) ∧
    Listed d e paths block ∧ (block.map fun x => d.resolve x.1).Perm (new.map .ok) ∧
    (seen.Nodup → (new ++ seen).Nodup)

variable {d e} {left : Nat} {path root p : String} {paths : List String} {f : MachineFile}
  {files below : List (String × MachineFile)}

theorem Listed.single (hf : read d e path = .ok f) (h : Listed d e (included d e path) below) :
    Listed d e [path] (below ++ [(path, f)]) := .cons hf h .nil

theorem Listed.append (h : Listed d e [path] below) (k : Listed d e paths files) :
    Listed d e (path :: paths) (below ++ files) := by
  cases h with
  | cons hf below rest =>
    cases rest
    rw [List.append_assoc]
    exact .cons hf below k

theorem visitAll_of_foldlM {directory : String} {names : List String}
    {step : Walk d → String → Except MachineFileError (Walk d)} {w w' : Walk d}
    (each : ∀ name w w', step w name = .ok w' → visit d e left (Path.join directory name) w = .ok w')
    (h : names.foldlM step w = .ok w') : visitAll d e left (names.map (Path.join directory)) w = .ok w' := by
  induction names generalizing w with
  | nil => exact h
  | cons name names ih =>
    rw [List.foldlM_cons] at h
    rw [List.map_cons, visitAll, List.foldlM_cons]
    cases first : step w name with
    | error cause =>
      rw [first] at h
      cases h
    | ok next =>
      rw [first] at h
      rw [each name w next first]
      exact ih h

/-- A file at which a walk succeeds was not seen before, can be read, and comes behind what it includes. -/
theorem visit_ok {seen : List (Fin d.size)} {w : Walk d} (h : visit d e left path (files, seen) = .ok w) :
    ∃ n i f w', left = n + 1 ∧ d.resolve path = .ok i ∧ i ∉ seen ∧ read d e path = .ok f ∧
      visitAll d e n (included d e path) (files, i :: seen) = .ok w' ∧ w = (w'.1 ++ [(path, f)], w'.2) := by
  cases file : d.resolve path with
  | error cause => simp [visit, file, Except.mapError, bind, Except.bind] at h
  | ok i =>
    by_cases known : i ∈ seen
    · rw [visit_of_mem file known] at h
      cases h
    rw [visit, file] at h
    simp only [Except.mapError, List.contains_eq_mem, known, bind, Except.bind] at h
    rw [if_neg (by simp)] at h
    cases left with
    | zero => cases h
    | succ n =>
      cases hf : read d e path with
      | error cause => simp [hf] at h
      | ok f =>
        simp only [hf] at h
        split at h
        · cases h
        · rename_i w' walked
          cases h
          refine ⟨n, i, f, w', rfl, rfl, known, rfl, ?_, rfl⟩
          rw [included, hf]
          refine visitAll_of_foldlM (fun name w w' step => ?_) walked
          -- An included path that is missing stops the walk.
          split at step
          · cases step
          · exact step

theorem visitAll_yields (each : ∀ p ∈ paths, Yields d e [p] (visit d e left p)) :
    Yields d e paths (visitAll d e left paths) := by
  induction paths with
  | nil =>
    intro files seen w h
    cases h
    exact ⟨[], [], by simp, .nil, .refl _, fun distinct => distinct⟩
  | cons p paths ih =>
    obtain ⟨head, others⟩ := List.forall_mem_cons.mp each
    intro files seen w h
    rw [visitAll, List.foldlM_cons] at h
    cases first : visit d e left p (files, seen) with
    | error cause =>
      rw [first] at h
      cases h
    | ok middle =>
      rw [first] at h
      obtain ⟨block, new, rfl, listed, numbers, distinct⟩ := head files seen middle first
      obtain ⟨block', new', rfl, listed', numbers', distinct'⟩ := ih others _ _ w h
      refine ⟨block ++ block', new' ++ new, by simp, listed.append listed', ?_, fun apart => ?_⟩
      · rw [List.map_append, List.map_append]
        exact (numbers.append numbers').trans List.perm_append_comm
      · rw [List.append_assoc]
        exact distinct' (distinct apart)

/-- **A walk that succeeds lists the files behind those that they include.** -/
theorem visit_yields (left : Nat) (path : String) : Yields d e [path] (visit d e left path) := by
  induction left generalizing path with
  | zero =>
    intro files seen w h
    obtain ⟨n, i, f, w', deep, -⟩ := visit_ok h
    cases deep
  | succ left ih =>
    intro files seen w h
    obtain ⟨n, i, f, w', deep, file, fresh, hf, walked, rfl⟩ := visit_ok h
    cases deep
    obtain ⟨block, new, rfl, listed, numbers, distinct⟩ :=
      visitAll_yields (fun p _ => ih p) files (i :: seen) w' walked
    refine ⟨block ++ [(path, f)], new ++ [i], by simp, .single hf listed, ?_, fun apart => ?_⟩
    · rw [List.map_append, List.map_append, List.map_singleton, List.map_singleton, file]
      exact numbers.append_right _
    · rw [List.append_assoc]
      exact distinct (List.nodup_cons.mpr ⟨fresh, apart⟩)

/-! ## The order -/

/-- Each path comes behind those that it includes, which come in the order of the includes. -/
def Behind (d : Disk) (e : Environment) (paths : List String) : Prop :=
  ∀ us p vs, paths = us ++ p :: vs → (included d e p).Sublist us

variable (d e) in
/-- Paths in an order in which they can be loaded: all that chains of includes lead to, no file twice, each
behind those that it includes, and the root at the end. -/
structure Ordered (root : String) (paths : List String) : Prop where
  reached : ∀ p, p ∈ paths ↔ ∃ chain, follow d e chain root = some p
  once : paths.Pairwise fun p q => ¬d.SameFile p q
  behind : Behind d e paths
  last : paths.getLast? = some root

theorem Behind.nil : Behind d e [] := by
  intro us p vs split
  cases us <;> cases split

theorem Behind.append {xs ys : List String} (h : Behind d e xs)
    (k : ∀ us p vs, ys = us ++ p :: vs → (included d e p).Sublist (xs ++ us)) : Behind d e (xs ++ ys) := by
  intro us p vs split
  obtain ⟨zs, rfl, here⟩ | ⟨zs, rfl, here⟩ := List.append_eq_append_iff.mp split
  · exact k zs p vs here
  · obtain ⟨rfl, rfl⟩ | ⟨zs, rfl, rfl⟩ := List.cons_eq_append_iff.mp here
    · simpa using k [] p vs rfl
    · exact h us p zs rfl

theorem Behind.mem_of_follow {us vs : List String} {k : Nat} {chain : List Nat} {q : String}
    (h : Behind d e (us ++ p :: vs)) (lead : follow d e (k :: chain) p = some q) : q ∈ us := by
  induction chain generalizing k p us vs with
  | nil =>
    obtain ⟨below, here, lead⟩ := Option.bind_eq_some_iff.mp lead
    cases lead
    exact (h us p vs rfl).subset (List.mem_of_getElem? here)
  | cons k' chain ih =>
    obtain ⟨below, here, lead⟩ := Option.bind_eq_some_iff.mp lead
    obtain ⟨xs, ys, rfl⟩ := List.append_of_mem ((h us p vs rfl).subset (List.mem_of_getElem? here))
    rw [List.append_assoc, List.cons_append] at h
    exact List.mem_append_left _ (ih h lead)

namespace Listed

theorem sublist (h : Listed d e paths files) : paths.Sublist (files.map (·.1)) := by
  induction h with
  | nil => exact .slnil
  | cons hf below rest _ ih =>
    rw [List.map_append, List.map_cons]
    exact (ih.cons_cons _).trans (List.sublist_append_right ..)

theorem read_of_mem (h : Listed d e paths files) : ∀ x ∈ files, read d e x.1 = .ok x.2 := by
  induction h with
  | nil => simp
  | cons hf _ _ below rest =>
    intro x hx
    obtain hx | hx := List.mem_append.mp hx
    · exact below x hx
    · obtain rfl | hx := List.mem_cons.mp hx
      · exact hf
      · exact rest x hx

theorem behind (h : Listed d e paths files) : Behind d e (files.map (·.1)) := by
  induction h with
  | nil => exact .nil
  | @cons path paths f below files hf listed _ first rest =>
    rw [List.map_append, List.map_cons]
    refine first.append fun us p vs split => ?_
    cases us with
    | nil =>
      obtain ⟨rfl, -⟩ := List.cons.inj split
      simpa using listed.sublist
    | cons u us =>
      obtain ⟨-, split⟩ := List.cons.inj split
      exact (rest us p vs split).trans
        ((List.sublist_cons_self ..).trans (List.sublist_append_right ..))

/-- The paths are all that chains of includes lead to. -/
theorem mem_iff (h : Listed d e paths files) (q : String) :
    q ∈ files.map (·.1) ↔ ∃ chain, branch d e paths chain = some q := by
  induction h with
  | nil => simp
  | @cons path paths f below files hf _ _ first rest =>
    rw [List.map_append, List.map_cons, List.mem_append, List.mem_cons, first, rest]
    constructor
    · rintro (⟨chain, lead⟩ | rfl | ⟨chain, lead⟩)
      · match chain, lead with
        | k :: chain, lead => exact ⟨0 :: k :: chain, lead⟩
      · exact ⟨[0], rfl⟩
      · match chain, lead with
        | k :: chain, lead => exact ⟨(k + 1) :: chain, lead⟩
    · rintro ⟨chain, lead⟩
      match chain, lead with
      | [0], lead =>
        cases lead
        exact .inr (.inl rfl)
      | 0 :: k :: chain, lead => exact .inl ⟨k :: chain, lead⟩
      | (k + 1) :: chain, lead => exact .inr (.inr ⟨k :: chain, lead⟩)

theorem mem_of_follow {us vs : List (String × MachineFile)} {x y : String × MachineFile}
    (h : Listed d e paths (us ++ x :: vs)) (hy : y ∈ us ++ x :: vs) {k : Nat} {chain : List Nat}
    (lead : follow d e (k :: chain) x.1 = some y.1) : y ∈ us := by
  have behind := h.behind
  rw [List.map_append, List.map_cons] at behind
  obtain ⟨z, hz, same⟩ := List.mem_map.mp (behind.mem_of_follow lead)
  have file := h.read_of_mem z (List.mem_append_left _ hz)
  rw [same, h.read_of_mem y hy] at file
  obtain rfl : y = z := Prod.ext same.symm (Except.ok.inj file)
  exact hz

end Listed

theorem pairwise_of_nodup (h : (files.map fun x => d.resolve x.1).Nodup) :
    (files.map (·.1)).Pairwise fun p q => ¬d.SameFile p q := by
  rw [List.Nodup, List.pairwise_map] at h
  rw [List.pairwise_map]
  exact h.imp fun apart same => by
    obtain ⟨i, file, file'⟩ := same
    exact apart (file.trans file'.symm)

/-- **An order that is found is one in which the files can be loaded.** -/
theorem order_ok (h : order d e root = .ok files) : Listed d e [root] files ∧ Ordered d e root (files.map (·.1)) := by
  unfold order at h
  cases walked : visit d e d.size root ([], []) with
  | error cause =>
    rw [walked] at h
    cases h
  | ok w =>
    rw [walked] at h
    cases h
    obtain ⟨block, new, rfl, listed, numbers, distinct⟩ := visit_yields _ _ _ _ _ walked
    refine ⟨listed, fun p => ?_, pairwise_of_nodup ?_, listed.behind, ?_⟩
    · rw [List.nil_append, listed.mem_iff]
      constructor
      · rintro ⟨chain, lead⟩
        match chain, lead with
        | 0 :: chain, lead => exact ⟨chain, lead⟩
      · rintro ⟨chain, lead⟩
        exact ⟨0 :: chain, lead⟩
    · have distinct := distinct List.nodup_nil
      rw [List.append_nil] at distinct
      rw [List.nil_append, numbers.nodup_iff]
      exact distinct.map fun i j same => Except.ok.inj same
    · cases listed with
      | cons hf below rest =>
        cases rest
        simp

/-! ## The files as one -/

theorem joinLists_assoc {α : Type} (xs ys zs : Option (List α)) :
    joinLists (joinLists xs ys) zs = joinLists xs (joinLists ys zs) := by
  cases xs <;> cases ys <;> cases zs <;> simp [joinLists]

theorem joinLists_none {α : Type} (xs : Option (List α)) : joinLists xs none = xs := by
  cases xs <;> rfl

/-- **Files can be merged in groups.** -/
theorem merge_assoc (f g h : MachineFile) : (f.merge g).merge h = f.merge (g.merge h) := by
  simp only [merge, joinLists_assoc, Option.orElse_eq_orElse, Option.orElse_eq_or, Option.or_assoc]

/-- **The empty machine file changes nothing**; the includes are gone. -/
theorem merge_empty (f : MachineFile) :
    merge {} f = { f with includes := none } ∧ f.merge {} = { f with includes := none } := by
  constructor
  · simp [merge, joinLists]
  · simp [merge, joinLists_none]

/-- A machine file with one more behind it. -/
def join (all : MachineFile) (x : String × MachineFile) : MachineFile :=
  all.merge (x.2.inDirectory (Path.parent x.1))

/-- The sources of a file, with their paths taken from its directory. -/
def placedSources (x : String × MachineFile) : Option (List Source) :=
  x.2.sources.map (·.map fun s => { s with file := Path.join (Path.parent x.1) s.file })

section Fields

variable {α : Type} {field : MachineFile → Option α} {list : String × MachineFile → Option (List α)}

/-- The value of the last file that sets a field. -/
def lastSet (field : MachineFile → Option α) (files : List (String × MachineFile)) : Option α :=
  files.reverse.findSome? fun x => field x.2

/-- The lists of all files one behind the other; they are missing only if they are missing in all files. -/
def gathered (list : String × MachineFile → Option (List α)) (files : List (String × MachineFile)) :
    Option (List α) :=
  if files.all fun x => (list x).isNone then none else some (files.flatMap fun x => (list x).getD [])

theorem lastSet_append (xs ys : List (String × MachineFile)) :
    lastSet field (xs ++ ys) = (lastSet field ys).or (lastSet field xs) := by
  rw [lastSet, List.reverse_append, List.findSome?_append]
  rfl

theorem gathered_cons (x : String × MachineFile) (files : List (String × MachineFile)) :
    gathered list (x :: files) = joinLists (list x) (gathered list files) := by
  unfold gathered
  rw [List.all_cons, List.flatMap_cons]
  cases none : files.all fun y => (list y).isNone with
  | false => cases list x <;> rfl
  | true =>
    have empty : (files.flatMap fun y => (list y).getD []) = [] := by
      rw [List.flatMap_eq_nil_iff]
      intro y hy
      rw [Option.isNone_iff_eq_none.mp (List.all_eq_true.mp none y hy)]
      rfl
    rw [if_pos rfl, joinLists_none, empty]
    cases list x <;> simp

theorem foldl_lastSet (later : ∀ all x, field (join all x) = (field x.2).or (field all))
    (files : List (String × MachineFile)) (all : MachineFile) :
    field (files.foldl join all) = (lastSet field files).or (field all) := by
  induction files generalizing all with
  | nil => rfl
  | cons x files ih =>
    rw [List.foldl_cons, ih, later, ← List.singleton_append, lastSet_append, Option.or_assoc]
    simp [lastSet]

theorem foldl_gathered {field : MachineFile → Option (List α)}
    (joined : ∀ all x, field (join all x) = joinLists (field all) (list x))
    (files : List (String × MachineFile)) (all : MachineFile) :
    field (files.foldl join all) = joinLists (field all) (gathered list files) := by
  induction files generalizing all with
  | nil => simp [gathered, joinLists_none]
  | cons x files ih => rw [List.foldl_cons, ih, joined, gathered_cons, joinLists_assoc]

theorem lastSet_erase {x y : String × MachineFile} (listed : Listed d e paths files) (hx : x ∈ files)
    (hy : y ∈ files) {k : Nat} {chain : List Nat} (lead : follow d e (k :: chain) x.1 = some y.1)
    (sets : (field x.2).isSome) : lastSet field (files.erase y) = lastSet field files := by
  obtain ⟨us, vs, rfl⟩ := List.append_of_mem hx
  have decided : (lastSet field (x :: vs)).isSome := by
    rw [lastSet, List.isSome_findSome?]
    simp [sets]
  obtain ⟨v, value⟩ := Option.isSome_iff_exists.mp decided
  rw [List.erase_append_left _ (listed.mem_of_follow hy lead), lastSet_append, lastSet_append, value,
    Option.some_or, Option.some_or]

end Fields

/-- **What comes of loading.** Each file that is reached is loaded once, behind all that it includes, and the
root is the last. A field is that of the last file that sets it, so that nothing that a file includes overrides
it; lists are joined in the order of the files, with the paths of sources taken from the directory of their
file. How the files are grouped makes no difference. -/
theorem load_ok (h : load d e root = .ok f) :
    (∃ files, order d e root = .ok files ∧ Listed d e [root] files ∧ Ordered d e root (files.map (·.1)) ∧
      (∀ x ∈ files, read d e x.1 = .ok x.2) ∧
      (f.name = lastSet (·.name) files ∧ f.start = lastSet (·.start) files ∧
        f.maxSteps = lastSet (·.maxSteps) files ∧ f.frames = lastSet (·.frames) files) ∧
      (f.sources = gathered placedSources files ∧ f.breakpoints = gathered (·.2.breakpoints) files ∧
        f.dumps = gathered (·.2.dumps) files) ∧
      f.includes = none ∧
      ∀ x ∈ files, ∀ y ∈ files, ∀ k chain, follow d e (k :: chain) x.1 = some y.1 →
        [y, x].Sublist files ∧ ∀ (α : Type) (field : MachineFile → Option α), (field x.2).isSome →
          lastSet field (files.erase y) = lastSet field files) ∧
    (∀ f g h : MachineFile, (f.merge g).merge h = f.merge (g.merge h)) ∧
    ∀ f : MachineFile, merge {} f = { f with includes := none } ∧ f.merge {} = { f with includes := none } := by
  refine ⟨?_, merge_assoc, merge_empty⟩
  cases found : order d e root with
  | error cause => simp [load, found, bind, Except.bind] at h
  | ok files =>
    obtain rfl : files.foldl join {} = f := by
      rw [load, found] at h
      exact Except.ok.inj h
    obtain ⟨listed, ordered⟩ := order_ok found
    have later {α : Type} {field : MachineFile → Option α}
        (later : ∀ all x, field (join all x) = (field x.2).or (field all)) (unset : field {} = none) :
        field (files.foldl join {}) = lastSet field files := by
      rw [foldl_lastSet later, unset, Option.or_none]
    have joined {α : Type} {field : MachineFile → Option (List α)} {list : String × MachineFile → Option (List α)}
        (joined : ∀ all x, field (join all x) = joinLists (field all) (list x)) (unset : field {} = none) :
        field (files.foldl join {}) = gathered list files := by
      rw [foldl_gathered joined, unset]
      rfl
    have orElse {α : Type} (x y : Option α) : (x <|> y) = x.or y := by cases x <;> rfl
    refine ⟨files, rfl, listed, ordered, listed.read_of_mem, ⟨?_, ?_, ?_, ?_⟩, ⟨?_, ?_, ?_⟩, ?_, ?_⟩
    · exact later (fun _ _ => orElse ..) rfl
    · exact later (fun _ _ => orElse ..) rfl
    · exact later (fun _ _ => orElse ..) rfl
    · exact later (fun _ _ => orElse ..) rfl
    · exact joined (fun _ _ => rfl) rfl
    · exact joined (fun _ _ => rfl) rfl
    · exact joined (fun _ _ => rfl) rfl
    · cases listed with
      | cons _ _ rest =>
        cases rest
        rw [List.foldl_append]
        rfl
    · intro x hx y hy k chain lead
      refine ⟨?_, fun α field => lastSet_erase listed hx hy lead⟩
      obtain ⟨us, vs, rfl⟩ := List.append_of_mem hx
      have before := List.singleton_sublist.mpr (listed.mem_of_follow hy lead)
      exact before.append ((List.nil_sublist vs).cons_cons x)

/-- Three files. The first one includes the others, and has a name of its own but no start. -/
def layered : Disk where
  size := 3
  content i := .ok (["configs: [b, c]\nname: a", "name: b\nstart: s", "start: t"][i]).toUTF8.toList
  find p :=
    match p with
    | "a" => .ok 0
    | "b" => .ok 1
    | "c" => .ok 2
    | _ => .error .notFound

/-- The name is that of the file that includes the others, the start that of the one that it includes last. -/
theorem load_ok_layered :
    load layered [] "a" = .ok { name := some "a", start := some "t" } ∧
      ∃ files, order layered [] "a" = .ok files ∧ Ordered layered [] "a" (files.map (·.1)) ∧
        lastSet (·.name) files = some "a" ∧ lastSet (·.start) files = some "t" := by
  have loaded : load layered [] "a" = .ok { name := some "a", start := some "t" } := by decide +kernel
  obtain ⟨⟨files, found, -, ordered, -, ⟨name, start, -⟩, -⟩, -⟩ := load_ok loaded
  exact ⟨loaded, files, found, ordered, name.symm, start.symm⟩

end MachineFile

end Atari
