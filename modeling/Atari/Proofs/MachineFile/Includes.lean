import Atari.Proofs.MachineFile.Chains
import Mathlib.Data.Fintype.Card

/-!
# Machine files that include each other

Loading goes along all chains of includes and refuses a file that it comes to a second time, whether the
chain runs in a circle or not.

* `MachineFile.Complete`: all files exist and can be read;
* `MachineFile.Explores`, **`MachineFile.Complete.walks`**: what comes of a walk;
* **`MachineFile.Complete.load_circular_iff`**: when machine files are refused.
-/

namespace Atari

namespace MachineFile

variable (d : Disk) (e : Environment)

/-- All files that a path leads to exist and can be read. Behind the files `above`, a chain that comes
back to one of them need not be followed further. -/
inductive Complete : (above : List (Fin d.size)) → (path : String) → Prop
  | again {above : List (Fin d.size)} {path : String} {i : Fin d.size} :
    d.locate path = .ok i → i ∈ above → Complete above path
  | file {above : List (Fin d.size)} {path : String} {i : Fin d.size} {f : MachineFile} :
    d.locate path = .ok i → i ∉ above → read d e path = .ok f →
    (∀ below ∈ included d e path, Complete (i :: above) below) → Complete above path

variable {d e} {leads : List Nat → Option String} {path p : String}
  {paths : List String} {i : Fin d.size} {seen : List (Fin d.size)}

/-! ## Walks -/

theorem resolve_of_locate (h : d.locate path = .ok i) : d.resolve path = .ok i := by
  unfold Disk.locate at h
  split at h
  · cases h
  · exact h

theorem locate_of_read {f : MachineFile} (h : read d e path = .ok f) : ∃ i, d.locate path = .ok i := by
  cases located : d.locate path with
  | ok i => exact ⟨i, rfl⟩
  | error cause =>
    simp [read, Disk.read, located, bind, Except.bind, Except.mapError] at h

/-- The files that a path leads to are complete if every chain leads to one that can be read. -/
theorem complete_of_read {above : List (Fin d.size)} (distinct : above.Nodup)
    (readable : ∀ chain p, follow d e chain path = some p → ∃ f, read d e p = .ok f) :
    Complete d e above path := by
  -- The files above become more with each include, and there are only `d.size` of them.
  induction free : d.size - above.length using Nat.strong_induction_on generalizing above path with
  | _ n ih =>
    obtain ⟨f, hf⟩ := readable [] path rfl
    obtain ⟨i, file⟩ := locate_of_read hf
    by_cases mem : i ∈ above
    · exact .again file mem
    · have distinct : (i :: above).Nodup := List.nodup_cons.mpr ⟨mem, distinct⟩
      have fits : (i :: above).length ≤ d.size := by
        have := distinct.length_le_card
        rwa [Fintype.card_fin] at this
      refine .file file mem hf fun below hbelow => ?_
      obtain ⟨k, hk⟩ := List.mem_iff_getElem?.mp hbelow
      refine ih (d.size - (i :: above).length) ?_ distinct (fun chain p lead => ?_) rfl
      · rw [List.length_cons] at fits ⊢
        omega
      · exact readable (k :: chain) p (by rw [follow, hk]; exact lead)

section Visit

variable {left : Nat} {files : List (String × MachineFile)} {f : MachineFile}

theorem visit_of_mem (file : d.resolve path = .ok i) (known : i ∈ seen) :
    visit d e left path (files, seen) = .error (.circular path) := by
  unfold visit
  simp [file, known, Except.mapError, bind, Except.bind, throw, throwThe, MonadExceptOf.throw]

/-- A walk along several paths. -/
def visitAll (d : Disk) (e : Environment) (left : Nat) (paths : List String) (w : Walk d) :
    Except MachineFileError (Walk d) :=
  paths.foldlM (fun w below => visit d e left below w) w

/-- A loop over the names that a file includes walks along their paths, if each name is one. -/
theorem foldlM_eq_visitAll {directory : String} {names : List String}
    {step : Walk d → String → Except MachineFileError (Walk d)}
    (each : ∀ name ∈ names, ∀ w, step w name = visit d e left (Path.join directory name) w)
    (w : Walk d) : names.foldlM step w = visitAll d e left (names.map (Path.join directory)) w := by
  induction names generalizing w with
  | nil => rfl
  | cons name names ih =>
    obtain ⟨first, others⟩ := List.forall_mem_cons.mp each
    rw [List.foldlM_cons, List.map_cons, visitAll, List.foldlM_cons, first]
    exact bind_congr fun w => ih others w

theorem visit_of_not_mem (file : d.locate path = .ok i) (fresh : i ∉ seen)
    (hf : read d e path = .ok f) (located : ∀ below ∈ included d e path, ∃ j, d.locate below = .ok j) :
    visit d e (left + 1) path (files, seen) =
      (visitAll d e left (included d e path) (files, i :: seen)).map fun w =>
        (w.1 ++ [(path, f)], w.2) := by
  have paths : included d e path = (f.includes.getD []).map (Path.join (Path.parent path)) := by
    rw [included, hf]
  rw [paths] at located ⊢
  rw [visit, resolve_of_locate file]
  simp only [Except.mapError, List.contains_eq_mem, fresh, hf, bind, Except.bind]
  rw [if_neg (by simp)]
  refine congrArg (Except.map fun w => (w.1 ++ [(path, f)], w.2)) (foldlM_eq_visitAll ?_ _)
  -- No included path is missing.
  intro name mem w
  obtain ⟨j, hj⟩ := located _ (List.mem_map_of_mem mem)
  simp only [hj]

end Visit

/-- What can come of a walk along some chains: all of them were followed once, or one of them leads to a
file for the second time. -/
def Explores (d : Disk) (leads : List Nat → Option String) (seen : List (Fin d.size))
    (r : Except MachineFileError (Walk d)) : Prop :=
  (∃ files new, r = .ok (files, new ++ seen) ∧ (new ++ seen).Nodup ∧ Once d leads new) ∨
    ∃ p, r = .error (.circular p) ∧ Twice d leads seen p

/-- A walk that can go as deep as there are files left explores some chains, if it has not come back to
one of the files `above`. -/
def Walks (d : Disk) (leads : List Nat → Option String) (above : List (Fin d.size))
    (walk : Nat → Walk d → Except MachineFileError (Walk d)) : Prop :=
  ∀ left files seen, above ⊆ seen → seen.Nodup → d.size ≤ left + seen.length →
    Explores d leads seen (walk left (files, seen))

theorem visitAll_walks {above : List (Fin d.size)}
    (each : ∀ p ∈ paths, Walks d (follow d e · p) above (visit d e · p)) :
    Walks d (branch d e paths) above (visitAll d e · paths) := by
  induction paths with
  | nil =>
    intro left files seen _ distinct _
    exact .inl ⟨files, [], rfl, distinct, .nil⟩
  | cons p paths ih =>
    obtain ⟨head, others⟩ := List.forall_mem_cons.mp each
    intro left files seen known distinct deep
    show Explores _ _ _ (visit d e left p (files, seen) >>= visitAll d e left paths)
    have first : Explores d _ seen (visit d e left p (files, seen)) := head left files seen known distinct deep
    obtain ⟨files, new, hr, distinct, once⟩ | ⟨q, hr, twice⟩ := first
    · rw [hr]
      have known : above ⊆ new ++ seen := List.Subset.trans known (List.subset_append_right ..)
      have deep : d.size ≤ left + (new ++ seen).length := by
        rw [List.length_append]
        omega
      have rest : Explores d _ (new ++ seen) (visitAll d e left paths (files, new ++ seen)) :=
        ih others left files (new ++ seen) known distinct deep
      obtain ⟨files, more, hr, apart, once'⟩ | ⟨q, hr, twice⟩ := rest
      · refine .inl ⟨files, more ++ new, ?_, ?_, once.cons once' fun i hi hi' => ?_⟩
        · rw [List.append_assoc]
          exact hr
        · rw [List.append_assoc]
          exact apart
        · exact List.disjoint_of_nodup_append apart hi (List.mem_append_left _ hi')
      · exact .inr ⟨q, hr, .tail once twice⟩
    · rw [hr]
      exact .inr ⟨q, rfl, twice.head⟩

theorem Complete.locate {above : List (Fin d.size)} (h : Complete d e above path) :
    ∃ i, d.locate path = .ok i := by
  cases h with
  | again file _ | file file _ _ _ => exact ⟨_, file⟩

/-- **A walk follows all chains once, or comes to a file for the second time.** -/
theorem Complete.walks {above : List (Fin d.size)} (h : Complete d e above path) :
    Walks d (follow d e · path) above (visit d e · path) := by
  induction h with
  | @again above path i file circle =>
    intro left files seen known _ _
    have here := resolve_of_locate file
    exact .inr ⟨path, visit_of_mem here (known circle), [], i, rfl, here, .inl (known circle)⟩
  | @file above path i f file _ hf below ih =>
    intro left files seen known distinct deep
    have here := resolve_of_locate file
    by_cases mem : i ∈ seen
    · exact .inr ⟨path, visit_of_mem here mem, [], i, rfl, here, .inl mem⟩
    · -- A file is left, so the walk can go on.
      have distinct : (i :: seen).Nodup := List.nodup_cons.mpr ⟨mem, distinct⟩
      have fits : (i :: seen).length ≤ d.size := by
        have := distinct.length_le_card
        rwa [Fintype.card_fin] at this
      obtain ⟨left, rfl⟩ : ∃ n, left = n + 1 := ⟨left - 1, by simp at fits; omega⟩
      show Explores _ _ _ (visit d e (left + 1) path (files, seen))
      rw [visit_of_not_mem file mem hf fun p hp => (below p hp).locate]
      have deep : d.size ≤ left + (i :: seen).length := by
        simp
        omega
      have under : Explores d _ (i :: seen) (visitAll d e left (included d e path) (files, i :: seen)) :=
        visitAll_walks ih left files (i :: seen) (List.cons_subset_cons i known) distinct deep
      obtain ⟨files, new, hr, distinct, once⟩ | ⟨q, hr, twice⟩ := under
      · have fresh : i ∉ new := fun hi => List.disjoint_of_nodup_append distinct hi List.mem_cons_self
        refine .inl ⟨files ++ [(path, f)], new ++ [i], ?_, ?_, once.file here fresh⟩
        · rw [hr]
          simp [Except.map]
        · rw [List.append_assoc]
          exact distinct
      · refine .inr ⟨q, ?_, .file here twice⟩
        rw [hr]
        rfl

/-! ## Loading -/

section Loading

variable {root : String}

theorem load_eq : load d e root =
    (visit d e d.size root ([], [])).map fun w =>
      w.1.foldl (fun all (path, f) => all.merge (f.inDirectory (Path.parent path))) {} := by
  unfold load order
  cases visit d e d.size root ([], []) <;> rfl

theorem Twice.repeatedAt (h : Twice d (follow d e · root) [] p) : RepeatedAt d e root p := by
  obtain ⟨chain, i, lead, file, known | ⟨chain', q, apart, lead', file'⟩⟩ := h
  · cases known
  · exact ⟨chain, chain', q, apart.symm, lead, lead', i, file, file'⟩

theorem Complete.load_cases (h : Complete d e [] root) :
    ((∃ f, load d e root = .ok f) ∧ ¬Repeated d e root) ∨
      ∃ p, load d e root = .error (.circular p) ∧ RepeatedAt d e root p := by
  have walked : Explores d (follow d e · root) [] (visit d e d.size root ([], [])) :=
    h.walks d.size [] [] (List.nil_subset _) List.nodup_nil (by simp)
  rw [load_eq]
  obtain ⟨files, new, hr, -, once⟩ | ⟨p, hr, twice⟩ := walked
  · rw [hr]
    exact .inl ⟨⟨_, rfl⟩, once.not_repeated⟩
  · rw [hr]
    exact .inr ⟨p, rfl, twice.repeatedAt⟩

/-- **Files that can all be read are loaded as one, unless two chains of includes lead to the same file.**
Then the error tells a path of such a file. A chain that comes back to a file is one case of this, so
that the error stands for it alone just when no file is included twice otherwise. -/
theorem Complete.load_circular_iff (h : Complete d e [] root) :
    ((∃ p, load d e root = .error (.circular p)) ↔ Repeated d e root) ∧
    ((∃ f, load d e root = .ok f) ↔ ¬Repeated d e root) ∧
    (∀ p, load d e root = .error (.circular p) → RepeatedAt d e root p) ∧
    (Circular d e root → ∃ p, load d e root = .error (.circular p)) ∧
    (((∃ p, load d e root = .error (.circular p)) ↔ Circular d e root) ↔
      (Repeated d e root → Circular d e root)) := by
  obtain ⟨⟨f, loaded⟩, distinct⟩ | ⟨p, refused, here⟩ := h.load_cases
  · have straight : ¬Circular d e root := fun circle => distinct circle.repeated
    simp [loaded, distinct, straight]
  · have repeated : Repeated d e root := ⟨p, here⟩
    have told (q : String) (hq : load d e root = .error (.circular q)) : RepeatedAt d e root q := by
      rw [refused] at hq
      cases hq
      exact here
    refine ⟨⟨fun _ => repeated, fun _ => ⟨p, refused⟩⟩, ?_, told, fun _ => ⟨p, refused⟩, ?_⟩
    · simp [refused, repeated]
    · simp [refused, repeated]

end Loading

/-- Four files. The first one includes two files, and both of them include the last one. -/
def diamond : Disk where
  size := 4
  content i := .ok (["configs: [b, c]", "configs: [d]", "configs: [d]", ""][i]).toUTF8.toList
  find p :=
    match p with
    | "a" => .ok 0
    | "b" => .ok 1
    | "c" => .ok 2
    | "d" => .ok 3
    | _ => .error .notFound

theorem diamond_locate :
    diamond.locate "a" = .ok (0 : Fin 4) ∧ diamond.locate "b" = .ok (1 : Fin 4) ∧
    diamond.locate "c" = .ok (2 : Fin 4) ∧ diamond.locate "d" = .ok (3 : Fin 4) := by
  decide +kernel

theorem diamond_paths {i : Fin diamond.size} (h : diamond.locate p = .ok i) :
    p = "a" ∨ p = "b" ∨ p = "c" ∨ p = "d" := by
  have found := resolve_of_locate h
  unfold Disk.resolve at found
  split at found
  · cases found
  · simp only [diamond] at found
    split at found <;> simp_all

theorem diamond_read :
    read diamond [] "a" = .ok { includes := some ["b", "c"] } ∧
    read diamond [] "b" = .ok { includes := some ["d"] } ∧
    read diamond [] "c" = .ok { includes := some ["d"] } ∧
    read diamond [] "d" = .ok {} := by
  decide +kernel

theorem diamond_included :
    included diamond [] "a" = ["b", "c"] ∧ included diamond [] "b" = ["d"] ∧
    included diamond [] "c" = ["d"] ∧ included diamond [] "d" = [] := by
  obtain ⟨ha, hb, hc, hd⟩ := diamond_read
  unfold included
  rw [ha, hb, hc, hd]
  decide +kernel

theorem diamond_complete : Complete diamond [] [] "a" := by
  obtain ⟨ha, hb, hc, hd⟩ := diamond_read
  obtain ⟨ia, ib, ic, id⟩ := diamond_included
  refine complete_of_read List.nodup_nil fun chain p lead => ?_
  have known : p = "a" ∨ p = "b" ∨ p = "c" ∨ p = "d" := by
    refine follow_invariant (fun p => p = "a" ∨ p = "b" ∨ p = "c" ∨ p = "d") ?_ (.inl rfl) lead
    rintro path (rfl | rfl | rfl | rfl) p mem
    · rw [ia] at mem
      have next : p = "b" ∨ p = "c" := by simpa using mem
      exact .inr (next.imp_right .inl)
    · rw [ib, List.mem_singleton] at mem
      exact .inr (.inr (.inr mem))
    · rw [ic, List.mem_singleton] at mem
      exact .inr (.inr (.inr mem))
    · simp [id] at mem
  obtain rfl | rfl | rfl | rfl := known
  · exact ⟨_, ha⟩
  · exact ⟨_, hb⟩
  · exact ⟨_, hc⟩
  · exact ⟨_, hd⟩

theorem diamond_repeated : Repeated diamond [] "a" := by
  obtain ⟨ia, ib, ic, -⟩ := diamond_included
  have here := resolve_of_locate diamond_locate.2.2.2
  exact ⟨"d", [0, 0], [1, 0], "d", by decide, by simp [follow, ia, ib], by simp [follow, ia, ic],
    _, here, here⟩

/-- No chain of includes comes back to a file. -/
theorem diamond_not_circular : ¬Circular diamond [] "a" := by
  obtain ⟨ia, ib, ic, id⟩ := diamond_included
  obtain ⟨la, lb, lc, ld⟩ := diamond_locate
  -- A file with a greater number is on a lower level.
  let level (p : String) : Nat := (diamond.resolve p).toOption.elim 0 fun i => 4 - i.1
  have level_eq {p : String} {i : Fin 4} (h : diamond.locate p = .ok i) : level p = 4 - i.1 := by
    simp only [level, resolve_of_locate h]
    rfl
  refine not_circular_of_level level ?_ ?_
  · intro path p mem
    obtain ⟨f, hf⟩ := exists_read_of_mem_included mem
    obtain ⟨i, hi⟩ := locate_of_read hf
    have known : path = "a" ∨ path = "b" ∨ path = "c" ∨ path = "d" := diamond_paths hi
    rcases known with rfl | rfl | rfl | rfl
    · rw [ia] at mem
      obtain rfl | rfl : p = "b" ∨ p = "c" := by simpa using mem
      · simp [level_eq la, level_eq lb]
      · simp [level_eq la, level_eq lc]
    · rw [ib, List.mem_singleton] at mem
      simp [mem, level_eq lb, level_eq ld]
    · rw [ic, List.mem_singleton] at mem
      simp [mem, level_eq lc, level_eq ld]
    · simp [id] at mem
  · rintro p q ⟨i, hp, hq⟩
    simp only [level, hp, hq]

theorem Complete.load_circular_iff_diamond :
    Complete diamond [] [] "a" ∧ Repeated diamond [] "a" ∧
      ∃ p, load diamond [] "a" = .error (.circular p) :=
  ⟨diamond_complete, diamond_repeated, diamond_complete.load_circular_iff.1.mpr diamond_repeated⟩

/-- Files that do not include each other in a circle are refused as if they did. -/
theorem load_refuses_diamond :
    Complete diamond [] [] "a" ∧ load diamond [] "a" = .error (.circular "d") ∧
      ¬Circular diamond [] "a" := by
  exact ⟨diamond_complete, by decide +kernel, diamond_not_circular⟩

end MachineFile

end Atari
