import Mathlib.Data.Finset.Card
import Atari.Proofs.Board.Poke
import Atari.Proofs.Board.Registry

/-!
# Hooks that call each other

Hooks that register none come to an end, however they write to each other. An address whose hooks are called
has none attached meanwhile, so each address is served at most once at a time, and every call inside another one
leaves fewer addresses for those further inside.

* `Board.chain`: the addresses of the calls under way, the innermost first; `Registry.Runs.chain`: they are
  being served;
* `Registry.Apart`: no address is served twice at a time, with `Registry.Runs.apart`; `Registry.Runs.calls`: so
  the calls under way are of addresses of their own;
* `Board.Confined`: hooks that register none, on some addresses; `Board.storeWithin_confined`: a store needs no
  more calls inside each other than there are such addresses;
* **`Board.pokes_terminate`**: both for bytes that are stored in a row.
-/

namespace Atari

/-- The addresses with hooks, as a set. -/
def Hooks.domain (h : Hooks Hook) : Finset Address := h.addresses.toFinset

theorem Hooks.mem_domain {h : Hooks Hook} {a : Address} : a ∈ h.domain ↔ h.on a ≠ [] := by
  rw [domain, List.mem_toFinset, mem_addresses]

/-- The addresses of the calls under way behind some deeds, the innermost first, when those of `calls` were
under way before. -/
def Board.chain (calls : List Address) : List Deed → List Address
  | [] => calls
  | .called _ a _ _ :: deeds => chain (a :: calls) deeds
  | .returned :: deeds => chain calls.tail deeds
  | .stored .. :: deeds | .attached .. :: deeds | .cleared .. :: deeds | .drawn .. :: deeds => chain calls deeds

namespace Registry

variable {r last : Registry} {deed : Deed} {deeds : List Deed}

/-! ## Calls under way -/

/-- The addresses one of whose hooks runs, the innermost first. -/
def calling (r : Registry) : List Address := (r.services.filter (·.running)).map (·.address)

theorem calling_sublist (r : Registry) : r.calling.Sublist r.serving := List.filter_sublist.map _

/-- **Deeds tell which calls are under way.** -/
theorem Runs.chain (runs : Runs r deeds last) : Board.chain r.calling deeds = last.calling := by
  induction runs with
  | nil => rfl
  | cons next _ ih => cases next <;> exact ih

/-! ## Addresses that are served -/

/-- No address is served twice at a time, and those that are being served have no hooks attached. -/
structure Apart (r : Registry) : Prop where
  nodup : r.serving.Nodup
  away : ∀ a ∈ r.serving, r.attached.on a = []

theorem Next.apart (next : Next r deed last) (registers : ∀ a hook, deed ≠ .attached a hook)
    (apart : r.Apart) : last.Apart := by
  obtain ⟨nodup, away⟩ := apart
  cases next with
  | pass | call | back | draw => exact ⟨nodup, away⟩
  | @enter attached services a _ hooks some on =>
    have idle : a ∉ services.map (·.address) := fun mem => some (on.symm.trans (away a mem))
    refine ⟨List.nodup_cons.mpr ⟨idle, nodup⟩, fun x mem => ?_⟩
    rw [Hooks.on_detach]
    obtain rfl | mem := List.mem_cons.mp mem
    · exact if_pos rfl
    · rw [away x mem, ite_self]
  | @leave attached services a hooks =>
    obtain ⟨idle, nodup⟩ := List.nodup_cons.mp nodup
    refine ⟨nodup, fun x mem => ?_⟩
    rw [Hooks.on_restore, if_neg (by rintro rfl; exact idle mem)]
    exact away x (List.mem_cons_of_mem a mem)
  | attach => exact absurd rfl (registers _ _)
  | clear =>
    refine ⟨nodup, fun x mem => ?_⟩
    rw [Hooks.on_detach, away x mem, ite_self]

theorem Runs.apart (runs : Runs r deeds last) (registers : ∀ a hook, .attached a hook ∉ deeds)
    (apart : r.Apart) : last.Apart := by
  induction runs with
  | nil => exact apart
  | cons next _ ih =>
    exact ih (fun a hook mem => registers a hook (List.mem_cons_of_mem _ mem))
      (next.apart (fun a hook same => registers a hook (same ▸ List.mem_cons_self)) apart)

/-- **The calls under way are of addresses of their own**, each of which had hooks at the start. -/
theorem Runs.calls {h : Hooks Hook} (runs : Runs ⟨h, []⟩ deeds last)
    (registers : ∀ a hook, .attached a hook ∉ deeds) :
    (Board.chain [] deeds).Nodup ∧ ∀ a ∈ Board.chain [] deeds, a ∈ h.domain := by
  have calling : Board.chain [] deeds = last.calling := runs.chain
  have apart : last.Apart := runs.apart registers ⟨List.nodup_nil, fun _ mem => absurd mem List.not_mem_nil⟩
  rw [calling]
  refine ⟨apart.nodup.sublist last.calling_sublist, fun a mem => ?_⟩
  rw [Hooks.mem_domain]
  intro on
  have none := (runs.none (registers a) (all_eq_nil_iff.mpr ⟨List.not_mem_nil, on⟩)).1
  exact (all_eq_nil_iff.mp none).1 (last.calling_sublist.subset mem)

end Registry

namespace Board

open Registry

variable {b : Board} {a : Address} {v : Byte}

/-! ## How deep hooks are nested -/

def AttachesNone (b : Board) : Prop := b.hooks.Forall Hook.AttachesNone

/-- Hooks that register none and did not do so, on addresses of a set. None were left out. -/
structure Confined (A : Finset Address) (past : List Deed) (b : Board) : Prop where
  none : b.AttachesNone
  mem {a : Address} : b.hooks.on a ≠ [] → a ∈ A
  overrun : b.overrun = false
  registers : ∀ a hook, .attached a hook ∉ past

namespace Confined

variable {A : Finset Address} {past : List Deed} (h : Confined A past b)

include h

theorem of_eq {c : Board} (hooks : c.hooks = b.hooks) (overrun : c.overrun = b.overrun) :
    Confined A past c :=
  ⟨fun e mem => h.none e (hooks ▸ mem), fun {a} some => h.mem (a := a) (hooks ▸ some),
    overrun.trans h.overrun, h.registers⟩

theorem mono {B : Finset Address} (within : A ⊆ B) : Confined B past b :=
  ⟨h.none, fun some => within (h.mem some), h.overrun, h.registers⟩

theorem snoc {deed : Deed} (other : ∀ a hook, deed ≠ .attached a hook) :
    Confined A (past ++ [deed]) b := by
  refine ⟨h.none, h.mem, h.overrun, fun a hook mem => ?_⟩
  obtain mem | mem := List.mem_append.mp mem
  · exact h.registers a hook mem
  · exact other a hook (List.mem_singleton.mp mem).symm

theorem detach (a : Address) : Confined (A.erase a) past { b with hooks := b.hooks.detach a } := by
  refine ⟨h.none.detach a, fun {x} some => ?_, h.overrun, h.registers⟩
  rw [Hooks.on_detach] at some
  obtain ⟨apart, some⟩ : x ≠ a ∧ b.hooks.on x ≠ [] := by
    split at some
    · exact absurd rfl some
    · exact ⟨‹_›, some⟩
  exact Finset.mem_erase.mpr ⟨apart, h.mem some⟩

theorem restore {hooks : List Hook} (none : ∀ hook ∈ hooks, hook.AttachesNone) (there : a ∈ A) :
    Confined A past { b with hooks := b.hooks.restore a hooks } := by
  refine ⟨h.none.restore a none, fun {x} some => ?_, h.overrun, h.registers⟩
  rw [Hooks.on_restore] at some
  split at some
  · rename_i same
    exact same ▸ there
  · exact h.mem some

theorem store_free (on : b.hooks.on a = []) (v : Byte) (depth other : Nat) :
    Confined A (past ++ deedsWithin depth b a v) (storeWithin depth b a v) ∧
      storeWithin other b a v = storeWithin depth b a v ∧
      deedsWithin other b a v = deedsWithin depth b a v := by
  rw [storeWithin_of_on_eq_nil on, storeWithin_of_on_eq_nil on, deedsWithin_of_on_eq_nil on,
    deedsWithin_of_on_eq_nil on]
  exact ⟨(h.snoc (by simp)).of_eq rfl rfl, rfl, rfl⟩

end Confined

theorem sustained_confined {store other : Store} {during also : Board → Address → Byte → List Deed}
    {A : Finset Address}
    (stores : ∀ {past : List Deed} {b : Board}, Confined A past b → ∀ a v,
      Confined A (past ++ during b a v) (store b a v) ∧ other b a v = store b a v ∧
        also b a v = during b a v) :
    Sustained store other during also False (Confined A) where
  same confined hooks overrun := confined.of_eq hooks overrun
  attach registers := registers.elim
  clear confined a := ((confined.detach a).mono (A.erase_subset a)).snoc (by simp)
  draw confined _ := confined.snoc (by simp)
  stores confined a v := (stores confined a v).1
  agree confined a v := (stores confined a v).2

/-- **Hooks that register none need no more calls inside each other than there are addresses with hooks.** -/
theorem storeWithin_confined {depth other : Nat} {A : Finset Address} {past : List Deed}
    (enough : A.card ≤ depth) (more : depth ≤ other) (h : Confined A past b) (a : Address) (v : Byte) :
    Confined A (past ++ deedsWithin depth b a v) (storeWithin depth b a v) ∧
      storeWithin other b a v = storeWithin depth b a v ∧
      deedsWithin other b a v = deedsWithin depth b a v := by
  -- An address is not in the set any more while its hooks are called, and the depth below has to be enough for
  -- the others.
  induction depth generalizing other A past b a v with
  | zero =>
    by_cases on : b.hooks.on a = []
    · exact h.store_free on v _ _
    · have there := h.mem on
      rw [Finset.card_eq_zero.mp (Nat.le_zero.mp enough)] at there
      exact absurd there (Finset.notMem_empty a)
  | succ depth ih =>
    by_cases on : b.hooks.on a = []
    · exact h.store_free on v _ _
    · obtain ⟨other, rfl⟩ : ∃ n, other = n + 1 := ⟨other - 1, by omega⟩
      have fewer : (A.erase a).card ≤ depth := by
        rw [Finset.card_erase_of_mem (h.mem on)]
        omega
      have entered : Confined (A.erase a) (past ++ [.stored a v (b.hooks.on a)])
          { b.setByte a v with hooks := b.hooks.detach a } :=
        ((h.snoc (by simp)).of_eq (c := b.setByte a v) rfl rfl).detach a
      have meanwhile : Sustained (storeWithin depth) (storeWithin other) (deedsWithin depth)
          (deedsWithin other) False (Confined (A.erase a)) :=
        sustained_confined fun confined => ih fewer (Nat.le_of_succ_le_succ more) confined
      obtain ⟨kept, ran, told⟩ := meanwhile.calls (fun confined _ _ _ => confined.snoc (by simp))
        (fun confined => confined.snoc (by simp)) (fun hook mem => .inl (h.none.on a hook mem)) entered a v
      have left := (kept.mono (A.erase_subset a)).restore (h.none.on a) (h.mem on)
      rw [List.append_assoc] at left
      rw [storeWithin_of_on_ne_nil on, storeWithin_of_on_ne_nil on, called, called, setByte_hooks, deedsWithin,
        deedsWithin]
      exact ⟨left, congrArg (fun c : Board => { c with hooks := c.hooks.restore a (b.hooks.on a) }) ran,
        congrArg _ told⟩

theorem card_le_nesting (A : Finset Address) : A.card ≤ nesting := by
  have places := Finset.card_le_card_of_injOn (s := A) (t := Finset.range 65536) UInt16.toNat
    (fun a _ => Finset.mem_coe.mpr (Finset.mem_range.mpr a.toNat_lt)) fun _ _ _ _ => UInt16.toNat_inj.mp
  rwa [Finset.card_range] at places

theorem pokeDeeds_runs {c : Board} {data : List Byte} {depth : Nat}
    (ran : b.pokeWith (storeWithin depth) a data = .ok c) (fits : c.overrun = false) :
    Runs ⟨b.hooks, []⟩ (b.pokeDeeds depth a data) ⟨c.hooks, []⟩ := by
  have whole : (Script.poke a data fun _ => .stop).run (storeWithin depth) b = c := by
    unfold Script.run
    rw [ran]
    rfl
  subst whole
  exact script_runs fits

/-- **Bytes are stored to the end where hooks register none**, however they write to each other. No more calls
are needed inside each other than there are addresses with hooks; room for more of them makes no difference, and
none are left out. The addresses of the calls under way are distinct at any time, and each had hooks at the
start. -/
theorem pokes_terminate (none : b.AttachesNone) (fits : b.overrun = false) (a : Address) (data : List Byte)
    {depth : Nat} (enough : b.hooks.domain.card ≤ depth) :
    b.pokeWith (storeWithin depth) a data = b.poke a data ∧
      b.pokeDeeds depth a data = b.pokeDeeds nesting a data ∧
      (∀ c, b.poke a data = .ok c → c.overrun = false ∧ c.AttachesNone) ∧
      ∀ before after, b.pokeDeeds nesting a data = before ++ after →
        (chain [] before).Nodup ∧ (∀ x ∈ chain [] before, x ∈ b.hooks.domain) ∧
          (chain [] before).length ≤ b.hooks.domain.card := by
  by_cases inside : a.toNat + data.length ≤ Memory.size
  · have start : Confined b.hooks.domain [] b := ⟨none, Hooks.mem_domain.mpr, fits, by simp⟩
    have stored {n : Nat} (more : b.hooks.domain.card ≤ n) :=
      (sustained_confined (storeWithin_confined le_rfl more)).storeAll start a data
    obtain ⟨last, poked, told⟩ := stored (card_le_nesting b.hooks.domain)
    have ran : b.poke a data = .ok (b.storeAll (storeWithin b.hooks.domain.card) a data) := by
      rw [poke, pokeWith, if_pos inside, store, poked]
    refine ⟨?_, ?_, fun c poked => ?_, fun before after split => ?_⟩
    · rw [ran, pokeWith, if_pos inside, (stored enough).2.1]
    · rw [pokeDeeds_of_fits _ _ inside, pokeDeeds_of_fits _ _ inside, told, (stored enough).2.2]
    · obtain rfl := Except.ok.inj (ran.symm.trans poked)
      exact ⟨last.overrun, last.none⟩
    · have runs := pokeDeeds_runs ran last.overrun
      rw [split] at runs
      obtain ⟨mid, first, -⟩ := runs.split
      have registers : ∀ a hook, .attached a hook ∉ before := fun c hook mem => by
        refine last.registers c hook ?_
        rw [List.nil_append, ← told, ← pokeDeeds_of_fits _ _ inside, split]
        exact List.mem_append_left after mem
      obtain ⟨nodup, there⟩ := first.calls registers
      refine ⟨nodup, there, ?_⟩
      rw [← List.toFinset_card_of_nodup nodup]
      exact Finset.card_le_card fun x mem => there x (List.mem_toFinset.mp mem)
  · have refused (store : Store) :
        b.pokeWith store a data = .error (.writeOverflow data.length a.toNat) := if_neg inside
    have nothing (depth : Nat) := b.pokeDeeds_of_not_fits depth inside
    refine ⟨(refused _).trans (refused _).symm, (nothing depth).trans (nothing nesting).symm,
      fun c poked => ?_, fun before after split => ?_⟩
    · cases (refused _).symm.trans poked
    · rw [nothing] at split
      obtain ⟨rfl, -⟩ := List.append_eq_nil_iff.mp split.symm
      exact ⟨List.nodup_nil, fun _ mem => absurd mem List.not_mem_nil, Nat.zero_le _⟩

/-- A board with two hooks, each of which stores a byte at the address of the other one and at its own. -/
def echoing : Board where
  hooks := ⟨[(0x0200, .script fun a v => .poke 0x0201 [v] fun _ => .poke a [0] fun _ => .stop),
    (0x0201, .script fun a v => .poke 0x0200 [v] fun _ => .poke a [0] fun _ => .stop)]⟩

/-- Two calls inside each other are enough for them, and they are that deep. -/
theorem pokes_terminate_echoing :
    echoing.AttachesNone ∧ echoing.hooks.domain.card = 2 ∧
      echoing.pokeWith (storeWithin 2) 0x0200 [1] = echoing.poke 0x0200 [1] ∧
      ∃ before after, echoing.pokeDeeds nesting 0x0200 [1] = before ++ after ∧
        chain [] before = [0x0201, 0x0200] ∧ (chain [] before).Nodup := by
  have none : echoing.AttachesNone := by
    simp [AttachesNone, Hooks.Forall, echoing, Hook.AttachesNone, Script.AttachesNone]
  have two : echoing.hooks.domain.card = 2 := by
    simp [Hooks.domain, Hooks.addresses, echoing, List.eraseDups_cons, List.mergeSort,
      List.MergeSort.Internal.splitInTwo]
  obtain ⟨poked, told, -, nested⟩ := pokes_terminate none rfl 0x0200 [1] (Nat.le_of_eq two)
  have split : echoing.pokeDeeds nesting 0x0200 [1] =
      [.stored 0x0200 1 _, .called _ 0x0200 1 _, .stored 0x0201 1 _, .called _ 0x0201 1 _] ++ _ :=
    told.symm.trans rfl
  exact ⟨none, two, poked, _, _, split, rfl, (nested _ _ split).1⟩

end Board

end Atari
