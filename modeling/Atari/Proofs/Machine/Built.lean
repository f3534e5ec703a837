import Atari.Machine.Load
import Atari.Proofs.Board.Poke
import Atari.Proofs.Machine.Interrupts

/-!
# Machines from machine files

Loading stores files in a memory without hooks, and installs the breakpoints and the display last. So
what comes out of it is a machine before its first run.

* `Loading.Leads`: what a part of loading makes of processors;
* `Processor.Bare`, `Processor.Armed`: processors before and behind the breakpoints are installed;
* `Machine.Fresh`: a machine before its first run, whose display has drawn no frame;
* `Machine.equip`, `Machine.prepare_eq`: the last part of loading;
* **`Machine.fresh_ofFile`**, `Machine.built_ofFile`: the machine of a machine file is one.
-/

namespace Atari

/-! ## Segments in memory -/

namespace Board

theorem storeAll_bare {b : Board} (h : b.hooks.entries = []) (a : Address) (data : List Byte) :
    ∃ m, b.storeAll Board.store a data = { b with memory := m } ∧
      (a.toNat + data.length ≤ Memory.size →
        ∀ c, m.peek c = ((⟨a, data⟩ : Segment).byte? c).getD (b.peek c)) := by
  refine storeAll_free nesting fun i _ => ?_
  rw [Hooks.on, h]
  rfl

end Board

/-! ## What loading keeps -/

namespace Loading

variable {α β : Type} {I J : Processor → Prop} {p q r : Processor} {a : α}

theorem bind_ok_iff {x : Loading α} {f : α → Loading β} {b : β} :
    (x >>= f) p = .ok b r ↔ ∃ a q, x p = .ok a q ∧ f a q = .ok b r := by
  show EStateM.bind x f p = .ok b r ↔ _
  unfold EStateM.bind
  cases x p <;> simp [and_assoc]

theorem lift_ok_iff {ε : Type} {x : Except ε α} {wrap : ε → LoadError} :
    lift (x.mapError wrap) p = .ok a q ↔ x = .ok a ∧ p = q := by
  cases x with
  | ok b =>
    show EStateM.Result.ok b p = .ok a q ↔ _
    simp
  | error e =>
    show EStateM.Result.error _ p = .ok a q ↔ _
    simp

theorem store_ok_iff {file : String} {a : Address} {data : List Byte} :
    store file a data p = .ok () q ↔
      a.toNat + data.length ≤ Memory.size ∧ q = { p with board := p.board.storeAll Board.store a data } := by
  unfold store Board.poke Board.pokeWith
  dsimp only [bind, EStateM.bind, get, getThe, MonadStateOf.get, EStateM.get]
  by_cases fits : a.toNat + data.length ≤ Memory.size
  · rw [if_pos fits]
    show EStateM.Result.ok () _ = EStateM.Result.ok () q ↔ _
    simp [fits, eq_comm]
  · rw [if_neg fits]
    show EStateM.Result.error _ _ = EStateM.Result.ok () q ↔ _
    simp [fits]

/-- A part of loading that succeeds leads from processors with `I` to processors with `J`. -/
def Leads (I J : Processor → Prop) (x : Loading α) : Prop :=
  ∀ p a q, I p → x p = .ok a q → J q

theorem Leads.bind {K : Processor → Prop} {x : Loading α} {f : α → Loading β} (hx : Leads I J x)
    (hf : ∀ a, Leads J K (f a)) : Leads I K (x >>= f) := by
  intro p b r hp h
  obtain ⟨a, q, first, rest⟩ := bind_ok_iff.mp h
  exact hf a q b r (hx p a q hp first) rest

theorem leads_pure (a : α) : Leads I I (pure a) := by
  intro p b q hp h
  cases h
  exact hp

theorem leads_get : Leads I I (get : Loading Processor) := by
  intro p a q hp h
  cases h
  exact hp

theorem leads_modify {change : Processor → Processor} (h : ∀ p, I p → J (change p)) :
    Leads I J (modify change) := by
  intro p b q hp hq
  cases hq
  exact h p hp

theorem leads_lift (x : Except LoadError α) : Leads I I (lift x) := by
  intro p a q hp h
  cases x with
  | ok x =>
    cases h
    exact hp
  | error e => cases h

theorem leads_forM {x : α → Loading PUnit} (hx : ∀ a, Leads I I (x a)) (l : List α) :
    Leads I I (l.forM x) := by
  induction l with
  | nil => exact leads_pure _
  | cons a l ih => exact (hx a).bind fun _ => ih

theorem leads_foldlM {x : β → α → Loading β} (hx : ∀ b a, Leads I I (x b a)) (l : List α) (b : β) :
    Leads I I (l.foldlM x b) := by
  induction l generalizing b with
  | nil => exact leads_pure b
  | cons a l ih => exact (hx b a).bind fun b => ih b

theorem leads_forIn {x : α → β → Loading (ForInStep β)} (hx : ∀ a b, Leads I I (x a b)) (l : List α) (b : β) :
    Leads I I (forIn l b x) := by
  induction l generalizing b with
  | nil => exact leads_pure b
  | cons a l ih =>
    rw [List.forIn_cons]
    refine (hx a b).bind fun next => ?_
    cases next with
    | done b => exact leads_pure b
    | yield b => exact ih b

end Loading

/-! ## What is plugged in -/

namespace Processor

/-- A processor without hooks, displays and requests to stop. -/
structure Unplugged (p : Processor) : Prop where
  hooks : p.board.hooks.entries = []
  displays : p.board.displays = #[]
  stop : p.board.stop = none

/-- A processor that has no breakpoints either. -/
structure Bare (p : Processor) : Prop extends p.Unplugged where
  breakpoints : p.breakpoints.entries = []

/-- A processor whose breakpoints ask to stop. -/
structure Armed (p : Processor) : Prop extends p.Unplugged where
  stopsOnly : p.StopsOnly

variable {p q : Processor}

theorem Unplugged.of_eq (h : p.Unplugged) (hooks : q.board.hooks = p.board.hooks)
    (displays : q.board.displays = p.board.displays) (stop : q.board.stop = p.board.stop) :
    q.Unplugged :=
  ⟨hooks ▸ h.hooks, displays.trans h.displays, stop.trans h.stop⟩

theorem Unplugged.note (h : p.Unplugged) (level : Level) (body : Unit → String) :
    (p.onBoard (·.note level body)).Unplugged :=
  h.of_eq (Board.note_hooks ..) (Board.note_displays ..) (Board.note_stop ..)

theorem Bare.stopsOnly (h : p.Bare) : p.StopsOnly := by
  intro e he
  rw [h.breakpoints] at he
  cases he

theorem Bare.setPc (h : p.Bare) (a : Address) : (p.setPc a).Bare := by
  refine ⟨h.of_eq (p.setPc_hooks a) (p.setPc_displays a) ?_, ?_⟩
  · rw [h.stopsOnly.setPc_stop_eq, stops, h.breakpoints]
    rfl
  · rw [setPc_breakpoints]
    exact h.breakpoints

theorem Bare.setRegister (h : p.Bare) (r : Register) (v : Byte) : (p.setRegister r v).Bare := by
  obtain ⟨journal, log, board⟩ := ((Follows.refl p).setRegister r v).board
  refine ⟨h.of_eq (by rw [board]; rfl) (by rw [board]; rfl) (by rw [board]; rfl), ?_⟩
  rw [((Follows.refl p).setRegister r v).breakpoints]
  exact h.breakpoints

theorem Bare.reset (h : p.Bare) : p.reset.Bare := by
  have initial : Bare { p with registers := .initial (p.memory.pointer resetVector false) } :=
    ⟨⟨h.hooks, h.displays, h.stop⟩, h.breakpoints⟩
  exact (((initial.setRegister .a 0).setRegister .x 0).setRegister .y 0).setPc _

theorem Armed.addBreakpoint (h : p.Armed) (a : Address) :
    (p.addBreakpoint { address := some a } .stop).2.Armed := by
  refine ⟨h.of_eq rfl rfl rfl, fun e he => ?_⟩
  obtain he | he := List.mem_append.mp he
  · exact h.stopsOnly e he
  · rw [List.mem_singleton.mp he]
    exact ⟨rfl, a, rfl⟩

/-- The processor with the display of a machine. -/
def withDisplay (p : Processor) (screen : Screen) : Processor :=
  p.onBoard fun b => (b.addDisplay (.on screen)).2.install (b.addDisplay (.on screen)).1

theorem Armed.wired (h : p.Armed) : p.board.Wired none := by
  refine ⟨h.hooks, ?_⟩
  rw [h.displays]
  rfl

theorem Armed.withDisplay_wired (h : p.Armed) (screen : Screen) :
    (p.withDisplay screen).board.Wired (some (.on screen)) := by
  have number : (p.board.addDisplay (.on screen)).1 = Machine.display := by
    show p.board.displays.size = 0
    rw [h.displays]
    rfl
  refine ⟨?_, ?_⟩
  · show p.board.hooks.entries ++ [(Control.wsync, .waitSync (p.board.addDisplay (.on screen)).1)] = _
    rw [h.hooks, number]
    rfl
  · show (p.board.displays.push (some (.on screen))).toList = _
    rw [h.displays]
    rfl

end Processor

namespace Loading

open Processor

theorem leads_note (level : Level) (body : String) : Leads Bare Bare (note level body) :=
  leads_modify fun _ h => ⟨h.note .., h.breakpoints⟩

theorem leads_store (file : String) (a : Address) (data : List Byte) :
    Leads Bare Bare (store file a data) := by
  intro p _ q hp h
  obtain ⟨-, rfl⟩ := store_ok_iff.mp h
  obtain ⟨m, stored, -⟩ := Board.storeAll_bare hp.hooks a data
  rw [stored]
  exact ⟨hp.of_eq rfl rfl rfl, hp.breakpoints⟩

end Loading

namespace Source

open Loading Processor

theorem leads_load (d : Disk) (run : Option Address) (s : Source) : Leads Bare Bare (s.load d run) := by
  unfold load
  split
  · unfold loadAt
    exact ((leads_lift _).bind fun a => (leads_lift _).bind fun data =>
      (leads_store s.file a data).bind fun _ => leads_note _ _).bind fun _ => leads_pure run
  · unfold loadBinary
    refine ((leads_lift _).bind fun data => (leads_lift _).bind fun binary =>
      (leads_forM (fun segment => ?_) _).bind fun _ => ?_).bind fun found => leads_pure _
    · exact (leads_store s.file segment.address segment.data).bind fun _ => leads_note _ _
    · have told : Leads Bare Bare (do
          Loading.note .info
            ("loaded " ++ toString binary.segments.length ++ " segment(s) from '" ++ s.file ++ "'")
          return binary.runAddress) := (leads_note _ _).bind fun _ => leads_pure _
      dsimp only
      split
      · exact (leads_note _ _).bind fun _ => told
      · exact told

end Source

namespace Machine

open Loading Processor

variable {I : Processor → Prop}

/-- A machine before its first run, whose display has drawn no frame. -/
structure Fresh (m : Machine) : Prop extends m.Built where
  frames : framesDrawn m.processor.board = 0

theorem leads_addBreakpoints (h : ∀ p a, I p → I (p.addBreakpoint { address := some a } .stop).2)
    (addresses : List Address) : Leads I I (forIn addresses PUnit.unit fun a _ => do
      modify fun p => (p.addBreakpoint { address := some a } .stop).2
      pure (ForInStep.yield PUnit.unit)) :=
  leads_forIn (fun a _ => (leads_modify fun p hp => h p a hp).bind fun _ => leads_pure _) addresses _

theorem leads_display (screen : Except String Screen) (frames : Option Nat) :
    Leads Armed (fun p => Fresh ⟨p, frames, 0⟩) (if frames.isSome = true then do
      let screen ← lift (screen.mapError .screen)
      modify (·.withDisplay screen)
      else pure ()) := by
  split
  · rename_i shown
    refine (leads_lift _).bind fun screen => leads_modify fun p hp => ?_
    have wired := hp.withDisplay_wired screen
    refine ⟨⟨⟨⟨_, wired, shown.symm⟩, hp.stopsOnly⟩, hp.stop, wired.request_eq⟩, ?_⟩
    unfold framesDrawn
    rw [wired.display_eq]
    rfl
  · rename_i bare
    intro p _ q hp h
    cases h
    have wired := hp.wired
    refine ⟨⟨⟨⟨none, wired, ?_⟩, hp.stopsOnly⟩, hp.stop, wired.request_eq⟩, ?_⟩
    · exact (Bool.eq_false_iff.mpr bare).symm
    · unfold framesDrawn
      rw [wired.display_eq]
      rfl

section Prepare

variable {J : Processor → Prop} {d : Disk} {screen : Except String Screen} {f : MachineFile}

/-- The last part of loading: the breakpoints and the display. -/
def equip (screen : Except String Screen) (f : MachineFile) : Loading Unit := do
  for a in ← Loading.lift (f.breakpointAddresses.mapError .address) do
    modify fun p => (p.addBreakpoint ⟨some a, none⟩ .stop).2
  if f.frames.isSome then
    let screen ← Loading.lift (screen.mapError .screen)
    modify (·.withDisplay screen)

theorem prepare_eq : prepare d screen f = (do
    let run ← (f.sources.getD []).foldlM (Source.load d) none
    modify Processor.reset
    let start ← Loading.lift (f.startAddress.mapError .address)
    modify fun p => (start.or run).elim p p.setPc
    let p ← get
    Loading.note .info (p.name ++ ": starting at " ++ p.pc.text)
    equip screen f) := by
  unfold prepare
  refine bind_congr fun run => bind_congr fun _ => bind_congr fun start => ?_
  rw [Option.orElse_eq_orElse, Option.orElse_eq_or]
  cases start.or run <;> rfl

theorem leads_prepare_of (rest : Leads Bare J (equip screen f)) : Leads Bare J (prepare d screen f) := by
  rw [prepare_eq]
  refine (leads_foldlM (Source.leads_load d) _ _).bind fun run => ?_
  refine (leads_modify fun p hp => hp.reset).bind fun _ => (leads_lift _).bind fun start => ?_
  refine (leads_modify fun p hp => ?_).bind fun _ => leads_get.bind fun p => (leads_note _ _).bind fun _ => rest
  cases start.or run with
  | none => exact hp
  | some a => exact hp.setPc a

theorem leads_prepare : Leads Bare (fun p => Fresh ⟨p, f.frames, 0⟩) (prepare d screen f) := by
  refine leads_prepare_of ((leads_lift _).bind fun addresses => ?_)
  refine Leads.bind (fun p a q hp h => ?_) fun _ => leads_display screen f.frames
  exact leads_addBreakpoints (fun _ a hp => hp.addBreakpoint a) addresses p a q
    ⟨hp.toUnplugged, hp.stopsOnly⟩ h

theorem leads_prepare_bare (dark : f.frames = none) (free : f.breakpoints.getD [] = []) :
    Leads Bare Bare (prepare d screen f) := by
  refine leads_prepare_of fun p _ q hp h => ?_
  obtain ⟨addresses, _, breakpoints, h⟩ := bind_ok_iff.mp h
  obtain ⟨found, rfl⟩ := lift_ok_iff.mp breakpoints
  rw [MachineFile.breakpointAddresses, free] at found
  cases found
  rw [dark] at h
  cases h
  exact hp

end Prepare

/-- The processor before anything is loaded. -/
def blank (verbosity : Option Level) (f : MachineFile) : Processor where
  name := f.name.getD defaultName
  board := { verbosity := verbosity }

theorem bare_blank (verbosity : Option Level) (f : MachineFile) : (blank verbosity f).Bare :=
  ⟨⟨rfl, rfl, rfl⟩, rfl⟩

section OfFile

variable {d : Disk} {screen : Except String Screen} {verbosity : Option Level} {f : MachineFile} {m : Machine}

theorem ofFile_ok_iff : ofFile d screen verbosity f = .ok m ↔
    ∃ q, prepare d screen f (blank verbosity f) = .ok ⟨⟩ q ∧
      m = ⟨q, f.frames, f.maxSteps.getD defaultMaxSteps⟩ := by
  unfold ofFile blank
  dsimp only
  split
  · rename_i p prepared
    rw [Except.ok.injEq]
    constructor
    · rintro rfl
      exact ⟨p, prepared, rfl⟩
    · rintro ⟨q, found, rfl⟩
      cases prepared.symm.trans found
      rfl
  · rename_i failed
    constructor
    · intro h
      cases h
    · rintro ⟨q, found, -⟩
      cases failed.symm.trans found

/-- **The machine of a machine file is fresh.** -/
theorem fresh_ofFile (h : ofFile d screen verbosity f = .ok m) : m.Fresh := by
  obtain ⟨q, prepared, rfl⟩ := ofFile_ok_iff.mp h
  have fresh := leads_prepare _ _ q (bare_blank verbosity f) prepared
  exact ⟨⟨fresh.ready, fresh.stop, fresh.request⟩, fresh.frames⟩

/-- **The machine of a machine file with neither breakpoints nor a display** has nothing plugged in. -/
theorem bare_ofFile (h : ofFile d screen verbosity f = .ok m) (dark : f.frames = none)
    (free : f.breakpoints.getD [] = []) : m.frames = none ∧ m.processor.Bare := by
  obtain ⟨q, prepared, rfl⟩ := ofFile_ok_iff.mp h
  exact ⟨dark, leads_prepare_bare dark free _ _ q (bare_blank verbosity f) prepared⟩

theorem built_ofFile (h : ofFile d screen verbosity f = .ok m) : m.Built :=
  (fresh_ofFile h).toBuilt

end OfFile

end Machine

end Atari
