import Atari.Proofs.Machine.Built
import Atari.Proofs.Segments
import Mathlib.Data.List.Forall2

/-!
# The first state of a machine

Before its first step, the memory of a machine holds the bytes of its files. Where files overlap, the later one
has stored over the earlier one.

* `Segment.lastByte?`: the byte that the last of several segments has for an address;
* `Source.Holds`, `Source.Fails`: what a source holds, and why it cannot be loaded; `Source.fails_iff`: it is
  one or the other;
* `Processor.Loaded`: a processor behind the loading of some segments; `Source.loaded_load`,
  `Source.succeeds_load`: what comes of loading a source, and when something does;
* **`Machine.initial_ofFile`**: the first state of the machine of a machine file.
-/

namespace Atari

/-! ## The last of several segments -/

namespace Segment

/-- The byte that the last of some segments has which covers an address. -/
def lastByte? (parts : List Segment) (a : Address) : Option Byte := parts.reverse.findSome? (·.byte? a)

theorem lastByte?_append (xs ys : List Segment) (a : Address) :
    lastByte? (xs ++ ys) a = (lastByte? ys a).or (lastByte? xs a) := by
  rw [lastByte?, List.reverse_append, List.findSome?_append]
  rfl

end Segment

/-! ## Sources -/

/-- What a source stores: its segments, and where the program starts if it tells. -/
structure Image where
  parts : List Segment
  run : Option Address

namespace Source

variable (d : Disk)

/-- What a source on a disk holds: bytes for an address, or the segments of an Atari binary. -/
inductive Holds : Source → Image → Prop
  | raw {file text : String} {a : Address} {data : List Byte} : Address.parse text = .ok a →
    d.read file = .ok data → a.toNat + data.length ≤ Memory.size →
    Holds ⟨file, some text⟩ ⟨[⟨a, data⟩], none⟩
  | binary {file : String} {data : List Byte} {b : Binary} : d.read file = .ok data →
    Binary.parse data = .ok b → Holds ⟨file, none⟩ ⟨b.segments, b.runAddress⟩

/-- Why a source cannot be loaded: its address is none, its file cannot be read, its bytes pass the end of
memory, or they are no Atari binary. -/
inductive Fails : Source → Prop
  | address {file text : String} {e : AddressTextError} : Address.parse text = .error e →
    Fails ⟨file, some text⟩
  | unreadable {s : Source} {e : FileError} : d.read s.file = .error e → Fails s
  | overflow {file text : String} {a : Address} {data : List Byte} : Address.parse text = .ok a →
    d.read file = .ok data → Memory.size < a.toNat + data.length → Fails ⟨file, some text⟩
  | format {file : String} {data : List Byte} {e : BinaryError} : d.read file = .ok data →
    Binary.parse data = .error e → Fails ⟨file, none⟩

variable {d} {s : Source}

theorem Holds.unique {i j : Image} (hi : s.Holds d i) (hj : s.Holds d j) : i = j := by
  cases hi with
  | raw parsed read =>
    cases hj with
    | raw parsed' read' =>
      rw [parsed] at parsed'
      rw [read] at read'
      cases parsed'
      cases read'
      rfl
  | binary read parsed =>
    cases hj with
    | binary read' parsed' =>
      rw [read] at read'
      cases read'
      rw [parsed] at parsed'
      cases parsed'
      rfl

theorem holds_unique {sources : List Source} {images images' : List Image}
    (h : List.Forall₂ (Holds d) sources images) (k : List.Forall₂ (Holds d) sources images') :
    images = images' := by
  induction h generalizing images' with
  | nil =>
    cases k
    rfl
  | cons holds _ ih =>
    cases k with
    | cons holds' others =>
      rw [holds.unique holds', ih others]

theorem exists_holds {sources : List Source} {images : List Image} (h : List.Forall₂ (Holds d) sources images)
    (hs : s ∈ sources) : ∃ image, s.Holds d image := by
  induction h with
  | nil => cases hs
  | cons holds _ ih =>
    cases hs with
    | head => exact ⟨_, holds⟩
    | tail _ hs => exact ih hs

theorem fails_iff : s.Fails d ↔ ¬∃ image, s.Holds d image := by
  constructor
  · rintro fails ⟨image, holds⟩
    cases holds with
    | raw parsed read fits =>
      cases fails with
      | address failed => simp [parsed] at failed
      | unreadable failed => simp [read] at failed
      | overflow parsed' read' more =>
        rw [parsed] at parsed'
        rw [read] at read'
        cases parsed'
        cases read'
        omega
    | binary read parsed =>
      cases fails with
      | unreadable failed => simp [read] at failed
      | format read' failed =>
        rw [read] at read'
        cases read'
        simp [parsed] at failed
  · intro empty
    obtain ⟨file, address⟩ := s
    cases read : d.read file with
    | error e => exact .unreadable read
    | ok data =>
      cases address with
      | some text =>
        cases parsed : Address.parse text with
        | error e => exact .address parsed
        | ok a =>
          by_cases fits : a.toNat + data.length ≤ Memory.size
          · exact absurd ⟨_, .raw parsed read fits⟩ empty
          · exact .overflow parsed read (Nat.not_le.mp fits)
      | none =>
        cases parsed : Binary.parse data with
        | error e => exact .format read parsed
        | ok b => exact absurd ⟨_, .binary read parsed⟩ empty

end Source

/-! ## Loading -/

namespace Processor

/-- A processor behind the loading of some segments: memory holds their bytes, and the log has grown. -/
structure Loaded (p : Processor) (parts : List Segment) (q : Processor) : Prop where
  same : ∃ m log, q = { p with board := { p.board with memory := m, log := log } }
  memory : ∀ a, q.memory.peek a = (Segment.lastByte? parts a).getD (p.memory.peek a)

variable {p q r : Processor} {xs ys : List Segment}

theorem Loaded.refl (p : Processor) : p.Loaded [] p := ⟨⟨p.memory, p.board.log, rfl⟩, fun _ => rfl⟩

theorem Loaded.trans (h : p.Loaded xs q) (k : q.Loaded ys r) : p.Loaded (xs ++ ys) r where
  same := by
    obtain ⟨m, log, rfl⟩ := h.same
    obtain ⟨m', log', rfl⟩ := k.same
    exact ⟨m', log', rfl⟩
  memory a := by
    rw [k.memory, h.memory, Segment.lastByte?_append]
    cases Segment.lastByte? ys a <;> rfl

theorem Loaded.note (h : p.Loaded xs q) (level : Level) (body : Unit → String) :
    p.Loaded xs (q.onBoard (·.note level body)) where
  same := by
    obtain ⟨m, log, rfl⟩ := h.same
    obtain ⟨log', noted⟩ := Board.note_eq { p.board with memory := m, log := log } level body
    exact ⟨m, log', congrArg (fun b => { p with board := b }) noted⟩
  memory a := by
    show (q.board.note level body).memory.peek a = _
    rw [Board.note_memory]
    exact h.memory a

theorem Loaded.bare (h : p.Loaded xs q) (bare : p.Bare) : q.Bare := by
  obtain ⟨m, log, rfl⟩ := h.same
  exact ⟨⟨bare.hooks, bare.displays, bare.stop⟩, bare.breakpoints⟩

end Processor

namespace Loading

variable {α β : Type} {p q r : Processor} {a : α}

theorem loaded_store {file : String} {a : Address} {data : List Byte} (bare : p.Bare)
    (h : store file a data p = .ok () q) : p.Loaded [⟨a, data⟩] q := by
  obtain ⟨fits, rfl⟩ := store_ok_iff.mp h
  obtain ⟨m, stored, bytes⟩ := Board.storeAll_bare bare.hooks a data
  rw [stored]
  refine ⟨⟨m, p.board.log, rfl⟩, fun c => ?_⟩
  have last : Segment.lastByte? [⟨a, data⟩] c = (⟨a, data⟩ : Segment).byte? c := by simp [Segment.lastByte?]
  rw [last]
  exact bytes fits c

/-- A part of loading that succeeds, whatever the processor is. -/
def Succeeds (x : Loading α) : Prop := ∀ p, ∃ a q, x p = .ok a q

theorem Succeeds.bind {x : Loading α} {f : α → Loading β} (hx : Succeeds x) (hf : ∀ a, Succeeds (f a)) :
    Succeeds (x >>= f) := by
  intro p
  obtain ⟨a, q, first⟩ := hx p
  obtain ⟨b, r, rest⟩ := hf a q
  exact ⟨b, r, bind_ok_iff.mpr ⟨a, q, first, rest⟩⟩

theorem succeeds_pure (a : α) : Succeeds (pure a) := fun p => ⟨a, p, rfl⟩

theorem succeeds_modify (change : Processor → Processor) : Succeeds (modify change) := fun p =>
  ⟨⟨⟩, change p, rfl⟩

theorem succeeds_note (level : Level) (body : String) : Succeeds (note level body) := succeeds_modify _

theorem succeeds_lift {ε : Type} {x : Except ε α} (wrap : ε → LoadError) {f : α → Loading β} (h : x = .ok a)
    (hf : Succeeds (f a)) : Succeeds (lift (x.mapError wrap) >>= f) := by
  rw [h]
  exact hf

theorem succeeds_forIn {x : α → β → Loading (ForInStep β)} (hx : ∀ a b, Succeeds (x a b)) (l : List α) (b : β) :
    Succeeds (forIn l b x) := by
  induction l generalizing b with
  | nil => exact succeeds_pure b
  | cons a l ih =>
    rw [List.forIn_cons]
    refine (hx a b).bind fun next => ?_
    cases next with
    | done b => exact succeeds_pure b
    | yield b => exact ih b

theorem succeeds_foldlM {x : β → α → Loading β} {l : List α} (hx : ∀ b, ∀ a ∈ l, Succeeds (x b a)) (b : β) :
    Succeeds (l.foldlM x b) := by
  induction l generalizing b with
  | nil => exact succeeds_pure b
  | cons a l ih =>
    exact (hx b a (.head _)).bind fun b => ih (fun b a ha => hx b a (.tail _ ha)) b

end Loading

namespace Source

open Loading

variable {d : Disk} {s : Source} {image : Image} {p q : Processor} {run run' : Option Address}

theorem loaded_segments {file : String} {parts : List Segment} (bare : p.Bare)
    (h : parts.forM (loadSegment file) p = .ok ⟨⟩ q) : p.Loaded parts q := by
  induction parts generalizing p with
  | nil =>
    cases h
    exact .refl _
  | cons part parts ih =>
    have h : (loadSegment file part >>= fun _ => parts.forM (loadSegment file)) p = .ok ⟨⟩ q := h
    obtain ⟨_, r, first, rest⟩ := bind_ok_iff.mp h
    obtain ⟨_, stored, store, noted⟩ := bind_ok_iff.mp first
    cases noted
    have loaded (body : Unit → String) := (loaded_store bare store).note .debug body
    exact (loaded _).trans (ih ((loaded _).bare bare) rest)

/-- What comes of loading a source: it holds something, which is in memory then. -/
theorem loaded_load (bare : p.Bare) (h : s.load d run p = .ok run' q) :
    ∃ image, s.Holds d image ∧ run' = image.run.or run ∧ p.Loaded image.parts q := by
  obtain ⟨file, address⟩ := s
  cases address with
  | some text =>
    obtain ⟨_, r, loaded, rest⟩ := bind_ok_iff.mp (show (loadAt d file text >>= fun _ => pure run) p = _ from h)
    cases rest
    unfold loadAt at loaded
    obtain ⟨a, _, address, loaded⟩ := bind_ok_iff.mp loaded
    obtain ⟨parsed, rfl⟩ := lift_ok_iff.mp address
    obtain ⟨data, _, content, loaded⟩ := bind_ok_iff.mp loaded
    obtain ⟨read, rfl⟩ := lift_ok_iff.mp content
    obtain ⟨_, stored, store, noted⟩ := bind_ok_iff.mp loaded
    cases noted
    exact ⟨_, .raw parsed read (store_ok_iff.mp store).1, rfl, (loaded_store bare store).note .info _⟩
  | none =>
    obtain ⟨found, r, loaded, rest⟩ :=
      bind_ok_iff.mp (show (loadBinary d file >>= fun found => pure (found <|> run)) p = _ from h)
    cases rest
    unfold loadBinary at loaded
    obtain ⟨data, _, content, loaded⟩ := bind_ok_iff.mp loaded
    obtain ⟨read, rfl⟩ := lift_ok_iff.mp content
    obtain ⟨b, _, binary, loaded⟩ := bind_ok_iff.mp loaded
    obtain ⟨parsed, rfl⟩ := lift_ok_iff.mp binary
    obtain ⟨_, stored, segments, loaded⟩ := bind_ok_iff.mp loaded
    have parts : p.Loaded b.segments stored := loaded_segments bare segments
    have told {r : Processor} (parts : p.Loaded b.segments r) (h : (do
        Loading.note .info ("loaded " ++ toString b.segments.length ++ " segment(s) from '" ++ file ++ "'")
        return b.runAddress : Loading (Option Address)) r = .ok found q) :
        found = b.runAddress ∧ p.Loaded b.segments q := by
      obtain ⟨_, _, noted, rest⟩ := bind_ok_iff.mp h
      cases noted
      cases rest
      exact ⟨rfl, parts.note .info _⟩
    refine ⟨_, .binary read parsed, ?_⟩
    rw [Option.orElse_eq_orElse, Option.orElse_eq_or]
    cases init : b.initAddress with
    | some a =>
      rw [init] at loaded
      obtain ⟨_, _, noted, loaded⟩ := bind_ok_iff.mp loaded
      cases noted
      obtain ⟨rfl, parts⟩ := told (parts.note .warn _) loaded
      exact ⟨rfl, parts⟩
    | none =>
      rw [init] at loaded
      obtain ⟨rfl, parts⟩ := told parts loaded
      exact ⟨rfl, parts⟩

theorem succeeds_load (h : s.Holds d image) (run : Option Address) : Succeeds (s.load d run) := by
  cases h with
  | @raw file text a data parsed read fits =>
    have stored : Succeeds (Loading.store file a data) := fun p => ⟨(), _, store_ok_iff.mpr ⟨fits, rfl⟩⟩
    have loaded : Succeeds (loadAt d file text) := succeeds_lift _ parsed <| succeeds_lift _ read <|
      stored.bind fun _ => succeeds_note _ _
    exact loaded.bind fun _ => succeeds_pure _
  | @binary file data b read parsed =>
    have segments : Succeeds (b.segments.forM (loadSegment file)) := fun p =>
      ⟨⟨⟩, Binary.loadSegments_ok file (Binary.inside_of_parse parsed) p⟩
    have loaded : Succeeds (loadBinary d file) := by
      refine succeeds_lift _ read <| succeeds_lift _ parsed <| segments.bind fun _ => ?_
      dsimp only
      split
      · exact (succeeds_note _ _).bind fun _ => (succeeds_note _ _).bind fun _ => succeeds_pure _
      · exact (succeeds_note _ _).bind fun _ => succeeds_pure _
    exact loaded.bind fun _ => succeeds_pure _

theorem loaded_foldlM {sources : List Source} (bare : p.Bare)
    (h : sources.foldlM (Source.load d) run p = .ok run' q) :
    ∃ images, List.Forall₂ (Holds d) sources images ∧ run' = (images.reverse.findSome? (·.run)).or run ∧
      p.Loaded (images.flatMap (·.parts)) q := by
  induction sources generalizing p run with
  | nil =>
    cases h
    exact ⟨[], .nil, rfl, .refl _⟩
  | cons s sources ih =>
    rw [List.foldlM_cons] at h
    obtain ⟨found, r, first, rest⟩ := bind_ok_iff.mp h
    obtain ⟨image, holds, rfl, loaded⟩ := loaded_load bare first
    obtain ⟨images, others, rfl, loaded'⟩ := ih (loaded.bare bare) rest
    refine ⟨image :: images, .cons holds others, ?_, loaded.trans loaded'⟩
    rw [List.reverse_cons, List.findSome?_append, Option.or_assoc]
    simp

end Source

namespace Processor

variable {p : Processor}

theorem reset_registers : p.reset.registers = .initial (p.memory.pointer resetVector false) := by
  rw [reset, setPc_registers]
  rfl

theorem reset_memory : p.reset.memory = p.memory := by
  have cleared := ((((Follows.refl p).withRegisters (.initial (p.memory.pointer resetVector false))).setRegister
    .a 0).setRegister .x 0).setRegister .y 0
  rw [reset, setPc_memory]
  exact cleared.board.sameBus.memory

end Processor

namespace Machine

open Loading Processor

variable {d : Disk} {screen : Except String Screen} {f : MachineFile} {p q : Processor}

/-- What can be installed at the end: addresses to stop at, and a screen if there is a display. -/
structure Equips (screen : Except String Screen) (f : MachineFile) : Prop where
  breakpoints : ∃ addresses, f.breakpointAddresses = .ok addresses
  display : f.frames.isSome → ∃ s, screen = .ok s

theorem equip_ok (h : equip screen f p = .ok ⟨⟩ q) :
    Equips screen f ∧ q.registers = p.registers ∧ q.memory = p.memory := by
  unfold equip at h
  obtain ⟨addresses, _, breakpoints, h⟩ := bind_ok_iff.mp h
  obtain ⟨found, rfl⟩ := lift_ok_iff.mp breakpoints
  obtain ⟨_, r, armed, h⟩ := bind_ok_iff.mp h
  have same : r.registers = p.registers ∧ r.memory = p.memory :=
    leads_addBreakpoints (I := fun r => r.registers = p.registers ∧ r.memory = p.memory) (fun _ _ hr => hr)
      addresses p _ r ⟨rfl, rfl⟩ armed
  split at h
  · obtain ⟨s, _, display, h⟩ := bind_ok_iff.mp h
    obtain ⟨shown, rfl⟩ := lift_ok_iff.mp display
    cases h
    exact ⟨⟨⟨addresses, found⟩, fun _ => ⟨s, shown⟩⟩, same⟩
  · rename_i dark
    cases h
    exact ⟨⟨⟨addresses, found⟩, fun display => absurd display dark⟩, same⟩

theorem Equips.succeeds (h : Equips screen f) : Succeeds (equip screen f) := by
  obtain ⟨⟨addresses, found⟩, display⟩ := h
  refine succeeds_lift _ found <| (succeeds_forIn (fun a _ => ?_) _ _).bind fun _ => ?_
  · exact (succeeds_modify _).bind fun _ => succeeds_pure _
  · split
    · rename_i shown
      obtain ⟨s, shown⟩ := display shown
      exact succeeds_lift _ shown (succeeds_modify _)
    · exact succeeds_pure _

/-- The address to start at: the one that is told, or else the one that the vector in memory leads to. -/
def entry (start : Option Address) (m : Memory) : Address :=
  start.getD (.ofBytes (m.peek 0xFFFC) (m.peek 0xFFFD))

theorem started (start : Option Address) (p : Processor) :
    (start.elim p.reset p.reset.setPc).registers = .initial (entry start p.memory) ∧
      (start.elim p.reset p.reset.setPc).memory = p.memory := by
  cases start with
  | none => exact ⟨p.reset_registers, p.reset_memory⟩
  | some a =>
    refine ⟨?_, (setPc_memory _ a).trans p.reset_memory⟩
    rw [Option.elim_some, setPc_registers, reset_registers]
    rfl

theorem prepare_ok (bare : p.Bare) (h : prepare d screen f p = .ok ⟨⟩ q) :
    ∃ images start, List.Forall₂ (Source.Holds d) (f.sources.getD []) images ∧ f.startAddress = .ok start ∧
      Equips screen f ∧
      (∀ a, q.memory.peek a = (Segment.lastByte? (images.flatMap (·.parts)) a).getD (p.memory.peek a)) ∧
      q.registers = .initial (entry (start.or (images.reverse.findSome? (·.run))) q.memory) := by
  rw [prepare_eq] at h
  obtain ⟨run, r, loading, h⟩ := bind_ok_iff.mp h
  obtain ⟨images, hold, told, loaded⟩ := Source.loaded_foldlM bare loading
  obtain ⟨_, _, reset, h⟩ := bind_ok_iff.mp h
  cases reset
  obtain ⟨start, _, address, h⟩ := bind_ok_iff.mp h
  obtain ⟨parsed, rfl⟩ := lift_ok_iff.mp address
  obtain ⟨_, _, moved, h⟩ := bind_ok_iff.mp h
  cases moved
  obtain ⟨_, _, got, h⟩ := bind_ok_iff.mp h
  cases got
  obtain ⟨_, _, noted, h⟩ := bind_ok_iff.mp h
  cases noted
  obtain ⟨equips, registers, memory⟩ := equip_ok h
  obtain ⟨initial, kept⟩ := started (start.or run) r
  have memory : q.memory = r.memory := (memory.trans (Board.note_memory ..)).trans kept
  rw [Option.or_none] at told
  refine ⟨images, start, hold, parsed, equips, fun a => memory ▸ loaded.memory a, ?_⟩
  rw [memory, ← told]
  exact registers.trans initial

theorem succeeds_prepare (hold : ∀ s ∈ f.sources.getD [], ∃ image, s.Holds d image) {start : Option Address}
    (parsed : f.startAddress = .ok start) (equips : Equips screen f) : Succeeds (prepare d screen f) := by
  rw [prepare_eq]
  refine (succeeds_foldlM (fun run s hs => ?_) none).bind fun run => (succeeds_modify _).bind fun _ => ?_
  · obtain ⟨image, holds⟩ := hold s hs
    exact Source.succeeds_load holds run
  · exact succeeds_lift _ parsed <| (succeeds_modify _).bind fun _ =>
      Succeeds.bind (fun p => ⟨p, p, rfl⟩) fun p => (succeeds_note _ _).bind fun _ => equips.succeeds

/-- **The first state of a machine.** There is a machine unless a source cannot be loaded, an address is none, or
there is no screen for a display. Each byte of its memory is the one of the last part of the files that covers
the address, and zero if none does. The program starts at the address that the machine file tells, or else at
the one that the last Atari binary tells which has one, or else where the vector in memory leads. -/
theorem initial_ofFile (d : Disk) (screen : Except String Screen) (verbosity : Option Level) (f : MachineFile) :
    ((∃ m, ofFile d screen verbosity f = .ok m) ↔
      (∀ s ∈ f.sources.getD [], ¬s.Fails d) ∧ (∃ start, f.startAddress = .ok start) ∧
        (∃ addresses, f.breakpointAddresses = .ok addresses) ∧
        (f.frames.isSome → ∃ s, screen = .ok s)) ∧
    ∀ m, ofFile d screen verbosity f = .ok m →
      ∃ images start, List.Forall₂ (Source.Holds d) (f.sources.getD []) images ∧ f.startAddress = .ok start ∧
        (∀ a, m.processor.memory.peek a =
          (Segment.lastByte? (images.flatMap (·.parts)) a).getD 0) ∧
        m.processor.registers = {
          a := 0
          x := 0
          y := 0
          sp := 0xFF
          pc := (start.or (images.reverse.findSome? (·.run))).getD
            (.ofBytes (m.processor.memory.peek 0xFFFC) (m.processor.memory.peek 0xFFFD))
          status := Status.ofByte 0x34 } ∧
        m.processor.registers.status.toByte = 0x34 := by
  have bare := bare_blank verbosity f
  refine ⟨⟨?_, ?_⟩, fun m h => ?_⟩
  · rintro ⟨m, h⟩
    obtain ⟨q, prepared, -⟩ := ofFile_ok_iff.mp h
    obtain ⟨images, start, hold, parsed, equips, -⟩ := prepare_ok bare prepared
    refine ⟨fun s hs fails => ?_, ⟨start, parsed⟩, equips.breakpoints, equips.display⟩
    exact Source.fails_iff.mp fails (Source.exists_holds hold hs)
  · rintro ⟨loads, ⟨start, parsed⟩, breakpoints, display⟩
    have hold : ∀ s ∈ f.sources.getD [], ∃ image, s.Holds d image := fun s hs =>
      not_not.mp (mt Source.fails_iff.mpr (loads s hs))
    obtain ⟨⟨⟩, q, prepared⟩ := succeeds_prepare hold parsed ⟨breakpoints, display⟩ (blank verbosity f)
    exact ⟨_, ofFile_ok_iff.mpr ⟨q, prepared, rfl⟩⟩
  · obtain ⟨q, prepared, rfl⟩ := ofFile_ok_iff.mp h
    obtain ⟨images, start, hold, parsed, -, memory, registers⟩ := prepare_ok bare prepared
    refine ⟨images, start, hold, parsed, fun a => ?_, registers, ?_⟩
    · rw [memory a]
      exact congrArg _ (Memory.peek_zero a)
    · rw [registers]
      exact Status.toByte_ofByte _

/-- The bytes of an Atari binary that starts behind its first byte. -/
def game : List Byte :=
  [0xFF, 0xFF, 0x00, 0x06, 0x03, 0x06, 1, 2, 3, 4, 0xE0, 0x02, 0xE1, 0x02, 0x01, 0x06]

/-- An Atari binary, and two bytes. -/
def shelf : Disk where
  size := 2
  content i := .ok ([game, [9, 8]][i])
  find p :=
    match p with
    | "game" => .ok 0
    | "patch" => .ok 1
    | _ => .error .notFound

/-- The two bytes are stored over the last ones of the binary. -/
def patched : MachineFile := { sources := some [⟨"game", none⟩, ⟨"patch", some "$0602"⟩] }

theorem shelf_holds : List.Forall₂ (Source.Holds shelf) (patched.sources.getD [])
    [⟨[⟨0x0600, [1, 2, 3, 4]⟩, ⟨0x02E0, [0x01, 0x06]⟩], some 0x0601⟩, ⟨[⟨0x0602, [9, 8]⟩], none⟩] := by
  have binary : Binary.parse game = .ok ⟨[⟨0x0600, [1, 2, 3, 4]⟩, ⟨0x02E0, [0x01, 0x06]⟩]⟩ := by decide +kernel
  have read : shelf.read "game" = .ok game := by decide +kernel
  have patch : shelf.read "patch" = .ok [9, 8] := by decide +kernel
  exact .cons (.binary read binary) (.cons (.raw (a := 0x0602) rfl patch (by decide)) .nil)

/-- Each byte is there that was not stored over, and the binary tells the start. -/
theorem initial_ofFile_patched : ∃ m, ofFile shelf (.error "no screen") none patched = .ok m ∧
    m.processor.memory.bytesFrom 0x05FF 6 = [0, 1, 2, 9, 8, 0] ∧ m.processor.pc = 0x0601 := by
  obtain ⟨made, state⟩ := initial_ofFile shelf (.error "no screen") none patched
  obtain ⟨m, h⟩ := made.mpr ⟨fun s hs fails => Source.fails_iff.mp fails (Source.exists_holds shelf_holds hs),
    ⟨none, rfl⟩, ⟨[], rfl⟩, fun shown => nomatch shown⟩
  obtain ⟨images, start, hold, parsed, memory, registers, -⟩ := state m h
  obtain rfl := Source.holds_unique hold shelf_holds
  cases parsed
  refine ⟨m, h, ?_, ?_⟩
  · simp only [Memory.bytesFrom, memory]
    decide
  · rw [pc, registers]
    rfl

end Machine

end Atari
