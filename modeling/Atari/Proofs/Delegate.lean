import Atari.Delegate
import Mathlib.Data.List.Induction
import Mathlib.Data.List.Nodup

/-!
# Registrations

A delegate holds what was registered and not taken back since, in the order of registration. The handles count the
registrations, those that were taken back among them, so none is given out twice.

* `Delegate.Request`, `Delegate.after`, `Delegate.handles`: registrations that are made and taken back, and the handles
  that they are answered with;
* `Delegate.Live`: a registration that was not taken back since;
* `Delegate.Tracks`: what is known of a delegate behind some requests; `Delegate.Tracks.perform`: one more of them;
* **`Delegate.registrations_told`**: what is held, what is taken back, and what a call reaches.
-/

namespace Atari

namespace Delegate

variable {π ω : Type}

/-! ## Requests -/

/-- A change of what is registered. -/
inductive Request (π ω : Type)
  | add (parameter : π) (watcher : ω)
  | remove (h : Handle)
  | clear

def Request.adds : Request π ω → Bool
  | add _ _ => true
  | remove _ | clear => false

/-- The delegate behind a request. -/
def perform (d : Delegate π ω) : Request π ω → Delegate π ω
  | .add parameter watcher => (d.add parameter watcher).2
  | .remove h => (d.remove h).2
  | .clear => d.clear

def after (d : Delegate π ω) (rs : List (Request π ω)) : Delegate π ω := rs.foldl perform d

/-- The handles that registrations are answered with, in order. -/
def handles (d : Delegate π ω) : List (Request π ω) → List Handle
  | [] => []
  | .add parameter watcher :: rs =>
    (d.add parameter watcher).1 :: (d.perform (.add parameter watcher)).handles rs
  | r :: rs => (d.perform r).handles rs

/-- A registration that one of the requests made, and that no later one takes back. Its handle is the number of those
made before it. -/
def Live (rs : List (Request π ω)) (e : Entry π ω) : Prop :=
  ∃ before since, rs = before ++ .add e.parameter e.watcher :: since ∧
    e.handle = ⟨before.countP (·.adds)⟩ ∧ .remove e.handle ∉ since ∧ .clear ∉ since

variable {d : Delegate π ω} {rs : List (Request π ω)} {e : Entry π ω}

theorem handles_eq (d : Delegate π ω) (rs : List (Request π ω)) :
    d.handles rs = (List.range' d.next (rs.countP (·.adds))).map .mk := by
  induction rs generalizing d with
  | nil => simp [handles]
  | cons r rs ih =>
    cases r with
    | add parameter watcher => simp [handles, ih, perform, add, Request.adds, List.range'_succ]
    | remove h => simp [handles, ih, perform, remove, Request.adds]
    | clear => simp [handles, ih, perform, clear, Request.adds]

theorem nodup_handles (d : Delegate π ω) (rs : List (Request π ω)) : (d.handles rs).Nodup := by
  rw [handles_eq]
  exact List.Nodup.map (fun m n h => Handle.mk.inj h) List.nodup_range'

/-! ## Live registrations -/

theorem Live.lt (h : Live rs e) : e.handle.number < rs.countP (·.adds) := by
  obtain ⟨before, since, rfl, hh, -, -⟩ := h
  simp [hh, Request.adds]

/-- Behind one more request, a registration is live if it is the one that was asked for, or was live and is not the one
that was taken back. -/
theorem live_concat (r : Request π ω) : Live (rs ++ [r]) e ↔
    (r = .add e.parameter e.watcher ∧ e.handle = ⟨rs.countP (·.adds)⟩) ∨
      (Live rs e ∧ r ≠ .remove e.handle ∧ r ≠ .clear) := by
  constructor
  · rintro ⟨before, since, heq, hh, hr, hc⟩
    -- The request is the registration itself, or the last of those behind it.
    rcases List.eq_nil_or_concat since with rfl | ⟨since, s, rfl⟩
    · obtain ⟨rfl, hs⟩ := List.append_inj' heq rfl
      exact .inl ⟨List.singleton_inj.mp hs, hh⟩
    · rw [List.concat_eq_append, ← List.cons_append, ← List.append_assoc] at heq
      obtain ⟨rfl, hs⟩ := List.append_inj' heq rfl
      obtain rfl := List.singleton_inj.mp hs
      simp only [List.concat_eq_append, List.mem_append, List.mem_singleton, not_or] at hr hc
      exact .inr ⟨⟨before, since, rfl, hh, hr.1, hc.1⟩, Ne.symm hr.2, Ne.symm hc.2⟩
  · rintro (⟨rfl, hh⟩ | ⟨⟨before, since, rfl, hh, hr, hc⟩, hr', hc'⟩)
    · exact ⟨rs, [], rfl, hh, by simp, by simp⟩
    · refine ⟨before, since ++ [r], by simp, hh, ?_, ?_⟩
      · simp [hr, Ne.symm hr']
      · simp [hc, Ne.symm hc']

/-! ## Delegates -/

/-- A delegate holds the live registrations in the order in which they were made. -/
structure Tracks (d : Delegate π ω) (rs : List (Request π ω)) : Prop where
  next : d.next = rs.countP (·.adds)
  sorted : d.entries.Pairwise (·.handle.number < ·.handle.number)
  mem_entries : ∀ e, e ∈ d.entries ↔ Live rs e

theorem eraseP_eq_filter {es : List (Entry π ω)} (hs : es.Pairwise (·.handle.number < ·.handle.number))
    (h : Handle) : es.eraseP (·.handle = h) = es.filter (·.handle ≠ h) := by
  induction es with
  | nil => rfl
  | cons e es ih =>
    rw [List.pairwise_cons] at hs
    by_cases he : e.handle = h
    · have rest : ∀ o ∈ es, o.handle ≠ h := by
        rintro o ho rfl
        have := hs.1 o ho
        rw [he] at this
        omega
      rw [List.eraseP_cons_of_pos (by simpa using he), List.filter_cons_of_neg (by simpa using he)]
      exact (List.filter_eq_self.mpr fun o ho => decide_eq_true (rest o ho)).symm
    · simpa [he] using ih hs.2

theorem tracks_nil : ({} : Delegate π ω).Tracks [] where
  next := rfl
  sorted := .nil
  mem_entries e := by simp [Live]

/-- **One more request.** -/
theorem Tracks.perform (h : d.Tracks rs) (r : Request π ω) : (d.perform r).Tracks (rs ++ [r]) := by
  cases r with
  | add parameter watcher =>
    refine ⟨by simp [Delegate.perform, add, Request.adds, h.next], ?_, fun e => ?_⟩
    · -- The new handle is above all others.
      simp only [Delegate.perform, add, List.pairwise_append, List.mem_singleton, forall_eq]
      refine ⟨h.sorted, List.pairwise_singleton .., fun o ho => ?_⟩
      simpa [h.next] using ((h.mem_entries o).mp ho).lt
    · have new (k : Handle) : e = ⟨k, parameter, watcher⟩ ↔
          Request.add parameter watcher = .add e.parameter e.watcher ∧ e.handle = k := by
        rcases e with ⟨_, _, _⟩
        simp [eq_comm, and_comm, and_assoc]
      simp only [Delegate.perform, add, List.mem_append, List.mem_singleton, live_concat, h.mem_entries, h.next, new]
      simp [or_comm]
  | remove k =>
    refine ⟨by simp [Delegate.perform, remove, Request.adds, h.next], ?_, fun e => ?_⟩
    · exact h.sorted.sublist List.eraseP_sublist
    · have other : Request.remove k ≠ (.remove e.handle : Request π ω) ↔ e.handle ≠ k := by
        simp [eq_comm]
      simp only [Delegate.perform, remove, live_concat, eraseP_eq_filter h.sorted, List.mem_filter,
        h.mem_entries, other]
      simp
  | clear =>
    exact ⟨by simp [Delegate.perform, clear, Request.adds, h.next], .nil,
      fun e => by simp [Delegate.perform, clear, live_concat]⟩

theorem tracks_after (rs : List (Request π ω)) : (({} : Delegate π ω).after rs).Tracks rs := by
  induction rs using List.reverseRecOn with
  | nil => exact tracks_nil
  | append_singleton rs r ih =>
    rw [after, List.foldl_concat]
    exact ih.perform r

theorem remove_cases (d : Delegate π ω) (h : Handle) :
    (∃ front e back, d.entries = front ++ e :: back ∧ e.handle = h ∧
      d.remove h = (true, { d with entries := front ++ back })) ∨
    (∀ e ∈ d.entries, e.handle ≠ h) ∧ d.remove h = (false, d) := by
  by_cases hx : ∃ e ∈ d.entries, e.handle = h
  · obtain ⟨e, he, heq⟩ := hx
    obtain ⟨o, front, back, -, ho, hsplit, herase⟩ :=
      List.exists_of_eraseP he (p := (·.handle = h)) (by simpa using heq)
    refine .inl ⟨front, o, back, hsplit, by simpa using ho, ?_⟩
    rw [remove, herase]
    simpa [contains] using ⟨e, he, heq⟩
  · have none : ∀ e ∈ d.entries, e.handle ≠ h := fun e he heq => hx ⟨e, he, heq⟩
    refine .inr ⟨none, ?_⟩
    rw [remove, List.eraseP_of_forall_not (by simpa using none)]
    simpa [contains] using none

/-- **Registrations are kept in order until they are taken back.** For all requests: the handles that they are answered
with are different. What is held are the live registrations, in the order in which they were made. Taking one back by
its handle drops it alone, and a handle that is not live changes nothing. A call reaches the live registrations whose
parameter passes the filter, each once and in order, and tells their number. -/
theorem registrations_told {α σ : Type} (rs : List (Request π ω)) :
    let d := ({} : Delegate π ω).after rs
    (({} : Delegate π ω).handles rs).Nodup ∧
    ({} : Delegate π ω).handles rs = (List.range (rs.countP (·.adds))).map .mk ∧
    (∀ e, e ∈ d.entries ↔ Live rs e) ∧
    d.entries.Pairwise (·.handle.number < ·.handle.number) ∧
    (∀ h,
      (∃ front e back, d.entries = front ++ e :: back ∧ e.handle = h ∧
        (∀ o ∈ front ++ back, o.handle ≠ h) ∧ d.remove h = (true, { d with entries := front ++ back })) ∨
      (∀ e, Live rs e → e.handle ≠ h) ∧ d.remove h = (false, d)) ∧
    ∀ (passes : π → α → Bool) (x : α) (call : ω → α → σ → σ) (s : σ),
      let reached := d.entries.filter fun e => passes e.parameter x
      d.invoke (passes · x) (call · x) s =
        (reached.length, reached.foldl (fun s e => call e.watcher x s) s) := by
  intro d
  have tracks : d.Tracks rs := tracks_after rs
  refine ⟨nodup_handles _ rs, by rw [handles_eq, List.range_eq_range'], tracks.mem_entries, tracks.sorted,
    fun h => ?_, fun passes x call s => ?_⟩
  · rcases d.remove_cases h with ⟨front, e, back, hsplit, he, hr⟩ | ⟨none, hr⟩
    · refine .inl ⟨front, e, back, hsplit, he, fun o ho heq => ?_, hr⟩
      -- The others are before it or behind it, so their handles are below or above.
      have sorted := tracks.sorted
      rw [hsplit, List.pairwise_append, List.pairwise_cons] at sorted
      obtain ⟨-, ⟨above, -⟩, below⟩ := sorted
      rcases List.mem_append.mp ho with ho | ho
      · have := below o ho e List.mem_cons_self
        rw [heq, he] at this
        omega
      · have := above o ho
        rw [heq, he] at this
        omega
    · exact .inr ⟨fun e he => none e ((tracks.mem_entries e).mpr he), hr⟩
  · simp [invoke_eq, called, List.foldl_map]

end Delegate

end Atari
