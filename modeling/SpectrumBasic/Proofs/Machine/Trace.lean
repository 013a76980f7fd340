import Mathlib.Data.List.Forall2
import SpectrumBasic.Proofs.Machine.Run

/-! What a host sees of a run. The trace of its calls lists what each of them returns and the machine
that it leaves. Two machines that step alike have traces that are alike, call by call. -/

namespace SpectrumBasic

open Screen (Display)

/-- Both events are of one kind, and faults are related by `E`. -/
inductive Event.Alike (E : Fault → Fault → Prop) : Event → Event → Prop
  | running : Alike E .running .running
  | stopped : Alike E .stopped .stopped
  | failed {f f' : Fault} (h : E f f') : Alike E (.failed f) (.failed f')

def Event.mapFault (g : Fault → Fault) : Event → Event
  | .failed f => .failed (g f)
  | event => event

theorem Event.eq_map_of_alike {E : Fault → Fault → Prop} {g : Fault → Fault}
    (hg : ∀ f f', E f f' → f' = g f) {event event' : Option Event}
    (h : Option.Rel (Alike E) event event') : event' = event.map (mapFault g) := by
  cases h with
  | none => rfl
  | some h =>
    cases h with
    | running | stopped => rfl
    | failed hf =>
      rw [hg _ _ hf]
      rfl

theorem Event.eq_of_alike {event event' : Option Event} (h : Option.Rel (Alike Eq) event event') :
    event' = event := by
  have hid : mapFault id = id := by
    funext event
    cases event <;> rfl
  rw [eq_map_of_alike (g := id) (fun _ _ hf => hf.symm) h, hid, Option.map_id]
  rfl

def Event.isFailure : Event → Bool
  | .failed _ => true
  | _ => false

namespace Machine

/-- What a call returns. Only a batch returns anything. -/
def Call.event? : Call → Machine → Option Event
  | .execute n, m => some (m.execute n).1
  | _, _ => none

/-- The machine after some calls. -/
def after (m : Machine) : List Call → Machine
  | [] => m
  | c :: calls => (c.run m).after calls

/-- What each call returns, and the machine that it leaves. -/
def trace (m : Machine) : List Call → List (Option Event × Machine)
  | [] => []
  | c :: calls => (c.event? m, c.run m) :: (c.run m).trace calls

/-- The events that the batches among some calls return. -/
def events (m : Machine) (calls : List Call) : List Event := (m.trace calls).filterMap Prod.fst

theorem events_cons (m : Machine) (c : Call) (calls : List Call) :
    m.events (c :: calls) = (c.event? m).toList ++ (c.run m).events calls := by
  unfold events
  rw [trace]
  cases c.event? m <;> rfl

theorem after_append (m : Machine) (calls calls' : List Call) :
    m.after (calls ++ calls') = (m.after calls).after calls' := by
  induction calls generalizing m with
  | nil => rfl
  | cons c calls ih => exact ih (c.run m)

/-! ### The steps of a run -/

/-- The machines from which a batch of at most `n` steps takes its steps, in order. -/
def stepped : Nat → Machine → List Machine
  | 0, _ => []
  | n + 1, m =>
    if m.isRunning then
      match m.step with
      | (none, m') => m :: stepped n m'
      | (some _, _) => [m]
    else []

/-- They are the machines after fewer than `n` steps, as long as these run. -/
theorem mem_stepped_iff (n : Nat) (m x : Machine) :
    x ∈ stepped n m ↔ x.isRunning = true ∧ ∃ i < n, x = (m.steps i).2 := by
  induction n generalizing m with
  | zero => simp [stepped]
  | succ n ih =>
    have hsplit : (∃ i < n + 1, x = (m.steps i).2) ↔
        x = m ∨ ∃ i < n, x = (m.steps (i + 1)).2 := by
      constructor
      · rintro ⟨_ | i, hi, rfl⟩
        · exact .inl rfl
        · exact .inr ⟨i, Nat.lt_of_succ_lt_succ hi, rfl⟩
      · rintro (rfl | ⟨i, hi, rfl⟩)
        · exact ⟨0, Nat.succ_pos n, rfl⟩
        · exact ⟨i + 1, Nat.succ_lt_succ hi, rfl⟩
    rw [hsplit, stepped]
    split
    · rename_i hrunning
      cases hs : m.step with
      | mk fault m' =>
        cases fault with
        | none =>
          simp only [steps, hrunning, if_true, hs, List.mem_cons, ih, and_or_left]
          exact or_congr_left ⟨fun h => ⟨h ▸ hrunning, h⟩, And.right⟩
        | some f =>
          simp only [steps, hrunning, if_true, hs, List.mem_singleton]
          constructor
          · rintro rfl
            exact ⟨hrunning, .inl rfl⟩
          · rintro ⟨hx, rfl | ⟨_, _, rfl⟩⟩
            · rfl
            · cases hx
    · rename_i hstill
      simp only [steps, hstill, Bool.false_eq_true, if_false, List.not_mem_nil, false_iff]
      rintro ⟨hx, rfl | ⟨_, _, rfl⟩⟩ <;> exact hstill hx

/-- The machines from which a call takes steps. -/
def Call.stepped : Call → Machine → List Machine
  | .execute n, m =>
    if m.interrupted && m.isRunning then []
    else Machine.stepped (max n 1) { m with interrupted := false }
  | _, _ => []

/-- The machines from which some calls take steps. -/
def steppedBy (m : Machine) : List Call → List Machine
  | [] => []
  | c :: calls => c.stepped m ++ (c.run m).steppedBy calls

/-- A batch that a break comes before takes no step. Any other takes its steps with no break asked
for. -/
theorem execute_cases (m : Machine) (n : Nat) :
    (m.interrupted && m.isRunning) = true ∧
        m.execute n =
          (.failed { kind := .interrupted }, { m with interrupted := false, status := .halted }) ∨
      (m.interrupted && m.isRunning) = false ∧
        m.execute n = { m with interrupted := false }.steps (max n 1) := by
  unfold execute
  dsimp only
  split
  · rename_i hbroken
    exact .inl ⟨hbroken, rfl⟩
  · rename_i hgo
    exact .inr ⟨by simpa using hgo, rfl⟩

theorem execute_of_not_broken {m : Machine} (h : (m.interrupted && m.isRunning) = false) (n : Nat) :
    m.execute n = { m with interrupted := false }.steps (max n 1) := by
  obtain ⟨hbroken, -⟩ | ⟨-, heq⟩ := m.execute_cases n
  · rw [h] at hbroken
    cases hbroken
  · exact heq

/-! ### Machines that step alike -/

/-- A relation of machines that steps keep. Related machines fail together, with faults that `E`
relates. -/
structure Simulation (E : Fault → Fault → Prop) (R : Machine → Machine → Prop) : Prop where
  isRunning : ∀ m m', R m m' → m'.isRunning = m.isRunning
  interrupted : ∀ m m', R m m' → m'.interrupted = m.interrupted
  step : ∀ m m', R m m' → Option.Rel E m.step.1 m'.step.1 ∧ R m.step.2 m'.step.2
  halt : ∀ m m', R m m' → R { m with status := .halted } { m' with status := .halted }
  flag : ∀ m m' on, R m m' → R { m with interrupted := on } { m' with interrupted := on }
  seed : ∀ m m' n, R m m' → R (m.seed n) (m'.seed n)

namespace Simulation

variable {E : Fault → Fault → Prop} {R : Machine → Machine → Prop}

theorem steps (hR : Simulation E R) (n : Nat) {m m' : Machine} (h : R m m') :
    Event.Alike E (m.steps n).1 (m'.steps n).1 ∧ R (m.steps n).2 (m'.steps n).2 := by
  induction n generalizing m m' with
  | zero =>
    unfold Machine.steps
    rw [hR.isRunning m m' h]
    split
    · exact ⟨.running, h⟩
    · exact ⟨.stopped, h⟩
  | succ n ih =>
    obtain ⟨hfault, hstep⟩ := hR.step m m' h
    unfold Machine.steps
    rw [hR.isRunning m m' h]
    split
    · generalize m.step = s at hfault hstep ⊢
      generalize m'.step = s' at hfault hstep ⊢
      obtain ⟨fault, m₁⟩ := s
      obtain ⟨fault', m₁'⟩ := s'
      cases hfault with
      | none => exact ih hstep
      | some hE => exact ⟨.failed hE, hR.halt m₁ m₁' hstep⟩
    · exact ⟨.stopped, h⟩

theorem execute (hR : Simulation E R) (hbreak : E { kind := .interrupted } { kind := .interrupted })
    (n : Nat) {m m' : Machine} (h : R m m') :
    Event.Alike E (m.execute n).1 (m'.execute n).1 ∧ R (m.execute n).2 (m'.execute n).2 := by
  have hflag := hR.flag m m' false h
  unfold Machine.execute
  dsimp only
  rw [hR.isRunning m m' h, hR.interrupted m m' h]
  split
  · exact ⟨.failed hbreak, hR.halt _ _ hflag⟩
  · exact hR.steps _ hflag

theorem call (hR : Simulation E R) (hbreak : E { kind := .interrupted } { kind := .interrupted })
    (c : Call) (hdisplay : ∀ f, c = .display f → ∀ m m', R m m' → R (m.onDisplay f) (m'.onDisplay f))
    {m m' : Machine} (h : R m m') :
    Option.Rel (Event.Alike E) (c.event? m) (c.event? m') ∧ R (c.run m) (c.run m') := by
  cases c with
  | execute n =>
    obtain ⟨hevent, hstate⟩ := hR.execute hbreak n h
    exact ⟨.some hevent, hstate⟩
  | interrupt => exact ⟨.none, hR.flag m m' true h⟩
  | seed n => exact ⟨.none, hR.seed m m' n h⟩
  | display f => exact ⟨.none, hdisplay f rfl m m' h⟩

/-- Related machines stay so through all calls, if what the host does to the display keeps them so. -/
theorem trace (hR : Simulation E R) (hbreak : E { kind := .interrupted } { kind := .interrupted })
    (calls : List Call)
    (hdisplay : ∀ f, .display f ∈ calls → ∀ m m', R m m' → R (m.onDisplay f) (m'.onDisplay f))
    {m m' : Machine} (h : R m m') :
    List.Forall₂ (fun x x' => Option.Rel (Event.Alike E) x.1 x'.1 ∧ R x.2 x'.2) (m.trace calls)
      (m'.trace calls) ∧ R (m.after calls) (m'.after calls) := by
  induction calls generalizing m m' with
  | nil => exact ⟨.nil, h⟩
  | cons c calls ih =>
    obtain ⟨hevent, hstate⟩ := hR.call hbreak c (fun f hf => hdisplay f (by simp [hf])) h
    obtain ⟨htrace, hafter⟩ := ih (fun f hf => hdisplay f (List.mem_cons_of_mem c hf)) hstate
    exact ⟨.cons ⟨hevent, hstate⟩ htrace, hafter⟩

/-! ### What a step brings about -/

section Gain

variable {S : Machine → Machine → Prop} {P : Machine → Prop}
  (hR : Simulation E R) (hS : Simulation E S) (hP : ∀ m m', R m m' → P m → S m.step.2 m'.step.2)
include hR hS hP

theorem steps_gain (n : Nat) {m m' : Machine} (h : R m m') (hx : ∃ x ∈ stepped n m, P x) :
    S (m.steps n).2 (m'.steps n).2 := by
  induction n generalizing m m' with
  | zero =>
    obtain ⟨x, hx, -⟩ := hx
    cases hx
  | succ n ih =>
    obtain ⟨x, hx, hPx⟩ := hx
    obtain ⟨hfault, hstep⟩ := hR.step m m' h
    have hgain := hP m m' h
    unfold stepped at hx
    unfold Machine.steps
    rw [hR.isRunning m m' h]
    split
    · rename_i hrunning
      rw [if_pos hrunning] at hx
      generalize m.step = s at hfault hstep hgain hx ⊢
      generalize m'.step = s' at hfault hstep hgain ⊢
      obtain ⟨fault, m₁⟩ := s
      obtain ⟨fault', m₁'⟩ := s'
      cases hfault with
      | none =>
        -- The step in question is this one or a later one.
        obtain rfl | hx := List.mem_cons.mp hx
        · exact (hS.steps n (hgain hPx)).2
        · exact ih hstep ⟨x, hx, hPx⟩
      | some hE =>
        obtain rfl := List.mem_singleton.mp hx
        exact hS.halt m₁ m₁' (hgain hPx)
    · rename_i hstill
      rw [if_neg hstill] at hx
      cases hx

theorem call_gain (c : Call) {m m' : Machine} (h : R m m') (hx : ∃ x ∈ c.stepped m, P x) :
    S (c.run m) (c.run m') := by
  obtain ⟨x, hx, hPx⟩ := hx
  cases c with
  | execute n =>
    rw [Call.stepped] at hx
    split at hx
    · cases hx
    · rename_i hgo
      rw [Bool.not_eq_true] at hgo
      have hgo' : (m'.interrupted && m'.isRunning) = false := by
        rwa [hR.interrupted m m' h, hR.isRunning m m' h]
      rw [Call.run, Call.run, execute_of_not_broken hgo, execute_of_not_broken hgo']
      exact steps_gain hR hS hP _ (hR.flag m m' false h) ⟨x, hx, hPx⟩
  | _ => cases hx

/-- A relation that steps of a certain kind bring about holds ever after the first one. -/
theorem after_gain (hbreak : E { kind := .interrupted } { kind := .interrupted })
    {calls : List Call} (hcalls : ∀ f, Call.display f ∉ calls) {m m' : Machine} (h : R m m')
    (hx : ∃ x ∈ m.steppedBy calls, P x) : S (m.after calls) (m'.after calls) := by
  induction calls generalizing m m' with
  | nil =>
    obtain ⟨x, hx, -⟩ := hx
    cases hx
  | cons c calls ih =>
    obtain ⟨x, hx, hPx⟩ := hx
    have hnone (f : Display → Display) (hf : c = .display f) : False :=
      hcalls f (List.mem_cons.mpr (.inl hf.symm))
    have hlater (f : Display → Display) : Call.display f ∉ calls :=
      fun hf => hcalls f (List.mem_cons_of_mem c hf)
    rw [steppedBy, List.mem_append] at hx
    obtain hx | hx := hx
    · have hgained := call_gain hR hS hP c h ⟨x, hx, hPx⟩
      exact (hS.trace hbreak calls (fun f hf => (hlater f hf).elim) hgained).2
    · have hstate := (hR.call hbreak c (fun f hf => (hnone f hf).elim) h).2
      exact ih hlater hstate ⟨x, hx, hPx⟩

end Gain

end Simulation

end Machine

end SpectrumBasic
