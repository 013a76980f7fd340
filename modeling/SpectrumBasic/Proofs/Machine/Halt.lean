import SpectrumBasic.Proofs.Machine.Alignment

/-! How runs end. A fault, a break or the end of the program ends a run for good: whatever its host
does next, the machine takes no step any more and reports no second fault. A break comes only from the
host, and takes effect only if the machine still runs when the next batch starts. -/

namespace SpectrumBasic

/-- A program next to itself, read as it is. -/
def Program.Alignment.refl (source : Text) : Alignment .unbroken source source where
  move p := p
  move_zero := Nat.zero_eq
  lt_iff _ _ := .rfl
  isCut _ h hlt := h.isCut (Nat.le_of_lt hlt)
  statement _ _ _ := rfl
  stop _ _ _ := rfl
  newline _ _ _ := rfl

namespace Machine

open Screen (Display)

/-! ### Faults of statements -/

/-- A machine is aligned with itself as long as the fault in its `DATA`, if there is one, is no break. -/
theorem invariant_unbroken (source : Text) :
    Invariant source fun m => Sited source m ∧ Aligned (.refl source) m m where
  load display entropy :=
    ⟨(invariant_sited source).load display entropy, aligned_load (.refl source) display entropy⟩
  step m _ h := ((simulation_aligned (.refl source)).step m m h).2
  halt m h := (simulation_aligned (.refl source)).halt m m h
  flag m on h := (simulation_aligned (.refl source)).flag m m on h
  seed m n h := (simulation_aligned (.refl source)).seed m m n h
  display m f h := ⟨(invariant_sited source).display m f h.1, h.2.onDisplay f⟩

/-- No statement breaks a run. -/
theorem kind_ne_interrupted_of_steps {source : Text} {m : Machine} (h : Reachable source m)
    {on : Bool} {n : Nat} {f : Fault} (hf : ({ m with interrupted := on }.steps n).1 = .failed f) :
    f.kind ≠ .interrupted := by
  have hself := (invariant_unbroken source).flag m on ((invariant_unbroken source).of_reachable h)
  have hevent := ((simulation_aligned (.refl source)).steps n hself).1
  rw [hf] at hevent
  cases hevent with
  | failed hunbroken => exact hunbroken.2

/-! ### The end of a run -/

/-- A machine that no longer runs takes no step. -/
theorem execute_of_not_isRunning {m : Machine} (h : m.isRunning = false) (n : Nat) :
    m.execute n = (.stopped, { m with interrupted := false }) := by
  have hstill : { m with interrupted := false }.isRunning = false := h
  rw [execute_of_not_broken (by simp [h]), steps_of_not_isRunning hstill]

theorem isRunning_execute (m : Machine) (n : Nat) (h : (m.execute n).1 ≠ .running) :
    (m.execute n).2.isRunning = false := by
  obtain ⟨-, heq⟩ | ⟨-, heq⟩ := m.execute_cases n
  · rw [heq]
    rfl
  · rw [heq, ne_eq, ← isRunning_steps, Bool.not_eq_true] at h
    rw [heq, h]

theorem isRunning_call {m : Machine} (h : m.isRunning = false) (c : Call) :
    (c.run m).isRunning = false := by
  cases c with
  | execute n =>
    rw [Call.run, execute_of_not_isRunning h]
    exact h
  | _ => exact h

theorem isRunning_after {m : Machine} (h : m.isRunning = false) (calls : List Call) :
    (m.after calls).isRunning = false := by
  induction calls generalizing m with
  | nil => exact h
  | cons c calls ih => exact ih (isRunning_call h c)

theorem event_of_not_isRunning {m : Machine} (h : m.isRunning = false) (calls : List Call) :
    ∀ event ∈ m.events calls, event = .stopped := by
  induction calls generalizing m with
  | nil => exact nofun
  | cons c calls ih =>
    intro event hevent
    rw [events_cons, List.mem_append] at hevent
    obtain hnow | hlater := hevent
    · cases c with
      | execute n =>
        rw [Call.event?, execute_of_not_isRunning h] at hnow
        exact List.mem_singleton.mp hnow
      | _ => cases hnow
    · exact ih (isRunning_call h c) event hlater

/-- The first fault of a run is its last one. -/
theorem countP_isFailure_events (m : Machine) (calls : List Call) :
    (m.events calls).countP Event.isFailure ≤ 1 := by
  induction calls generalizing m with
  | nil => exact Nat.zero_le 1
  | cons c calls ih =>
    have hlater := ih (c.run m)
    rw [events_cons, List.countP_append]
    cases c with
    | execute n =>
      have hnow : (Call.event? (.execute n) m).toList = [(m.execute n).1] := rfl
      rw [hnow]
      by_cases hrunning : (m.execute n).1 = .running
      · rw [hrunning]
        simpa [Event.isFailure] using hlater
      · have hended := event_of_not_isRunning (m.isRunning_execute n hrunning) calls
        have hnone : ((m.execute n).2.events calls).countP Event.isFailure = 0 :=
          List.countP_eq_zero.mpr fun event h => by simp [hended event h, Event.isFailure]
        rw [Call.run, hnone]
        exact List.countP_le_length
    | interrupt | seed | display =>
      exact (Nat.zero_add _).trans_le hlater

/-! ### Breaks -/

/-- The host asked for a break and started no batch since. -/
def BreakAsked (calls : List Call) : Prop :=
  ∃ earlier later, calls = earlier ++ .interrupt :: later ∧ ∀ n, .execute n ∉ later

theorem breakAsked_cons (c : Call) (calls : List Call) :
    BreakAsked (c :: calls) ↔
      BreakAsked calls ∨ c = .interrupt ∧ ∀ n, .execute n ∉ calls := by
  constructor
  · rintro ⟨earlier, later, heq, hlater⟩
    cases earlier with
    | nil =>
      obtain ⟨rfl, rfl⟩ := List.cons.inj heq
      exact .inr ⟨rfl, hlater⟩
    | cons first earlier =>
      obtain ⟨rfl, rfl⟩ := List.cons.inj heq
      exact .inl ⟨earlier, later, rfl, hlater⟩
  · rintro (⟨earlier, later, rfl, hlater⟩ | ⟨rfl, hlater⟩)
    · exact ⟨c :: earlier, later, rfl, hlater⟩
    · exact ⟨[], calls, rfl, hlater⟩

theorem interrupted_execute (m : Machine) (n : Nat) : (m.execute n).2.interrupted = false := by
  obtain ⟨-, heq⟩ | ⟨-, heq⟩ := m.execute_cases n
  · rw [heq]
  · rw [heq, interrupted_steps]

/-- A machine is to break at its next batch if it was so before and no batch came, or if it was asked
to since. -/
theorem interrupted_after (m : Machine) (calls : List Call) :
    (m.after calls).interrupted = true ↔
      BreakAsked calls ∨ m.interrupted = true ∧ ∀ n, .execute n ∉ calls := by
  induction calls generalizing m with
  | nil => simp [after, BreakAsked]
  | cons c calls ih =>
    rw [after, ih, breakAsked_cons]
    cases c with
    | execute n =>
      have hbatch : ¬ ∀ k, Call.execute k ∉ Call.execute n :: calls :=
        fun h => h n List.mem_cons_self
      simp only [Call.run, m.interrupted_execute n, hbatch, reduceCtorEq, false_and, and_false,
        or_false]
    | interrupt =>
      have hasked : (Call.run .interrupt m).interrupted = true := rfl
      simp only [hasked, List.mem_cons, reduceCtorEq, false_or, true_and]
      exact ⟨.inl, Or.rec id fun h => .inr h.2⟩
    | seed n =>
      have hflag : (Call.run (.seed n) m).interrupted = m.interrupted := rfl
      simp only [hflag, List.mem_cons, reduceCtorEq, false_or, false_and, or_false]
    | display f =>
      have hflag : (Call.run (.display f) m).interrupted = m.interrupted := rfl
      simp only [hflag, List.mem_cons, reduceCtorEq, false_or, false_and, or_false]

/-- A batch ends with a break exactly if a break comes before it. -/
theorem execute_breaks_iff {source : Text} {m : Machine} (h : Reachable source m) (n : Nat) :
    (∃ f, (m.execute n).1 = .failed f ∧ f.kind = .interrupted) ↔
      (m.interrupted && m.isRunning) = true := by
  obtain ⟨hbroken, heq⟩ | ⟨hgo, heq⟩ := m.execute_cases n
  · rw [heq]
    exact ⟨fun _ => hbroken, fun _ => ⟨_, rfl, rfl⟩⟩
  · rw [heq, hgo]
    refine ⟨fun ⟨f, hf, hkind⟩ => ?_, nofun⟩
    exact absurd hkind (kind_ne_interrupted_of_steps h hf)

theorem Reachable.after {source : Text} {m : Machine} (h : Reachable source m) (calls : List Call) :
    Reachable source (m.after calls) := by
  induction calls generalizing m with
  | nil => exact h
  | cons c calls ih => exact ih (h.call c)

/-- How the run of a machine ends, whatever calls its host makes. -/
structure EndsOnce (m : Machine) : Prop where
  failsOnce : ∀ calls, (m.events calls).countP Event.isFailure ≤ 1
  /-- Once a batch ends with another event than `running` the run is over. -/
  isRunning : ∀ before n later, ((m.after before).execute n).1 ≠ .running →
    (m.after (before ++ .execute n :: later)).isRunning = false
  /-- Batches that come later change nothing but that a break is no longer asked for. -/
  execute : ∀ before n later k, ((m.after before).execute n).1 ≠ .running →
    (m.after (before ++ .execute n :: later)).execute k =
      (.stopped, { m.after (before ++ .execute n :: later) with interrupted := false })
  breaks_iff : ∀ calls n,
    (∃ f, ((m.after calls).execute n).1 = .failed f ∧ f.kind = .interrupted) ↔
      (m.after calls).isRunning = true ∧ BreakAsked calls
  /-- A batch that breaks the run takes no step. -/
  stepped : ∀ calls n f, ((m.after calls).execute n).1 = .failed f → f.kind = .interrupted →
    Call.stepped (.execute n) (m.after calls) = [] ∧
      (m.after calls).execute n =
        (.failed { kind := .interrupted },
          { m.after calls with interrupted := false, status := .halted })

/-- A run ends at most once and for good. It ends with a break exactly if the host asked for one since
the batch before and the machine still runs. -/
theorem endsOnce_load (source : Text) (display : Display) (entropy : Generator) :
    EndsOnce (load source display entropy) := by
  have hreachable (calls : List Call) : Reachable source ((load source display entropy).after calls) :=
    (Reachable.load display entropy).after calls
  have hasked (calls : List Call) :
      ((load source display entropy).after calls).interrupted = true ↔ BreakAsked calls := by
    rw [interrupted_after]
    exact or_iff_left nofun
  have hended {before : List Call} {n : Nat} (later : List Call)
      (h : (((load source display entropy).after before).execute n).1 ≠ .running) :
      ((load source display entropy).after (before ++ .execute n :: later)).isRunning = false := by
    rw [after_append]
    exact isRunning_after (isRunning_execute _ n h) later
  have hiff (calls : List Call) (n : Nat) := execute_breaks_iff (hreachable calls) n
  refine ⟨countP_isFailure_events _, fun _ _ later h => hended later h, ?_, ?_, ?_⟩
  · exact fun _ _ later k h => execute_of_not_isRunning (hended later h) k
  · intro calls n
    rw [hiff, Bool.and_eq_true, hasked, and_comm]
  · intro calls n f hf hkind
    have hbroken := (hiff calls n).mp ⟨f, hf, hkind⟩
    obtain ⟨-, heq⟩ | ⟨hgo, -⟩ := ((load source display entropy).after calls).execute_cases n
    · exact ⟨if_pos hbroken, heq⟩
    · rw [hgo] at hbroken
      cases hbroken

end Machine

end SpectrumBasic
