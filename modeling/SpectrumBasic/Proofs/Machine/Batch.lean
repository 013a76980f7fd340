import SpectrumBasic.Proofs.Machine.Run
import SpectrumBasic.Screen.Redraw

/-! How a host divides a run into batches, and when it redraws the display, makes no difference to the
program. The main statement compares any division, with any redraws in between, with one batch of as
many steps: machines agree in all but the dirty range and the flash phase, and the event of the one
batch is the first telling event of the many. -/

namespace SpectrumBasic

open Screen (Display Operation)

/-- Redraws have no part in what display memory and drawing are like. -/
theorem Screen.Display.settled_redraw (d : Display) : d.redraw.2.settled = d.settled := by
  unfold redraw
  rfl

namespace Machine

/-- The machine without what only redraws of its display look at. -/
def settled (m : Machine) : Machine := m.withDisplay m.context.display.settled

def redraws (m : Machine) : Nat → Machine
  | 0 => m
  | n + 1 => (m.onDisplay fun d => d.redraw.2).redraws n

/-- A batch of at most `size` steps and the redraws that follow it. -/
structure Batch where
  size : Nat
  redraws : Nat

/-- The number of steps that a batch may take. One of size zero still takes a step. -/
def Batch.steps (b : Batch) : Nat := max b.size 1

/-- The number of steps that all batches may take. -/
def totalSteps : List Batch → Nat
  | [] => 0
  | b :: bs => b.steps + totalSteps bs

/-- Runs batches one after another. -/
def runBatches (m : Machine) : List Batch → List Event × Machine
  | [] => ([], m)
  | b :: bs =>
    let (event, m) := m.execute b.size
    let (events, m) := (m.redraws b.redraws).runBatches bs
    (event :: events, m)

/-- The first event that says more than that the program goes on, if there is one. -/
def telling (events : List Event) : Event := (events.find? (· ≠ .running)).getD .running

theorem telling_cons_running (events : List Event) :
    telling (.running :: events) = telling events := rfl

theorem telling_cons_of_ne {event : Event} (h : event ≠ .running) (events : List Event) :
    telling (event :: events) = event := by
  simp [telling, h]

/-! ### Redraws -/

theorem settled_redraws (n : Nat) (m : Machine) : (m.redraws n).settled = m.settled := by
  induction n generalizing m with
  | zero => rfl
  | succ n ih =>
    have h := Display.settled_redraw m.context.display
    rw [redraws, ih]
    exact congrArg m.withDisplay h

theorem interrupted_redraws (n : Nat) (m : Machine) : (m.redraws n).interrupted = m.interrupted := by
  have h := congrArg interrupted (m.settled_redraws n)
  exact h

theorem isRunning_redraws (n : Nat) (m : Machine) : (m.redraws n).isRunning = m.isRunning := by
  have h := congrArg isRunning (m.settled_redraws n)
  exact h

/-- Machines that agree but for redraws behave alike. -/
theorem steps_of_settled_eq {m m' : Machine} (h : m.settled = m'.settled) (n : Nat) :
    (m.steps n).1 = (m'.steps n).1 ∧ (m.steps n).2.settled = (m'.steps n).2.settled := by
  have hd : m.context.display.settled = m'.context.display.settled :=
    congrArg (·.context.display) h
  have hm : m'.settled.withDisplay m'.context.display = m.settled.withDisplay m'.context.display := by
    rw [h]
  have hm' : m' = m.withDisplay m'.context.display := hm
  obtain ⟨ops, hops⟩ := m.steps_withDisplay n
  have hs : (m.steps n).2.context.display = Operation.runAll ops m.context.display :=
    congrArg (·.2.context.display) (hops m.context.display)
  have hs' : m'.steps n = _ := (congrArg (steps n) hm').trans (hops m'.context.display)
  rw [hs']
  refine ⟨rfl, ?_⟩
  unfold settled
  rw [hs]
  exact congrArg (m.steps n).2.withDisplay (Operation.settled_runAll ops hd)

/-! ### Batches -/

theorem execute_of_not_interrupted {m : Machine} (h : m.interrupted = false) (n : Nat) :
    m.execute n = m.steps (max n 1) := by
  have hm : { m with interrupted := false } = m := by rw [← h]
  simp only [execute, h, Bool.false_and, hm]
  rfl

theorem runBatches_cons {m : Machine} (h : m.interrupted = false) (b : Batch) (bs : List Batch) :
    m.runBatches (b :: bs) =
      ((m.steps b.steps).1 :: (((m.steps b.steps).2.redraws b.redraws).runBatches bs).1,
        (((m.steps b.steps).2.redraws b.redraws).runBatches bs).2) := by
  rw [runBatches, execute_of_not_interrupted h]
  rfl

/-- What a division into batches comes to. If there are no batches at all the machine has to run for
its events, of which there are none, to say so. -/
theorem runBatches_eq (bs : List Batch) (m : Machine) (h : m.interrupted = false) :
    (m.runBatches bs).2.settled = (m.steps (totalSteps bs)).2.settled ∧
      (bs ≠ [] ∨ m.isRunning →
        (m.steps (totalSteps bs)).1 = telling (m.runBatches bs).1) := by
  induction bs generalizing m with
  | nil =>
    refine ⟨rfl, fun hm => ?_⟩
    have hr : m.isRunning = true := by simpa using hm
    rw [totalSteps, steps, if_pos hr]
    rfl
  | cons b bs ih =>
    -- The first batch leads to `m₁`. Its redraws lead further, but to a machine that does the same.
    have hinterrupted := m.interrupted_steps b.steps
    have hrunning := m.isRunning_steps b.steps
    rw [runBatches_cons h, totalSteps, steps_add]
    generalize m.steps b.steps = s at hinterrupted hrunning ⊢
    obtain ⟨event, m₁⟩ := s
    obtain ⟨hstate, hevent⟩ :=
      ih (m₁.redraws b.redraws) ((m₁.interrupted_redraws _).trans (hinterrupted.trans h))
    obtain ⟨hevent', hstate'⟩ :=
      steps_of_settled_eq (m₁.settled_redraws b.redraws) (totalSteps bs)
    rw [hstate'] at hstate
    rw [hevent', isRunning_redraws] at hevent
    by_cases hr : event = .running
    · subst hr
      rw [if_pos rfl, telling_cons_running]
      exact ⟨hstate, fun _ => hevent (.inr (hrunning.mpr rfl))⟩
    · have hr₁ : m₁.isRunning = false := by simpa [hr] using hrunning
      rw [steps_of_not_isRunning hr₁] at hstate
      rw [if_neg hr, telling_cons_of_ne hr]
      exact ⟨hstate, fun _ => rfl⟩

/-- Any batches, with any redraws between them, come to the same as one batch of as many steps. The
machines agree in all but the dirty range and the flash phase of their displays, and the event of the
one batch is the first of the others that is not `running`. -/
theorem runBatches_settled (m : Machine) (h : m.interrupted = false) (b : Batch) (bs : List Batch) :
    let total := totalSteps (b :: bs)
    (m.runBatches (b :: bs)).2.settled = (m.execute total).2.settled ∧
      (m.execute total).1 = telling (m.runBatches (b :: bs)).1 := by
  intro total
  have htotal : max total 1 = total := by
    have : 1 ≤ b.steps := Nat.le_max_right _ _
    simp only [total, totalSteps]
    omega
  obtain ⟨hstate, hevent⟩ := runBatches_eq (b :: bs) m h
  rw [execute_of_not_interrupted h, htotal]
  exact ⟨hstate, hevent (.inl (List.cons_ne_nil b bs))⟩

/-- A program that counts for ever, in three batches of which one has no size. -/
theorem runBatches_counter :
    let m := load "10 LET A=A+1\n20 GOTO 10".toList Display.clear (.ofSeed 1)
    let batches : List Batch := [⟨2, 1⟩, ⟨0, 70⟩, ⟨2, 0⟩]
    m.interrupted = false ∧ (m.runBatches batches).2.settled = (m.execute 5).2.settled ∧
      (m.execute 5).1 = telling (m.runBatches batches).1 :=
  ⟨rfl, runBatches_settled _ rfl ⟨2, 1⟩ [⟨0, 70⟩, ⟨2, 0⟩]⟩

end Machine

end SpectrumBasic
