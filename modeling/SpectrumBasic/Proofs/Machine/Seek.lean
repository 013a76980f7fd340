import SpectrumBasic.Proofs.Machine.Offset
import SpectrumBasic.Proofs.Program.Line
import SpectrumBasic.Proofs.Statement.Nesting

/-! Going to a line. A machine that was sent to a line executes next the first statement of the first
line whose number is at least the one asked for, and nothing on the way; if there is no such line it
stops. -/

namespace SpectrumBasic.Machine

open Attempt (outcome)
open Program (IsNumbered Reaches lines firstStatement IsStart IsCut boundary)

/-- A step executes a statement that asks for line `goal`, to come back later or not, and leads from
`m` to `m'`. -/
def SentTo (m : Machine) (goal : Nat) (m' : Machine) : Prop :=
  m.place < Text.byteLength m.source ∧ m.step = (none, m') ∧
    ∃ c, outcome (m.statementAt m.place) m.context = (.ok (.goto goal), c) ∨
      outcome (m.statementAt m.place) m.context = (.ok (.gosub goal), c)

/-- The machines stand at the same place. All that a host does between batches, breaks apart, leads
from a machine to one at the same place. -/
structure SamePlace (m m' : Machine) : Prop where
  source : m'.source = m.source
  offset : m'.offset = m.offset
  status : m'.status = m.status

theorem SamePlace.trans {m m' m'' : Machine} (h : SamePlace m m') (h' : SamePlace m' m'') :
    SamePlace m m'' :=
  ⟨h'.source.trans h.source, h'.offset.trans h.offset, h'.status.trans h.status⟩

/-- The machine stops without a further statement. -/
def StopsNext (m : Machine) : Prop :=
  m.step = (none, { m with offset := m.place, status := .stopped })

/-- The next step of the machine is the one that a request for line `goal` calls for. -/
structure Resolves (source : Text) (goal : Nat) (m : Machine) : Prop where
  /-- Line zero is the top of the program, whatever number stands there. -/
  top : goal = 0 → m.step = m.executeAt 0
  /-- The first line that reaches the goal is where the program goes on, at its first statement. -/
  first : 1 ≤ goal → ∀ before offset line after, lines source = before ++ (offset, line) :: after →
    (∀ l ∈ before, ¬ Reaches goal l.2) → Reaches goal line →
      m.step = m.executeAt offset ∧
        firstStatement (Text.dropBytes offset source) = firstStatement line
  stops : 1 ≤ goal → (∀ l ∈ lines source, ¬ Reaches goal l.2) → m.StopsNext
  stops_of_gt : 9999 < goal → m.StopsNext
  /-- If the numbers ascend then a line with the number asked for is found. -/
  exact_line : 1 ≤ goal →
    (lines source).Pairwise (fun l l' => ∀ n n', IsNumbered l.2 n → IsNumbered l'.2 n' → n ≤ n') →
    ∀ before offset line after, lines source = before ++ (offset, line) :: after →
      (∀ l ∈ before, ¬ IsNumbered l.2 goal) → IsNumbered line goal → m.step = m.executeAt offset
  /-- The search reads the program from line to line and ends where the program goes on. -/
  ends : m.place ≤ Text.byteLength source + 1 ∧ ∀ offset, m.Inspects offset →
    offset ≤ m.place ∧ offset < (boundary source offset).newline + 1

theorem SentTo.samePlace {m m' : Machine} {goal : Nat} (h : m.SentTo goal m') :
    SamePlace (m.goto goal) m' := by
  obtain ⟨hlt, hstep, c, hgoto | hgosub⟩ := h
  · rw [step_followAt_ok hlt hgoto rfl] at hstep
    cases hstep
    exact ⟨rfl, rfl, rfl⟩
  · have hfollow := m.followAt_gosub m.place c goal
    split at hfollow
    · rw [step_followAt_ok hlt hgosub hfollow] at hstep
      cases hstep
      exact ⟨rfl, rfl, rfl⟩
    · rw [step_followAt_error hlt hgosub hfollow] at hstep
      cases hstep

/-! ### Machines that were sent to a line -/

section Sent

variable {m₀ m : Machine} {goal : Nat}

theorem SamePlace.place_of_top (h : SamePlace (m₀.goto 0) m) : m.place = 0 := by
  rw [place, h.status]
  exact h.offset

theorem SamePlace.place_of_goal (h : SamePlace (m₀.goto goal) m) (hgoal : 1 ≤ goal) :
    m.place = Program.seekFrom goal 0 m₀.source := by
  have hstatus : m.status = .seeking goal := by
    rw [h.status, goto, if_neg (by omega)]
  have hoffset : m.offset = 0 := h.offset
  have hsource : m.source = m₀.source := h.source
  rw [place, hstatus, hoffset, hsource, Text.dropBytes_zero]

theorem stopsNext_of_le (h : Text.byteLength m.source ≤ m.place) : m.StopsNext := by
  rw [StopsNext, step, if_neg (Nat.not_lt.mpr h)]

/-- The first line that reaches the goal is the place of the machine. -/
theorem SamePlace.step_of_first (h : SamePlace (m₀.goto goal) m) (hgoal : 1 ≤ goal)
    {before after : List (Nat × Text)} {offset : Nat} {line : Text}
    (hlines : lines m₀.source = before ++ (offset, line) :: after)
    (hbefore : ∀ l ∈ before, ¬ Reaches goal l.2) (hline : Reaches goal line) :
    m.step = m.executeAt offset ∧
      firstStatement (Text.dropBytes offset m₀.source) = firstStatement line := by
  have hplace : m.place = offset :=
    (h.place_of_goal hgoal).trans (Program.seekFrom_eq_of_first m₀.source 0 hlines hbefore hline)
  have hmem : (offset, line) ∈ lines m₀.source := by simp [hlines]
  obtain ⟨front, back, hsource, hoffset, _, _, hback⟩ := Program.mem_placeLines m₀.source [] hmem
  have hlt : m.place < Text.byteLength m.source := by
    have hpos := Text.byteLength_pos hline.ne_nil
    have hlength : Text.byteLength m.source = Text.byteLength (front ++ line ++ back) :=
      congrArg Text.byteLength (h.source.trans hsource)
    rw [hplace, hlength, ← hoffset]
    simp only [List.nil_append, Text.byteLength_append]
    omega
  refine ⟨by rw [step, if_pos hlt, hplace], ?_⟩
  rw [List.nil_append] at hoffset
  rw [hsource, List.append_assoc, ← hoffset, Text.dropBytes_append]
  obtain rfl | hback := hback
  · rw [List.append_nil]
  · obtain ⟨rest, rfl⟩ := List.head?_eq_some_iff.mp hback
    exact Program.firstStatement_append line rest

theorem SamePlace.stopsNext_of_none (h : SamePlace (m₀.goto goal) m) (hgoal : 1 ≤ goal)
    (hnone : ∀ l ∈ lines m₀.source, ¬ Reaches goal l.2) : m.StopsNext := by
  have hle := Program.le_seekFrom_of_none m₀.source 0 hnone
  have hsource : m.source = m₀.source := h.source
  apply stopsNext_of_le
  rw [h.place_of_goal hgoal, hsource]
  omega

/-- No line reaches a number of five digits. -/
theorem SamePlace.stopsNext_of_gt (h : SamePlace (m₀.goto goal) m) (hgoal : 9999 < goal) :
    m.StopsNext := by
  apply h.stopsNext_of_none (by omega)
  rintro l _ ⟨n, hn, hle⟩
  have := Program.le_of_isNumbered hn
  omega

/-- Where numbers ascend, no line in front of the first one with the number asked for reaches it. -/
theorem SamePlace.step_of_exact (h : SamePlace (m₀.goto goal) m) (hgoal : 1 ≤ goal)
    (hascend : (lines m₀.source).Pairwise fun l l' =>
      ∀ n n', IsNumbered l.2 n → IsNumbered l'.2 n' → n ≤ n')
    {before after : List (Nat × Text)} {offset : Nat} {line : Text}
    (hlines : lines m₀.source = before ++ (offset, line) :: after)
    (hbefore : ∀ l ∈ before, ¬ IsNumbered l.2 goal) (hline : IsNumbered line goal) :
    m.step = m.executeAt offset := by
  refine (h.step_of_first hgoal hlines ?_ ⟨goal, hline, Nat.le_refl goal⟩).1
  rintro l hl ⟨n, hn, hle⟩
  rw [hlines, List.pairwise_append] at hascend
  have hge : n ≤ goal := hascend.2.2 l hl _ List.mem_cons_self n goal hn hline
  obtain rfl : n = goal := by omega
  exact hbefore l hl hn

/-- The search goes on from every line that it reads to the place where it ends. -/
theorem SamePlace.seekFrom_of_inspects (h : SamePlace (m₀.goto goal) m) (hgoal : 1 ≤ goal)
    {offset : Nat} (hi : m.Inspects offset) :
    IsStart m.source offset ∧
      Program.seekFrom goal offset (Text.dropBytes offset m.source) = m.place := by
  have hoffset : m.offset = 0 := h.offset
  have hseeking : m.status = .seeking goal := by
    rw [h.status, goto, if_neg (by omega)]
  induction hi with
  | here =>
    refine ⟨.inl hoffset, ?_⟩
    rw [place, hseeking]
  | @skip goal' offset hstatus _ hlt hnumber ih =>
    obtain rfl : goal = goal' := by
      rw [hseeking] at hstatus
      exact Status.seeking.inj hstatus
    obtain ⟨hstart, hseek⟩ := ih
    have hcut := hstart.isCut (Nat.le_of_lt hlt)
    refine ⟨hcut.isStart_newline, ?_⟩
    rw [Program.any_lineNumber?_iff] at hnumber
    rw [← hseek, Program.seekFrom_of_not_reaches offset (hcut.dropBytes_ne_nil hlt) hnumber,
      hcut.dropBytes_newline]
    rfl

/-- The search reads only up to its end, which is at most one behind the program. -/
theorem SamePlace.search_ends (h : SamePlace (m₀.goto goal) m) :
    m.place ≤ Text.byteLength m.source + 1 ∧ ∀ offset, m.Inspects offset → offset ≤ m.place := by
  have hsource : m.source = m₀.source := h.source
  by_cases hgoal : 1 ≤ goal
  · have hle := Program.seekFrom_le goal m₀.source 0
    refine ⟨by rw [h.place_of_goal hgoal, hsource]; omega, fun offset hi => ?_⟩
    rw [← (h.seekFrom_of_inspects hgoal hi).2]
    exact Program.le_seekFrom offset goal _
  · obtain rfl : goal = 0 := by omega
    rw [h.place_of_top]
    refine ⟨Nat.zero_le _, fun offset hi => ?_⟩
    cases hi with
    | here => exact Nat.le_of_eq h.offset
    | skip hstatus => exact absurd (h.status.symm.trans hstatus) (by simp [goto])

end Sent

/-- After a statement that asks for a line, whatever the host has done since but for a break, the
machine goes on where the request calls for. A `STOP` asks for a line that no program has. -/
theorem resolves_of_sentTo {m m₁ m' : Machine} {goal : Nat} (h : m.SentTo goal m₁)
    (hm : SamePlace m₁ m') :
    m'.Resolves m.source goal ∧
      ∀ nested args, Statement.perform nested .stop args = pure (.goto 10000) := by
  have hplace := h.samePlace.trans hm
  refine ⟨?_, fun _ _ => rfl⟩
  refine
    { top := fun htop => ?_
      first := fun hgoal _ _ _ _ => hplace.step_of_first hgoal
      stops := hplace.stopsNext_of_none
      stops_of_gt := hplace.stopsNext_of_gt
      exact_line := fun hgoal hascend _ _ _ _ => hplace.step_of_exact hgoal hascend
      ends := ?_ }
  · subst htop
    have hpos : 0 < Text.byteLength m'.source := by
      rw [hplace.source]
      exact Nat.zero_lt_of_lt h.1
    rw [step, hplace.place_of_top, if_pos hpos]
  · have hsource : m'.source = m.source := hplace.source
    obtain ⟨hle, hends⟩ := hplace.search_ends
    rw [hsource] at hle
    exact ⟨hle, fun offset hi => ⟨hends offset hi, by unfold boundary; dsimp only; omega⟩⟩

/-- A call of a line that does not exist goes to the next one that does. -/
theorem resolves_gosub :
    let m := load "10 GOSUB 25: LET A=1\n20 LET A=2\n 30 RETURN: LET A=3".toList .clear (.ofSeed 1)
    m.SentTo 25 m.step.2 ∧ m.step.2.step = m.step.2.executeAt 32 := by
  intro m
  have hcomes : ∃ args c, Statement.ComesTo (firstStatement (Text.dropBytes m.place m.source)) m.context
      .gosub args c ∧ Statement.lineTarget (args.number 0) = 25 :=
    ⟨_, _, .own ⟨⟨3, 8⟩, [⟨⟨9, 11⟩, .number ['2', '5']⟩], by decide +kernel, rfl⟩ (by simp),
      by decide +kernel⟩
  have hsent : m.SentTo 25 m.step.2 := by
    obtain ⟨args, c, hcomes, hline⟩ := hcomes
    have hflow : outcome (m.statementAt m.place) m.context =
        (.ok (.gosub (Statement.lineTarget (args.number 0))), c) :=
      outcome_statementAt_ok (hcomes.outcome_ok rfl)
    rw [hline] at hflow
    exact ⟨by decide +kernel, Prod.ext (show m.step.1 = none by decide +kernel) rfl, c, .inr hflow⟩
  have hresolves := (resolves_of_sentTo hsent ⟨rfl, rfl, rfl⟩).1
  have hlines : Program.lines m.source =
      [(0, "10 GOSUB 25: LET A=1".toList), (21, "20 LET A=2".toList)] ++
        (32, " 30 RETURN: LET A=3".toList) :: [] := by decide +kernel
  exact ⟨hsent, (hresolves.first (by decide) _ _ _ _ hlines (by decide +kernel) (by decide +kernel)).1⟩

end SpectrumBasic.Machine
