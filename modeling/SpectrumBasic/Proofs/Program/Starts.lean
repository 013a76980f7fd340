import SpectrumBasic.Proofs.Program.Walk

/-! Where the statements on a walk start. A statement is in a remark if one in front of it on its line
begins with `REM`, and the walk comes to all statements that are in none. -/

namespace SpectrumBasic

namespace Program

variable {t : Text} {p q : Nat}

/-! ### Statements of one line -/

section Line

theorem IsCut.le_byteLength (h : IsCut t p) : p ≤ Text.byteLength t := by
  obtain ⟨front, back, rfl, rfl⟩ := h
  rw [Text.byteLength_append]
  exact Nat.le_add_right _ _

theorem IsCut.exists_between (hp : IsCut t p) (hq : IsCut t q) (hle : p ≤ q) :
    ∃ middle, Text.dropBytes p t = middle ++ Text.dropBytes q t ∧ q = p + Text.byteLength middle := by
  obtain ⟨front, rest, rfl, rfl⟩ := hp
  obtain ⟨before, back, htext, rfl⟩ := hq
  rw [Text.dropBytes_append, htext, Text.dropBytes_append]
  obtain ⟨middle, rfl, rfl⟩ | ⟨extra, rfl, rfl⟩ := List.append_eq_append_iff.mp htext
  · exact ⟨middle, rfl, Text.byteLength_append _ _⟩
  · have hnil : extra = [] := by
      by_contra hne
      have := Text.byteLength_pos hne
      rw [Text.byteLength_append] at hle
      omega
    subst hnil
    exact ⟨[], by simp⟩

/-- Up to the first character without the property all cuts lie in front of the same one. -/
theorem IsCut.add_takeWhile_eq (hp : IsCut t p) (hq : IsCut t q) (hle : p ≤ q) (keep : Char → Bool)
    (hin : q ≤ p + Text.byteLength ((Text.dropBytes p t).takeWhile keep)) :
    q + Text.byteLength ((Text.dropBytes q t).takeWhile keep) =
      p + Text.byteLength ((Text.dropBytes p t).takeWhile keep) := by
  obtain ⟨middle, hdrop, rfl⟩ := hp.exists_between hq hle
  rw [hdrop] at hin ⊢
  obtain hall | ⟨c, rest, hmiddle, hc⟩ := Text.takeWhile_cases keep middle
  · rw [List.takeWhile_append_of_pos (List.takeWhile_eq_self_iff.mp hall), Text.byteLength_append]
    omega
  · -- The first character without the property would stand in front of `q`.
    have hcut : (middle ++ Text.dropBytes (p + Text.byteLength middle) t).takeWhile keep =
        middle.takeWhile keep := by
      rw [hmiddle, List.append_assoc, List.cons_append, Text.takeWhile_append_cons hc,
        Text.takeWhile_append_cons hc]
    have hsize := c.utf8Size_pos
    have hlength := congrArg Text.byteLength hmiddle
    rw [Text.byteLength_append, Text.byteLength_cons] at hlength
    rw [hcut] at hin
    omega

/-- All that is in front of the end of a statement is in the statement. -/
theorem IsCut.stop_eq (hp : IsCut t p) (hq : IsCut t q) (hle : p ≤ q)
    (hin : q ≤ (boundary t p).stop) : (boundary t q).stop = (boundary t p).stop :=
  hp.add_takeWhile_eq hq hle _ hin

/-- All that is in front of the end of a line is in the line. -/
theorem IsCut.newline_eq (hp : IsCut t p) (hq : IsCut t q) (hle : p ≤ q)
    (hin : q ≤ (boundary t p).newline) : (boundary t q).newline = (boundary t p).newline :=
  hp.add_takeWhile_eq hq hle _ hin

/-- No statement starts inside another one. -/
theorem IsStart.stop_lt (hq : IsStart t q) (hp : IsCut t p) (hlt : p < q) :
    (boundary t p).stop < q := by
  obtain rfl | rfl | ⟨before, c, after, rfl, hc, rfl⟩ := hq
  · omega
  · have := hp.boundary_stop.le_byteLength
    omega
  · by_contra hin
    have hstop : (boundary (before ++ c :: after) (Text.byteLength before)).stop =
        Text.byteLength before := by
      unfold boundary
      simp [Text.dropBytes_append, hc]
    have := hp.stop_eq ⟨before, c :: after, rfl, rfl⟩ (by omega) (by omega)
    omega

theorem IsCut.newline_newline (h : IsCut t p) :
    (boundary t (boundary t p).newline).newline = (boundary t p).newline :=
  h.newline_eq (h.add_takeWhile _) (Nat.le_add_right _ _) (Nat.le_refl _)

end Line

/-! ### Remarks -/

/-- The text of the statement at an offset. -/
def textAt (source : Text) (p : Nat) : Text := firstStatement (Text.dropBytes p source)

/-- A statement in front of the offset, on the same line, begins with `REM`. -/
def InRemark (source : Text) (p : Nat) : Prop :=
  ∃ r, IsStart source r ∧ r < p ∧ p ≤ (boundary source r).newline ∧
    beginsWith "REM" (textAt source r) = true

/-- A statement starts at the offset that is in no remark. -/
def Visible (source : Text) (p : Nat) : Prop := IsStart source p ∧ ¬ InRemark source p

variable {source : Text}

theorem visible_zero (source : Text) : Visible source 0 := by
  refine ⟨.inl rfl, ?_⟩
  rintro ⟨r, _, hlt, _⟩
  omega

/-- Lines start in no remark. -/
theorem IsCut.visible_newline (h : IsCut source p) :
    Visible source ((boundary source p).newline + 1) := by
  refine ⟨h.isStart_newline, ?_⟩
  rintro ⟨r, hr, hlt, hin, _⟩
  have hend : IsCut source (boundary source p).newline := h.add_takeWhile _
  have hle := hend.le_byteLength
  have hcut := hr.isCut (by omega)
  have := hcut.newline_eq hend (by omega) (by omega)
  rw [h.newline_newline] at this
  omega

theorem Visible.stop (h : Visible source p) (hle : p ≤ Text.byteLength source)
    (hremark : beginsWith "REM" (textAt source p) = false) :
    Visible source ((boundary source p).stop + 1) := by
  have hcut := h.1.isCut hle
  refine ⟨hcut.isStart_stop, ?_⟩
  rintro ⟨r, hr, hlt, hin, hbegins⟩
  have hstop := le_boundary_stop source p
  -- The remark has begun in front of `p` already, for no statement starts inside the one at `p`.
  have hpr : r < p := by
    by_contra hle
    obtain rfl | hpr := Nat.eq_or_lt_of_le (Nat.le_of_not_lt hle)
    · rw [hremark] at hbegins
      cases hbegins
    · have := hr.stop_lt hcut hpr
      omega
  exact h.2 ⟨r, hr, hpr, by omega, hbegins⟩

theorem Visible.nextStart (h : Visible source p) (hle : p ≤ Text.byteLength source) :
    Visible source (nextStart source p) := by
  unfold Program.nextStart
  split
  · exact (h.1.isCut hle).visible_newline
  · rename_i hremark
    exact h.stop hle (by simpa [textAt] using hremark)

/-! ### The starts on a walk -/

/-- The offsets of the statements of a program from an offset on. -/
def startsFrom (source : Text) (p : Nat) : List Nat :=
  if p < Text.byteLength source then p :: startsFrom source (nextStart source p) else []
termination_by Text.byteLength source - p
decreasing_by
  have := lt_nextStart source p
  omega

def starts (source : Text) : List Nat := startsFrom source 0

theorem walkFrom_eq_map (source : Text) (p : Nat) :
    walkFrom source p = (startsFrom source p).map (textAt source) := by
  fun_induction startsFrom source p with
  | case1 p hlt ih =>
    rw [walkFrom, if_pos hlt, ih]
    rfl
  | case2 p hle => rw [walkFrom, if_neg hle, List.map_nil]

/-- A walk leaves out no visible statement. -/
theorem Visible.nextStart_le (hq : Visible source q) (hp : IsStart source p)
    (hle : p ≤ Text.byteLength source) (hlt : p < q) : Program.nextStart source p ≤ q := by
  unfold Program.nextStart
  split
  · rename_i hremark
    by_contra hin
    exact hq.2 ⟨p, hp, hlt, by omega, hremark⟩
  · exact hq.1.stop_lt (hp.isCut hle) hlt

theorem mem_startsFrom_iff (hp : Visible source p) :
    q ∈ startsFrom source p ↔ Visible source q ∧ p ≤ q ∧ q < Text.byteLength source := by
  fun_induction startsFrom source p with
  | case1 p hlt ih =>
    have hnext := lt_nextStart source p
    have hin := Nat.le_of_lt hlt
    rw [List.mem_cons, ih (hp.nextStart hin)]
    constructor
    · rintro (rfl | ⟨hq, hle, hend⟩)
      · exact ⟨hp, Nat.le_refl q, hlt⟩
      · exact ⟨hq, by omega, hend⟩
    · rintro ⟨hq, hle, hend⟩
      obtain rfl | hpq := Nat.eq_or_lt_of_le hle
      · exact .inl rfl
      · exact .inr ⟨hq, hq.nextStart_le hp.1 hin hpq, hend⟩
  | case2 p hge =>
    constructor
    · intro h
      cases h
    · omega

theorem pairwise_startsFrom (hp : Visible source p) : (startsFrom source p).Pairwise (· < ·) := by
  fun_induction startsFrom source p with
  | case1 p hlt ih =>
    have hnext := hp.nextStart (Nat.le_of_lt hlt)
    refine List.pairwise_cons.mpr ⟨fun q hq => ?_, ih hnext⟩
    have hle := ((mem_startsFrom_iff hnext).mp hq).2.1
    have := lt_nextStart source p
    omega
  | case2 => exact .nil

/-- The walk comes to every statement that is in no remark, and to no other. -/
theorem mem_starts_iff : q ∈ starts source ↔ Visible source q ∧ q < Text.byteLength source := by
  rw [starts, mem_startsFrom_iff (visible_zero source)]
  simp

theorem pairwise_starts (source : Text) : (starts source).Pairwise (· < ·) :=
  pairwise_startsFrom (visible_zero source)

/-- Behind a statement on its line there is a remark if and only if one has begun since. -/
theorem Visible.inRemark_iff (h : Visible source p) (hlt : p < q)
    (hline : q ≤ (boundary source p).newline) (hend : q ≤ Text.byteLength source) :
    InRemark source q ↔
      ∃ r, IsStart source r ∧ p ≤ r ∧ r < q ∧ beginsWith "REM" (textAt source r) = true := by
  constructor
  · rintro ⟨r, hr, hrq, hin, hremark⟩
    refine ⟨r, hr, ?_, hrq, hremark⟩
    by_contra hrp
    exact h.2 ⟨r, hr, by omega, by omega, hremark⟩
  · rintro ⟨r, hr, hpr, hrq, hremark⟩
    have hnewline := (h.1.isCut (by omega)).newline_eq (hr.isCut (by omega)) hpr (by omega)
    exact ⟨r, hr, hrq, by omega, hremark⟩

/-- Behind a remark a walk goes on with the next line. -/
theorem newline_lt_of_mem_starts (hp : IsStart source p)
    (hremark : beginsWith "REM" (textAt source p) = true) (hq : q ∈ starts source) (hlt : p < q) :
    (boundary source p).newline < q := by
  by_contra hline
  exact (mem_starts_iff.mp hq).1.2 ⟨p, hp, hlt, by omega, hremark⟩

/-- Behind another statement it goes on along the line, up to a remark. -/
theorem Visible.mem_starts_line_iff (h : Visible source p)
    (hremark : beginsWith "REM" (textAt source p) ≠ true) (hq : IsStart source q) (hlt : p < q)
    (hline : q ≤ (boundary source p).newline) (hend : q < Text.byteLength source) :
    q ∈ starts source ↔
      ∀ r, IsStart source r → p < r → r < q → beginsWith "REM" (textAt source r) = false := by
  rw [mem_starts_iff, Visible, h.inRemark_iff hlt hline (Nat.le_of_lt hend)]
  constructor
  · rintro ⟨⟨_, hnone⟩, _⟩ r hr hpr hrq
    by_contra hbegins
    rw [Bool.not_eq_false] at hbegins
    exact hnone ⟨r, hr, Nat.le_of_lt hpr, hrq, hbegins⟩
  · intro hall
    refine ⟨⟨hq, ?_⟩, hend⟩
    rintro ⟨r, hr, hpr, hrq, hbegins⟩
    obtain rfl | hpr := Nat.eq_or_lt_of_le hpr
    · exact hremark hbegins
    · rw [hall r hr hpr hrq] at hbegins
      cases hbegins

end Program

/-- A harvest holds the numbers of all `DATA` that is in no remark, in the order of the program. -/
theorem DataCursor.values_of_harvest {source : Text} {cursor : DataCursor}
    (h : harvest source = .ok cursor) :
    cursor.values.toList =
      (Program.starts source).flatMap fun q => numbers (Program.textAt source q) := by
  rw [harvest_eq] at h
  obtain hall | ⟨text, t, hfirst⟩ := allData_or_firstOffence (Program.walk source)
  · rw [gather_of_allData hall] at h
    cases h
    rw [Program.walk, Program.walkFrom_eq_map, List.flatMap_map]
    rfl
  · rw [gather_of_firstOffence hfirst] at h
    cases h

end SpectrumBasic
