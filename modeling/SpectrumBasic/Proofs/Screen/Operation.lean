import SpectrumBasic.Screen.Display

/-! The operations on a display. Whatever an operation does, it comes down to settings, which leave
memory alone, to writes of single bytes, and to clearing the whole memory; a property that these
three keep is kept by every operation. None of them looks at the dirty range or the flash phase,
which only redraws do, and what they set does not depend on memory. -/

namespace SpectrumBasic.Screen

/-- What a program or a host may do with a display, redraws apart. -/
inductive Operation
  | ink (n : UInt8)
  | paper (n : UInt8)
  | bright (n : UInt8)
  | flash (n : UInt8)
  | setOver (on : Bool)
  | setInverse (on : Bool)
  | plot (p : Point)
  | line (p q : Point)
  | draw (dx dy : Float)
  | cls
  | poke (address : Int64) (value : UInt8)

def Operation.run : Operation → Display → Display
  | .ink n, d => d.ink n
  | .paper n, d => d.paper n
  | .bright n, d => d.bright n
  | .flash n, d => d.flash n
  | .setOver on, d => d.setOver on
  | .setInverse on, d => d.setInverse on
  | .plot p, d => d.plot p
  | .line p q, d => d.line p q
  | .draw dx dy, d => d.draw dx dy
  | .cls, d => d.cls
  | .poke address value, d => d.poke address value

def Operation.runAll (ops : List Operation) (d : Display) : Display :=
  ops.foldl (fun d o => o.run d) d

@[simp] theorem Operation.runAll_nil (d : Display) : runAll [] d = d := rfl

@[simp] theorem Operation.runAll_cons (o : Operation) (ops : List Operation) (d : Display) :
    runAll (o :: ops) d = runAll ops (o.run d) := rfl

theorem Operation.runAll_append (ops ops' : List Operation) (d : Display) :
    runAll (ops ++ ops') d = runAll ops' (runAll ops d) := List.foldl_append

/-- The displays differ at most in the attribute, the modes and the cursor. -/
def SameScreen (d d' : Display) : Prop :=
  d'.memory = d.memory ∧ d'.dirty = d.dirty ∧ d'.phase = d.phase

/-- A property of displays that settings, writes and clearing keep. -/
structure Kept (P : Display → Prop) : Prop where
  settings : ∀ d d', SameScreen d d' → P d → P d'
  write : ∀ d i value, P d → P (d.write i value)
  cls : ∀ d, P d → P d.cls

namespace Kept

variable {P : Display → Prop}

theorem visit (hP : Kept P) (p : Point) (d : Display) (h : P d) : P (d.visit p) := by
  unfold Display.visit
  split
  · exact hP.write _ _ _ (hP.write _ _ _ h)
  · exact h

theorem foldl_visit (hP : Kept P) (ps : List Point) (d : Display) (h : P d) :
    P (ps.foldl Display.visit d) := by
  induction ps generalizing d with
  | nil => exact h
  | cons p ps ih => exact ih _ (hP.visit p d h)

theorem line (hP : Kept P) (p q : Point) (d : Display) (h : P d) : P (d.line p q) := by
  unfold Display.line
  split
  · exact hP.settings ((stroke p q).foldl Display.visit d) _ ⟨rfl, rfl, rfl⟩
      (hP.foldl_visit (stroke p q) d h)
  · exact h

/-- What settings, writes and clearing keep, every operation keeps. -/
theorem run (hP : Kept P) (o : Operation) (d : Display) (h : P d) : P (o.run d) := by
  cases o with
  | plot p => exact hP.settings (d.visit p) _ ⟨rfl, rfl, rfl⟩ (hP.visit p d h)
  | line p q => exact hP.line p q d h
  | draw dx dy => exact hP.line _ _ d h
  | cls => exact hP.cls d h
  | poke address value =>
    show P (d.poke address value)
    unfold Display.poke
    dsimp only
    split
    · exact hP.write _ _ _ h
    · exact h
  | _ => exact hP.settings d _ ⟨rfl, rfl, rfl⟩ h

end Kept

theorem kept_phase (phase : Fin 64) : Kept fun d => d.phase = phase where
  settings _ _ h hd := h.2.2.trans hd
  write _ _ _ hd := hd
  cls _ hd := by
    unfold Display.cls
    exact hd

theorem Operation.phase_run (o : Operation) (d : Display) : (o.run d).phase = d.phase :=
  (kept_phase d.phase).run o d rfl

/-! ### What only redraws look at -/

/-- The display without its dirty range and flash phase. -/
def Display.settled (d : Display) : Display := { d with dirty := .empty, phase := ⟨0, by decide⟩ }

namespace Display

theorem settled_visit (p : Point) (d : Display) : (d.visit p).settled = (d.settled.visit p).settled := by
  unfold visit
  split <;> rfl

theorem settled_foldl_visit (ps : List Point) (d : Display) :
    (ps.foldl visit d).settled = (ps.foldl visit d.settled).settled := by
  induction ps generalizing d with
  | nil => rfl
  | cons p ps ih =>
    calc (ps.foldl visit (d.visit p)).settled
        = (ps.foldl visit (d.visit p).settled).settled := ih _
      _ = (ps.foldl visit (d.settled.visit p).settled).settled := by rw [settled_visit p d]
      _ = (ps.foldl visit (d.settled.visit p)).settled := (ih _).symm

theorem settled_line (p q : Point) (d : Display) :
    (d.line p q).settled = (d.settled.line p q).settled := by
  unfold line
  split
  · exact congrArg (fun e : Display => { e with cursor := q }) (settled_foldl_visit (stroke p q) d)
  · rfl

end Display

namespace Operation

theorem settled_run (o : Operation) (d : Display) :
    (o.run d).settled = (o.run d.settled).settled := by
  cases o with
  | plot p => exact congrArg (fun e : Display => { e with cursor := p }) (d.settled_visit p)
  | line p q => exact Display.settled_line p q d
  | draw dx dy => exact Display.settled_line _ _ d
  | poke address value =>
    simp only [run, Display.poke]
    split <;> rfl
  | cls =>
    simp only [run, Display.cls]
    rfl
  | _ => rfl

/-- Operations do the same to displays that differ only in what redraws look at. -/
theorem settled_runAll (ops : List Operation) {d e : Display} (h : d.settled = e.settled) :
    (runAll ops d).settled = (runAll ops e).settled := by
  induction ops generalizing d e with
  | nil => exact h
  | cons o ops ih =>
    apply ih
    rw [settled_run o d, settled_run o e, h]

end Operation

/-! ### What drawing depends on -/

/-- The attribute, the modes and the cursor of a display. -/
structure Settings where
  attr : UInt8
  overprint : Bool
  inverse : Bool
  cursor : Point

namespace Display

def settings (d : Display) : Settings := ⟨d.attr, d.overprint, d.inverse, d.cursor⟩

/-- At power on a display is set as a clear one is. -/
theorem settings_noisy (g : Generator) : (noisy g).settings = clear.settings := by
  simp only [settings, noisy, clear]

theorem settings_visit (p : Point) (d : Display) : (d.visit p).settings = d.settings := by
  unfold visit
  split <;> rfl

theorem settings_foldl_visit (ps : List Point) (d : Display) :
    (ps.foldl visit d).settings = d.settings := by
  induction ps generalizing d with
  | nil => rfl
  | cons p ps ih => exact (ih (d.visit p)).trans (settings_visit p d)

theorem settings_line (p q : Point) (d : Display) :
    (d.line p q).settings =
      if p.isFinite && q.isFinite then { d.settings with cursor := q } else d.settings := by
  unfold line
  split
  · exact congrArg (fun s : Settings => { s with cursor := q }) (settings_foldl_visit (stroke p q) d)
  · rfl

theorem settings_poke (address : Int64) (value : UInt8) (d : Display) :
    (d.poke address value).settings = d.settings := by
  unfold poke
  dsimp only
  split <;> rfl

/-- Clearing leaves nothing of what was in memory. -/
theorem settled_cls {d e : Display} (h : d.settings = e.settings) : d.cls.settled = e.cls.settled := by
  obtain ⟨memory, dirty, attr, overprint, inverse, cursor, phase⟩ := d
  obtain ⟨memory', dirty', attr', overprint', inverse', cursor', phase'⟩ := e
  obtain ⟨rfl, rfl, rfl, rfl⟩ := Settings.mk.inj h
  simp only [cls]
  rfl

end Display

namespace Operation

/-- What an operation sets does not depend on memory. -/
theorem settings_run (o : Operation) {d e : Display} (h : d.settings = e.settings) :
    (o.run d).settings = (o.run e).settings := by
  have hcursor : d.cursor = e.cursor := congrArg Settings.cursor h
  cases o with
  | plot p =>
    exact congrArg (fun s : Settings => { s with cursor := p })
      ((d.settings_visit p).trans (h.trans (e.settings_visit p).symm))
  | line p q => rw [run, run, Display.settings_line, Display.settings_line, h]
  | draw dx dy =>
    rw [run, run, Display.draw, Display.draw, Display.settings_line, Display.settings_line, h, hcursor]
  | poke address value => rw [run, run, Display.settings_poke, Display.settings_poke, h]
  | _ =>
    -- The others set what they set from the settings alone.
    obtain ⟨memory, dirty, attr, overprint, inverse, cursor, phase⟩ := d
    obtain ⟨memory', dirty', attr', overprint', inverse', cursor', phase'⟩ := e
    obtain ⟨rfl, rfl, rfl, rfl⟩ := Settings.mk.inj h
    rfl

theorem settings_runAll (ops : List Operation) {d e : Display} (h : d.settings = e.settings) :
    (runAll ops d).settings = (runAll ops e).settings := by
  induction ops generalizing d e with
  | nil => exact h
  | cons o ops ih => exact ih (settings_run o h)

end Operation

end SpectrumBasic.Screen
