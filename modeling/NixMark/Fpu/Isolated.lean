import NixMark.Fpu.Lazy

/-!
# The registers of a process are its own

`fpusysrforkchild` gives the child the save area of its parent, so two processes save their registers
in one place; and `fpunm` does not clear `st` and `xmm` for a new user. Otherwise a process finds what
it had.

* `Isolated`: what should hold; `Gentle`: the steps that keep it.
* `Inv`: what holds of each process, and of each processor and the process that it runs;
  `Inv.update` and `Inv.setproc` say how it survives a change of one of them.
* `isolated_exact`: the runs in which all steps are gentle, and what another step does.
-/

namespace NixMark.Fpu

open Lib

variable {hw : Hw} {s s' : Sys} {c d p q : Nat}

namespace Sys

variable {f : Proc → Proc} {g : Mach → Mach}

@[simp] theorem setproc_self : (s.setproc p f).proc p = f (s.proc p) := Function.update_self _ _ _

theorem setproc_ne (h : q ≠ p) : (s.setproc p f).proc q = s.proc q := Function.update_of_ne h _ _

@[simp] theorem setproc_mach : (s.setproc p f).mach = s.mach := rfl

@[simp] theorem setmach_self : (s.setmach c g).mach c = g (s.mach c) := Function.update_self _ _ _

theorem setmach_ne (h : d ≠ c) : (s.setmach c g).mach d = s.mach d := Function.update_of_ne h _ _

@[simp] theorem setmach_proc : (s.setmach c g).proc = s.proc := rfl

end Sys

open Sys

/-! ## What should hold -/

/-- The save area of a process is its own, the only user of a processor is the process that it runs,
and the registers are those that it should have. -/
structure Isolated (s : Sys) : Prop where
  own : ∀ p, (s.proc p).live = true → (s.proc p).fpustate ≠ .Init → (s.proc p).fpusave = some p
  busy : ∀ p, (s.proc p).live = true → (s.proc p).fpustate = .Busy → ∃ c, (s.mach c).up = some p
  alone : ∀ c d p, (s.mach c).up = some p → (s.mach d).up = some p → c = d
  finds : ∀ c p, (s.mach c).up = some p → (s.proc p).fpustate = .Busy →
    (s.proc p).had = some (s.mach c).regs

/-- A process forks before it uses the unit, and uses it first on a processor whose `st` and `xmm` are
as after a reset. -/
def Gentle (hw : Hw) (s : Sys) : Act → Prop
  | .rforkchild c _ => ∀ p ∈ (s.mach c).up, (s.proc p).fpustate = .Init
  | .fp c _ => ∀ p ∈ (s.mach c).up, (s.proc p).fpustate = .Init → (s.proc p).hold = false →
    (s.mach c).regs.data = hw.reset
  | _ => True

/-! ## The invariant -/

/-- What holds of each `Proc`. -/
structure Sane (hw : Hw) (p : Nat) (x : Proc) : Prop where
  own : x.fpustate ≠ .Init → x.fpusave = some p
  init : x.fpustate = .Init ↔ x.had = none
  idle : x.fpustate = .Idle → x.had = some x.fxsave
  busy : x.fpustate = .Busy → x.hold = false
  live : x.mach ≠ none → x.live = true
  load : ∀ r, x.had = some r → hw.load r.fcw = r.fcw

/-- A processor and the process that it runs. -/
structure Agrees (m : Mach) (x : Proc) : Prop where
  ts : m.ts = false ↔ x.fpustate = .Busy
  regs : x.fpustate = .Busy → x.had = some m.regs

structure Inv (hw : Hw) (s : Sys) : Prop where
  sane : ∀ p, Sane hw p (s.proc p)
  runs : ∀ c p, (s.mach c).up = some p ↔ (s.proc p).mach = some c
  agrees : ∀ c p, (s.mach c).up = some p → Agrees (s.mach c) (s.proc p)
  off : ∀ c, (s.mach c).up = none → (s.mach c).ts = true
  rest : ∀ p, (s.proc p).mach = none → (s.proc p).fpustate ≠ .Busy

theorem Inv.of_init (h : (fpu hw).init s) : Inv hw s := by
  obtain ⟨hp, hc⟩ := h
  have hproc : ∀ p, Sane hw p (s.proc p) ∧ (s.proc p).mach = none ∧
      (s.proc p).fpustate = .Init := by
    intro p
    obtain ⟨live, kp, e⟩ := hp p
    rw [e]
    exact ⟨⟨fun h => absurd rfl h, iff_of_true rfl rfl, nofun, nofun, fun h => absurd rfl h, nofun⟩,
      rfl, rfl⟩
  refine ⟨fun p => (hproc p).1, fun c p => ?_, fun c p h => ?_, fun c _ => (hc c).2, fun p _ h => ?_⟩
  · rw [(hc c).1, (hproc p).2.1]
    exact iff_of_false nofun nofun
  · rw [(hc c).1] at h
    cases h
  · rw [(hproc p).2.2] at h
    cases h

/-- A processor changes, and a process that it runs, or ran, or is to run. -/
theorem Inv.update (hi : Inv hw s) {f : Proc → Proc} {g : Mach → Mach}
    (hup : (s.mach c).up = some p ∨ (s.mach c).up = none ∧ (s.proc p).mach = none)
    (hs : Sane hw p (f (s.proc p)))
    (hgo : (g (s.mach c)).up = some p ∧ (f (s.proc p)).mach = some c ∧
        Agrees (g (s.mach c)) (f (s.proc p)) ∨
      (g (s.mach c)).up = none ∧ (f (s.proc p)).mach = none ∧ (g (s.mach c)).ts = true ∧
        (f (s.proc p)).fpustate ≠ .Busy) :
    Inv hw ((s.setproc p f).setmach c g) := by
  -- the other processors do not run the process
  have hother : ∀ d, (s.mach d).up = some p → d = c := by
    intro d hd
    have hd := (hi.runs d p).mp hd
    rcases hup with hup | ⟨-, hup⟩
    · exact Option.some.inj (hd.symm.trans ((hi.runs c p).mp hup))
    · rw [hup] at hd
      cases hd
  refine ⟨fun q => ?_, fun d q => ?_, fun d q hq => ?_, fun d hd => ?_, fun q hq => ?_⟩
  · rw [setmach_proc]
    by_cases hq : q = p
    · subst hq
      rw [setproc_self]
      exact hs
    · rw [setproc_ne hq]
      exact hi.sane q
  · rw [setmach_proc]
    by_cases hd : d = c <;> by_cases hq : q = p
    · subst hd hq
      rw [setmach_self, setproc_self, setproc_mach]
      rcases hgo with ⟨h₁, h₂, -⟩ | ⟨h₁, h₂, -⟩
      · exact iff_of_true h₁ h₂
      · rw [h₁, h₂]
        exact iff_of_false nofun nofun
    · subst hd
      rw [setmach_self, setproc_ne hq, setproc_mach]
      refine iff_of_false (fun h => ?_) fun h => ?_
      · rcases hgo with ⟨h₁, -⟩ | ⟨h₁, -⟩
        · exact hq (Option.some.inj (h.symm.trans h₁))
        · rw [h₁] at h
          cases h
      · have h := (hi.runs d q).mpr h
        rcases hup with hup | ⟨hup, -⟩
        · exact hq (Option.some.inj (h.symm.trans hup))
        · rw [hup] at h
          cases h
    · subst hq
      rw [setmach_ne hd, setproc_self, setproc_mach]
      refine iff_of_false (fun h => hd (hother d h)) fun h => ?_
      rcases hgo with ⟨-, h₂, -⟩ | ⟨-, h₂, -⟩
      · exact hd (Option.some.inj (h.symm.trans h₂))
      · rw [h₂] at h
        cases h
    · rw [setmach_ne hd, setproc_ne hq, setproc_mach]
      exact hi.runs d q
  · rw [setmach_proc]
    by_cases hd : d = c
    · subst hd
      rw [setmach_self, setproc_mach] at hq ⊢
      rcases hgo with ⟨h₁, -, ha⟩ | ⟨h₁, -⟩
      · obtain rfl : p = q := Option.some.inj (h₁.symm.trans hq)
        rw [setproc_self]
        exact ha
      · rw [h₁] at hq
        cases hq
    · rw [setmach_ne hd, setproc_mach] at hq ⊢
      have hqp : q ≠ p := by
        rintro rfl
        exact hd (hother d hq)
      rw [setproc_ne hqp]
      exact hi.agrees d q hq
  · by_cases hdc : d = c
    · subst hdc
      rw [setmach_self, setproc_mach] at hd ⊢
      rcases hgo with ⟨h₁, -⟩ | ⟨-, -, hts, -⟩
      · rw [h₁] at hd
        cases hd
      · exact hts
    · rw [setmach_ne hdc, setproc_mach] at hd ⊢
      exact hi.off d hd
  · rw [setmach_proc] at hq ⊢
    by_cases hqp : q = p
    · subst hqp
      rw [setproc_self] at hq ⊢
      rcases hgo with ⟨-, h₂, -⟩ | ⟨-, -, -, hb⟩
      · rw [h₂] at hq
        cases hq
      · exact hb
    · rw [setproc_ne hqp] at hq ⊢
      exact hi.rest q hq

/-- A processor changes with the process that it runs. -/
theorem Inv.both (hi : Inv hw s) (hup : (s.mach c).up = some p) {f : Proc → Proc} {g : Mach → Mach}
    (hs : Sane hw p (f (s.proc p))) (hmach : (f (s.proc p)).mach = (s.proc p).mach)
    (hg : (g (s.mach c)).up = (s.mach c).up) (ha : Agrees (g (s.mach c)) (f (s.proc p))) :
    Inv hw ((s.setproc p f).setmach c g) :=
  hi.update (.inl hup) hs (.inl ⟨hg.trans hup, hmach.trans ((hi.runs c p).mp hup), ha⟩)

/-- A process changes, but not for a processor that runs it. -/
theorem Inv.setproc (hi : Inv hw s) {f : Proc → Proc} (hs : Sane hw p (f (s.proc p)))
    (hmach : (f (s.proc p)).mach = (s.proc p).mach)
    (hsame : (f (s.proc p)).fpustate = (s.proc p).fpustate ∧ (f (s.proc p)).had = (s.proc p).had ∨
      (s.proc p).mach = none ∧ (f (s.proc p)).fpustate ≠ .Busy) : Inv hw (s.setproc p f) := by
  refine ⟨fun q => ?_, fun c q => ?_, fun c q hq => ?_, fun c => hi.off c, fun q hq => ?_⟩ <;>
    by_cases hqp : q = p
  · subst hqp
    rw [setproc_self]
    exact hs
  · rw [setproc_ne hqp]
    exact hi.sane q
  · subst hqp
    rw [setproc_self, hmach]
    exact hi.runs c q
  · rw [setproc_ne hqp]
    exact hi.runs c q
  · subst hqp
    have ha := hi.agrees c q hq
    rw [setproc_self, setproc_mach]
    rcases hsame with ⟨h₁, h₂⟩ | ⟨h₁, -⟩
    · exact ⟨by rw [h₁]; exact ha.ts, by rw [h₁, h₂]; exact ha.regs⟩
    · rw [(hi.runs c q).mp hq] at h₁
      cases h₁
  · rw [setproc_ne hqp]
    exact hi.agrees c q hq
  · subst hqp
    rw [setproc_self] at hq ⊢
    rcases hsame with ⟨h₁, -⟩ | ⟨-, h₂⟩
    · rw [h₁]
      exact hi.rest q (hmach.symm.trans hq)
    · exact h₂
  · rw [setproc_ne hqp] at hq ⊢
    exact hi.rest q hq

/-! ## What the functions keep -/

theorem setproc_setproc {f g : Proc → Proc} :
    (s.setproc p f).setproc p g = s.setproc p fun x => g (f x) := by
  simp only [Sys.setproc, Function.update_self, Function.update_idem]

/-- A process saves its registers in its own area. -/
theorem Inv.save (hi : Inv hw s) (hup : (s.mach c).up = some p) (h : save s c p = some s') :
    Inv hw s' ∧ (s'.mach c).up = some p ∧ (s'.proc p).fpustate = .Idle ∧ (s'.mach c).ts = true := by
  unfold Fpu.save at h
  split at h
  · cases h
  rename_i hts
  have ha := hi.agrees c p hup
  have hb : (s.proc p).fpustate = .Busy := ha.ts.mp (Bool.eq_false_iff.mpr hts)
  have hp := hi.sane p
  have hn : (s.proc p).fpustate ≠ .Init := by
    rw [hb]
    exact nofun
  rw [hp.own hn, Option.map_some, setproc_setproc] at h
  obtain rfl := Option.some.inj h
  refine ⟨hi.both hup ⟨fun _ => hp.own hn, ?_, fun _ => ha.regs hb, nofun, hp.live, hp.load⟩ rfl rfl
    ⟨iff_of_false nofun nofun, nofun⟩, ?_, ?_, ?_⟩
  · exact iff_of_false nofun fun h => hn (hp.init.mpr h)
  · rw [setmach_self, setproc_mach]
    exact hup
  · rw [setmach_proc, setproc_self]
  · rw [setmach_self]

/-- The process that a processor runs gives the unit up, for good. -/
theorem Inv.disable (hi : Inv hw s) (hup : (s.mach c).up = some p) :
    Inv hw (disable s c p) ∧ ((disable s c p).mach c).up = some p ∧
      ((disable s c p).proc p).fpustate = .Init ∧ ((disable s c p).mach c).ts = true := by
  unfold Fpu.disable
  refine ⟨hi.both hup ⟨fun h => absurd rfl h, iff_of_true rfl rfl, nofun, nofun, (hi.sane p).live,
    nofun⟩ rfl rfl ⟨iff_of_false nofun nofun, nofun⟩, ?_, ?_, ?_⟩
  · rw [setmach_self, setproc_mach]
    exact hup
  · rw [setmach_proc, setproc_self]
  · rw [setmach_self]

theorem Inv.not_busy (hi : Inv hw s) (h : busy (s.proc p) = false) : (s.proc p).fpustate ≠ .Busy := by
  intro hb
  rw [busy, hb, (hi.sane p).busy hb] at h
  cases h

/-- `fpusysrfork`, and the first part of `fpunotify`. -/
theorem Inv.idle (hi : Inv hw s) (hup : (s.mach c).up = some p)
    (h : (if busy (s.proc p) then Fpu.save s c p else some s) = some s') :
    Inv hw s' ∧ (s'.mach c).up = some p ∧ (s'.proc p).fpustate ≠ .Busy := by
  split at h
  · obtain ⟨h₁, h₂, h₃, -⟩ := hi.save hup h
    refine ⟨h₁, h₂, ?_⟩
    rw [h₃]
    exact nofun
  · rename_i hb
    cases h
    exact ⟨hi, hup, hi.not_busy (Bool.eq_false_iff.mpr hb)⟩

/-- `fpuprocsave` -/
theorem Inv.procsave (hi : Inv hw s) (hup : (s.mach c).up = some p) {moribund : Bool}
    (h : fpuprocsave s moribund c p = some s') :
    Inv hw s' ∧ (s'.mach c).up = some p ∧ (s'.proc p).fpustate ≠ .Busy ∧ (s'.mach c).ts = true := by
  unfold fpuprocsave at h
  split at h
  · rename_i hb
    cases h
    have hb := hi.not_busy (Bool.not_eq_true' _ ▸ hb)
    exact ⟨hi, hup, hb, Bool.not_eq_false _ ▸ fun h => hb ((hi.agrees c p hup).ts.mp h)⟩
  · split at h
    · cases h
      obtain ⟨h₁, h₂, h₃, h₄⟩ := hi.disable hup
      refine ⟨h₁, h₂, ?_, h₄⟩
      rw [h₃]
      exact nofun
    · obtain ⟨h₁, h₂, h₃, h₄⟩ := hi.save hup h
      refine ⟨h₁, h₂, ?_, h₄⟩
      rw [h₃]
      exact nofun

theorem initialise_eq {r : Fxsave} (h : r.data = hw.reset) : initialise hw c r = fresh hw c := by
  rw [initialise, h]
  rfl

/-- `fpunm`: a process uses the unit first on a processor that is as after a reset. -/
theorem Inv.nm (hi : Inv hw s) (hup : (s.mach c).up = some p)
    (hg : (s.proc p).fpustate = .Init → (s.proc p).hold = false → (s.mach c).regs.data = hw.reset)
    (h : fpunm hw s c p = some s') : Inv hw s' := by
  have hp := hi.sane p
  unfold fpunm at h
  split at h
  · cases h
    exact hi
  rename_i hhold
  have hhold := Bool.eq_false_iff.mpr hhold
  split at h
  · cases h
  · rename_i hinit
    obtain rfl := Option.some.inj h
    refine hi.both hup ⟨fun _ => rfl, iff_of_false nofun nofun, nofun, fun _ => hhold, hp.live, ?_⟩ rfl
      rfl ⟨iff_of_true rfl rfl, fun _ => ?_⟩
    · rintro r ⟨⟩
      exact hw.idem _
    · exact congrArg some (initialise_eq (hg hinit hhold)).symm
  · rename_i hidle
    have hown := hp.own (by rw [hidle]; exact nofun)
    rw [hown, Option.map_some] at h
    have h := Option.some.inj h
    dsimp only at h
    split at h
    · cases h
      exact hi
    rw [setproc_setproc] at h
    subst h
    have hhad := hp.idle hidle
    refine hi.both hup ⟨fun _ => hown, iff_of_false nofun (by rw [hhad]; exact nofun), nofun,
      fun _ => hhold, hp.live, hp.load⟩ rfl rfl ⟨iff_of_true rfl rfl, fun _ => ?_⟩
    -- the load ignores the bit that `fpunm` clears
    have hload := hp.load _ hhad
    rw [hhad]
    congr 1
    rw [hw.reserved, hload]

/-- An instruction of a process that has the unit. -/
theorem Inv.operate (hi : Inv hw s) (hup : (s.mach c).up = some p) (hts : (s.mach c).ts = false)
    (r : Fxsave) : Inv hw (operate hw s c p r) := by
  have hp := hi.sane p
  have ha := hi.agrees c p hup
  have hb := ha.ts.mp hts
  have hn : (s.proc p).fpustate ≠ .Init := by
    rw [hb]
    exact nofun
  unfold Fpu.operate
  refine hi.both hup ⟨hp.own, iff_of_false hn nofun, ?_, hp.busy, hp.live, ?_⟩ rfl rfl ⟨ha.ts, ?_⟩
  · intro h
    rw [hb] at h
    cases h
  · rintro r ⟨⟩
    exact hw.idem _
  · exact fun _ => rfl

/-- The process leaves its processor. -/
theorem Inv.leave (hi : Inv hw s) (hup : (s.mach c).up = some p)
    (hb : (s.proc p).fpustate ≠ .Busy) (hts : (s.mach c).ts = true) {live : Bool} :
    Inv hw (leave s c p live) := by
  have hp := hi.sane p
  exact hi.update (.inl hup) ⟨hp.own, hp.init, hp.idle, hp.busy, fun h => absurd rfl h, hp.load⟩
    (.inr ⟨rfl, rfl, hts, hb⟩)

/-- `fpusysrforkchild` of a parent that has not used the unit: the child gets no state, and what the
parent's area holds does not matter. -/
theorem Inv.rforkchild (hi : Inv hw s) (hup : (s.mach c).up = some p) (hq : (s.proc q).live = false)
    (hg : (s.proc p).fpustate = .Init) (h : fpusysrforkchild s q p = some s') :
    Inv hw (s'.setproc q fun x => { x with live := true, kp := false, rforking := false }) := by
  have hp := hi.sane p
  have hsq := hi.sane q
  have hnone : (s.proc q).mach = none := by
    by_contra hm
    rw [hsq.live hm] at hq
    cases hq
  have hqp : q ≠ p := by
    rintro rfl
    rw [(hi.runs c q).mp hup] at hnone
    cases hnone
  -- the child, the parent's area, and the child again
  have h₁ : Inv hw (s.setproc q fun x =>
      { x with
        fpustate := (s.proc p).fpustate, hold := (s.proc p).hold, fpusave := some p
        had := (s.proc p).had }) := by
    refine hi.setproc ⟨fun h => absurd hg h, hp.init, ?_, hp.busy, hsq.live, hp.load⟩ rfl
      (.inr ⟨hnone, ?_⟩)
    · intro h
      rw [hg] at h
      cases h
    · rw [hg]
      exact nofun
  have h₂ : Inv hw s' := by
    unfold fpusysrforkchild at h
    dsimp only at h
    split at h
    · obtain rfl := Option.some.inj h
      exact h₁
    · obtain ⟨a, -, rfl⟩ := Option.map_eq_some_iff.mp h
      have hp := h₁.sane p
      refine h₁.setproc ⟨hp.own, hp.init, ?_, hp.busy, hp.live, hp.load⟩ rfl (.inl ⟨rfl, rfl⟩)
      intro h
      rw [setproc_ne hqp.symm, hg] at h
      cases h
  have hq := h₂.sane q
  exact h₂.setproc ⟨hq.own, hq.init, hq.idle, hq.busy, fun _ => rfl, hq.load⟩ rfl (.inl ⟨rfl, rfl⟩)

/-! ## Runs -/

theorem user_up (h : user s c = some p) : (s.mach c).up = some p := (Option.mem_filter_iff.mp h).1

/-- A change of what the unit does not depend on. -/
theorem Inv.others (hi : Inv hw s) {f : Proc → Proc} (hs : Sane hw p (s.proc p) → Sane hw p (f (s.proc p)))
    (hmach : (f (s.proc p)).mach = (s.proc p).mach)
    (hstate : (f (s.proc p)).fpustate = (s.proc p).fpustate)
    (hhad : (f (s.proc p)).had = (s.proc p).had) : Inv hw (s.setproc p f) :=
  hi.setproc (hs (hi.sane p)) hmach (.inl ⟨hstate, hhad⟩)

theorem Inv.step (hi : Inv hw s) {a : Act} (hg : Gentle hw s a) (h : step hw s a = some s') :
    Inv hw s' := by
  cases a with
  | dispatch c p =>
    rw [Fpu.step] at h
    split at h
    · rename_i hc
      obtain ⟨hup, hlive, hm⟩ := hc
      obtain rfl := Option.some.inj h
      have hp := hi.sane p
      have hb := hi.rest p hm
      exact hi.update (.inr ⟨hup, hm⟩) ⟨hp.own, hp.init, hp.idle, hp.busy, fun _ => hlive, hp.load⟩
        (.inl ⟨rfl, rfl, iff_of_false (by simp [hi.off c hup]) hb, fun h => absurd h hb⟩)
    · cases h
  | sched c =>
    obtain ⟨p, hup, h⟩ := Option.bind_eq_some_iff.mp h
    obtain ⟨t, ht, rfl⟩ := Option.map_eq_some_iff.mp h
    obtain ⟨hi, hup, hb, hts⟩ := hi.procsave hup ht
    exact hi.leave hup hb hts
  | exit c =>
    obtain ⟨p, hup, h⟩ := Option.bind_eq_some_iff.mp h
    obtain ⟨t, ht, rfl⟩ := Option.map_eq_some_iff.mp h
    obtain ⟨hi, hup, hb, hts⟩ := hi.procsave hup ht
    exact hi.leave hup hb hts
  | fp c r =>
    obtain ⟨p, hup, h⟩ := Option.bind_eq_some_iff.mp h
    have hup := user_up hup
    split at h
    · exact hi.nm hup (hg p hup) h
    · rename_i hts
      obtain rfl := Option.some.inj h
      exact hi.operate hup (Bool.eq_false_iff.mpr hts) r
  | except c =>
    obtain ⟨p, hup, h⟩ := Option.bind_eq_some_iff.mp h
    split at h
    · cases h
    · exact (hi.save (user_up hup) h).1
  | notify c =>
    obtain ⟨p, hup, h⟩ := Option.bind_eq_some_iff.mp h
    obtain ⟨t, ht, rfl⟩ := Option.map_eq_some_iff.mp h
    obtain ⟨hi, -, hb⟩ := hi.idle (user_up hup) ht
    exact hi.others (fun hp => ⟨hp.own, hp.init, hp.idle, fun h => absurd h hb, hp.live, hp.load⟩)
      rfl rfl rfl
  | noted c =>
    obtain ⟨p, -, rfl⟩ := Option.map_eq_some_iff.mp h
    exact hi.others (fun hp => ⟨hp.own, hp.init, hp.idle, fun _ => rfl, hp.live, hp.load⟩) rfl rfl rfl
  | rfork c =>
    obtain ⟨p, hup, h⟩ := Option.bind_eq_some_iff.mp h
    obtain ⟨t, ht, rfl⟩ := Option.map_eq_some_iff.mp h
    obtain ⟨hi, -, -⟩ := hi.idle (user_up hup) ht
    exact hi.others (fun hp => ⟨hp.own, hp.init, hp.idle, hp.busy, hp.live, hp.load⟩) rfl rfl rfl
  | rforkchild c q =>
    obtain ⟨p, hup, h⟩ := Option.bind_eq_some_iff.mp h
    split at h
    · rename_i hc
      obtain ⟨t, ht, rfl⟩ := Option.map_eq_some_iff.mp h
      exact hi.rforkchild hup hc.2 (hg p hup) ht
    · cases h
  | rforkret c =>
    obtain ⟨p, -, rfl⟩ := Option.map_eq_some_iff.mp h
    exact hi.others (fun hp => ⟨hp.own, hp.init, hp.idle, hp.busy, hp.live, hp.load⟩) rfl rfl rfl
  | exec c =>
    obtain ⟨p, hup, rfl⟩ := Option.map_eq_some_iff.mp h
    unfold fpusysprocsetup
    split
    · exact hi
    · exact (hi.disable (user_up hup)).1
  | kproc q =>
    rw [Fpu.step] at h
    split at h
    · cases h
    · obtain rfl := Option.some.inj h
      exact hi.others (fun hp => ⟨hp.own, hp.init, hp.idle, hp.busy, fun _ => rfl, hp.load⟩) rfl rfl
        rfl

theorem Inv.inductive : ((fpu hw).restrict (Gentle hw)).Inductive (Inv hw) where
  init _ := Inv.of_init
  step _ _ _ hi h := hi.step h.2 h.1

theorem Inv.isolated (hi : Inv hw s) : Isolated s where
  own p _ := (hi.sane p).own
  busy p _ hb := by
    cases hm : (s.proc p).mach with
    | none => exact absurd hb (hi.rest p hm)
    | some c => exact ⟨c, (hi.runs c p).mpr hm⟩
  alone c d p hc hd := Option.some.inj (((hi.runs c p).mp hc).symm.trans ((hi.runs d p).mp hd))
  finds c p hup := (hi.agrees c p hup).regs

/-- A child of a process that has used the unit has its parent's area. -/
theorem shares (hi : Inv hw s) (hup : (s.mach c).up = some p) (hg : (s.proc p).fpustate ≠ .Init)
    (h : Fpu.step hw s (.rforkchild c q) = some s') : ¬ Isolated s' := by
  intro hiso
  obtain ⟨r, hr, h⟩ := Option.bind_eq_some_iff.mp h
  obtain rfl : p = r := Option.some.inj (hup.symm.trans hr)
  split at h
  on_goal 2 => cases h
  rename_i hc
  obtain ⟨t, ht, rfl⟩ := Option.map_eq_some_iff.mp h
  have hqp : q ≠ p := by
    rintro rfl
    have hlive := (hi.sane q).live (by rw [(hi.runs c q).mp hup]; exact nofun)
    rw [hc.2] at hlive
    cases hlive
  -- the area of the parent may be written, but not the child's `Proc`
  have hq : (t.proc q).fpustate = (s.proc p).fpustate ∧ (t.proc q).fpusave = some p := by
    unfold fpusysrforkchild at ht
    dsimp only at ht
    split at ht
    · obtain rfl := Option.some.inj ht
      rw [setproc_self]
      exact ⟨rfl, rfl⟩
    · obtain ⟨a, -, rfl⟩ := Option.map_eq_some_iff.mp ht
      rw [setproc_ne hqp, setproc_self]
      exact ⟨rfl, rfl⟩
  have hown := hiso.own q (by rw [setproc_self])
  rw [setproc_self] at hown
  exact hqp (Option.some.inj ((hown (hq.1 ▸ hg)).symm.trans hq.2))

/-- A process that uses the unit first finds `st` and `xmm` as they were. -/
theorem leaks (hi : Inv hw s) (hup : (s.mach c).up = some p) (hinit : (s.proc p).fpustate = .Init)
    (hhold : (s.proc p).hold = false) (hdata : (s.mach c).regs.data ≠ hw.reset) {r : Fxsave}
    (h : Fpu.step hw s (.fp c r) = some s') : ¬ Isolated s' := by
  intro hiso
  obtain ⟨q, hq, h⟩ := Option.bind_eq_some_iff.mp h
  obtain rfl : p = q := Option.some.inj (hup.symm.trans (user_up hq))
  have hts : (s.mach c).ts = true := by
    by_contra hts
    have hb := (hi.agrees c p hup).ts.mp (Bool.eq_false_iff.mpr hts)
    rw [hinit] at hb
    cases hb
  rw [if_pos hts, fpunm, if_neg (Bool.eq_false_iff.mp hhold), hinit] at h
  obtain rfl := Option.some.inj h
  have hfinds := hiso.finds c p (by rw [setmach_self, setproc_mach]; exact hup)
    (by rw [setmach_proc, setproc_self])
  rw [setmach_proc, setproc_self, setmach_self, setproc_mach] at hfinds
  exact hdata (congrArg Fxsave.data (Option.some.inj hfinds)).symm

/-- In every run whose processes fork before they use the unit, and use it first on processors that
nothing has used, each process has its own area and its own registers; and one other step ends it. -/
theorem isolated_exact (hw : Hw) :
    (∀ s, ((fpu hw).restrict (Gentle hw)).Reach s → Isolated s) ∧
    ∀ s a s', ((fpu hw).restrict (Gentle hw)).Reach s → step hw s a = some s' → ¬ Gentle hw s a →
      ¬ Isolated s' := by
  refine ⟨fun s h => (Inv.inductive.reach h).isolated, fun s a s' h hs hg => ?_⟩
  have hi := Inv.inductive.reach h
  cases a with
  | rforkchild c q =>
    simp only [Gentle, not_forall] at hg
    obtain ⟨p, hup, hg⟩ := hg
    exact shares hi hup hg hs
  | fp c r =>
    simp only [Gentle, not_forall] at hg
    obtain ⟨p, hup, hinit, hhold, hg⟩ := hg
    exact leaks hi hup hinit hhold hg hs
  | _ => exact absurd trivial hg

theorem and_not_or (v w : UInt16) : v &&& ~~~w ||| w = v ||| w := by
  refine UInt16.toBitVec_inj.mp (BitVec.eq_of_getElem_eq fun i h => ?_)
  simp only [UInt16.toBitVec_or, UInt16.toBitVec_and, UInt16.toBitVec_not, BitVec.getElem_or,
    BitVec.getElem_and, BitVec.getElem_not]
  cases v.toBitVec[i] <;> cases w.toBitVec[i] <;> rfl

/-- Bit 6 of the control word is always set, and a reset clears `st` and `xmm`. -/
def processors : Hw where
  load v := v ||| Sff
  idem v := by rw [UInt16.or_assoc, UInt16.or_self]
  reserved v := and_not_or v Sff
  mxcsrmask _ := 0xffbf
  reset := []

/-- Three processes, two of which exist. -/
private def booted : Sys where
  proc p := { live := p < 2 }
  mach _ := {}

theorem booted_init : (fpu processors).init booted :=
  ⟨fun p => ⟨decide (p < 2), false, rfl⟩, fun _ => ⟨rfl, rfl⟩⟩

/-- The child of a process that has used the unit finds what its parent left there after it. -/
theorem isolated_fails : ¬ ∀ hw s, (fpu hw).Reach s → Isolated s := by
  intro h
  let acts : List Act := [.dispatch 0 0, .fp 0 {}, .fp 0 { data := [1] }, .rfork 0, .rforkchild 0 2,
    .rforkret 0, .fp 0 {}, .fp 0 { data := [2] }, .sched 0, .dispatch 0 2, .fp 0 {}]
  have hrun : (acts.foldlM (step processors) booted).any (fun s =>
      (s.mach 0).up = some 2 ∧ (s.proc 2).fpustate = .Busy ∧
        (s.proc 2).had ≠ some (s.mach 0).regs) = true := by
    decide +kernel
  obtain ⟨s, hs, hfind⟩ := (Option.any_eq_true _ _).mp hrun
  obtain ⟨hup, hb, hne⟩ := of_decide_eq_true hfind
  exact hne ((h processors s (Lts.Reach.exec (fun _ _ _ h => h) ⟨[], .init booted_init⟩ hs)).finds
    0 2 hup hb)

end NixMark.Fpu
