import NixMark.Lib.Lts

/-!
# The floating point unit (`k10/fpu.c`)

The registers of a processor are saved when a process stops using them, and loaded when it uses them
again: `TS` is set, and the next instruction of the unit traps to `fpunm`. A save area is in a `Proc`;
a pointer to one is the number of that `Proc`. A `Proc` is used again when its process has exited.

* `fpunotify`, `fpunoted`, `fpusysrfork`, `fpusysrforkchild`, `fpuprocsave`, `fpusysprocsetup`,
  `fpumf`, `fpunm`: what they do for the process that a processor runs; `none` is a panic.
* `step`: the processors, which run processes; `had` is what a process should have in the registers,
  for the statements only: what its last instruction left there, or the initial ones.
-/

namespace NixMark.Fpu

/-- The registers, as `_fxsave` stores them. -/
structure Fxsave where
  fcw : UInt16 := 0
  fsw : UInt16 := 0
  ftw : UInt8 := 0
  fop : UInt16 := 0
  rip : UInt64 := 0
  rdp : UInt64 := 0
  mxcsr : UInt32 := 0
  /-- `st` and `xmm` -/
  data : List UInt8 := []
  deriving DecidableEq

def Sff : UInt16 := 0x40

/-- `Sff|P|U|O|Z|D|I` -/
def exceptions : UInt16 := 0x7f

/-- The processors. Bit 6 of the control word is reserved: a load of it makes no difference. -/
structure Hw where
  /-- the control word after a load -/
  load : UInt16 → UInt16
  idem : ∀ v, load (load v) = load v
  reserved : ∀ v, load (v &&& ~~~Sff) = load v
  /-- `m->mxcsrmask` -/
  mxcsrmask : Nat → UInt32
  /-- the bytes of `st` and `xmm` after a reset -/
  reset : List UInt8

/-- `PFPU.state` without `Hold` -/
inductive Use where
  | Init
  | Busy
  | Idle
  deriving DecidableEq

/-- `Proc`: `PFPU`, and what the scheduler knows. -/
structure Proc where
  fpustate : Use := .Init
  /-- `Hold` of `fpustate` -/
  hold : Bool := false
  fxsave : Fxsave := {}
  fpusave : Option Nat := none
  live : Bool := false
  kp : Bool := false
  /-- the processor that runs it -/
  mach : Option Nat := none
  /-- it is in `sysrfork` -/
  rforking : Bool := false
  had : Option Fxsave := none

structure Mach where
  up : Option Nat := none
  ts : Bool := true
  regs : Fxsave := {}

structure Sys where
  proc : Nat → Proc
  mach : Nat → Mach

namespace Sys

def setproc (s : Sys) (p : Nat) (f : Proc → Proc) : Sys :=
  { s with proc := Function.update s.proc p (f (s.proc p)) }

def setmach (s : Sys) (c : Nat) (f : Mach → Mach) : Sys :=
  { s with mach := Function.update s.mach c (f (s.mach c)) }

end Sys

variable (hw : Hw)

/-- `m->fcw`: `RCn|PCd|P|U|D` -/
def fcw : UInt16 := 0x0232

/-- `m->mxcsr`: `(Rn|Pm|Um|Dm) & m->mxcsrmask` -/
def mxcsr (c : Nat) : UInt32 := 0x1900 &&& hw.mxcsrmask c

/-- `_fninit(); _fwait(); _fldcw(m->fcw); _ldmxcsr(m->mxcsr)`: `st` and `xmm` keep their bytes. -/
def initialise (c : Nat) (r : Fxsave) : Fxsave :=
  { fcw := hw.load fcw, mxcsr := mxcsr hw c, data := r.data }

/-- `_fxsave(up->fpusave); _stts(); up->fpustate = Idle`; `_fxsave` traps when `TS` is set. -/
def save (s : Sys) (c p : Nat) : Option Sys :=
  if (s.mach c).ts then none
  else (s.proc p).fpusave.map fun q =>
    ((s.setproc q fun x => { x with fxsave := (s.mach c).regs }).setproc p fun x =>
      { x with fpustate := .Idle, hold := false }).setmach c fun x => { x with ts := true }

/-- `_clts(); _fnclex(); _stts(); p->fpustate = Init` -/
def disable (s : Sys) (c p : Nat) : Sys :=
  (s.setproc p fun x => { x with fpustate := .Init, hold := false, had := none }).setmach c fun x =>
    { x with ts := true, regs := { x.regs with fsw := x.regs.fsw &&& 0x7f00 } }

/-- The state is `Busy`, and the process does not handle a note. -/
def busy (x : Proc) : Bool := x.fpustate = .Busy && !x.hold

/-- `fpunotify` -/
def fpunotify (s : Sys) (c p : Nat) : Option Sys :=
  (if busy (s.proc p) then save s c p else some s).map fun s =>
    s.setproc p fun x => { x with hold := true }

/-- `fpunoted` -/
def fpunoted (s : Sys) (p : Nat) : Sys := s.setproc p fun x => { x with hold := false }

/-- `fpusysrfork` -/
def fpusysrfork (s : Sys) (c p : Nat) : Option Sys :=
  if busy (s.proc p) then save s c p else some s

/-- `fpusysrforkchild`, for the child `q` of the process `p`, which is `up` -/
def fpusysrforkchild (s : Sys) (q p : Nat) : Option Sys :=
  let s := s.setproc q fun x =>
    { x with
      fpustate := (s.proc p).fpustate, hold := (s.proc p).hold, fpusave := some p
      had := (s.proc p).had }
  if (s.proc q).fpustate = .Init ∧ (s.proc q).hold = false then some s
  else (s.proc p).fpusave.map fun a => s.setproc p fun x => { x with fxsave := (s.proc a).fxsave }

/-- `fpuprocsave` -/
def fpuprocsave (s : Sys) (moribund : Bool) (c p : Nat) : Option Sys :=
  if !busy (s.proc p) then some s
  else if moribund then some (disable s c p)
  else save s c p

/-- `fpusysprocsetup` -/
def fpusysprocsetup (s : Sys) (c p : Nat) : Sys :=
  if (s.proc p).fpustate = .Init ∧ (s.proc p).hold = false then s else disable s c p

/-- `fpumf` and `fpuxf` of a user process, without the note -/
def fpumf (s : Sys) (c p : Nat) : Option Sys := save s c p

/-- What a process should find that uses the unit for the first time. -/
def fresh (c : Nat) : Fxsave := { fcw := hw.load fcw, mxcsr := mxcsr hw c, data := hw.reset }

/-- `fpunm` of a user process, without the notes -/
def fpunm (s : Sys) (c p : Nat) : Option Sys :=
  if (s.proc p).hold then some s
  else
    match (s.proc p).fpustate with
    | .Busy => none
    | .Init =>
      some ((s.setproc p fun x =>
        { x with fpusave := some p, fpustate := .Busy, had := some (fresh hw c) }).setmach c fun x =>
          { x with ts := false, regs := initialise hw c x.regs })
    | .Idle =>
      (s.proc p).fpusave.map fun a =>
        let r := (s.proc a).fxsave
        if r.fsw &&& ~~~r.fcw &&& exceptions ≠ 0 then s
        else
          let r := { r with fcw := r.fcw &&& ~~~Sff }
          ((s.setproc a fun x => { x with fxsave := r }).setproc p fun x =>
            { x with fpustate := .Busy }).setmach c fun x =>
              { x with ts := false, regs := { r with fcw := hw.load r.fcw } }

/-! ## The processors -/

inductive Act where
  /-- the scheduler runs a process -/
  | dispatch (c p : Nat)
  /-- `sched` or `sleep` -/
  | sched (c : Nat)
  /-- `pexit` -/
  | exit (c : Nat)
  /-- an instruction of the unit, which leaves `r` in the registers -/
  | fp (c : Nat) (r : Fxsave)
  /-- an exception, `#MF` or `#XF` -/
  | except (c : Nat)
  | notify (c : Nat)
  | noted (c : Nat)
  /-- `sysrfork` starts, makes the child, and returns -/
  | rfork (c : Nat)
  | rforkchild (c q : Nat)
  | rforkret (c : Nat)
  | exec (c : Nat)
  /-- `kproc` -/
  | kproc (q : Nat)

/-- The user process that a processor runs, not in `sysrfork`. -/
def user (s : Sys) (c : Nat) : Option Nat :=
  (s.mach c).up.filter fun p => !(s.proc p).kp && !(s.proc p).rforking

/-- The process leaves the processor. -/
def leave (s : Sys) (c p : Nat) (live : Bool) : Sys :=
  (s.setproc p fun x => { x with mach := none, live := live }).setmach c fun x => { x with up := none }

/-- The registers after an instruction of a process. -/
def operate (s : Sys) (c p : Nat) (r : Fxsave) : Sys :=
  let r := { r with fcw := hw.load r.fcw }
  (s.setproc p fun x => { x with had := some r }).setmach c fun x => { x with regs := r }

def step (s : Sys) : Act → Option Sys
  | .dispatch c p =>
    if (s.mach c).up = none ∧ (s.proc p).live = true ∧ (s.proc p).mach = none then
      some ((s.setproc p fun x => { x with mach := some c }).setmach c fun x => { x with up := some p })
    else none
  | .sched c => (s.mach c).up.bind fun p =>
    (fpuprocsave s false c p).map fun s => leave s c p true
  | .exit c => (s.mach c).up.bind fun p =>
    (fpuprocsave s true c p).map fun s => leave s c p false
  | .fp c r => (user s c).bind fun p =>
    if (s.mach c).ts then fpunm hw s c p else some (operate hw s c p r)
  | .except c => (user s c).bind fun p => if (s.mach c).ts then none else fpumf s c p
  | .notify c => (user s c).bind fun p => fpunotify s c p
  | .noted c => (user s c).map fun p => fpunoted s p
  | .rfork c => (user s c).bind fun p => (fpusysrfork s c p).map fun s =>
    s.setproc p fun x => { x with rforking := true }
  | .rforkchild c q => (s.mach c).up.bind fun p =>
    if (s.proc p).rforking = true ∧ (s.proc q).live = false then
      (fpusysrforkchild s q p).map fun s =>
        s.setproc q fun x => { x with live := true, kp := false, rforking := false }
    else none
  | .rforkret c => (s.mach c).up.map fun p => s.setproc p fun x => { x with rforking := false }
  | .exec c => (user s c).map fun p => fpusysprocsetup s c p
  | .kproc q => if (s.proc q).live then none else
    some (s.setproc q fun x => { x with live := true, kp := true, rforking := false })

/-- The system: nothing has been used, and the first processes exist. -/
def fpu : Lib.Lts Sys Act where
  init s := (∀ p, ∃ live kp, s.proc p = { live := live, kp := kp }) ∧
    ∀ c, (s.mach c).up = none ∧ (s.mach c).ts = true
  step s a s' := step hw s a = some s'

end NixMark.Fpu
