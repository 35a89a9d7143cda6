import Mathlib.Data.List.Basic

/-!
# Return from a note (`k10/syscall.c`)

The saved registers are in user memory, where other processes may write between any two accesses of
the kernel. The accesses of `noted` are numbered: before the one with number `k` the others write
`w k`.

* `Ureg`, `NFrame`: the registers and the frame; `Writes`: what the others write of it.
* `noted`, `notify`: the functions of the source; `resume`: the end of `syscall`.
-/

namespace NixMark.Note

abbrev u64int : Type := BitVec 64
abbrev u16int : Type := BitVec 16

/-- `SSEL(SiUCS, SsRPL3)` and `SSEL(SiUDS, SsRPL3)` -/
def UCS : Nat := 5 <<< 3 ||| 3
def UDS : Nat := 4 <<< 3 ||| 3

/-- `Of|Df|Sf|Zf|Af|Pf|Cf` -/
def USERFLAGS : u64int := 0x800 ||| 0x400 ||| 0x80 ||| 0x40 ||| 0x10 ||| 0x4 ||| 0x1

/-- `rest` are the registers that no function here looks at. -/
structure Ureg where
  rest : Nat → u64int
  bp : u64int
  ds : u16int
  es : u16int
  fs : u16int
  gs : u16int
  ip : u64int
  cs : u64int
  flags : u64int
  sp : u64int
  ss : u64int

/-- What is read of the frame, in user memory. -/
structure NFrame where
  old : u64int
  ureg : Ureg

/-- The words of the frame that others have written, with what they have written last. -/
structure Writes where
  rest : Nat → Option u64int
  bp : Option u64int
  ds : Option u16int
  es : Option u16int
  fs : Option u16int
  gs : Option u16int
  ip : Option u64int
  cs : Option u64int
  flags : Option u64int
  sp : Option u64int
  ss : Option u64int
  old : Option u64int

/-- The others write. -/
def NFrame.store (m : NFrame) (w : Writes) : NFrame where
  old := w.old.getD m.old
  ureg :=
    { rest := fun r => (w.rest r).getD (m.ureg.rest r)
      bp := w.bp.getD m.ureg.bp
      ds := w.ds.getD m.ureg.ds
      es := w.es.getD m.ureg.es
      fs := w.fs.getD m.ureg.fs
      gs := w.gs.getD m.ureg.gs
      ip := w.ip.getD m.ureg.ip
      cs := w.cs.getD m.ureg.cs
      flags := w.flags.getD m.ureg.flags
      sp := w.sp.getD m.ureg.sp
      ss := w.ss.getD m.ureg.ss }

def NFrame.setflags (m : NFrame) (flags : u64int) : NFrame :=
  { m with ureg := { m.ureg with flags := flags } }

inductive Flag where
  | NUser
  | NExit
  | NDebug
deriving DecidableEq

/-- What is used of `up`. `ureg` is the address of the frame, `notify` that of the handler, or 0. -/
structure Up where
  notified : Bool
  ureg : u64int
  notify : u64int
  note : List Flag
  lastnote : Flag

/-- Addresses: which are good, and the sizes and offsets of `NFrame`. -/
structure Space where
  okaddr : u64int → u64int → Bool → Bool
  nframe : u64int
  uregoff : u64int

def BY2SE : u64int := 8

def NCONT : Nat := 0
def NSAVE : Nat := 2
def NRSTR : Nat := 3

inductive Outcome where
  | pexit
  | cont (up : Up) (cur : Ureg)

/-- `memmove(cur, nur, sizeof(Ureg))`, from the access `k` on; with the frame that it leaves. -/
def copy (w : Nat → Writes) (m : NFrame) (k : Nat) : Ureg × NFrame :=
  let m₁ := m.store (w k)
  let m₂ := m₁.store (w (k + 1))
  let m₃ := m₂.store (w (k + 2))
  let m₄ := m₃.store (w (k + 3))
  let m₅ := m₄.store (w (k + 4))
  let m₆ := m₅.store (w (k + 5))
  let m₇ := m₆.store (w (k + 6))
  let m₈ := m₇.store (w (k + 7))
  let m₉ := m₈.store (w (k + 8))
  let m₁₀ := m₉.store (w (k + 9))
  let m₁₁ := m₁₀.store (w (k + 10))
  ({ rest := m₁.ureg.rest
     bp := m₂.ureg.bp
     ds := m₃.ureg.ds
     es := m₄.ureg.es
     fs := m₅.ureg.fs
     gs := m₆.ureg.gs
     ip := m₇.ureg.ip
     cs := m₈.ureg.cs
     flags := m₉.ureg.flags
     sp := m₁₀.ureg.sp
     ss := m₁₁.ureg.ss }, m₁₁)

/-- Return user to state before notify(). `m` is the frame at `up->ureg`. -/
def noted (S : Space) (w : Nat → Writes) (up : Up) (m : NFrame) (cur : Ureg) (arg0 : u64int) :
    Outcome :=
  if arg0 ≠ BitVec.ofNat 64 NRSTR ∧ up.notified = false then .pexit
  else
    let nf := up.ureg
    let up := { up with notified := false }
    if S.okaddr nf S.nframe false = false then .pexit
    else
      -- Check the segment selectors are all valid.
      let m₀ := m.store (w 0)
      let m₁ := m₀.store (w 1)
      let m₂ := m₁.store (w 2)
      let m₃ := m₂.store (w 3)
      let m₄ := m₃.store (w 4)
      let m₅ := m₄.store (w 5)
      if m₀.ureg.cs ≠ BitVec.ofNat 64 UCS ∨ m₁.ureg.ss ≠ BitVec.ofNat 64 UDS ∨
          m₂.ureg.ds ≠ BitVec.ofNat 16 UDS ∨ m₃.ureg.es ≠ BitVec.ofNat 16 UDS ∨
          m₄.ureg.fs ≠ BitVec.ofNat 16 UDS ∨ m₅.ureg.gs ≠ BitVec.ofNat 16 UDS then .pexit
      else
        -- don't let user change system flags
        let m₆ := m₅.store (w 6)
        let m₇ := (m₆.store (w 7)).setflags (m₆.ureg.flags &&& USERFLAGS)
        let m₈ := m₇.store (w 8)
        let m₉ := (m₈.store (w 9)).setflags (m₈.ureg.flags ||| (cur.flags &&& ~~~USERFLAGS))
        let (cur, m₂₀) := copy w m₉ 10
        let m₂₁ := m₂₀.store (w 21)
        let m₂₂ := m₂₁.store (w 22)
        let trap := S.okaddr m₂₁.ureg.ip BY2SE false = false ∨ S.okaddr m₂₂.ureg.sp BY2SE false = false
        let arg := (arg0.setWidth 32).toNat
        if arg = NCONT ∨ arg = NRSTR then
          if trap then .pexit else .cont { up with ureg := (m₂₂.store (w 23)).old } cur
        else if arg = NSAVE then
          if trap then .pexit else .cont up { cur with bp := nf + S.uregoff, sp := nf }
        else .pexit

/-- `none` when the process exits; otherwise the registers, and the frame that is put on the user's
stack if the handler is called. -/
def notify (S : Space) (up : Up) (ureg : Ureg) : Option (Up × Ureg × Option NFrame) :=
  match up.note with
  | [] => some (up, ureg, none)
  | flag :: note =>
    if flag ≠ .NUser ∧ (up.notified ∨ up.notify = 0) then none
    else if up.notified then some (up, ureg, none)
    else if up.notify = 0 then none
    else if S.okaddr up.notify 8 false = false then none
    else
      let sp := ureg.sp - S.nframe
      if S.okaddr sp S.nframe true = false then none
      else
        some
          ({ up with ureg := sp, notified := true, note := note, lastnote := flag },
            { ureg with bp := sp + S.uregoff, sp := sp, ip := up.notify },
            some { old := up.ureg, ureg := ureg })

/-- The end of `syscall` of `noted`: the registers that the process resumes with. `posted` are the
notes that have come meanwhile. -/
def resume (S : Space) (w : Nat → Writes) (up : Up) (m : NFrame) (cur : Ureg) (arg0 : u64int)
    (posted : List Flag) : Option Ureg :=
  match noted S w up m cur arg0 with
  | .pexit => none
  | .cont up cur => (notify S { up with note := up.note ++ posted } cur).map fun r => r.2.1

end NixMark.Note
