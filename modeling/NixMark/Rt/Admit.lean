import Mathlib.Algebra.Order.Ring.Nat

/-!
# Admission of real-time processes (`edfadmit` of `port/edf.c`)

`testschedulability` plays the releases and the deadlines of the admitted processes and of the
candidate from time 0 on, in the order of a list that `testenq` sorts, until the work that was
released fits in the time that passed. A `long` has 32 bits.

* `Test.step`: a round of the loop; `testloop`: its rounds, at most `Maxsteps`. An empty list is a
  nil dereference.
* `Test.Fits`: no sum that the rounds compute reaches 2^31.

The release that follows an admission, and the locks, are left out.
-/

namespace NixMark.Rt

/-- `100` periods of `200` processes -/
def Maxsteps : Nat := 200 * 100 * 2

/-- The events of the test, at one time the deadlines first. -/
inductive TestType where
  | Dl
  | Rl
deriving DecidableEq

def TestType.rank : TestType → Nat
  | .Dl => 0
  | .Rl => 1

/-- The parameters of a process, and its fields for the test. -/
structure Edf where
  D : BitVec 32
  T : BitVec 32
  C : BitVec 32
  admitted : Bool
  testtype : TestType
  testtime : BitVec 32
deriving DecidableEq

structure Proc where
  dead : Bool
  edf : Option Edf

variable {P : Type}

/-- The test in `testenq`: `p` goes before `xp`. -/
def before (e : P → Edf) (p xp : P) : Bool :=
  ((e p).testtime - (e xp).testtime).slt 0 ||
    ((e p).testtime == (e xp).testtime && (e p).testtype.rank < (e xp).testtype.rank)

def testenq (e : P → Edf) (p : P) : List P → List P
  | [] => [p]
  | xp :: q => if before e p xp then p :: xp :: q else xp :: testenq e p q

/-- The processes on `qschedulability`, and the sums of the costs that are released (`G`) and due
(`H`). -/
structure Test (P : Type) where
  edf : P → Edf
  q : List P
  H : BitVec 32
  G : BitVec 32

inductive Out (P : Type) where
  | stop (err : Option String)
  | next (st : Test P)

variable [DecidableEq P]

namespace Test

/-- The next event of `p`, which is not on the list. -/
def enq (st : Test P) (p : P) (type : TestType) (time : BitVec 32) : Test P :=
  let e := Function.update st.edf p { st.edf p with testtype := type, testtime := time }
  { st with edf := e, q := testenq e p st.q }

/-- A round: `p` was taken from the list. -/
def step (st : Test P) (p : P) : Out P :=
  let e := st.edf p
  let ticks := e.testtime
  match e.testtype with
  | .Dl =>
    if ticks.slt (st.H + e.C) then .stop (some "not schedulable")
    else .next (({ st with H := st.H + e.C } : Test P).enq p .Rl (ticks + (e.T - e.D)))
  | .Rl =>
    if ticks ≠ 0 ∧ st.G.sle ticks then .stop none
    else .next (({ st with G := st.G + e.C } : Test P).enq p .Dl (ticks + e.D))

/-- The sums of a round. -/
def sums (st : Test P) (p : P) : Nat × Nat :=
  let e := st.edf p
  match e.testtype with
  | .Dl => (st.H.toNat + e.C.toNat, e.testtime.toNat + (e.T - e.D).toNat)
  | .Rl => (st.G.toNat + e.C.toNat, e.testtime.toNat + e.D.toNat)

def Fits : Nat → Test P → Bool
  | 0, _ => true
  | n + 1, st =>
    match st.q with
    | [] => true
    | p :: q =>
      match ({ st with q := q } : Test P).step p with
      | .stop _ => true
      | .next st' => (st.sums p).1 < 2 ^ 31 && (st.sums p).2 < 2 ^ 31 && Fits n st'

end Test

def testloop : Nat → Test P → Option (Option String)
  | 0, _ => some (some "probably not schedulable")
  | n + 1, st =>
    match st.q with
    | [] => none
    | p :: q =>
      match ({ st with q := q } : Test P).step p with
      | .stop err => some err
      | .next st' => testloop n st'

def Proc.isAdmitted (p : Proc) : Bool := p.edf.any Edf.admitted

/-- A process that the test deals with. -/
def tested (procs : P → Proc) (theproc p : P) : Bool :=
  !(procs p).dead && ((procs p).isAdmitted || p == theproc)

/-- `p->edf`, of a process that has one. -/
def edfof (procs : P → Proc) (p : P) : Edf := (procs p).edf.getD ⟨0, 0, 0, false, .Rl, 0⟩

/-- The list before the first round. -/
def testinit (procs : P → Proc) (ps : List P) (theproc : P) : Test P :=
  (ps.filter (tested procs theproc)).foldl (fun st p => st.enq p .Rl 0)
    ⟨edfof procs, [], 0, 0⟩

/-- `none` is a nil dereference, and `some none` no error. -/
def testschedulability (procs : P → Proc) (ps : List P) (theproc : P) : Option (Option String) :=
  testloop Maxsteps (testinit procs ps theproc)

def setedf (procs : P → Proc) (p : P) (e : Edf) : P → Proc :=
  Function.update procs p { procs p with edf := some e }

/-- The error, and the processes. A deadline that is not set is set to the period. -/
def edfadmit (procs : P → Proc) (ps : List P) (p : P) : Option (Option String × (P → Proc)) :=
  match (procs p).edf with
  | none => none
  | some e =>
    if e.admitted then some (some "task state", procs)
    else if e.T = 0 then some (some "T not set", procs)
    else if e.C = 0 then some (some "C not set", procs)
    else if e.T.slt e.D then some (some "D > T", procs)
    else
      let e := if e.D = 0 then { e with D := e.T } else e
      let procs := setedf procs p e
      if e.D.slt e.C then some (some "C > D", procs)
      else
        (testschedulability procs ps p).map fun err =>
          match err with
          | some err => (some err, procs)
          | none => (none, setedf procs p { e with admitted := true })

end NixMark.Rt
