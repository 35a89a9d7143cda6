import NixMark.Lib.Lts
import NixMark.Lib.Mutex
import NixMark.Heap.Units

/-!
# The locks of the heap

Any number of processors run `malloc`, `mallocalign`, `realloc` and `free` of the heap. `mainlock`
protects `mseg`, the tails and the rover lists; `mclock`, local to `morecore`, lets one processor at
a time add a segment. A step is one statement. What a search finds is left open: the step's label
says it.

* `Pc.next`: the control flow, with what each statement does to the locks. `morecore` has four
  returns: the size is refused, `mclock` is busy, `newpg` finds no page, and a segment is added.
* `Locked`: only the holder of `mainlock` touches the heap and unlocks it, and it holds it when
  `morecore` returns.
* `locked_of_granted`: so it is while `morecore` gets `mclock` at once and its page.
  `heap_unlocked`: a run of two processors in which it is not.
-/

namespace NixMark.Heap

open Lib

/-! ## The control flow -/

/-- Who waits for the block. -/
inductive Caller
  /-- `malloc` and `mallocalign`. -/
  | user
  /-- `realloc`, which copies and frees the old block. -/
  | realloc
  deriving DecidableEq

/-- A call of `qmalloc` or `qmallocalign`. -/
structure Req where
  caller : Caller
  nunits : Nat
  /-- The units asked of `morecore`. -/
  more : Nat
  deriving DecidableEq

/-- The statements, by function; `mc` counts the calls of `morecore`. -/
inductive Pc
  | idle
  | panicked
  -- qmalloc and qmallocalign
  /-- The quick lists, each under its own lock. -/
  | quick (r : Req)
  /-- `ilock(&mainlock); mc = 0`. -/
  | ilock (r : Req)
  /-- The next segment of the search for a tail. -/
  | tail (r : Req) (mc : Nat)
  /-- `tailalloc`, and `qfreeinternal` of the residue. -/
  | tailalloc (r : Req)
  /-- The next fragment of the search of the rover lists. -/
  | rover (r : Req) (mc : Nat)
  /-- A fragment is cut or taken from its list, and its residues are freed. -/
  | take (r : Req)
  /-- `if(mc++ < 3 && morecore(...) == 0)`. -/
  | more (r : Req) (mc : Nat)
  /-- `iunlock(&mainlock)`, with a block to return or before `panic(Enomem)`. -/
  | iunlock (r : Req) (found : Bool)
  -- morecore
  /-- `if(mallocpgsz/Unitsz < nunits)`. -/
  | mcsize (r : Req) (mc : Nat)
  | mciunlock (r : Req) (mc : Nat)
  | mccanlock (r : Req) (mc : Nat)
  /-- `if(up) sched()`, for the processor that lost the race. -/
  | mcsched (r : Req) (mc : Nat)
  | mclock (r : Req) (mc : Nat)
  | mcunlock (r : Req) (mc : Nat)
  | mcnewpg (r : Req) (mc : Nat)
  /-- `unlock(&mclock)`, when there is no page. -/
  | mcnocore (r : Req) (mc : Nat)
  | mcilock (r : Req) (mc : Nat)
  /-- `mallocinitseg`, the links and `mseg = &mseg0`. -/
  | mcinitseg (r : Req) (mc : Nat)
  /-- `unlock(&mclock)`, when the segment is added. -/
  | mcdone (r : Req) (mc : Nat)
  /-- `morecore` returns `v`. -/
  | mcreturn (r : Req) (mc : Nat) (v : Int)
  -- free
  | frilock
  /-- The next segment of the search for the one that holds `ap`. -/
  | frseg
  /-- `qfreeinternal(ap, 1)`. -/
  | frinternal
  | friunlock
  -- realloc
  /-- The checks of the header and of the end tag, and the new units against the old ones. -/
  | recheck (size : Nat)
  | reilock (size : Nat)
  /-- The next segment of the search for a tail that the block abuts. -/
  | retail (size : Nat)
  /-- The block and `tailptr` are moved up. -/
  | reextend
  | reiunlock (size : Nat) (found : Bool)
  /-- `memmove`. -/
  | recopy
  deriving DecidableEq

/-- A call; `none` is a nil pointer. -/
inductive Call
  | malloc (nbytes : Nat)
  | mallocalign (nbytes align : Nat) (offset : Int) (span : Nat)
  | free (ap : Option Nat)
  | realloc (ap : Option Nat) (size : Nat)
  deriving DecidableEq

/-- What a step is told: a call, and what a test finds in the heap. -/
inductive Act
  | call (op : Call)
  | go
  /-- The search, or `newpg`, has found it. -/
  | hit
  /-- The search looks at the next place. -/
  | skip
  /-- The search is at its end, `newpg` returns nil, or `canlock` fails. -/
  | miss
  /-- A check of the arena fails. -/
  | bad
  deriving DecidableEq

/-- What a statement does to the locks. `iunlock` and `unlock` clear the lock, whoever holds it. -/
inductive LockOp
  | nop
  /-- `ilock(&mainlock)` waits until the lock is free. -/
  | ilock
  | iunlock
  /-- `lock(&mclock)`, and a `canlock(&mclock)` that succeeds. -/
  | lock
  /-- A `canlock(&mclock)` that fails. -/
  | glare
  | unlock
  deriving DecidableEq

/-- `qmalloc`; it returns nil for no bytes, which `setmalloctag` refuses. -/
def qmallocEntry (caller : Caller) (nbytes : Nat) : Pc :=
  if nbytes = 0 then .panicked
  else .quick { caller := caller, nunits := NUNITS nbytes, more := NUNITS nbytes }

/-- `qmallocalign`, which leaves a small alignment to `malloc`. -/
def qmallocalignEntry (nbytes align : Nat) : Pc :=
  if nbytes = 0 then .panicked
  else if align &&& (align - 1) ≠ 0 then .panicked
  else if align ≤ Unitsz then qmallocEntry .user nbytes
  else .quick { caller := .user, nunits := NUNITS nbytes,
                more := usize (NUNITS nbytes + HOWMANY align Unitsz) }

def mallocalignEntry (nbytes align : Nat) (offset : Int) (span : Nat) : Pc :=
  if span ≠ 0 ∧ align ≤ span then
    if span < nbytes then .idle
    else if offset ≠ 0 then .panicked
    else qmallocalignEntry nbytes span
  else if offset ≠ 0 ∨ span ≠ 0 then .panicked
  else qmallocalignEntry nbytes align

def freeEntry : Option Nat → Pc
  | none => .idle
  | some _ => .frilock

def Call.entry : Call → Pc
  | .malloc nbytes => qmallocEntry .user nbytes
  | .mallocalign nbytes align offset span => mallocalignEntry nbytes align offset span
  | .free ap => freeEntry ap
  | .realloc ap size =>
    if size = 0 then freeEntry ap
    else if ap = none then qmallocEntry .user size
    else .recheck size

/-- Where the block goes. -/
def Req.done (r : Req) : Pc :=
  match r.caller with
  | .user => .idle
  | .realloc => .recopy

/-- The statement at a place, and the next place. -/
def Pc.next : Pc → Act → Option (LockOp × Pc)
  | .idle, .call op => some (.nop, op.entry)
  | .quick r, .hit => some (.nop, r.done)
  | .quick r, .miss => some (.nop, .ilock r)
  | .quick _, .bad => some (.nop, .panicked)
  | .ilock r, .go => some (.ilock, .tail r 0)
  | .tail r _, .hit => some (.nop, .tailalloc r)
  | .tail r mc, .skip => some (.nop, .tail r mc)
  | .tail r mc, .miss => some (.nop, .rover r mc)
  | .tailalloc r, .go => some (.nop, .iunlock r true)
  | .tailalloc _, .bad => some (.nop, .panicked)
  | .rover r _, .hit => some (.nop, .take r)
  | .rover r mc, .skip => some (.nop, .rover r mc)
  | .rover r mc, .miss => some (.nop, .more r mc)
  | .take r, .go => some (.nop, .iunlock r true)
  | .take _, .bad => some (.nop, .panicked)
  | .more r mc, .go => some (.nop, if mc < 3 then .mcsize r (mc + 1) else .iunlock r false)
  | .iunlock r found, .go => some (.iunlock, if found then r.done else .panicked)
  | .mcsize r mc, .go =>
    some (.nop, if mallocpgsz / Unitsz < r.more then .mcreturn r mc (-1) else .mciunlock r mc)
  | .mciunlock r mc, .go => some (.iunlock, .mccanlock r mc)
  | .mccanlock r mc, .hit => some (.lock, .mcnewpg r mc)
  | .mccanlock r mc, .miss => some (.glare, .mcsched r mc)
  | .mcsched r mc, .go => some (.nop, .mclock r mc)
  | .mclock r mc, .go => some (.lock, .mcunlock r mc)
  | .mcunlock r mc, .go => some (.unlock, .mcreturn r mc 0)
  | .mcnewpg r mc, .hit => some (.nop, .mcilock r mc)
  | .mcnewpg r mc, .miss => some (.nop, .mcnocore r mc)
  | .mcnocore r mc, .go => some (.unlock, .mcreturn r mc (-1))
  | .mcilock r mc, .go => some (.ilock, .mcinitseg r mc)
  | .mcinitseg r mc, .go => some (.nop, .mcdone r mc)
  | .mcdone r mc, .go => some (.unlock, .mcreturn r mc 0)
  | .mcreturn r mc v, .go => some (.nop, if v = 0 then .tail r mc else .iunlock r false)
  | .frilock, .go => some (.ilock, .frseg)
  | .frseg, .hit => some (.nop, .frinternal)
  | .frseg, .skip => some (.nop, .frseg)
  | .frseg, .miss => some (.nop, .panicked)
  | .frinternal, .go => some (.nop, .friunlock)
  | .frinternal, .bad => some (.nop, .panicked)
  | .friunlock, .go => some (.iunlock, .idle)
  | .recheck _, .hit => some (.nop, .idle)
  | .recheck size, .miss => some (.nop, .reilock size)
  | .recheck _, .bad => some (.nop, .panicked)
  | .reilock size, .go => some (.ilock, .retail size)
  | .retail _, .hit => some (.nop, .reextend)
  | .retail size, .skip => some (.nop, .retail size)
  | .retail size, .miss => some (.nop, .reiunlock size false)
  | .reextend, .go => some (.nop, .reiunlock 0 true)
  | .reiunlock size found, .go =>
    some (.iunlock, if found then .idle else qmallocEntry .realloc size)
  | .recopy, .go => some (.nop, .frilock)
  | _, _ => none

/-- The statement reads or changes `mseg`, a `tailptr` or a rover list. -/
def Pc.touches : Pc → Bool
  | .tail .. | .tailalloc _ | .rover .. | .take _ | .mcinitseg .. | .frseg | .frinternal
  | .retail _ | .reextend => true
  | _ => false

/-- The statement is `iunlock(&mainlock)`. -/
def Pc.unlocks : Pc → Bool
  | .iunlock .. | .mciunlock .. | .friunlock | .reiunlock .. => true
  | _ => false

/-- `morecore` returns. -/
def Pc.returns : Pc → Bool
  | .mcreturn .. => true
  | _ => false

/-! ## The processors -/

/-- The locks, with their holders, and the processors. -/
structure Cpus (P : Type) where
  mainlock : Option P
  mclock : Option P
  pc : P → Pc

variable {P : Type} [DecidableEq P]

def LockOp.run (op : LockOp) (i : P) (s : Cpus P) : Option (Cpus P) :=
  match op with
  | .nop => some s
  | .ilock => if s.mainlock = none then some { s with mainlock := some i } else none
  | .iunlock => some { s with mainlock := none }
  | .lock => if s.mclock = none then some { s with mclock := some i } else none
  | .glare => if s.mclock = none then none else some s
  | .unlock => some { s with mclock := none }

/-- A step of processor `i`; there is none while it waits for a lock. -/
def Cpus.step (s : Cpus P) (i : P) (a : Act) : Option (Cpus P) :=
  match (s.pc i).next a with
  | none => none
  | some (op, p) => (op.run i s).map fun s' => { s' with pc := Function.update s.pc i p }

/-- The processors call and run in any order. -/
def cpus (P : Type) [DecidableEq P] : Lts (Cpus P) (P × Act) where
  init s := s = { mainlock := none, mclock := none, pc := fun _ => .idle }
  step s e s' := s.step e.1 e.2 = some s'

/-- What the heap relies on when processor `i` takes a step. -/
structure Locked (s : Cpus P) (i : P) : Prop where
  touch : (s.pc i).touches = true → s.mainlock = some i
  unlock : (s.pc i).unlocks = true → s.mainlock = some i
  ret : (s.pc i).returns = true → s.mainlock = some i

/-- A `morecore` that passes the size test finds `mclock` free, and `newpg` has a page for it. -/
def granted (s : Cpus P) (e : P × Act) : Bool :=
  match s.pc e.1 with
  | .mccanlock .. => s.mclock.isNone
  | .mcnewpg .. => e.2 = .hit
  | _ => true

/-! ## The sections of the two locks -/

/-- The statements between `ilock` and `iunlock` of `mainlock`. -/
def Pc.main : Pc → Bool
  | .tail .. | .tailalloc _ | .rover .. | .take _ | .more .. | .iunlock .. | .mcsize ..
  | .mciunlock .. | .mcinitseg .. | .mcdone .. | .mcreturn .. | .frseg | .frinternal | .friunlock
  | .retail _ | .reextend | .reiunlock .. => true
  | _ => false

/-- The statements between `lock` and `unlock` of `mclock`. -/
def Pc.mc : Pc → Bool
  | .mcunlock .. | .mcnewpg .. | .mcnocore .. | .mcilock .. | .mcinitseg .. | .mcdone .. => true
  | _ => false

/-- The branches of `morecore` that return without `mainlock`. -/
def Pc.lost : Pc → Bool
  | .mcsched .. | .mclock .. | .mcunlock .. | .mcnocore .. => true
  | _ => false

/-- Outside of both sections. -/
structure Pc.Out (p : Pc) : Prop where
  main : p.main = false
  mc : p.mc = false
  lost : p.lost = false

theorem qmallocEntry_out (caller : Caller) (nbytes : Nat) : (qmallocEntry caller nbytes).Out := by
  unfold qmallocEntry
  split <;> exact ⟨rfl, rfl, rfl⟩

theorem qmallocalignEntry_out (nbytes align : Nat) : (qmallocalignEntry nbytes align).Out := by
  unfold qmallocalignEntry
  split
  · exact ⟨rfl, rfl, rfl⟩
  · split
    · exact ⟨rfl, rfl, rfl⟩
    · split
      · exact qmallocEntry_out _ _
      · exact ⟨rfl, rfl, rfl⟩

theorem mallocalignEntry_out (nbytes align : Nat) (offset : Int) (span : Nat) :
    (mallocalignEntry nbytes align offset span).Out := by
  unfold mallocalignEntry
  split
  · split
    · exact ⟨rfl, rfl, rfl⟩
    · split
      · exact ⟨rfl, rfl, rfl⟩
      · exact qmallocalignEntry_out _ _
  · split
    · exact ⟨rfl, rfl, rfl⟩
    · exact qmallocalignEntry_out _ _

theorem freeEntry_out (ap : Option Nat) : (freeEntry ap).Out := by
  cases ap <;> exact ⟨rfl, rfl, rfl⟩

/-- A call starts outside of both sections. -/
theorem Call.entry_out (op : Call) : op.entry.Out := by
  cases op with
  | malloc n => exact qmallocEntry_out _ _
  | mallocalign n align offset span => exact mallocalignEntry_out _ _ _ _
  | free ap => exact freeEntry_out _
  | realloc ap size =>
    simp only [Call.entry]
    split
    · exact freeEntry_out _
    · split
      · exact qmallocEntry_out _ _
      · exact ⟨rfl, rfl, rfl⟩

theorem Req.done_out (r : Req) : r.done.Out := by
  unfold Req.done
  split <;> exact ⟨rfl, rfl, rfl⟩

/-- What a statement does to the two sections. The lost branches start where `canlock` fails and
where `newpg` returns nil. -/
structure Crosses (a : Act) (op : LockOp) (p p' : Pc) : Prop where
  main : p.lost = false → Moves (Pc.main · = true) (op = .ilock) (op = .iunlock) p p'
  mc : Moves (Pc.mc · = true) (op = .lock) (op = .unlock) p p'
  lost : p.lost = false → op ≠ .glare → (∀ r mc, p = .mcnewpg r mc → a = .hit) → p'.lost = false
  /-- Only `canlock` can fail. -/
  glare : op = .glare → ∃ r mc, p = .mccanlock r mc

variable {op : LockOp}

theorem next_crosses {p p' : Pc} {a : Act} (h : p.next a = some (op, p')) : Crosses a op p p' := by
  cases p <;> cases a <;> cases h
  all_goals
    refine ⟨fun hl => ⟨fun hs => ?_, fun hu => ?_⟩, ⟨fun hs => ?_, fun hu => ?_⟩,
      fun hl hop hpg => ?_, fun hop => ?_⟩
  all_goals
    first
    | exact absurd hs Bool.false_ne_true
    | exact absurd hl.symm Bool.false_ne_true
    | exact LockOp.noConfusion hu
    | exact LockOp.noConfusion hop
    | exact .inl rfl
    | exact .inr rfl
    | exact ⟨rfl, Bool.false_ne_true⟩
    | rfl
    | grind [Pc.main, Pc.mc, Pc.lost, Call.entry_out, Req.done_out, qmallocEntry_out, Pc.Out]

/-! ## Runs -/

/-- Both locks guard their sections, and no processor is on a lost branch. -/
structure Cpus.Inv (s : Cpus P) : Prop where
  main : Guarded (Pc.main · = true) s.pc s.mainlock
  mc : Guarded (Pc.mc · = true) s.pc s.mclock
  lost : ∀ i, (s.pc i).lost = false

variable {i : P} {s s' : Cpus P}

omit [DecidableEq P] in
theorem run_mainlock (h : op.run i s = some s') :
    (op = .ilock ∧ s.mainlock = none ∧ s'.mainlock = some i) ∨
    (op = .iunlock ∧ s'.mainlock = none) ∨ (op ≠ .ilock ∧ s'.mainlock = s.mainlock) := by
  cases op with
  | ilock =>
    obtain ⟨hf, h⟩ := Option.ite_none_right_eq_some.mp h
    cases h
    exact .inl ⟨rfl, hf, rfl⟩
  | iunlock =>
    cases h
    exact .inr (.inl ⟨rfl, rfl⟩)
  | _ => grind [LockOp.run]

omit [DecidableEq P] in
theorem run_mclock (h : op.run i s = some s') :
    (op = .lock ∧ s.mclock = none ∧ s'.mclock = some i) ∨
    (op = .unlock ∧ s'.mclock = none) ∨ (op ≠ .lock ∧ s'.mclock = s.mclock) := by
  cases op with
  | lock =>
    obtain ⟨hf, h⟩ := Option.ite_none_right_eq_some.mp h
    cases h
    exact .inl ⟨rfl, hf, rfl⟩
  | unlock =>
    cases h
    exact .inr (.inl ⟨rfl, rfl⟩)
  | _ => grind [LockOp.run]

theorem step_cases {a : Act} (h : s.step i a = some s') :
    ∃ op p s₁, (s.pc i).next a = some (op, p) ∧ op.run i s = some s₁ ∧
      s' = { s₁ with pc := Function.update s.pc i p } := by
  unfold Cpus.step at h
  split at h
  · cases h
  · rename_i op p hn
    obtain ⟨s₁, h₁, rfl⟩ := Option.map_eq_some_iff.mp h
    exact ⟨op, p, s₁, hn, h₁, rfl⟩

theorem Cpus.Inv.step {e : P × Act} (hI : s.Inv) (hg : granted s e = true)
    (h : s.step e.1 e.2 = some s') : s'.Inv := by
  obtain ⟨op, p, s₁, hn, hr, rfl⟩ := step_cases h
  have hm := next_crosses hn
  have hmain : Guarded (Pc.main · = true) (Function.update s.pc e.1 p) s₁.mainlock :=
    hI.main.move (hm.main (hI.lost _)) (run_mainlock hr)
  have hmc : Guarded (Pc.mc · = true) (Function.update s.pc e.1 p) s₁.mclock :=
    hI.mc.move hm.mc (run_mclock hr)
  refine ⟨hmain, hmc, fun j => ?_⟩
  have hop : op ≠ .glare := by
    rintro rfl
    obtain ⟨r, mc, hpc⟩ := hm.glare rfl
    simp only [granted, hpc, Option.isNone_iff_eq_none] at hg
    simp only [LockOp.run, hg, if_true] at hr
    cases hr
  have hpg : ∀ r mc, s.pc e.1 = .mcnewpg r mc → e.2 = .hit := by
    intro r mc hpc
    simpa only [granted, hpc, decide_eq_true_eq] using hg
  by_cases hj : j = e.1
  · rw [hj]
    dsimp only
    rw [Function.update_self]
    exact hm.lost (hI.lost _) hop hpg
  · dsimp only
    rw [Function.update_of_ne hj]
    exact hI.lost j

theorem locks_inductive : ((cpus P).restrict fun s e => granted s e = true).Inductive Cpus.Inv where
  init s hs := by
    have hs : s = { mainlock := none, mclock := none, pc := fun _ => .idle } := hs
    subst hs
    have hout : ∀ sec : Pc → Bool, sec .idle = false →
        Guarded (sec · = true) (fun _ : P => Pc.idle) none := by
      intro sec h
      apply Guarded.start
      intro i hi
      exact absurd (h.symm.trans hi) Bool.false_ne_true
    exact { main := hout Pc.main rfl, mc := hout Pc.mc rfl, lost := fun _ => rfl }
  step _ _ _ hI hs := hI.step hs.2 hs.1

omit [DecidableEq P] in
/-- These statements are all in a section of `mainlock`. -/
theorem Cpus.Inv.locked (hI : s.Inv) (i : P) : Locked s i := by
  refine ⟨fun h => hI.main i ?_, fun h => hI.main i ?_, fun h => hI.main i ?_⟩
  all_goals
    generalize s.pc i = p at h
    cases p <;> first | rfl | cases h

/-- In a run in which every `morecore` that passes the size test gets `mclock` at once and a page
from `newpg`, every processor that has to hold `mainlock` does. -/
theorem locked_of_granted {s : Cpus P}
    (h : ((cpus P).restrict fun s e => granted s e = true).Reach s) (i : P) : Locked s i := by
  have hI : s.Inv := locks_inductive.reach h
  exact hI.locked i

def Cpus.idle : Cpus P := { mainlock := none, mclock := none, pc := fun _ => .idle }

/-- The state after the steps, when all are possible and meet `g`. -/
def exec (g : Cpus P → P × Act → Bool) (s : Cpus P) (es : List (P × Act)) : Option (Cpus P) :=
  es.foldlM (fun s e => if g s e then s.step e.1 e.2 else none) s

theorem reach_exec {g : Cpus P → P × Act → Bool} {es : List (P × Act)}
    (h : exec g Cpus.idle es = some s) : ((cpus P).restrict fun s e => g s e = true).Reach s := by
  refine Lts.Reach.exec (fun s e s' he => ?_) ⟨[], .init rfl⟩ h
  obtain ⟨hg, he⟩ := Option.ite_none_right_eq_some.mp he
  exact ⟨he, hg⟩

/-- Processor `i` calls `malloc`, finds the heap full and drops `mainlock` in `morecore`. -/
def grow (i : P) : List (P × Act) :=
  [(i, .call (.malloc 100)), (i, .miss), (i, .go), (i, .miss), (i, .miss), (i, .go), (i, .go),
   (i, .go)]

theorem locked_of_granted_grown :
    ∃ s : Cpus Bool, (s.pc false).returns = true ∧ s.mainlock = some false := by
  have hs : (exec granted Cpus.idle (grow false ++
      [(false, .hit), (false, .hit), (true, .call (.free (some 64))), (false, .go), (false, .go),
       (false, .go)])).map (fun s => (s.pc false).returns) = some true := by
    decide
  obtain ⟨s, hs, hret⟩ := Option.map_eq_some_iff.mp hs
  exact ⟨s, hret, (locked_of_granted (reach_exec hs) false).ret hret⟩

/-- Two processors find the heap full. The first gets `mclock` and no page; the second waits for
`mclock`. Both return from `morecore` without `mainlock`: the second searches the segments, and the
first unlocks. -/
theorem heap_unlocked : ¬ ∀ s : Cpus Bool, (cpus Bool).Reach s → ∀ i, Locked s i := by
  intro h
  have hs : (exec (fun _ _ => true) Cpus.idle (grow false ++ grow true ++
      [(false, .hit), (true, .miss), (true, .go), (false, .miss), (false, .go), (true, .go),
       (true, .go), (true, .go), (false, .go)])).map
      (fun s => ((s.pc true).touches, (s.pc false).unlocks, s.mainlock)) =
      some (true, true, none) := by
    decide
  obtain ⟨s, hs, hs'⟩ := Option.map_eq_some_iff.mp hs
  obtain ⟨htouch, hrest⟩ := Prod.mk.inj hs'
  obtain ⟨-, hfree⟩ := Prod.mk.inj hrest
  have hlock := (h s (reach_exec hs).of_restrict true).touch htouch
  rw [hfree] at hlock
  cases hlock

end NixMark.Heap
