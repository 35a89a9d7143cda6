import NixMark.Tls.Hostile

/-!
# Two ends of a connection

* `Pair`: the end that writes, the end that reads and the bytes between them. `Pair.exec`: one step;
  a read of the data file is turns of `tlsbread`'s loop (`record`) and then the end of the call
  (`read`); `dataread_turn` says so.
* `Twins`: the ends have the same version and secrets. `Pair.Due`: the next record has arrived.
-/

namespace NixMark.Tls

open Lib State

variable {K : Type} {L : Libsec K}

/-- The arguments of a `secret` message, for the end that writes. -/
structure Agreement where
  hashalg : String
  encalg : String
  isclient : Int
  x : List UInt8

structure Pair (K : Type) where
  /-- the end that writes and the end that reads -/
  w : Conn K
  r : Conn K
  /-- the bytes that were written and are not yet given to the reader's `bread` -/
  line : List UInt8
  /-- the records that were written and not read -/
  flight : List (List UInt8)
  /-- the secrets that the reader has not configured yet -/
  agreed : List Agreement
  sent : List UInt8
  got : List UInt8

inductive Pair.Act where
  /-- a block of application data is written -/
  | data (b : List UInt8)
  /-- a secret is configured and put in force -/
  | change (a : Agreement)
  /-- the reader configures the next secret -/
  | secret
  /-- blocks of the stream, and an interrupt, that the reader's next `bread` gets -/
  | arrives (bl : List Block)
  | interrupt
  /-- the reader reads a record -/
  | record
  /-- the reader takes at most `n` bytes of the record that it has -/
  | read (n : Nat)

/-- The other end's arguments. -/
def Agreement.flip (a : Agreement) : Agreement :=
  { a with isclient := if a.isclient = 0 then 1 else 0 }

def Agreement.secret (L : Libsec K) (a : Agreement) : Op K Unit :=
  ctlsecret L a.hashalg a.encalg a.isclient a.x

/-- The state after a write, and what goes to the channel. -/
def Pair.write (p : Pair K) (x : Op K Unit) : Option (Pair K) :=
  match x { p.w with bwrites := [], wire := [] } with
  | .ok _ w =>
    some { p with w := w, line := p.line ++ w.wire.flatten, flight := p.flight ++ w.wire }
  | _ => none

/-- `none` where the step is not possible, and where it ends with an error other than an interrupt
or with a fault. -/
def Pair.exec (L : Libsec K) (p : Pair K) : Pair.Act → Option (Pair K)
  | .data b => (p.write (tlsrecwrite L RApplication b)).map fun p => { p with sent := p.sent ++ b }
  | .change a =>
    (p.write (do a.secret L; ctlchangecipher L)).map fun p => { p with agreed := p.agreed ++ [a] }
  | .secret =>
    match p.agreed with
    | [] => none
    | a :: rest =>
      if p.r.tr.inn.new.isSome then none
      else
        match a.flip.secret L p.r with
        | .ok _ r => some { p with r := r, agreed := rest }
        | _ => none
  | .arrives bl =>
    if 0 < blocklen bl ∧ bytes bl = p.line.take (blocklen bl) then
      some { p with
        r := { p.r with input := p.r.input ++ [.blocks bl] }, line := p.line.drop (blocklen bl) }
    else none
  | .interrupt => some { p with r := { p.r with input := p.r.input ++ [.error Eintr] } }
  | .record =>
    if p.r.tr.processed = [] then
      match tlsrecread L p.r with
      | .ok _ r => some { p with r := r, flight := p.flight.tail }
      | .error e r => if e = Eintr then some { p with r := r } else none
      | .fault => none
    else none
  | .read n =>
    if p.r.tr.processed = [] then none
    else
      match dataread L n p.r with
      | .ok b r => some { p with r := r, got := p.got ++ b }
      | _ => none

/-- The ends are configured with the same version and secrets. -/
structure Twins (w r : Conn K) : Prop where
  sec : w.tr.out.sec.isSome ∧ r.tr.inn.sec = w.tr.out.sec
  seq : r.tr.inn.seq = w.tr.out.seq
  new : r.tr.inn.new = none
  packMac : w.tr.packMac.isSome ∧ r.tr.packMac = w.tr.packMac
  version : w.tr.version = SSL3Version ∨ w.tr.version = TLSVersion
  same : r.tr.version = w.tr.version
  configured : w.tr.c ∧ w.tr.verset ∧ r.tr.c ∧ r.tr.verset
  writes : w.tr.state = SHandshake ∨ w.tr.state = SOpen ∨ w.tr.state = SRClose
  reads : r.tr.state = SOpen ∧ r.tr.opened
  empty : r.tr.processed = [] ∧ r.tr.unprocessed = [] ∧ r.input = []

/-- The next record has arrived, and the reader knows the secret that it may put in force. -/
def Pair.Due (p : Pair K) : Prop :=
  p.r.tr.processed = [] ∧ ∃ rec rest, p.flight = rec :: rest ∧
    rec.length ≤ p.r.pending.length ∧
    (rec.head? = some (UInt8.ofNat RChangeCipherSpec) → p.r.tr.inn.new.isSome)

def pair (L : Libsec K) : Lts (Pair K) Pair.Act where
  init p := Twins p.w p.r ∧ p.line = [] ∧ p.flight = [] ∧ p.agreed = [] ∧ p.sent = [] ∧ p.got = []
  step p a p' := p.exec L a = some p' ∧ (a = .record → p.Due)

/-! ## A call of `tlsbread` -/

variable {hand : Bool} {fuel : Nat} {s : Conn K}

theorem readrecs_succ :
    readrecs L hand (fuel + 1) s =
      if s.tr.wants hand then Prog.next (tlsrecread L) (fun _ => readrecs L hand fuel) s
      else .ok () s := by
  change (if s.tr.wants hand then _ else _ : Op K Unit) s = _
  split <;> rfl

theorem readrecs_more (h : readrecs L hand fuel s ≠ .fault) :
    readrecs L hand (fuel + 1) s = readrecs L hand fuel s := by
  induction fuel generalizing s with
  | zero => exact absurd rfl h
  | succ fuel ih =>
    rw [readrecs_succ] at h ⊢
    rw [readrecs_succ]
    split
    · rename_i hwants
      rw [if_pos hwants] at h
      unfold Prog.next at h ⊢
      cases hread : tlsrecread L s with
      | ok u s' =>
        rw [hread] at h
        exact ih h
      | error e s' => rfl
      | fault => rfl
    · rfl

theorem readrecs_enough {k : Nat} (h : readrecs L hand fuel s ≠ .fault) :
    readrecs L hand (fuel + k) s = readrecs L hand fuel s := by
  induction k with
  | zero => rfl
  | succ k ih =>
    rw [← Nat.add_assoc, readrecs_more, ih]
    rw [ih]
    exact h

/-- What `tlsbread` does once the data is there. -/
def datatake (n : Nat) : Op K (List UInt8) := do
  let t ← tr
  match qgrab t.processed n with
  | none => Prog.fault
  | some (b, l) => do
    update fun tr => { tr with processed := l }
    note (.delivered b.data)
    return b.data

theorem dataread_eq {n : Nat} (hs : s.tr.state = SOpen) :
    dataread L n s = Prog.next (readrecs L false (s.avail + 1)) (fun _ => datatake n) s := by
  have hcheck : checkstate false [SOpen] s = .ok () s := by
    change (if s.tr.state ∈ [SOpen] then _ else _ : Op K Unit) s = _
    rw [if_pos (by rw [hs]; exact List.mem_singleton_self _)]
    rfl
  change Prog.next (checkstate false [SOpen]) _ s = _
  unfold Prog.next
  rw [hcheck]
  rfl

/-- A call is a turn of the loop and a call from there. -/
theorem dataread_turn {n : Nat} {s' : Conn K} (hs : s.tr.state = SOpen)
    (hwants : s.tr.processed = []) (hread : tlsrecread L s = .ok () s') (hs' : s'.tr.state = SOpen)
    (hlen : s'.pending.length < s.pending.length) (hfault : dataread L n s' ≠ .fault) :
    dataread L n s = dataread L n s' := by
  rw [dataread_eq hs'] at hfault ⊢
  rw [dataread_eq hs]
  have hne : readrecs L false (s'.avail + 1) s' ≠ .fault := by
    intro h
    unfold Prog.next at hfault
    rw [h] at hfault
    exact hfault rfl
  have hturn : readrecs L false (s.avail + 1) s = readrecs L false (s'.avail + 1) s' := by
    rw [readrecs_succ, if_pos (show s.tr.wants false from hwants)]
    unfold Prog.next
    rw [hread, avail_eq, avail_eq]
    rw [avail_eq] at hne
    have hk : s.pending.length = s'.pending.length + 1 + (s.pending.length - (s'.pending.length + 1)) := by
      omega
    dsimp only
    rw [hk, readrecs_enough hne]
  unfold Prog.next
  rw [hturn]

end NixMark.Tls
