import NixMark.Tls.Record
import NixMark.Lib.Lts

/-!
# The files of a connection (`devtls.c`)

* `tlsbread`, `tlsbwrite`, `tlswrite`: the data and handshake files. A read that would wait for the
  handshake queue is interrupted.
* `ctl`: the control messages, once parsed.
* `tls`: a connection, with the calls of its users and the blocks that its channel gets.
-/

namespace NixMark.Tls

open Lib State

variable {K : Type}

/-! ## Data and handshake -/

def Bread.len : Bread → Nat
  | .blocks bl => blocklen bl
  | .error _ => 0

/-- The bytes that can still be read. -/
def Conn.avail (s : Conn K) : Nat :=
  blocklen s.tr.unprocessed + s.input.foldr (fun b n => b.len + n) 0

/-- Must a read go on? `tr->processed == nil`, or for the handshake file
`!tr->opened && tr->hprocessed == nil && !qcanread(tr->handq)`. -/
def TlsRec.wants (hand : Bool) (t : TlsRec K) : Prop :=
  if hand then !t.opened ∧ t.hprocessed = [] ∧ t.handq.getD [] = [] else t.processed = []

instance (hand : Bool) (t : TlsRec K) : Decidable (t.wants hand) :=
  inferInstanceAs (Decidable (if hand then _ ∧ _ ∧ _ else _))

/-- The loops of `tlsbread`; a bound on the turns comes first. -/
def readrecs (L : Libsec K) (hand : Bool) : Nat → Op K Unit
  | 0 => Prog.fault
  | fuel + 1 => do
    let t ← tr
    if t.wants hand then do
      tlsrecread L
      readrecs L hand fuel
    else return

/-- The result of `qbread(tr->handq, MaxRecLen + 1)`; a block that is larger stays in part. -/
def handread : List Hand → Option (Except String (List UInt8) × List Hand)
  | [] => none
  | .alert msg :: q => some (.error msg, q)
  | .hand b :: q =>
    if b.length ≤ MaxRecLen then some (.ok b, q)
    else some (.ok (b.take MaxRecLen), .rest (b.drop MaxRecLen) :: q)
  | .rest b :: q =>
    -- the first byte is taken for the type
    let q := if b.length ≤ MaxRecLen + 1 then q else .rest (b.drop (MaxRecLen + 1)) :: q
    let p := (b.take (MaxRecLen + 1)).tail
    if b.head? = some (UInt8.ofNat RAlert) then
      some (.error (String.ofList ((p.takeWhile (· ≠ 0)).map fun x => Char.ofNat x.toNat)), q)
    else some (.ok p, q)

/-- `tlsbread` of the data file -/
def dataread (L : Libsec K) (n : Nat) : Op K (List UInt8) := do
  checkstate false [SOpen]
  let s ← Prog.get
  readrecs L false (s.avail + 1)
  let t ← tr
  match qgrab t.processed n with
  | none => Prog.fault
  | some (b, l) => do
    update fun tr => { tr with processed := l }
    note (.delivered b.data)
    return b.data

/-- The handshake message that is read from, after the queue was read if it must be. -/
def nexthand : Op K Unit := do
  let t ← tr
  if t.hprocessed = [] then
    match handread (t.handq.getD []) with
    | none => error Eintr
    | some (.error msg, q) => do
      update fun tr => { tr with handq := some q }
      error msg
    | some (.ok b, q) => update fun tr => { tr with handq := some q, hprocessed := [⟨Hdrspc, b⟩] }
  else return

/-- `tlsbread` of the handshake file -/
def handbread (L : Libsec K) (n : Nat) : Op K (List UInt8) := do
  checkstate true [SOpen, SHandshake, SLClose]
  let s ← Prog.get
  readrecs L true (s.avail + 1)
  nexthand
  let t ← tr
  match qgrab t.hprocessed n with
  | none => Prog.fault
  | some (b, l) => do
    update fun tr => { tr with hprocessed := l, handin := tr.handin + BLEN b }
    return b.data

def tlsbwrite (L : Libsec K) (hand : Bool) (b : List UInt8) : Op K Unit :=
  if hand then tlsrecwrite L RHandshake b
  else do
    checkstate false [SOpen]
    tlsrecwrite L RApplication b

/-- The loop of `tlswrite`; the number of turns is a bound. -/
def tlswrite (L : Libsec K) (hand : Bool) : Nat → List UInt8 → Op K Unit
  | 0, _ => Prog.fault
  | fuel + 1, a => do
    tlsbwrite L hand (a.take MaxRecLen)
    if a.length ≤ MaxRecLen then return else tlswrite L hand fuel (a.drop MaxRecLen)

/-! ## Control messages -/

def Einuse : String := "device or object already in use"

def ctlfd (chan : Option String) (vers : Int) : Op K Unit := do
  let t ← tr
  if t.c then error Einuse
  else if vers < MinProtoVersion ∨ MaxProtoVersion < vers then error "unsupported version"
  else
    match chan with
    | some e => error e
    | none => do
      update fun tr => { tr with c := true, version := vers.toNat }
      tlsSetState SHandshake [SClosed]

def ctlversion (vers : Int) : Op K Unit := do
  let t ← tr
  if !t.c then error "must set fd before version"
  else if t.verset then error "version already set"
  else if vers = SSL3Version then
    update fun tr => { tr with packMac := some .sslPackMac, verset := true, version := SSL3Version }
  else if vers = TLSVersion then
    update fun tr => { tr with packMac := some .tlsPackMac, verset := true, version := TLSVersion }
  else error "unsupported version"

def parsehashalg (p : String) : Option Hash :=
  if p = "clear" then some .clear
  else if p = "md5" then some .md5
  else if p = "sha1" then some .sha1
  else none

def parseencalg (p : String) : Option Enc :=
  if p = "clear" then some .clear
  else if p = "rc4_128" then some .rc4_128
  else if p = "3des_ede_cbc" then some .des3_ede_cbc
  else if p = "aes_128_cbc" then some .aes_128_cbc
  else if p = "aes_256_cbc" then some .aes_256_cbc
  else none

/-- The bytes `[lo, lo + n)` of the secret data. -/
def part (x : List UInt8) (lo n : Nat) : List UInt8 := (x.drop lo).take n

/-- `tos`, the secret of what the client sends to the server, and `toc`. -/
def mksecrets (L : Libsec K) (version : Nat) (ha : Hash) (ea : Enc) (x : List UInt8) :
    Secret K × Secret K :=
  let ssl : Bool := version = SSL3Version
  let base := 2 * ha.maclen
  let ivbase := base + 2 * ea.keylen
  (⟨ea, ha, ssl, L.setup ea (part x base ea.keylen) (part x ivbase ea.ivlen), part x 0 ha.maclen⟩,
    ⟨ea, ha, ssl, L.setup ea (part x (base + ea.keylen) ea.keylen)
      (part x (ivbase + ea.ivlen) ea.ivlen), part x ha.maclen ha.maclen⟩)

def ctlsecret (L : Libsec K) (hashalg encalg : String) (isclient : Int) (x : List UInt8) :
    Op K Unit := do
  let t ← tr
  if !t.c ∨ !t.verset then error "must set fd and version before secrets"
  else do
    update fun tr =>
      { tr with inn := { tr.inn with new := none }, out := { tr.out with new := none } }
    match parsehashalg hashalg with
    | none => error "unsupported hash algorithm"
    | some ha =>
      match parseencalg encalg with
      | none => error "unsupported encryption algorithm"
      | some ea =>
        if x.length < 2 * ha.maclen + 2 * ea.keylen + 2 * ea.ivlen then
          error "not enough secret data provided"
        else
          let secs := mksecrets L t.version ha ea x
          let inn := if isclient = 0 then secs.1 else secs.2
          let out := if isclient = 0 then secs.2 else secs.1
          update fun tr => { tr with
            inn := { tr.inn with new := some inn }, out := { tr.out with new := some out } }

def ctlchangecipher (L : Libsec K) : Op K Unit := do
  let t ← tr
  if t.out.new.isNone then error "cannot change cipher spec without setting secret"
  else tlsrecwrite L RChangeCipherSpec [1]

def ctlopened : Op K Unit := do
  let t ← tr
  if t.inn.sec.isNone ∨ t.out.sec.isNone then
    error "cipher must be configured before enabling data messages"
  else if t.state ≠ SHandshake ∧ t.state ≠ SOpen then error "cannot enable data messages"
  else update fun tr => { tr with state := SOpen, opened := true }

/-- `m` is the pointer to the processor's structure here, which is not nil: the branch that follows
the alert in the source, `if(m == ECloseNotify) tlsclosed(tr, SLClose)`, is never taken. -/
def ctlalert (L : Libsec K) (n : Int) : Op K Unit := do
  let t ← tr
  if !t.c then error "must set fd before sending alerts"
  else sendAlert L n

/-! ## A connection -/

inductive Call where
  | fd (chan : Option String) (vers : Int)
  | version (vers : Int)
  | secret (hashalg encalg : String) (isclient : Int) (x : List UInt8)
  | changecipher
  | opened
  | alert (n : Int)
  /-- a write of the handshake file or of the data file -/
  | write (hand : Bool) (a : List UInt8)
  /-- a block that another part of the kernel writes -/
  | bwrite (hand : Bool) (b : List UInt8)
  | read (hand : Bool) (n : Nat)
  deriving DecidableEq

def Call.run (L : Libsec K) : Call → Op K Unit
  | fd chan vers => ctlfd chan vers
  | version vers => ctlversion vers
  | secret hashalg encalg isclient x => ctlsecret L hashalg encalg isclient x
  | changecipher => ctlchangecipher L
  | opened => ctlopened
  | alert n => ctlalert L n
  | write hand a => tlswrite L hand (a.length / MaxRecLen + 1) a
  | bwrite hand b => tlsbwrite L hand b
  | read hand n => do
    let _ ← if hand then handbread L n else dataread L n
    return

inductive Act where
  /-- a call, and what the channel does with the blocks that it writes -/
  | call (c : Call) (bwrites : List (Option String))
  /-- what the next `bread` of the channel returns -/
  | arrives (b : Bread)
  /-- the handshake file is opened, or closed -/
  | openhand
  | closehand

/-- `none` where the step is not possible or the kernel faults. -/
def Conn.exec (L : Libsec K) (s : Conn K) : Act → Option (Conn K)
  | .call (.read true n) bwrites =>
    if s.tr.handq.isSome then
      match (Call.read true n).run L { s with bwrites := bwrites } with
      | .ok _ s' => some s'
      | .error _ s' => some s'
      | .fault => none
    else none
  | .call c bwrites =>
    match c.run L { s with bwrites := bwrites } with
    | .ok _ s' => some s'
    | .error _ s' => some s'
    | .fault => none
  | .arrives b => some { s with input := s.input ++ [b] }
  | .openhand =>
    if s.tr.handq.isSome then none else some { s with tr := { s.tr with handq := some [] } }
  | .closehand => some { s with tr := { s.tr with handq := none, hprocessed := [] } }

/-- `mktlsrec` -/
def Conn.zero : Conn K where
  tr := ⟨false, 0, false, false, "", 0, SClosed, none, ⟨0, none, none, 0⟩, [], [], none, [],
    ⟨0, none, none, 0⟩⟩
  input := []
  bwrites := []
  wire := []
  log := []

def tls (L : Libsec K) : Lts (Conn K) Act where
  init s := s = Conn.zero
  step s a s' := s.exec L a = some s'

end NixMark.Tls
