import NixMark.Tls.Rec

/-!
# Records (`devtls.c`)

* `ensure`, `consume`, `regurgitate`, `qgrab`: the lists of blocks. `qgrab` of an empty list reads
  through a nil pointer: `none`.
* `Secret.enc`, `Secret.dec`, `unpad`, `packMac`: the protection of a record.
* `tlsrecwrite`, `sendAlert`, `rcvAlert`, `rcvError`.
* `tlsrecread`: a record read and processed. A fault is an access through a nil pointer or outside
  the record's block.
-/

namespace NixMark.Tls

open Lib State

variable {K α : Type}

/-! ## Lists of blocks -/

def bytes (l : List Block) : List UInt8 := l.flatMap (·.data)

def blocklen (l : List Block) : Nat := (bytes l).length

/-- The loop of `ensure`: the channel's answers and the list, until it has `n` bytes. -/
def fetch (n : Nat) : List Bread → List Block → Option String × List Bread × List Block
  | [], l => if n ≤ blocklen l then (none, [], l) else (some Ehungup, [], l)
  | .error e :: r, l => if n ≤ blocklen l then (none, .error e :: r, l) else (some e, r, l)
  | .blocks bl :: r, l =>
    if n ≤ blocklen l then (none, .blocks bl :: r, l)
    else if blocklen bl = 0 then (some Ehungup, r, l ++ bl)
    else fetch n r (l ++ bl)

/-- make sure we have at least 'n' bytes in `unprocessed` -/
def ensure (n : Nat) : Op K Unit := do
  let s ← Prog.get
  let r := fetch n s.input s.tr.unprocessed
  Prog.modify fun s => { s with input := r.2.1, tr := { s.tr with unprocessed := r.2.2 } }
  match r.1 with
  | none => return
  | some e => error e

/-- copy 'n' bytes from the list and free the bytes in it -/
def consume : List Block → Nat → List UInt8 × List Block
  | [], _ => ([], [])
  | b :: l, n =>
    if n = 0 then ([], b :: l)
    else if BLEN b ≤ n then
      let r := consume l (n - BLEN b)
      (b.data ++ r.1, r.2)
    else (b.data.take n, ⟨b.room + n, b.data.drop n⟩ :: l)

/-- give back bytes -/
def regurgitate (p : List UInt8) : List Block → List Block
  | [] => if p = [] then [] else [⟨Hdrspc, p⟩]
  | b :: l =>
    if p = [] then b :: l
    else if b.room < p.length then ⟨Hdrspc, p⟩ :: b :: l
    else ⟨b.room - p.length, p ++ b.data⟩ :: l

/-- remove at most n bytes from the queue -/
def qgrab : List Block → Nat → Option (Block × List Block)
  | [], _ => none
  | b :: l, n =>
    if BLEN b = n then some (b, l)
    else
      let r := consume (b :: l) n
      some (⟨Hdrspc, r.1⟩, r.2)

/-! ## Numbers -/

def put16 (x : Nat) : List UInt8 := [UInt8.ofNat (x / 256), UInt8.ofNat x]

def put24 (x : Nat) : List UInt8 := [UInt8.ofNat (x / 65536), UInt8.ofNat (x / 256), UInt8.ofNat x]

/-- `put64` of an `ulong` -/
def put64 (x : UInt32) : List UInt8 :=
  [0, 0, 0, 0, UInt8.ofNat (x.toNat / 16777216), UInt8.ofNat (x.toNat / 65536),
    UInt8.ofNat (x.toNat / 256), UInt8.ofNat x.toNat]

def get16 (p : List UInt8) : Nat := (p.getD 0 0).toNat * 256 + (p.getD 1 0).toNat

/-! ## Protection of a record -/

/-- `tlsunpad`, and `sslunpad` where `ssl` holds. `none` is an access before the buffer. -/
def unpad (ssl : Bool) (buf : List UInt8) (block : Nat) : Option Int :=
  match buf.getLast? with
  | none => none
  | some pad =>
    let nn : Int := buf.length - 1 - pad.toNat
    if nn ≤ 0 ∨ buf.length % block ≠ 0 then some (-1)
    else if !ssl ∧ (buf.drop nn.toNat).any (· ≠ pad) then some (-1)
    else some nn

/-- `blockpad`: `n` bytes and the padding to a whole number of blocks. -/
def blockpad (buf : List UInt8) (block : Nat) : List UInt8 :=
  let nn := buf.length + block - (buf.length + block) % block
  buf ++ List.replicate (nn - buf.length) (UInt8.ofNat (nn - (buf.length + 1)))

/-- `(*sec->enc)(sec, p, n)` -/
def Secret.enc (L : Libsec K) (sec : Secret K) (buf : List UInt8) : List UInt8 × Secret K :=
  match sec.encalg with
  | .clear => (buf, sec)
  | .rc4_128 =>
    let r := L.encrypt sec.encalg sec.enckey buf
    (r.1, { sec with enckey := r.2 })
  | .des3_ede_cbc | .aes_128_cbc | .aes_256_cbc =>
    let r := L.encrypt sec.encalg sec.enckey (blockpad buf sec.encalg.block)
    (r.1, { sec with enckey := r.2 })

/-- `(*sec->dec)(sec, p, n)`: the result, the buffer and the secret afterwards. -/
def Secret.dec (L : Libsec K) (sec : Secret K) (buf : List UInt8) :
    Option (Int × List UInt8 × Secret K) :=
  match sec.encalg with
  | .clear => some (buf.length, buf, sec)
  | .rc4_128 =>
    let r := L.encrypt sec.encalg sec.enckey buf
    some (buf.length, r.1, { sec with enckey := r.2 })
  | .des3_ede_cbc | .aes_128_cbc | .aes_256_cbc =>
    let r := L.decrypt sec.encalg sec.enckey buf
    (unpad sec.ssl r.1 sec.encalg.block).map fun n => (n, r.1, { sec with enckey := r.2 })

/-- What `sslPackMac` and `tlsPackMac` make a MAC of. -/
def macinput (pm : PackMac) (seq : UInt32) (header body : List UInt8) : List UInt8 :=
  match pm with
  | .sslPackMac => put64 seq ++ [header.getD 0 0, header.getD 3 0, header.getD 4 0] ++ body
  | .tlsPackMac => put64 seq ++ header ++ body

/-- `sslPackMac` and `tlsPackMac` -/
def packMac (L : Libsec K) (pm : PackMac) (sec : Secret K) (seq : UInt32) (header body : List UInt8) :
    List UInt8 :=
  L.mac sec.ssl sec.hashalg sec.mackey (macinput pm seq header body)

/-! ## Writing -/

/-- `bwrite` of the channel: if it fails, the block is taken to be queued. -/
def bwrite (type : Nat) (b nb : List UInt8) : Op K Unit := do
  let s ← Prog.get
  Prog.modify fun s => { s with bwrites := s.bwrites.tail, wire := s.wire ++ [nb] }
  note (.wrote type b)
  match s.bwrites.head?.join with
  | none => return
  | some e => error e

/-- The secret that a change of ciphers puts in force. -/
def OneWay.change (o : OneWay K) : OneWay K := ⟨0, o.new, none, o.num + 1⟩

/-- The record, as it goes to the channel. A block that is larger than a record is copied, and
without a cipher the copy's `wp` stays where it was. -/
def protect (L : Libsec K) (type : Nat) (piece : List UInt8) (copied : Bool) :
    Op K (List UInt8) := do
  let t ← tr
  let p := UInt8.ofNat type :: put16 t.version
  match t.out.sec with
  | none => return if copied then [] else p ++ put16 piece.length ++ piece
  | some sec =>
    match t.packMac with
    | none => Prog.fault
    | some pm => do
      let r := sec.enc L (piece ++ packMac L pm sec t.out.seq (p ++ put16 piece.length) piece)
      update fun tr => { tr with out := { tr.out with seq := tr.out.seq + 1, sec := some r.2 } }
      return p ++ put16 r.1.length ++ r.1

/-- The new ciphers, when the record says so. -/
def changeout (type : Nat) : Op K Unit := do
  let t ← tr
  if type = RChangeCipherSpec then
    if t.out.new.isNone then error "change cipher without a new cipher"
    else update fun tr => { tr with out := tr.out.change }
  else return

/-- One turn of the loop of `tlsrecwrite`. -/
def writerec (L : Libsec K) (type : Nat) (piece : List UInt8) (copied : Bool) : Op K Unit := do
  checkstate (type ≠ RApplication)
    (if type = RAlert then [SHandshake, SOpen, SRClose, SAlert] else [SHandshake, SOpen, SRClose])
  let nb ← protect L type piece copied
  changeout type
  (bwrite type piece nb).handle fun e => do
    Prog.whenever (e ≠ Eintr) (tlsError "channel error")
    error e

/-- write a block in tls records -/
def tlsrecwrite (L : Libsec K) (type : Nat) (b : List UInt8) : Op K Unit :=
  go (b.length / MaxRecLen + 1) b
where
  /-- The loop; the number of records is a bound. -/
  go : Nat → List UInt8 → Op K Unit
    | 0, _ => Prog.fault
    | fuel + 1, b =>
      if MaxRecLen < b.length then do
        writerec L type (b.take MaxRecLen) true
        go fuel (b.drop MaxRecLen)
      else writerec L type b false

/-- Is the alert fatal? One that `tlserrs` does not have is. -/
def alertfatal (err : Int) : Bool :=
  ((tlserrs.find? fun e => (e.err : Int) = err).map (·.fatal)).getD true

def alertmsg (err : Int) : String :=
  ((tlserrs.find? fun e => (e.err : Int) = err).map (·.msg)).getD "tls unknown alert"

/-- The two bytes of the alert's record. -/
def alertbytes (version : Nat) (err : Int) : List UInt8 :=
  let desc : Int := match tlserrs.find? fun e => (e.err : Int) = err with
    | none => err
    | some e => if version = SSL3Version then e.sslerr else e.tlserr
  [if alertfatal err then 2 else 1, UInt8.ofNat (desc % 256).toNat]

def sendAlert (L : Libsec K) (err : Int) : Op K Unit := do
  let t ← tr
  let write : Op K Unit := do
    Prog.whenever (alertfatal err) (tlsSetState SAlert [SOpen, SHandshake, SRClose])
    tlsrecwrite L RAlert (alertbytes t.version err)
  write.handle fun _ => return
  Prog.whenever (alertfatal err) (tlsError (alertmsg err))

/-! ## Reading -/

/-- got a fatal alert message -/
def rcvAlert (err : UInt8) : Op K α := do
  let msg := ((tlserrs.find? fun e => e.err = err.toNat).map (·.msg)).getD "unknown error"
  tlsError msg
  let t ← tr
  if !t.opened then error msg else error "tls error"

/-- found an error while decoding the input stream -/
def rcvError (L : Libsec K) (err : Nat) (msg : String) : Op K α := do
  sendAlert L err
  let t ← tr
  if !t.opened then error msg else error "tls error"

/-- What the first bytes of a record say. -/
structure Head where
  type : Nat
  ver : Nat
  len : Int

/-- The header of a record in the format of either version. -/
def parsehead (L : Libsec K) (header : List UInt8) : Op K Head := do
  let t ← tr
  if t.handin = 0 ∧ header.getD 0 0 &&& 0x80 ≠ 0 then
    -- an SSL3 ClientHello in SSL2 record format
    let h : Head := ⟨(header.getD 2 0).toNat, get16 (header.drop 3), (get16 header % 0x8000 : Nat) - 3⟩
    if h.type ≠ SSL2ClientHello ∨ h.len < 22 then
      rcvError L EProtocolVersion "invalid initial SSL2-like message"
    else return h
  else return ⟨(header.getD 0 0).toNat, get16 (header.drop 1), (get16 (header.drop 3) : Nat)⟩

/-- The first half of `tlsrecread` after the header is consumed: an interrupt puts it back. -/
def readhead (L : Libsec K) (header : List UInt8) : Op K Head := do
  let h ← parsehead L header
  let t ← tr
  if h.ver ≠ t.version ∧ (t.verset ∨ h.ver < MinProtoVersion ∨ MaxProtoVersion < h.ver) then
    rcvError L EProtocolVersion "devtls expected another version"
  else if (MaxCipherRecLen : Int) < h.len ∨ h.len < 0 then
    rcvError L ERecordOverflow "record message too long"
  else do
    ensure h.len.toNat
    return h

/-- The record without its protection; the second half of `tlsrecread` up to the switch. -/
def unprotect (L : Libsec K) (header p : List UInt8) : Op K (Option Check × List UInt8) := do
  let t ← tr
  match t.inn.sec with
  | none => return (none, p)
  | some sec =>
    match sec.dec L p with
    | none => Prog.fault
    | some (unpad_len, buf, sec') =>
      match t.packMac with
      | none => Prog.fault
      | some pm => do
        let len :=
          if (sec.maclen : Int) ≤ unpad_len then (unpad_len - sec.maclen).toNat else p.length
        update fun tr => { tr with inn := { tr.inn with seq := tr.inn.seq + 1, sec := some sec' } }
        let header := header.take 3 ++ put16 len
        let hmac := packMac L pm sec t.inn.seq header (buf.take len)
        if unpad_len < sec.maclen then rcvError L EBadRecordMac "short record mac"
        else if p.length < len + sec.maclen then Prog.fault
        else if hmac ≠ (buf.drop len).take sec.maclen then
          rcvError L EBadRecordMac "record mac mismatch"
        else return (some ⟨pm, sec.ssl, sec.hashalg, sec.mackey, t.inn.seq, header,
          (buf.drop len).take sec.maclen⟩, buf.take len)

/-- A block for the handshake queue; without a handshaker the other side is told. -/
def handshake (L : Libsec K) (b : List UInt8) : Op K Unit := do
  let t ← tr
  match t.handq with
  | some _ => update fun tr => { tr with handq := tr.handq.map (· ++ [.hand b]) }
  | none =>
    Prog.whenever (t.verset ∧ t.version ≠ SSL3Version)
      ((sendAlert L ENoRenegotiation).handle fun _ => return)

/-- The switch of `tlsrecread`. -/
def dispatch (L : Libsec K) (h : Head) (check : Option Check) (p : List UInt8) : Op K Unit := do
  let t ← tr
  if h.type = RChangeCipherSpec then
    if p ≠ [1] then rcvError L EDecodeError "invalid change cipher spec"
    else if t.inn.new.isNone then
      rcvError L EUnexpectedMessage "unexpected change cipher spec"
    else update fun tr => { tr with inn := tr.inn.change }
  else if h.type = RAlert then
    match p with
    | [level, desc] => do
      note (.alert level desc)
      if level = 2 then rcvAlert desc
      else if level ≠ 1 then rcvError L EIllegalParameter "invalid alert fatal code"
      else if desc.toNat = ECloseNotify then do
        tlsclosed SRClose
        if t.opened then error "tls hungup" else error "close notify"
      else if desc.toNat = ENoRenegotiation then alertHand "no renegotiation"
      else if desc.toNat = EUserCanceled then alertHand "handshake canceled by user"
      else rcvError L EIllegalParameter "invalid alert code"
    | _ => rcvError L EDecodeError "invalid alert"
  else if h.type = RHandshake then handshake L p
  else if h.type = SSL2ClientHello then
    handshake L ([UInt8.ofNat HSSL2ClientHello] ++ put24 (p.length + 3) ++
      [UInt8.ofNat SSL2ClientHello] ++ put16 h.ver ++ p)
  else if h.type = RApplication then
    if !t.opened then
      rcvError L EUnexpectedMessage "application message received before handshake completed"
    else
      Prog.whenever (p ≠ []) do
        update fun tr => { tr with processed := [⟨Hdrspc, p⟩] }
        note (.accepted t.inn.num check p)
  else rcvError L EIllegalParameter "invalid record message"

/-- The block of the record, taken out of `unprocessed`. -/
def grab (n : Nat) : Op K Block := do
  let t ← tr
  match qgrab t.unprocessed n with
  | none => Prog.fault
  | some (b, l) => do
    update fun tr => { tr with unprocessed := l }
    return b

/-- read and process one tls record layer message -/
def tlsrecread (L : Libsec K) : Op K Unit := do
  (ensure RecHdrLen).handle fun e => do
    Prog.whenever (e ≠ Eintr) (tlsError "channel error")
    error e
  let t ← tr
  let r := consume t.unprocessed RecHdrLen
  update fun tr => { tr with unprocessed := r.2 }
  let h ← (readhead L r.1).handle fun e => do
    if e = Eintr then update fun tr => { tr with unprocessed := regurgitate r.1 tr.unprocessed }
    else tlsError "channel error"
    error e
  let body : Op K Unit := do
    let b ← grab h.len.toNat
    let p ← unprotect L r.1 b.data
    dispatch L h p.1 p.2
  body.handle fun e => do
    tlsError "channel error"
    error e

end NixMark.Tls
