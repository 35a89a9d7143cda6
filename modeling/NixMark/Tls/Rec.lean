import NixMark.Lib.Prog
import Mathlib.Data.List.Basic

/-!
# The record layer's data (`devtls.c`)

* `Secret`, `OneWay`, `TlsRec`: the structures of the source. `Libsec`: what the cipher library
  does. `Block`: a block of a list, with the bytes in front of it that may be written again.
* `Conn`: a connection with the channel under it, and what happened so far.
* `checkstate`, `tlsclosed`, `tlsSetState`, `tlsError`, `alertHand`: the changes of state.

The counters of the statistics file are left out. The errors are the texts of the source.
-/

namespace NixMark.Tls

open Lib

def MaxRecLen : Nat := 1 <<< 14
def MaxCipherRecLen : Nat := MaxRecLen + 2048
def RecHdrLen : Nat := 5
def MD5dlen : Nat := 16
def SHA1dlen : Nat := 20
def Hdrspc : Nat := 64

def TLSVersion : Nat := 0x0301
def SSL3Version : Nat := 0x0300
def MinProtoVersion : Nat := 0x0300
def MaxProtoVersion : Nat := 0x03ff

/-- Connection states. The values of the source are single bits, and its masks are lists here. -/
inductive State where
  /-- doing handshake -/
  | SHandshake
  /-- application data can be sent -/
  | SOpen
  /-- remote side has closed down -/
  | SRClose
  /-- sent a close notify alert -/
  | SLClose
  /-- sending or sent a fatal alert -/
  | SAlert
  /-- some sort of error has occured -/
  | SError
  /-- it is all over -/
  | SClosed
  deriving DecidableEq

open State

def RChangeCipherSpec : Nat := 20
def RAlert : Nat := 21
def RHandshake : Nat := 22
def RApplication : Nat := 23

def SSL2ClientHello : Nat := 1
def HSSL2ClientHello : Nat := 9

def Eintr : String := "interrupted"
def Ehungup : String := "i/o on hungup channel"

/-! ## Ciphers -/

inductive Hash where
  | clear | md5 | sha1
  deriving DecidableEq

/-- `hashtab` -/
def Hash.maclen : Hash → Nat
  | clear => 0
  | md5 => MD5dlen
  | sha1 => SHA1dlen

inductive Enc where
  | clear | rc4_128 | des3_ede_cbc | aes_128_cbc | aes_256_cbc
  deriving DecidableEq

/-- `encrypttab` -/
def Enc.keylen : Enc → Nat
  | clear => 0
  | rc4_128 => 16
  | des3_ede_cbc => 24
  | aes_128_cbc => 16
  | aes_256_cbc => 32

def Enc.ivlen : Enc → Nat
  | clear => 0
  | rc4_128 => 0
  | des3_ede_cbc => 8
  | aes_128_cbc => 16
  | aes_256_cbc => 16

def Enc.block : Enc → Nat
  | clear => 0
  | rc4_128 => 0
  | des3_ede_cbc => 8
  | aes_128_cbc => 16
  | aes_256_cbc => 16

/-- The library's functions. They work in place: the buffer keeps its length, and the key changes.
`rc4` is the same both ways; the block ciphers have whole blocks to work on. -/
structure Libsec (K : Type) where
  setup : Enc → List UInt8 → List UInt8 → K
  encrypt : Enc → K → List UInt8 → List UInt8 × K
  decrypt : Enc → K → List UInt8 → List UInt8 × K
  encrypt_length : ∀ ea k b, (encrypt ea k b).1.length = b.length
  decrypt_length : ∀ ea k b, (decrypt ea k b).1.length = b.length
  /-- `hmac_md5`, `hmac_sha1`; `sslmac_md5` and `sslmac_sha1` where the first argument is true -/
  mac : Bool → Hash → List UInt8 → List UInt8 → List UInt8
  mac_length : ∀ ssl ha key p, (mac ssl ha key p).length = ha.maclen

/-- `ssl` tells whether `mac` and `unpad` are those of `SSL3Version`. -/
structure Secret (K : Type) where
  encalg : Enc
  hashalg : Hash
  ssl : Bool
  enckey : K
  mackey : List UInt8

def Secret.maclen {K : Type} (sec : Secret K) : Nat := sec.hashalg.maclen

/-- `num` counts the secrets that were in use before: the source has no such field. -/
structure OneWay (K : Type) where
  seq : UInt32
  sec : Option (Secret K)
  new : Option (Secret K)
  num : Nat

structure Block where
  room : Nat
  data : List UInt8
  deriving DecidableEq

abbrev BLEN (b : Block) : Nat := b.data.length

/-- What the handshake queue holds: a message for the reader's error, a block of the handshake, or
what is left of a block. The type of the first two is the first byte in the source. -/
inductive Hand where
  | alert (msg : String)
  | hand (b : List UInt8)
  | rest (b : List UInt8)
  deriving DecidableEq

inductive PackMac where
  | sslPackMac | tlsPackMac
  deriving DecidableEq

structure TlsRec (K : Type) where
  /-- the io channel is set -/
  c : Bool
  version : Nat
  verset : Bool
  opened : Bool
  err : String
  handin : Nat
  state : State
  packMac : Option PackMac
  inn : OneWay K
  processed : List Block
  unprocessed : List Block
  handq : Option (List Hand)
  hprocessed : List Block
  out : OneWay K

/-- What a call of the channel's `bread` does. At the end of the list the channel has hung up. -/
inductive Bread where
  | blocks (bl : List Block)
  | error (e : String)

/-- The secret of a record, its number, and what the MAC that came with it was compared for. -/
structure Check where
  pm : PackMac
  ssl : Bool
  hashalg : Hash
  mackey : List UInt8
  seq : UInt32
  header : List UInt8
  mac : List UInt8
  deriving DecidableEq

/-- What happened, for the statements about it. -/
inductive Event where
  /-- a record was given to the channel -/
  | wrote (type : Nat) (b : List UInt8)
  /-- an alert was received -/
  | alert (level desc : UInt8)
  /-- a record of application data was accepted, under the secret with this number -/
  | accepted (num : Nat) (check : Option Check) (b : List UInt8)
  /-- application data was given to a reader -/
  | delivered (b : List UInt8)
  deriving DecidableEq

/-- A connection; the channel's answers, with an error or none for each write; the blocks that went
to the channel. -/
structure Conn (K : Type) where
  tr : TlsRec K
  input : List Bread
  bwrites : List (Option String)
  wire : List (List UInt8)
  log : List Event

variable {K : Type} {α : Type}

abbrev Op (K α : Type) := Prog String (Conn K) α

def tr : Op K (TlsRec K) := do
  let s ← Prog.get
  return s.tr

def update (f : TlsRec K → TlsRec K) : Op K Unit := Prog.modify fun s => { s with tr := f s.tr }

def note (e : Event) : Op K Unit := Prog.modify fun s => { s with log := s.log ++ [e] }

def error (msg : String) : Op K α := Prog.error msg

/-! ## Alerts -/

def ECloseNotify : Nat := 0
def EUnexpectedMessage : Nat := 10
def EBadRecordMac : Nat := 20
def EDecryptionFailed : Nat := 21
def ERecordOverflow : Nat := 22
def EDecompressionFailure : Nat := 30
def EHandshakeFailure : Nat := 40
def ENoCertificate : Nat := 41
def EBadCertificate : Nat := 42
def EUnsupportedCertificate : Nat := 43
def ECertificateRevoked : Nat := 44
def ECertificateExpired : Nat := 45
def ECertificateUnknown : Nat := 46
def EIllegalParameter : Nat := 47
def EUnknownCa : Nat := 48
def EAccessDenied : Nat := 49
def EDecodeError : Nat := 50
def EDecryptError : Nat := 51
def EExportRestriction : Nat := 60
def EProtocolVersion : Nat := 70
def EInsufficientSecurity : Nat := 71
def EInternalError : Nat := 80
def EUserCanceled : Nat := 90
def ENoRenegotiation : Nat := 100

structure TlsErrs where
  err : Nat
  sslerr : Nat
  tlserr : Nat
  fatal : Bool
  msg : String

def tlserrs : List TlsErrs := [
  ⟨ECloseNotify, ECloseNotify, ECloseNotify, false, "close notify"⟩,
  ⟨EUnexpectedMessage, EUnexpectedMessage, EUnexpectedMessage, true, "unexpected message"⟩,
  ⟨EBadRecordMac, EBadRecordMac, EBadRecordMac, true, "bad record mac"⟩,
  ⟨EDecryptionFailed, EIllegalParameter, EDecryptionFailed, true, "decryption failed"⟩,
  ⟨ERecordOverflow, EIllegalParameter, ERecordOverflow, true, "record too long"⟩,
  ⟨EDecompressionFailure, EDecompressionFailure, EDecompressionFailure, true,
    "decompression failed"⟩,
  ⟨EHandshakeFailure, EHandshakeFailure, EHandshakeFailure, true,
    "could not negotiate acceptable security parameters"⟩,
  ⟨ENoCertificate, ENoCertificate, ECertificateUnknown, true,
    "no appropriate certificate available"⟩,
  ⟨EBadCertificate, EBadCertificate, EBadCertificate, true, "corrupted or invalid certificate"⟩,
  ⟨EUnsupportedCertificate, EUnsupportedCertificate, EUnsupportedCertificate, true,
    "unsupported certificate type"⟩,
  ⟨ECertificateRevoked, ECertificateRevoked, ECertificateRevoked, true, "revoked certificate"⟩,
  ⟨ECertificateExpired, ECertificateExpired, ECertificateExpired, true, "expired certificate"⟩,
  ⟨ECertificateUnknown, ECertificateUnknown, ECertificateUnknown, true,
    "unacceptable certificate"⟩,
  ⟨EIllegalParameter, EIllegalParameter, EIllegalParameter, true, "illegal parameter"⟩,
  ⟨EUnknownCa, EHandshakeFailure, EUnknownCa, true, "unknown certificate authority"⟩,
  ⟨EAccessDenied, EHandshakeFailure, EAccessDenied, true, "access denied"⟩,
  ⟨EDecodeError, EIllegalParameter, EDecodeError, true, "error decoding message"⟩,
  ⟨EDecryptError, EIllegalParameter, EDecryptError, true, "error decrypting message"⟩,
  ⟨EExportRestriction, EHandshakeFailure, EExportRestriction, true,
    "export restriction violated"⟩,
  ⟨EProtocolVersion, EIllegalParameter, EProtocolVersion, true, "protocol version not supported"⟩,
  ⟨EInsufficientSecurity, EHandshakeFailure, EInsufficientSecurity, true,
    "stronger security routines required"⟩,
  ⟨EInternalError, EHandshakeFailure, EInternalError, true, "internal error"⟩,
  ⟨EUserCanceled, ECloseNotify, EUserCanceled, false, "handshake canceled by user"⟩,
  ⟨ENoRenegotiation, EUnexpectedMessage, ENoRenegotiation, false, "no renegotiation"⟩]

/-! ## Changes of the state -/

/-- make sure the next hand operation returns with a 'msg' error -/
def alertHand (msg : String) : Op K Unit :=
  update fun tr => { tr with handq := tr.handq.map (· ++ [.alert msg]) }

def tlsclosed (new : State) : Op K Unit := do
  update fun tr =>
    { tr with state :=
        if tr.state = SOpen ∨ tr.state = SHandshake then new
        else if (new = SRClose ∧ tr.state = SLClose) ∨ (new = SLClose ∧ tr.state = SRClose) then
          SClosed
        else tr.state }
  alertHand "close notify"

def checkstate (ishand : Bool) (ok : List State) : Op K Unit := do
  let t ← tr
  if t.state ∈ ok then return
  else
    match t.state with
    | SHandshake | SOpen => error "tls improperly configured"
    | SError | SAlert => if ishand then error t.err else error "tls error"
    | SRClose | SLClose | SClosed => error "tls hungup"

def tlsError (msg : String) : Op K Unit := do
  let t ← tr
  if t.state ≠ SError then
    update fun tr => { tr with state := SError, err := msg }
    alertHand msg
  else return

def tlsSetState (new : State) (old : List State) : Op K Unit :=
  update fun tr => if tr.state ∈ old then { tr with state := new } else tr

end NixMark.Tls
