import NixMark.Demux.Table

/-!
# The paths that file conversations

The functions of `devip.c`, `udp.c` and `tcp.c` that set the addresses of a conversation, add it to
the table of its protocol or remove it, under the lock of the conversation. The strings of the
control messages are parsed; what comes from outside of the protocols is in `Env`. `Fsnewcall` and
the `iphtadd` after it are two steps, since the new conversation is not locked between them.
`closeconv` of the incoming calls of a conversation is a call for each of them.

* `Conv`, `Sys`: a conversation, and a protocol with its conversations.
* `Fsstdconnect`, `Fsstdannounce`, `Fsstdbind`, `udpkick`: what sets the addresses.
* `exec`: the steps.
-/

namespace NixMark.Demux

open Ip

inductive Ptcl
  | tcp
  | udp
deriving DecidableEq

inductive State
  | Idle
  | Announcing
  | Announced
  | Connecting
  | Connected
deriving DecidableEq

inductive Tcpstate
  | Closed
  | Listen
  | Syn_sent
  | Syn_received
  | Established
  | Finwait1
  | Finwait2
  | Close_wait
  | Closing
  | Last_ack
  | Time_wait
deriving DecidableEq

/-- A `Conv`; `headers` is of its `Udpcb`, `tcb` the state of its `Tcpctl`. -/
structure Conv where
  state : State
  inuse : Nat
  quad : Quad
  restricted : Bool
  headers : Bool
  tcb : Tcpstate
deriving DecidableEq

def Quad.none : Quad := ⟨IPnoaddr, 0, IPnoaddr, 0⟩

def Conv.new : Conv := ⟨.Idle, 0, .none, false, false, .Closed⟩

def Conv.setladdr (c : Conv) (a : IPaddr) : Conv := { c with quad := { c.quad with laddr := a } }

def Conv.setport (c : Conv) (p : UInt16) : Conv := { c with quad := { c.quad with lport := p } }

def Conv.setremote (c : Conv) (a : IPaddr) (p : UInt16) : Conv :=
  { c with quad := { c.quad with raddr := a, rport := p } }

/-- What the functions are told from outside of the protocol. -/
structure Env where
  ipforme : IPaddr → Bool
  findlocalip : IPaddr → IPaddr
  iseve : Bool
  /-- the port that `setlport` picks -/
  port : UInt16

variable {nc : Nat}

/-! ## The local address and port -/

def inuseby (conv : Fin nc → Conv) (c : Fin nc) (q : Quad) : Bool :=
  (List.finRange nc).any fun x =>
    x ≠ c && ((conv x).state = .Connected || (conv x).state = .Announced) && (conv x).quad = q

def setluniqueport (conv : Fin nc → Conv) (c : Fin nc) (v : Conv) (lport : UInt16) :
    Conv × Option String :=
  if inuseby conv c { v.quad with lport := lport } then (v, some "address in use")
  else (v.setport lport, .none)

def lportinuse (conv : Fin nc → Conv) (c : Fin nc) (v : Conv) (lport : UInt16) : Bool :=
  (List.finRange nc).any fun x => (if x = c then v else conv x).quad.lport = lport

/-- The ports that `setlport` tries: restricted ones cycle, the others are random. -/
def Conv.tries (v : Conv) (port : UInt16) : Bool :=
  if v.restricted then 600 ≤ port && port < 1024 else 32768 ≤ port

/-- `setlport`: `none` when it does not pick this port. -/
def setlport (conv : Fin nc → Conv) (c : Fin nc) (v : Conv) (port : UInt16) : Option Conv :=
  if v.tries port && !lportinuse conv c v port then some (v.setport port) else .none

/-- The address in a local address, as `setladdrport` takes it apart. -/
inductive Laddr
  /-- there is none -/
  | absent
  | star
  /-- what `parseip` gives -/
  | ip (a : Option IPaddr)
deriving DecidableEq

/-- The port in a local address: a star, or what `atoi` gives. -/
inductive Lport
  | star
  | num (n : Int)
deriving DecidableEq

/-- As a `ushort`. -/
def Lport.atoi : Lport → UInt16
  | .star => 0
  | .num n => UInt16.ofInt n

/-- The address part of `setladdrport`. -/
def localaddr (env : Env) (v : Conv) (announcing : Bool) : Laddr → Except String Conv
  | .absent =>
    if announcing then .ok (v.setladdr IPnoaddr)
    else .ok (v.setladdr (env.findlocalip v.quad.raddr))
  | .star => .ok (v.setladdr IPnoaddr)
  | .ip .none => .error "bad ip address syntax"
  | .ip (some a) =>
    if env.ipforme a then .ok (v.setladdr a) else .error "not a local IP address"

/-- The port part of `setladdrport`. -/
def localport (env : Env) (conv : Fin nc → Conv) (c : Fin nc) (v : Conv) (announcing : Bool)
    (p : Lport) : Option (Conv × Option String) :=
  -- one process can get all connections
  if announcing && p = .star then
    if env.iseve then some (setluniqueport conv c v 0) else some (v, some "permission denied")
  else if p.atoi = 0 then (setlport conv c v env.port).map fun v => (v, .none)
  else some (setluniqueport conv c v p.atoi)

def setladdrport (env : Env) (conv : Fin nc → Conv) (c : Fin nc) (v : Conv) (a : Laddr) (p : Lport)
    (announcing : Bool) : Option (Conv × Option String) :=
  let v := v.setport 0
  match localaddr env v announcing a with
  | .error e => some (v, some e)
  | .ok v => localport env conv c v announcing p

/-! ## The control messages -/

/-- A remote address: what `parseip` leaves and whether it succeeds, what `atoi` gives, and whether
the port is restricted. -/
structure Remote where
  addr : IPaddr
  ok : Bool
  port : Int
  r : Bool
deriving DecidableEq

/-- `setraddrport`, where `none` is a string without a port. -/
def setraddrport (v : Conv) : Option Remote → Conv × Option String
  | .none => (v, some "malformed address")
  | some r =>
    if r.ok then
      ({ v.setremote r.addr (UInt16.ofInt r.port) with restricted := v.restricted || r.r }, .none)
    else (v.setremote r.addr v.quad.rport, some "bad ip address syntax")

/-- The arguments of `connect`. -/
inductive Args
  | two (r : Option Remote)
  | three (r : Option Remote) (a : Laddr) (p : Lport)
  | bad
deriving DecidableEq

def Fsstdconnect (env : Env) (conv : Fin nc → Conv) (c : Fin nc) (v : Conv) :
    Args → Option (Conv × Option String)
  | .bad => some (v, some "bad args to connect")
  | .two r =>
    match setraddrport v r with
    | (v, some e) => some (v, some e)
    | (v, .none) =>
      (setlport conv c (v.setladdr (env.findlocalip v.quad.raddr)) env.port).map fun v => (v, .none)
  | .three r a p =>
    match setraddrport v r with
    | (v, some e) => some (v, some e)
    | (v, .none) => setladdrport env conv c v a p false

/-- `Fsstdannounce`, where `none` is a wrong number of arguments. -/
def Fsstdannounce (env : Env) (conv : Fin nc → Conv) (c : Fin nc) (v : Conv) :
    Option (Laddr × Lport) → Option (Conv × Option String)
  | .none => some (v.setremote IPnoaddr 0, some "bad args to announce")
  | some (a, p) => setladdrport env conv c (v.setremote IPnoaddr 0) a p true

def Fsstdbind (env : Env) (conv : Fin nc → Conv) (c : Fin nc) (v : Conv) :
    Option (Laddr × Lport) → Option (Conv × Option String)
  | .none => some (v, some "bad args to bind")
  | some (a, p) => setladdrport env conv c v a p false

def Fsconnected (v : Conv) : Conv :=
  { v with state := match v.state with
    | .Announcing => .Announced
    | .Connecting => .Connected
    | st => st }

/-- The part of `inittcpctl` that sets the local address. -/
def inittcpctl (env : Env) (v : Conv) : Conv :=
  if v.quad.laddr = IPnoaddr then v.setladdr (env.findlocalip v.quad.raddr) else v

/-- `udpkick` of a block that `padblock` finds room for. -/
def udpkick (env : Env) (v : Conv) : Conv :=
  if v.headers then v
  else if v.quad.laddr = IPnoaddr then v.setladdr (env.findlocalip v.quad.raddr) else v

/-! ## Steps -/

/-- A protocol: its conversations and its table. For the statements, `kind` is the pattern as which
a conversation was connected, announced or called, when it has not been closed since; `pending` is
a new call on its way to the table, while the protocol is locked. -/
structure Sys (nc : Nat) where
  conv : Fin nc → Conv
  ht : Ipht (Fin nc)
  kind : Fin nc → Option IPmatch
  pending : Option (Fin nc)

def Sys.init (nc : Nat) : Sys nc := ⟨fun _ => .new, ⟨fun _ => []⟩, fun _ => .none, .none⟩

def Sys.quad (s : Sys nc) (c : Fin nc) : Quad := (s.conv c).quad

def Sys.look (s : Sys nc) (sa : IPaddr) (sp : UInt16) (da : IPaddr) (dp : UInt16) :
    Option (Fin nc) := iphtlook s.ht s.quad sa sp da dp

def Sys.put (s : Sys nc) (c : Fin nc) (v : Conv) : Sys nc :=
  { s with conv := Function.update s.conv c v }

/-- `iphtadd` of a conversation that has just been opened. -/
def Sys.add (s : Sys nc) (c : Fin nc) : Sys nc :=
  { s with
    ht := iphtadd s.ht (s.quad c) c
    kind := Function.update s.kind c (some (s.quad c).pattern) }

def Sys.rem (s : Sys nc) (c : Fin nc) : Sys nc :=
  { s with ht := iphtrem s.ht (s.quad c) c, kind := Function.update s.kind c .none }

/-- `Fsprotoclone` may take the conversation. -/
def Conv.free (p : Ptcl) (v : Conv) : Bool := v.inuse = 0 && (p = .udp || v.tcb = .Closed)

/-- What `Fsprotoclone` makes of it. -/
def Conv.clone (v : Conv) : Conv :=
  { v with inuse := 1, state := .Idle, quad := .none, restricted := false }

def udpconnect (env : Env) (s : Sys nc) (c : Fin nc) (args : Args) : Option (Sys nc) :=
  (Fsstdconnect env s.conv c (s.conv c) args).map fun
    | (v, some _) => s.put c (Fsconnected v)
    | (v, .none) => (s.put c (Fsconnected v)).add c

def udpannounce (env : Env) (s : Sys nc) (c : Fin nc) (args : Option (Laddr × Lport)) :
    Option (Sys nc) :=
  (Fsstdannounce env s.conv c (s.conv c) args).map fun
    | (v, some _) => s.put c v
    | (v, .none) => (s.put c (Fsconnected v)).add c

def tcpconnect (env : Env) (s : Sys nc) (c : Fin nc) (args : Args) : Option (Sys nc) :=
  if (s.conv c).tcb ≠ .Closed then some s
  else
    (Fsstdconnect env s.conv c (s.conv c) args).map fun
      | (v, some _) => s.put c v
      | (v, .none) => (s.put c { inittcpctl env v with tcb := .Syn_sent }).add c

def tcpannounce (env : Env) (s : Sys nc) (c : Fin nc) (args : Option (Laddr × Lport)) :
    Option (Sys nc) :=
  if (s.conv c).tcb ≠ .Closed then some s
  else
    (Fsstdannounce env s.conv c (s.conv c) args).map fun
      | (v, some _) => s.put c v
      | (v, .none) => (s.put c (Fsconnected { v with tcb := .Listen })).add c

def localclose (s : Sys nc) (c : Fin nc) : Sys nc :=
  let v := s.conv c
  let v := if v.tcb = .Syn_sent then Fsconnected v else v
  (s.rem c).put c { v with tcb := .Closed }

def udpclose (s : Sys nc) (c : Fin nc) : Sys nc :=
  (s.rem c).put c { s.conv c with state := .Idle, quad := .none, headers := false }

def tcpclose (s : Sys nc) (c : Fin nc) : Sys nc :=
  match (s.conv c).tcb with
  | .Listen => localclose (s.put c (Fsconnected (s.conv c))) c
  | .Closed => localclose s c
  | .Syn_sent => localclose s c
  | .Syn_received => s.put c { s.conv c with tcb := .Finwait1 }
  | .Established => s.put c { s.conv c with tcb := .Finwait1 }
  | .Close_wait => s.put c { s.conv c with tcb := .Last_ack }
  | _ => s

def closeconv (p : Ptcl) (s : Sys nc) (c : Fin nc) : Sys nc :=
  let s := s.put c { s.conv c with inuse := (s.conv c).inuse - 1 }
  if (s.conv c).inuse > 0 then s
  else
    let s := match p with
      | .udp => udpclose s c
      | .tcp => tcpclose s c
    s.put c { s.conv c with state := .Idle }

inductive Op (nc : Nat)
  /-- a file of the conversation is opened -/
  | «open» (c : Fin nc)
  | clone (c : Fin nc)
  | connect (env : Env) (c : Fin nc) (args : Args)
  | announce (env : Env) (c : Fin nc) (args : Option (Laddr × Lport))
  | bind (env : Env) (c : Fin nc) (args : Option (Laddr × Lport))
  | headers (c : Fin nc)
  | kick (env : Env) (c : Fin nc)
  | close (c : Fin nc)
  /-- segments and timers -/
  | tcpsetstate (c : Fin nc) (st : Tcpstate)
  | localclose (c : Fin nc)
  /-- `Fsnewcall` of `udpiput` and `tcpincoming`, for a packet to `da`; the local address of the
  call is `laddr` -/
  | newcall (sa : IPaddr) (sp : UInt16) (da : IPaddr) (dp : UInt16) (laddr : IPaddr) (c : Fin nc)
  /-- the `iphtadd` after it -/
  | newadd

/-- The conversation that a packet finds takes new calls. -/
def Conv.listens (p : Ptcl) (v : Conv) : Bool :=
  match p with
  | .udp => v.state = .Announced && !v.headers
  | .tcp => v.tcb = .Listen

/-- A step, when it can be made. The control messages and the data come through an open file. -/
def exec (p : Ptcl) (s : Sys nc) : Op nc → Option (Sys nc)
  | .open c =>
    if s.pending = .none then some (s.put c { s.conv c with inuse := (s.conv c).inuse + 1 })
    else .none
  | .clone c =>
    if s.pending = .none && (s.conv c).free p then some (s.put c (s.conv c).clone) else .none
  | .connect env c args =>
    if (s.conv c).inuse = 0 then .none
    else if (s.conv c).state ≠ .Idle then some s
    else
      let s := s.put c { s.conv c with state := .Connecting }
      match p with
      | .udp => udpconnect env s c args
      | .tcp => tcpconnect env s c args
  | .announce env c args =>
    if (s.conv c).inuse = 0 then .none
    else if (s.conv c).state ≠ .Idle then some s
    else
      let s := s.put c { s.conv c with state := .Announcing }
      match p with
      | .udp => udpannounce env s c args
      | .tcp => tcpannounce env s c args
  | .bind env c args =>
    if (s.conv c).inuse = 0 then .none
    else (Fsstdbind env s.conv c (s.conv c) args).map fun r => s.put c r.1
  | .headers c => if p = .udp then some (s.put c { s.conv c with headers := true }) else .none
  | .kick env c => if p = .udp then some (s.put c (udpkick env (s.conv c))) else .none
  | .close c => if (s.conv c).inuse = 0 then .none else some (closeconv p s c)
  | .tcpsetstate c st =>
    if p = .tcp && (s.conv c).tcb ≠ .Closed && st ≠ .Closed then
      some (s.put c { s.conv c with tcb := st })
    else .none
  | .localclose c => if p = .tcp then some (localclose s c) else .none
  | .newcall sa sp da dp laddr c =>
    match s.look sa sp da dp with
    | .none => .none
    | some l =>
      if s.pending = .none && (s.conv l).listens p && c ≠ l && (s.conv c).free p then
        let v := (s.conv c).clone
        some { s.put c { v with quad := ⟨sa, sp, laddr, dp⟩, state := .Connected } with
          pending := some c }
      else .none
  | .newadd =>
    match s.pending with
    | .none => .none
    | some c =>
      let s := { s with pending := .none }
      let s := match p with
        | .udp => s
        | .tcp => s.put c { s.conv c with tcb := .Established }
      -- a conversation that has been closed in between is not live
      if (s.conv c).state = .Connected then some (s.add c)
      else some { s with ht := iphtadd s.ht (s.quad c) c }

end NixMark.Demux
