import NixMark.Demux.Paths
import NixMark.Lib.Lts

/-!
# Conversations along runs

`Inv` says that the table is in order and which conversations can be in it; every step keeps it that
is `Sound`: a bind does not move a conversation that is in the table, and a new call is not closed
before it is in the table. So every lookup and every removal does what it is for (`demux_sound`).
-/

namespace NixMark.Demux

open Ip Lib

variable {nc : Nat} {p : Ptcl} {s : Sys nc}

/-! ## What the control messages leave -/

/-- What the addresses are not part of. -/
def Conv.frame (v : Conv) : State × Nat × Bool × Tcpstate := (v.state, v.inuse, v.headers, v.tcb)

@[simp] theorem setport_frame (v : Conv) (l : UInt16) : (v.setport l).frame = v.frame := rfl

@[simp] theorem setremote_frame (v : Conv) (a : IPaddr) (l : UInt16) :
    (v.setremote a l).frame = v.frame := rfl

theorem setluniqueport_frame (conv : Fin nc → Conv) (c : Fin nc) (v : Conv) (l : UInt16) :
    (setluniqueport conv c v l).1.frame = v.frame := by
  unfold setluniqueport
  split <;> rfl

variable {conv : Fin nc → Conv} {c : Fin nc} {v v' : Conv}

theorem setlport_frame {l : UInt16} (h : setlport conv c v l = some v') : v'.frame = v.frame := by
  unfold setlport at h
  split at h
  · cases h
    rfl
  · cases h

variable {env : Env} {announcing : Bool}

theorem localaddr_frame {a : Laddr} (h : localaddr env v announcing a = .ok v') :
    v'.frame = v.frame := by
  unfold localaddr at h
  split at h
  · split at h <;> (cases h; rfl)
  · cases h
    rfl
  · cases h
  · split at h
    · cases h
      rfl
    · cases h

variable {r : Conv × Option String}

theorem localport_frame {l : Lport} (h : localport env conv c v announcing l = some r) :
    r.1.frame = v.frame := by
  unfold localport at h
  split at h
  · split at h
    · cases h
      exact setluniqueport_frame _ _ _ _
    · cases h
      rfl
  · split at h
    · obtain ⟨v', hv', rfl⟩ := Option.map_eq_some_iff.mp h
      exact setlport_frame hv'
    · cases h
      exact setluniqueport_frame _ _ _ _

theorem setladdrport_frame {a : Laddr} {l : Lport}
    (h : setladdrport env conv c v a l announcing = some r) : r.1.frame = v.frame := by
  unfold setladdrport at h
  dsimp only at h
  split at h
  · cases h
    rfl
  · rename_i v' hv'
    exact (localport_frame h).trans ((localaddr_frame hv').trans (setport_frame v 0))

theorem setraddrport_frame (v : Conv) (r : Option Remote) :
    (setraddrport v r).1.frame = v.frame := by
  unfold setraddrport
  split
  · rfl
  · split <;> rfl

theorem Fsstdconnect_frame {args : Args} (h : Fsstdconnect env conv c v args = some r) :
    r.1.frame = v.frame := by
  unfold Fsstdconnect at h
  split at h
  · cases h
    rfl
  · rename_i ra
    have hf := setraddrport_frame v ra
    split at h
    · rename_i v' e hr
      cases h
      rw [hr] at hf
      exact hf
    · rename_i v' hr
      rw [hr] at hf
      obtain ⟨v'', hv', rfl⟩ := Option.map_eq_some_iff.mp h
      exact (setlport_frame hv').trans hf
  · rename_i ra a l
    have hf := setraddrport_frame v ra
    split at h
    · rename_i v' e hr
      cases h
      rw [hr] at hf
      exact hf
    · rename_i v' hr
      rw [hr] at hf
      exact (setladdrport_frame h).trans hf

variable {args : Option (Laddr × Lport)}

theorem Fsstdannounce_frame (h : Fsstdannounce env conv c v args = some r) :
    r.1.frame = v.frame := by
  unfold Fsstdannounce at h
  split at h
  · cases h
    rfl
  · exact (setladdrport_frame h).trans (setremote_frame v IPnoaddr 0)

theorem Fsstdbind_frame (h : Fsstdbind env conv c v args = some r) : r.1.frame = v.frame := by
  unfold Fsstdbind at h
  split at h
  · cases h
    rfl
  · exact setladdrport_frame h

theorem udpkick_frame (env : Env) (v : Conv) : (udpkick env v).frame = v.frame := by
  unfold udpkick
  split
  · rfl
  · split <;> rfl

/-- `udpkick` does not move the conversation to another bucket. -/
theorem udpkick_lport (env : Env) (v : Conv) : (udpkick env v).quad.lport = v.quad.lport := by
  unfold udpkick
  split
  · rfl
  · split <;> rfl

/-! ## The invariant -/

/-- The state of a conversation that can be in the table. -/
def Conv.Live (p : Ptcl) (v : Conv) : Prop :=
  match p with
  | .udp => v.state ≠ .Idle ∧ 0 < v.inuse
  | .tcp => v.tcb ≠ .Closed

structure Inv (p : Ptcl) (s : Sys nc) : Prop where
  filed : Filed s.ht s.kind s.quad
  live : ∀ c m, s.kind c = some m → (s.conv c).Live p
  pending : ∀ c, s.pending = some c →
    s.kind c = none ∧ (s.conv c).state = .Connected ∧ 0 < (s.conv c).inuse

theorem put_conv (s : Sys nc) (c : Fin nc) (v : Conv) (x : Fin nc) :
    (s.put c v).conv x = if x = c then v else s.conv x := Function.update_apply _ _ _ _

theorem Inv.put (h : Inv p s)
    (hb : ∀ m, s.kind c = some m → bucket v.quad.lport = bucket (s.quad c).lport)
    (hl : ∀ m, s.kind c = some m → v.Live p)
    (hp : s.pending = some c → v.state = .Connected ∧ 0 < v.inuse) : Inv p (s.put c v) := by
  refine ⟨h.filed.congr fun x m hx => ?_, fun x m hx => ?_, fun x hx => ?_⟩
  · rw [Sys.quad, put_conv]
    split
    · rename_i hxc
      subst hxc
      exact hb m hx
    · rfl
  · rw [put_conv]
    split
    · rename_i hxc
      subst hxc
      exact hl m hx
    · exact h.live x m hx
  · have hpx := h.pending x hx
    refine ⟨hpx.1, ?_⟩
    rw [put_conv]
    split
    · rename_i hxc
      subst hxc
      exact hp hx
    · exact hpx.2

theorem Inv.add (h : Inv p s) (hc : s.kind c = none) (hl : (s.conv c).Live p)
    (hp : s.pending ≠ some c) : Inv p (s.add c) := by
  refine ⟨h.filed.add hc, fun x m hx => ?_, fun x hx => ?_⟩
  · by_cases hxc : x = c
    · subst hxc
      exact hl
    · have hx : Function.update s.kind c _ x = some m := hx
      rw [Function.update_of_ne hxc] at hx
      exact h.live x m hx
  · have hpx := h.pending x hx
    have hxc : x ≠ c := fun e => hp (e ▸ hx)
    exact ⟨(Function.update_of_ne hxc _ _).trans hpx.1, hpx.2⟩

theorem Inv.rem (h : Inv p s) (c : Fin nc) : Inv p (s.rem c) := by
  refine ⟨h.filed.rem c, fun x m hx => ?_, fun x hx => ?_⟩
  · have hx : Function.update s.kind c none x = some m := hx
    by_cases hxc : x = c
    · rw [hxc, Function.update_self] at hx
      cases hx
    · rw [Function.update_of_ne hxc] at hx
      exact h.live x m hx
  · have hpx := h.pending x hx
    refine ⟨?_, hpx.2⟩
    show Function.update s.kind c none x = none
    by_cases hxc : x = c
    · rw [hxc, Function.update_self]
    · exact (Function.update_of_ne hxc _ _).trans hpx.1

/-! ## The functions -/

/-- The steps that `Inv` is kept by: a bind leaves a conversation of the table in its bucket, and a
new call is not closed before it is in the table. -/
def Op.Sound (s : Sys nc) : Op nc → Prop
  | .bind env c args => s.kind c ≠ none → ∀ r, Fsstdbind env s.conv c (s.conv c) args = some r →
      bucket r.1.quad.lport = bucket (s.quad c).lport
  | .close c => s.pending ≠ some c
  | _ => True

theorem frame_state (h : v'.frame = v.frame) : v'.state = v.state :=
  congrArg (fun f => f.1) h

theorem frame_inuse (h : v'.frame = v.frame) : v'.inuse = v.inuse :=
  congrArg (fun f => f.2.1) h

theorem frame_tcb (h : v'.frame = v.frame) : v'.tcb = v.tcb :=
  congrArg (fun f => f.2.2.2) h

theorem frame_live (h : v'.frame = v.frame) (hl : v.Live p) : v'.Live p := by
  cases p with
  | udp =>
    unfold Conv.Live at hl ⊢
    rw [frame_state h, frame_inuse h]
    exact hl
  | tcp =>
    unfold Conv.Live at hl ⊢
    rw [frame_tcb h]
    exact hl

/-- A conversation that is idle and open. -/
structure Idling (p : Ptcl) (s : Sys nc) (c : Fin nc) : Prop where
  inv : Inv p s
  kind : s.kind c = none
  pending : s.pending ≠ some c
  inuse : 0 < (s.conv c).inuse

theorem Idling.put (h : Idling p s c) (v : Conv) : Inv p (s.put c v) :=
  h.inv.put (fun m hm => by rw [h.kind] at hm; cases hm) (fun m hm => by rw [h.kind] at hm; cases hm)
    fun hp => absurd hp h.pending

theorem Idling.add (h : Idling p s c) (hl : v.Live p) : Inv p ((s.put c v).add c) := by
  refine (h.put v).add h.kind ?_ h.pending
  rw [put_conv, if_pos rfl]
  exact hl

variable {s' : Sys nc}

theorem Idling.udpconnect (h : Idling .udp s c) {args : Args} (hst : (s.conv c).state = .Connecting)
    (hs : udpconnect env s c args = some s') : Inv .udp s' := by
  obtain ⟨⟨v, e⟩, hr, rfl⟩ := Option.map_eq_some_iff.mp hs
  have hf := Fsstdconnect_frame hr
  cases e with
  | some e => exact h.put _
  | none =>
    refine h.add ⟨?_, ?_⟩
    · rw [Fsconnected]
      dsimp only
      rw [frame_state hf, hst]
      exact State.noConfusion
    · show 0 < v.inuse
      rw [frame_inuse hf]
      exact h.inuse

theorem Idling.udpannounce (h : Idling .udp s c) (hst : (s.conv c).state = .Announcing)
    (hs : udpannounce env s c args = some s') : Inv .udp s' := by
  obtain ⟨⟨v, e⟩, hr, rfl⟩ := Option.map_eq_some_iff.mp hs
  have hf := Fsstdannounce_frame hr
  cases e with
  | some e => exact h.put _
  | none =>
    refine h.add ⟨?_, ?_⟩
    · rw [Fsconnected]
      dsimp only
      rw [frame_state hf, hst]
      exact State.noConfusion
    · show 0 < v.inuse
      rw [frame_inuse hf]
      exact h.inuse

theorem Idling.tcpconnect (h : Idling .tcp s c) {args : Args}
    (hs : tcpconnect env s c args = some s') : Inv .tcp s' := by
  unfold Demux.tcpconnect at hs
  split at hs
  · cases hs
    exact h.inv
  · obtain ⟨⟨v, e⟩, -, rfl⟩ := Option.map_eq_some_iff.mp hs
    cases e with
    | some e => exact h.put _
    | none => exact h.add Tcpstate.noConfusion

theorem Idling.tcpannounce (h : Idling .tcp s c) (hs : tcpannounce env s c args = some s') :
    Inv .tcp s' := by
  unfold Demux.tcpannounce at hs
  split at hs
  · cases hs
    exact h.inv
  · obtain ⟨⟨v, e⟩, -, rfl⟩ := Option.map_eq_some_iff.mp hs
    cases e with
    | some e => exact h.put _
    | none => exact h.add Tcpstate.noConfusion

/-- After `iphtrem`, the conversation may change as it likes. -/
theorem Inv.rem_put (h : Inv p s) (hp : s.pending = some c → v.state = .Connected ∧ 0 < v.inuse) :
    Inv p ((s.rem c).put c v) := by
  have hk : (s.rem c).kind c = none := Function.update_self _ _ _
  refine (h.rem c).put (fun m hm => ?_) (fun m hm => ?_) hp <;>
  · rw [hk] at hm
    cases hm

theorem Inv.localclose (h : Inv p s) (c : Fin nc) : Inv p (localclose s c) := by
  unfold Demux.localclose
  refine h.rem_put fun hp => ?_
  obtain ⟨-, hst, hin⟩ := h.pending c hp
  dsimp only
  split
  · rw [Fsconnected]
    dsimp only
    rw [hst]
    exact ⟨rfl, hin⟩
  · exact ⟨hst, hin⟩

theorem Inv.tcpclose (h : Inv .tcp s) (hp : s.pending ≠ some c) : Inv .tcp (tcpclose s c) := by
  -- the states that are not closed stay so
  have hset : ∀ st, st ≠ .Closed → Inv .tcp (s.put c { s.conv c with tcb := st }) :=
    fun st hst => h.put (fun _ _ => rfl) (fun _ _ => hst) fun hpc => absurd hpc hp
  unfold Demux.tcpclose
  split
  · rename_i hl
    have hlive : (Fsconnected (s.conv c)).tcb ≠ .Closed := by
      rw [Fsconnected, hl]
      exact Tcpstate.noConfusion
    have hf : Inv .tcp (s.put c (Fsconnected (s.conv c))) :=
      h.put (fun _ _ => rfl) (fun _ _ => hlive) fun hpc => absurd hpc hp
    exact hf.localclose c
  · exact h.localclose c
  · exact h.localclose c
  · exact hset _ Tcpstate.noConfusion
  · exact hset _ Tcpstate.noConfusion
  · exact hset _ Tcpstate.noConfusion
  · exact h

theorem tcpclose_pending (s : Sys nc) (c : Fin nc) : (tcpclose s c).pending = s.pending := by
  unfold tcpclose
  split <;> rfl

theorem put_put (s : Sys nc) (c : Fin nc) (v w : Conv) : (s.put c v).put c w = s.put c w := by
  unfold Sys.put
  dsimp only
  rw [Function.update_idem]

theorem put_rem (s : Sys nc) (hv : v.quad = s.quad c) : (s.put c v).rem c = (s.rem c).put c v := by
  have hq : (s.put c v).quad c = s.quad c := by rw [Sys.quad, put_conv, if_pos rfl, hv]
  unfold Sys.rem
  rw [hq]
  rfl

theorem Inv.closeconv (h : Inv p s) (hp : s.pending ≠ some c) : Inv p (closeconv p s c) := by
  unfold Demux.closeconv
  dsimp only
  split
  · rename_i hin
    refine h.put (fun _ _ => rfl) (fun m hm => ?_) fun hpc => absurd hpc hp
    have hl := h.live c m hm
    cases p with
    | udp =>
      refine ⟨hl.1, ?_⟩
      rw [put_conv, if_pos rfl] at hin
      exact hin
    | tcp => exact hl
  · cases p with
    | udp =>
      -- the conversation is no longer in use, and `udpclose` removes it
      dsimp only
      rw [udpclose, put_rem, put_put, put_put]
      · exact h.rem_put fun hpc => absurd hpc hp
      · rfl
    | tcp =>
      have h1 : Inv .tcp (s.put c { s.conv c with inuse := (s.conv c).inuse - 1 }) :=
        h.put (fun _ _ => rfl) (h.live c) fun hpc => absurd hpc hp
      have h2 := h1.tcpclose (c := c) hp
      refine h2.put (fun _ _ => rfl) (h2.live c) fun hpc => ?_
      rw [tcpclose_pending] at hpc
      exact absurd hpc hp

theorem Inv.newadd (h : Inv p s) (he : exec p s .newadd = some s') : Inv p s' := by
  rw [exec] at he
  split at he
  · cases he
  · rename_i c hp
    obtain ⟨hk, hst, hin⟩ := h.pending c hp
    have h0 : Inv p { s with pending := none } := ⟨h.filed, h.live, fun _ hx => nomatch hx⟩
    cases p with
    | udp =>
      dsimp only at he
      rw [if_pos hst] at he
      cases he
      refine h0.add hk ⟨?_, hin⟩ nofun
      rw [hst]
      exact State.noConfusion
    | tcp =>
      have h1 : Inv .tcp (({ s with pending := none } : Sys nc).put c
          { s.conv c with tcb := .Established }) :=
        h0.put (fun _ _ => rfl) (fun _ _ => Tcpstate.noConfusion) nofun
      dsimp only at he
      rw [put_conv, if_pos rfl, if_pos hst] at he
      cases he
      refine h1.add hk ?_ nofun
      rw [put_conv, if_pos rfl]
      exact Tcpstate.noConfusion

/-! ## Runs -/

/-- The table does what it is for: a lookup finds a conversation that the packet is for, of the most
specific pattern, and a removal takes out the conversation and no other; only live conversations are
in the table. -/
structure Demuxes (s : Sys nc) : Prop where
  look : ∀ sa sp da dp, Finds s.kind s.quad sa sp da dp (s.look sa sp da dp)
  rem : ∀ c hv, (s.rem c).ht.tab hv = (s.ht.tab hv).filter fun h => h.c ≠ c
  live : ∀ hv, ∀ h ∈ s.ht.tab hv, s.kind h.c = some h.ipmatch

theorem Filed.demuxes (f : Filed s.ht s.kind s.quad) : Demuxes s where
  look := f.finds
  rem := f.rem_tab
  live hv h hh := ((f.mem hv h).mp hh).1

/-- The steps of a protocol, in any order. -/
def System (p : Ptcl) (nc : Nat) : Lts (Sys nc) (Op nc) where
  init s := s = .init nc
  step s op s' := exec p s op = some s'

theorem Inv.init (p : Ptcl) (nc : Nat) : Inv p (Sys.init nc) where
  filed :=
    { mem := fun _ _ => iff_of_false List.not_mem_nil fun h => nomatch h.1
      once := fun _ => List.nodup_nil
      zero := fun _ h => h.elim (fun h => nomatch h) fun h => nomatch h }
  live _ _ h := nomatch h
  pending _ h := nomatch h

theorem Inv.not_live (h : Inv p s) (hl : ¬(s.conv c).Live p) : s.kind c = none := by
  cases hk : s.kind c with
  | none => rfl
  | some m => exact absurd (h.live c m hk) hl

/-- A conversation that `Fsprotoclone` takes is not in the table. -/
theorem Inv.free (h : Inv p s) (hf : (s.conv c).free p = true) : s.kind c = none := by
  refine h.not_live fun hl => ?_
  unfold Conv.free at hf
  rw [Bool.and_eq_true, decide_eq_true_iff] at hf
  cases p with
  | udp => exact absurd hf.1 (Nat.pos_iff_ne_zero.mp hl.2)
  | tcp => exact hl (of_decide_eq_true ((Bool.or_eq_true _ _).mp hf.2 |>.resolve_left (by decide)))

/-- A connect or an announce begins. -/
theorem Inv.begin (h : Inv p s) (hin : (s.conv c).inuse ≠ 0) (hst : (s.conv c).state = .Idle)
    (st : State) (hk : s.kind c = none) : Idling p (s.put c { s.conv c with state := st }) c := by
  have hp : s.pending ≠ some c := fun hp => by
    have := (h.pending c hp).2.1
    rw [hst] at this
    cases this
  refine ⟨h.put (fun _ _ => rfl) (fun m hm => ?_) fun hpc => absurd hpc hp, hk, hp, ?_⟩
  · rw [hk] at hm
    cases hm
  · rw [put_conv, if_pos rfl]
    exact Nat.pos_of_ne_zero hin

/-- An idle conversation is not in the table, but that a TCP conversation may still be closing. -/
theorem Inv.idle (h : Inv p s) (hst : (s.conv c).state = .Idle)
    (ht : p = .tcp → (s.conv c).tcb = .Closed) : s.kind c = none := by
  refine h.not_live fun hl => ?_
  cases p with
  | udp => exact hl.1 hst
  | tcp => exact hl (ht rfl)

theorem Inv.connect (h : Inv p s) {args : Args} (he : exec p s (.connect env c args) = some s') :
    Inv p s' := by
  rw [exec] at he
  split at he
  · cases he
  · rename_i hin
    split at he
    · cases he
      exact h
    · rename_i hst
      have hst := not_not.mp hst
      cases p with
      | udp =>
        refine (h.begin hin hst .Connecting (h.idle hst nofun)).udpconnect ?_ he
        rw [put_conv, if_pos rfl]
      | tcp =>
        by_cases ht : (s.conv c).tcb = .Closed
        · exact (h.begin hin hst .Connecting (h.idle hst fun _ => ht)).tcpconnect he
        · have hp : s.pending ≠ some c := fun hp => by
            have := (h.pending c hp).2.1
            rw [hst] at this
            cases this
          have he : tcpconnect env (s.put c { s.conv c with state := .Connecting }) c args =
            some s' := he
          rw [tcpconnect, put_conv, if_pos rfl, if_pos ht] at he
          cases he
          exact h.put (fun _ _ => rfl) (fun _ _ => ht) fun hpc => absurd hpc hp

theorem Inv.announce (h : Inv p s) (he : exec p s (.announce env c args) = some s') : Inv p s' := by
  rw [exec] at he
  split at he
  · cases he
  · rename_i hin
    split at he
    · cases he
      exact h
    · rename_i hst
      have hst := not_not.mp hst
      cases p with
      | udp =>
        refine (h.begin hin hst .Announcing (h.idle hst nofun)).udpannounce ?_ he
        rw [put_conv, if_pos rfl]
      | tcp =>
        by_cases ht : (s.conv c).tcb = .Closed
        · exact (h.begin hin hst .Announcing (h.idle hst fun _ => ht)).tcpannounce he
        · have hp : s.pending ≠ some c := fun hp => by
            have := (h.pending c hp).2.1
            rw [hst] at this
            cases this
          have he : tcpannounce env (s.put c { s.conv c with state := .Announcing }) c args =
            some s' := he
          rw [tcpannounce, put_conv, if_pos rfl, if_pos ht] at he
          cases he
          exact h.put (fun _ _ => rfl) (fun _ _ => ht) fun hpc => absurd hpc hp

theorem Inv.newcall (h : Inv p s) {sa : IPaddr} {sp : UInt16} {da : IPaddr} {dp : UInt16}
    {laddr : IPaddr} (he : exec p s (.newcall sa sp da dp laddr c) = some s') : Inv p s' := by
  rw [exec] at he
  split at he
  · cases he
  · split at he
    · rename_i hg
      simp only [Bool.and_eq_true, decide_eq_true_iff] at hg
      obtain ⟨⟨⟨hp, -⟩, -⟩, hf⟩ := hg
      have hk := h.free hf
      cases he
      have hput : Inv p (s.put c { (s.conv c).clone with
          quad := ⟨sa, sp, laddr, dp⟩, state := .Connected }) := by
        refine h.put (fun m hm => ?_) (fun m hm => ?_) fun hpc => ?_
        · rw [hk] at hm
          cases hm
        · rw [hk] at hm
          cases hm
        · rw [hp] at hpc
          cases hpc
      refine ⟨hput.filed, hput.live, fun x hx => ?_⟩
      cases hx
      refine ⟨hk, ?_⟩
      dsimp only
      rw [put_conv, if_pos rfl]
      exact ⟨rfl, Nat.one_pos⟩
    · cases he

theorem Inv.step (h : Inv p s) {op : Op nc} (hs : op.Sound s) (he : exec p s op = some s') :
    Inv p s' := by
  cases op with
  | «open» c =>
    rw [exec] at he
    split at he
    · rename_i hp
      cases he
      refine h.put (fun _ _ => rfl) (fun m hm => ?_) fun hpc => ?_
      · have hl := h.live c m hm
        cases p with
        | udp => exact ⟨hl.1, Nat.succ_pos _⟩
        | tcp => exact hl
      · rw [hp] at hpc
        cases hpc
    · cases he
  | clone c =>
    rw [exec] at he
    split at he
    · rename_i hg
      simp only [Bool.and_eq_true, decide_eq_true_iff] at hg
      have hk := h.free hg.2
      cases he
      refine h.put (fun m hm => ?_) (fun m hm => ?_) fun hpc => ?_
      · rw [hk] at hm
        cases hm
      · rw [hk] at hm
        cases hm
      · rw [hg.1] at hpc
        cases hpc
    · cases he
  | connect env c args => exact h.connect he
  | announce env c args => exact h.announce he
  | bind env c args =>
    rw [exec] at he
    split at he
    · cases he
    · obtain ⟨r, hr, rfl⟩ := Option.map_eq_some_iff.mp he
      have hf := Fsstdbind_frame hr
      refine h.put (fun m hm => ?_) (fun m hm => frame_live hf (h.live c m hm)) fun hpc => ?_
      · exact hs (by rw [hm]; exact Option.some_ne_none m) r hr
      · rw [frame_state hf, frame_inuse hf]
        exact (h.pending c hpc).2
  | headers c =>
    rw [exec] at he
    split at he
    · cases he
      exact h.put (fun _ _ => rfl) (h.live c) fun hpc => (h.pending c hpc).2
    · cases he
  | kick env c =>
    rw [exec] at he
    split at he
    · cases he
      have hf := udpkick_frame env (s.conv c)
      refine h.put (fun m hm => ?_) (fun m hm => frame_live hf (h.live c m hm)) fun hpc => ?_
      · rw [udpkick_lport]
        rfl
      · rw [frame_state hf, frame_inuse hf]
        exact (h.pending c hpc).2
    · cases he
  | close c =>
    rw [exec] at he
    split at he
    · cases he
    · cases he
      exact h.closeconv hs
  | tcpsetstate c st =>
    rw [exec] at he
    split at he
    · rename_i hg
      simp only [Bool.and_eq_true, decide_eq_true_iff] at hg
      obtain ⟨⟨rfl, -⟩, hst⟩ := hg
      cases he
      exact h.put (fun _ _ => rfl) (fun _ _ => hst) fun hpc => (h.pending c hpc).2
    · cases he
  | localclose c =>
    rw [exec] at he
    split at he
    · cases he
      exact h.localclose c
    · cases he
  | newcall sa sp da dp laddr c => exact h.newcall he
  | newadd => exact h.newadd he

/-- An interface whose address is `a`. -/
private def ifc (a : IPaddr) : Env := ⟨fun x => x = a, fun _ => a, false, 40000⟩

private def addr (x : UInt8) : IPaddr := Vector.ofFn fun i => if i.val = 15 then x else 0

/-- A conversation announced for the port 53 of any address, which then sends: its local address is
filled in. -/
private def announced : List (Op 2) :=
  [.clone 0, .announce (ifc (addr 1)) 0 (some (.star, .num 53)), .kick (ifc (addr 1)) 0]

/-- The steps of these operations need nothing. -/
private def quiet (s : Sys nc) : Op nc → Option (Sys nc)
  | .clone c => exec .udp s (.clone c)
  | .announce env c args => exec .udp s (.announce env c args)
  | .kick env c => exec .udp s (.kick env c)
  | _ => none

theorem quiet_step (s : Sys nc) (op : Op nc) (s' : Sys nc) (h : quiet s op = some s') :
    ((System .udp nc).restrict fun s op => op.Sound s).step s op s' := by
  cases op <;> first | exact ⟨h, trivial⟩ | cases h

end NixMark.Demux
