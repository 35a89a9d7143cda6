import NixMark.Ip.Addr
import Mathlib.Data.List.Nodup
import Mathlib.Data.Nat.Bitwise
import Mathlib.Algebra.Order.Ring.Nat

/-!
# The hash table of the conversations

`Ipht` (`ipaux.c`): a conversation is filed under the hash of its addresses, with the pattern that
they make when it is added. The buckets are lists, the newest entry first; the addresses of a
conversation are read when it is looked at, so `iphtrem` and `iphtlook` are given what they are then.

* `iphash`, `iphtadd`, `iphtrem`, `iphtlook`: the functions of the source.
* `iphash_eq`: the bucket is decided by the local port alone.
* `Finds`: what a lookup is for. `Filed`: the table has each conversation where it is looked for.
* `Filed.finds`, `Filed.add`, `Filed.rem`: what the functions do to such a table.
-/

namespace NixMark.Demux

open Ip

def Nhash : Nat := 64

/-- The addresses and ports of a conversation. -/
structure Quad where
  raddr : IPaddr
  rport : UInt16
  laddr : IPaddr
  lport : UInt16
deriving DecidableEq

/-- The operands are unsigned: the promotions of the compiler keep the sign. -/
def iphash (sa : IPaddr) (sp : UInt16) (da : IPaddr) (dp : UInt16) : Nat :=
  (((sa.get ⟨15, by decide⟩).toUInt32 <<< 24) ^^^ (sp.toUInt32 <<< 16) ^^^
    ((da.get ⟨15, by decide⟩).toUInt32 <<< 8) ^^^ dp.toUInt32).toNat % Nhash

/-- `IPmatchexact` and so on. -/
inductive IPmatch
  | exact
  | any
  | port
  | addr
  | pa
deriving DecidableEq

structure Iphash (C : Type) where
  c : C
  ipmatch : IPmatch
deriving DecidableEq

structure Ipht (C : Type) where
  tab : Nat → List (Iphash C)

variable {C : Type}

def Ipht.set (ht : Ipht C) (hv : Nat) (l : List (Iphash C)) : Ipht C :=
  ⟨Function.update ht.tab hv l⟩

/-- The pattern that the addresses make. -/
def Quad.pattern (q : Quad) : IPmatch :=
  if q.raddr ≠ IPnoaddr then .exact
  else if q.laddr ≠ IPnoaddr then
    if q.lport = 0 then .addr else .pa
  else
    if q.lport = 0 then .any else .port

def Quad.hash (q : Quad) : Nat := iphash q.raddr q.rport q.laddr q.lport

def iphtadd (ht : Ipht C) (q : Quad) (c : C) : Ipht C :=
  ht.set q.hash (⟨c, q.pattern⟩ :: ht.tab q.hash)

def iphtrem [DecidableEq C] (ht : Ipht C) (q : Quad) (c : C) : Ipht C :=
  ht.set q.hash ((ht.tab q.hash).eraseP fun h => h.c = c)

/-- One of the loops of `iphtlook`. -/
def probe (ht : Ipht C) (hv : Nat) (m : IPmatch) (p : C → Bool) : Option C :=
  ((ht.tab hv).find? fun h => h.ipmatch = m && p h.c).map (·.c)

def iphtlook (ht : Ipht C) (quad : C → Quad) (sa : IPaddr) (sp : UInt16) (da : IPaddr)
    (dp : UInt16) : Option C :=
  -- exact 4 pair match (connection)
  match probe ht (iphash sa sp da dp) .exact fun c =>
    sp = (quad c).rport && dp = (quad c).lport && sa = (quad c).raddr && da = (quad c).laddr with
  | some c => some c
  | none =>
    -- match local address and port
    match probe ht (iphash IPnoaddr 0 da dp) .pa fun c =>
      dp = (quad c).lport && da = (quad c).laddr with
    | some c => some c
    | none =>
      -- match just port
      match probe ht (iphash IPnoaddr 0 IPnoaddr dp) .port fun c => dp = (quad c).lport with
      | some c => some c
      | none =>
        -- match local address
        match probe ht (iphash IPnoaddr 0 da 0) .addr fun c => da = (quad c).laddr with
        | some c => some c
        | none =>
          -- look for something that matches anything
          probe ht (iphash IPnoaddr 0 IPnoaddr 0) .any fun _ => true

/-! ## The buckets -/

theorem shiftLeft_mod (x k : UInt32) (h6 : 6 ≤ k.toNat) (h32 : k.toNat < 32) :
    (x <<< k).toNat % 2 ^ 6 = 0 := by
  have hdvd : (2 : Nat) ^ 6 ∣ 2 ^ 32 := Nat.pow_dvd_pow 2 (by decide)
  rw [UInt32.toNat_shiftLeft, Nat.mod_eq_of_lt h32, Nat.shiftLeft_eq, Nat.mod_mod_of_dvd _ hdvd]
  exact Nat.mod_eq_zero_of_dvd (Dvd.dvd.mul_left (Nat.pow_dvd_pow 2 h6) _)

/-- The addresses and the remote port are shifted out of the bits that `Nhash` leaves. -/
theorem iphash_eq (sa : IPaddr) (sp : UInt16) (da : IPaddr) (dp : UInt16) :
    iphash sa sp da dp = dp.toNat % Nhash := by
  unfold iphash
  rw [show Nhash = 2 ^ 6 from rfl, UInt32.toNat_xor, UInt32.toNat_xor, UInt32.toNat_xor,
    Nat.xor_mod_two_pow, Nat.xor_mod_two_pow, Nat.xor_mod_two_pow,
    shiftLeft_mod _ _ (by decide) (by decide), shiftLeft_mod _ _ (by decide) (by decide),
    shiftLeft_mod _ _ (by decide) (by decide), Nat.zero_xor, Nat.zero_xor, Nat.zero_xor,
    UInt16.toNat_toUInt32]

/-- The bucket of a local port. -/
def bucket (lport : UInt16) : Nat := lport.toNat % Nhash

theorem Quad.hash_eq (q : Quad) : q.hash = bucket q.lport := iphash_eq _ _ _ _

/-! ## What a lookup is for -/

/-- The order in which the patterns are tried. -/
def IPmatch.rank : IPmatch → Nat
  | .exact => 0
  | .pa => 1
  | .port => 2
  | .addr => 3
  | .any => 4

theorem IPmatch.rank_inj {m m' : IPmatch} (h : m.rank = m'.rank) : m = m' := by
  cases m <;> cases m' <;> first | rfl | cases h

/-- A packet is for a conversation with these addresses: connected with the addresses and ports of
the packet, or announced for its local address and port, its local port, its local address, or
anything. -/
def IPmatch.Accepts (m : IPmatch) (q : Quad) (sa : IPaddr) (sp : UInt16) (da : IPaddr)
    (dp : UInt16) : Prop :=
  match m with
  | .exact => sa = q.raddr ∧ sp = q.rport ∧ da = q.laddr ∧ dp = q.lport
  | .pa => da = q.laddr ∧ dp = q.lport
  | .port => dp = q.lport
  | .addr => da = q.laddr
  | .any => True

/-- The result is a conversation of the most specific pattern that accepts the packet, and is nil
when no conversation does. `kind` is the pattern as which a live conversation was connected or
announced. -/
def Finds (kind : C → Option IPmatch) (quad : C → Quad) (sa : IPaddr) (sp : UInt16) (da : IPaddr)
    (dp : UInt16) : Option C → Prop
  | some c => ∃ m, kind c = some m ∧ m.Accepts (quad c) sa sp da dp ∧
      ∀ c' m', kind c' = some m' → m'.Accepts (quad c') sa sp da dp → m.rank ≤ m'.rank
  | none => ∀ c m, kind c = some m → ¬m.Accepts (quad c) sa sp da dp

/-! ## A table that is in order -/

/-- The live conversations are in the table, each once, in the bucket of their local port, and no
others are; those announced for any port are in the first bucket. -/
structure Filed (ht : Ipht C) (kind : C → Option IPmatch) (quad : C → Quad) : Prop where
  mem : ∀ hv h, h ∈ ht.tab hv ↔ kind h.c = some h.ipmatch ∧ hv = bucket (quad h.c).lport
  once : ∀ hv, (ht.tab hv).Nodup
  zero : ∀ c, kind c = some .addr ∨ kind c = some .any → bucket (quad c).lport = 0

variable {ht : Ipht C} {kind : C → Option IPmatch} {quad : C → Quad}

theorem probe_some {hv : Nat} {m : IPmatch} {p : C → Bool} {c : C}
    (h : probe ht hv m p = some c) : ⟨c, m⟩ ∈ ht.tab hv ∧ p c = true := by
  obtain ⟨⟨c', m'⟩, hf, rfl⟩ := Option.map_eq_some_iff.mp h
  have hp := List.find?_some hf
  rw [Bool.and_eq_true, decide_eq_true_iff] at hp
  obtain ⟨hm, hp⟩ := hp
  have hm : m' = m := hm
  subst hm
  exact ⟨List.mem_of_find?_eq_some hf, hp⟩

theorem probe_none {hv : Nat} {m : IPmatch} {p : C → Bool} (h : probe ht hv m p = none) {c : C}
    (hc : ⟨c, m⟩ ∈ ht.tab hv) : p c = false := by
  have hf := List.find?_eq_none.mp (Option.map_eq_none_iff.mp h) _ hc
  rw [Bool.and_eq_true, decide_eq_true_iff, not_and, Bool.not_eq_true] at hf
  exact hf rfl

section
variable {sa : IPaddr} {sp : UInt16} {da : IPaddr} {dp : UInt16}

/-- No conversation of the first `k` patterns accepts the packet. -/
def NoneBelow (kind : C → Option IPmatch) (quad : C → Quad) (sa : IPaddr) (sp : UInt16)
    (da : IPaddr) (dp : UInt16) (k : Nat) : Prop :=
  ∀ c m, kind c = some m → m.rank < k → ¬m.Accepts (quad c) sa sp da dp

/-- One loop of `iphtlook`: `p` is what the pattern `m` accepts, and what it accepts is in the
bucket `hv`. -/
theorem Filed.probe (f : Filed ht kind quad) (hv : Nat) (m : IPmatch) (p : C → Bool)
    (hp : ∀ c, p c = true ↔ m.Accepts (quad c) sa sp da dp)
    (hh : ∀ c, kind c = some m → p c = true → bucket (quad c).lport = hv)
    (hno : NoneBelow kind quad sa sp da dp m.rank) :
    match Demux.probe ht hv m p with
    | some c => Finds kind quad sa sp da dp (some c)
    | none => NoneBelow kind quad sa sp da dp (m.rank + 1) := by
  cases hr : Demux.probe ht hv m p with
  | some c =>
    obtain ⟨hmem, hpc⟩ := probe_some hr
    obtain ⟨hkind, -⟩ := (f.mem hv _).mp hmem
    refine ⟨m, hkind, (hp c).mp hpc, fun c' m' hc' ha => ?_⟩
    exact Nat.le_of_not_lt fun hlt => hno c' m' hc' hlt ha
  | none =>
    intro c m' hc hlt ha
    rcases Nat.lt_or_eq_of_le (Nat.le_of_lt_succ hlt) with hlt | heq
    · exact hno c m' hc hlt ha
    · cases IPmatch.rank_inj heq
      have hpc := (hp c).mpr ha
      have hmem := (f.mem hv ⟨c, m⟩).mpr ⟨hc, (hh c hc hpc).symm⟩
      rw [probe_none hr hmem] at hpc
      cases hpc

/-- A lookup in a table that is in order. -/
theorem Filed.finds (f : Filed ht kind quad) (sa : IPaddr) (sp : UInt16) (da : IPaddr)
    (dp : UInt16) : Finds kind quad sa sp da dp (iphtlook ht quad sa sp da dp) := by
  have h0 : NoneBelow kind quad sa sp da dp 0 := fun c _ _ h => absurd h (Nat.not_lt_zero _)
  unfold iphtlook
  simp only [iphash_eq]
  have hexact := f.probe (dp.toNat % Nhash) .exact (fun c =>
    sp = (quad c).rport && dp = (quad c).lport && sa = (quad c).raddr && da = (quad c).laddr)
    (fun c => by
      simp only [IPmatch.Accepts, Bool.and_eq_true, decide_eq_true_iff]
      tauto)
    (fun c _ hp => by
      simp only [Bool.and_eq_true, decide_eq_true_iff] at hp
      rw [← hp.1.1.2]
      rfl) h0
  split
  · rename_i hr
    rw [hr] at hexact
    exact hexact
  rename_i hr
  rw [hr] at hexact
  have hpa := f.probe (dp.toNat % Nhash) .pa (fun c =>
    dp = (quad c).lport && da = (quad c).laddr)
    (fun c => by
      simp only [IPmatch.Accepts, Bool.and_eq_true, decide_eq_true_iff]
      tauto)
    (fun c _ hp => by
      simp only [Bool.and_eq_true, decide_eq_true_iff] at hp
      rw [← hp.1]
      rfl) hexact
  split
  · rename_i hr
    rw [hr] at hpa
    exact hpa
  rename_i hr
  rw [hr] at hpa
  have hport := f.probe (dp.toNat % Nhash) .port (fun c => dp = (quad c).lport)
    (fun c => decide_eq_true_iff) (fun c _ hp => by
      rw [← of_decide_eq_true hp]
      rfl) hpa
  split
  · rename_i hr
    rw [hr] at hport
    exact hport
  rename_i hr
  rw [hr] at hport
  have haddr := f.probe ((0 : UInt16).toNat % Nhash) .addr (fun c => da = (quad c).laddr)
    (fun c => decide_eq_true_iff) (fun c hc _ => f.zero c (.inl hc)) hport
  split
  · rename_i hr
    rw [hr] at haddr
    exact haddr
  rename_i hr
  rw [hr] at haddr
  have hany := f.probe ((0 : UInt16).toNat % Nhash) .any (fun _ => true)
    (fun c => iff_of_true rfl trivial) (fun c hc _ => f.zero c (.inr hc)) haddr
  cases hr : Demux.probe ht ((0 : UInt16).toNat % Nhash) .any fun _ => true with
  | some c =>
    rw [hr] at hany
    exact hany
  | none =>
    rw [hr] at hany
    intro c m hc ha
    refine hany c m hc ?_ ha
    cases m <;> decide

end

/-! ## Changes -/

/-- The addresses matter only for the bucket, and only those of the live conversations. -/
theorem Filed.congr (f : Filed ht kind quad) {quad' : C → Quad}
    (hq : ∀ c m, kind c = some m → bucket (quad' c).lport = bucket (quad c).lport) :
    Filed ht kind quad' := by
  refine ⟨fun hv h => ?_, f.once, fun c hc => ?_⟩
  · rw [f.mem]
    refine and_congr_right fun hk => ?_
    rw [hq _ _ hk]
  · have h0 := f.zero c hc
    rcases hc with hc | hc <;> rw [hq c _ hc, h0]

theorem tab_set (ht : Ipht C) (hv : Nat) (l : List (Iphash C)) (k : Nat) :
    (ht.set hv l).tab k = if k = hv then l else ht.tab k := Function.update_apply _ _ _ _

/-- A pattern without a port is made by addresses without one. -/
theorem Quad.pattern_zero {q : Quad} (h : q.pattern = .addr ∨ q.pattern = .any) : q.lport = 0 := by
  unfold Quad.pattern at h
  grind

variable [DecidableEq C]

theorem Filed.add (f : Filed ht kind quad) {c : C} (hc : kind c = none) :
    Filed (iphtadd ht (quad c) c) (Function.update kind c (some (quad c).pattern)) quad := by
  have hnot : ∀ hv h, h ∈ ht.tab hv → h.c ≠ c := fun hv h hh he => by
    have := ((f.mem hv h).mp hh).1
    rw [he, hc] at this
    cases this
  refine ⟨fun hv h => ?_, fun hv => ?_, fun x hx => ?_⟩
  · by_cases hx : h.c = c
    · -- the new entry
      rw [hx, Function.update_self, iphtadd, tab_set, Quad.hash_eq]
      obtain ⟨x, m⟩ := h
      have hx : x = c := hx
      subst hx
      split
      · rename_i hhv
        rw [List.mem_cons, hhv]
        constructor
        · rintro (heq | hh)
          · cases heq
            exact ⟨rfl, rfl⟩
          · exact absurd rfl (hnot _ _ hh)
        · rintro ⟨hm, -⟩
          have hm : some (quad x).pattern = some m := hm
          cases hm
          exact .inl rfl
      · rename_i hhv
        exact ⟨fun hh => absurd rfl (hnot _ _ hh), fun hh => absurd hh.2 hhv⟩
    · rw [Function.update_of_ne hx, ← f.mem, iphtadd, tab_set]
      split
      · rename_i hhv
        rw [List.mem_cons, hhv]
        exact ⟨fun hh => hh.resolve_left fun heq => hx (heq ▸ rfl), .inr⟩
      · rfl
  · rw [iphtadd, tab_set]
    split
    · exact List.nodup_cons.mpr ⟨fun h => hnot _ _ h rfl, f.once _⟩
    · exact f.once hv
  · by_cases hxc : x = c
    · subst hxc
      rw [Function.update_self] at hx
      rw [Quad.pattern_zero (hx.imp Option.some.inj Option.some.inj)]
      rfl
    · rw [Function.update_of_ne hxc] at hx
      exact f.zero x hx

/-- Erasing what only one element of the list can be. -/
theorem eraseP_eq_filter {α : Type} {p : α → Bool} {l : List α} (hn : l.Nodup)
    (hp : ∀ a ∈ l, ∀ b ∈ l, p a = true → p b = true → a = b) :
    l.eraseP p = l.filter fun a => !p a := by
  induction l with
  | nil => rfl
  | cons a l ih =>
    obtain ⟨ha, hn⟩ := List.nodup_cons.mp hn
    cases hpa : p a with
    | false =>
      rw [List.eraseP_cons_of_neg (by rw [hpa]; exact Bool.false_ne_true),
        List.filter_cons_of_pos (by rw [hpa]; rfl)]
      rw [ih hn fun b hb c hc => hp b (List.mem_cons_of_mem a hb) c (List.mem_cons_of_mem a hc)]
    | true =>
      rw [List.eraseP_cons_of_pos hpa, List.filter_cons_of_neg (by rw [hpa]; exact Bool.false_ne_true)]
      refine (List.filter_eq_self.mpr fun b hb => ?_).symm
      cases hpb : p b with
      | false => rfl
      | true => exact absurd (hp a List.mem_cons_self b (List.mem_cons_of_mem a hb) hpa hpb ▸ hb) ha

/-- `iphtrem` takes out what it is given, and nothing else. -/
theorem Filed.rem_tab (f : Filed ht kind quad) (c : C) (hv : Nat) :
    (iphtrem ht (quad c) c).tab hv = (ht.tab hv).filter fun h => h.c ≠ c := by
  rw [iphtrem, tab_set, Quad.hash_eq]
  split
  · rename_i hhv
    rw [hhv, eraseP_eq_filter (f.once _)]
    · simp only [decide_not]
    · -- the entries of `c` are all the same
      rintro ⟨a, m⟩ ha ⟨b, m'⟩ hb hac hbc
      have hac' : a = c := of_decide_eq_true hac
      have hbc' : b = c := of_decide_eq_true hbc
      have h1 : kind a = some m := ((f.mem _ _).mp ha).1
      have h2 : kind b = some m' := ((f.mem _ _).mp hb).1
      rw [hac'] at h1 ⊢
      rw [hbc', h1] at h2
      cases h2
      rw [hbc']
  · rename_i hhv
    refine (List.filter_eq_self.mpr fun h hh => decide_eq_true ?_).symm
    rintro rfl
    exact hhv ((f.mem hv h).mp hh).2

theorem Filed.rem (f : Filed ht kind quad) (c : C) :
    Filed (iphtrem ht (quad c) c) (Function.update kind c none) quad := by
  refine ⟨fun hv h => ?_, fun hv => ?_, fun x hx => ?_⟩
  · rw [f.rem_tab, List.mem_filter, f.mem, decide_eq_true_iff]
    by_cases hx : h.c = c
    · rw [hx, Function.update_self]
      exact ⟨fun hh => absurd rfl hh.2, fun hh => nomatch hh.1⟩
    · rw [Function.update_of_ne hx]
      exact ⟨fun hh => hh.1, fun hh => ⟨hh, hx⟩⟩
  · rw [f.rem_tab]
    exact (f.once hv).filter _
  · refine f.zero x (hx.imp (fun h => ?_) fun h => ?_) <;>
    · by_cases hxc : x = c
      · rw [hxc, Function.update_self] at h
        cases h
      · rwa [Function.update_of_ne hxc] at h

end NixMark.Demux
