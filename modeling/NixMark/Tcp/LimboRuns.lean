import NixMark.Tcp.Limbo
import NixMark.Lib.Lts
import NixMark.Lib.Sums

/-!
# The limbo table along runs

`Intact`: the buckets are lists that end, `nlimbo` counts their entries, and a call is there once.
A new call that recycles the only entry of its bucket (`Severs`) cuts it off from the table, and it
stays counted: a state is intact exactly when no call has done so (`limbo_intact_iff`).
-/

namespace NixMark.Tcp

open Lib Ip
open Function (update update_apply update_idem update_of_ne update_self)

/-- The buckets of the table are the lists `L`, and `lost` entries are counted that are not on
them. -/
structure Entries (s : Tcppriv) (L : Fin NLHT → List Addr) (lost : Nat) : Prop where
  heads : Heads s.next s.lht L
  count : s.nlimbo = (∑ h, ((L h).length : Int)) + lost
  hash : ∀ h, ∀ a ∈ L h, (s.lp a).key.hash = h
  unique : ∀ h, ∀ a ∈ L h, ∀ b ∈ L h, (s.lp a).key = (s.lp b).key → a = b

/-- Each bucket is a list that ends, `nlimbo` is the number of the entries on them, and no two
entries are for the same call. -/
def Intact (s : Tcppriv) : Prop :=
  ∃ L : Fin NLHT → List Addr, (∀ h, Chain s.next (s.lht h) (L h)) ∧ (∀ h, (L h).Nodup) ∧
    s.nlimbo = ∑ h, ((L h).length : Int) ∧
    ∀ h, ∀ a ∈ L h, ∀ h', ∀ b ∈ L h', (s.lp a).key = (s.lp b).key → h = h' ∧ a = b

variable {s : Tcppriv} {L : Fin NLHT → List Addr} {lost : Nat}

theorem Entries.intact_iff (e : Entries s L lost) : Intact s ↔ lost = 0 := by
  have hc := e.count
  constructor
  · rintro ⟨L', hchain, -, hcount, -⟩
    have hL : L' = L := funext fun h => (hchain h).unique (e.heads.chain h)
    rw [hL] at hcount
    omega
  · intro h0
    refine ⟨L, e.heads.chain, e.heads.nodup, by omega, fun h a ha h' b hb hk => ?_⟩
    have hh : h = h' := by rw [← e.hash h a ha, ← e.hash h' b hb, hk]
    subst hh
    exact ⟨rfl, e.unique h a ha b hb hk⟩

/-- The sum of the lengths after one of the lists has changed. -/
theorem length_update (L : Fin NLHT → List Addr) (h : Fin NLHT) (l : List Addr) :
    (∑ k, ((update L h l k).length : Int)) + (L h).length =
      (∑ k, ((L k).length : Int)) + l.length :=
  sum_update (fun l : List Addr => (l.length : Int)) L h l

variable {h : Fin NLHT} {a : Addr}

theorem mem_update {k : Fin NLHT} {l : List Addr} (ha : a ∈ update L h l k) :
    (k = h ∧ a ∈ l) ∨ (k ≠ h ∧ a ∈ L k) := by
  by_cases hk : k = h
  · subst hk
    rw [update_self] at ha
    exact .inl ⟨rfl, ha⟩
  · rw [update_of_ne hk] at ha
    exact .inr ⟨hk, ha⟩

/-! ## The parts of the functions -/

theorem set_lp (s : Tcppriv) (a : Addr) (x : Limbo) (b : Addr) :
    (s.set a x).lp b = if b = a then x else s.lp b := update_apply _ _ _ _

variable {x : Limbo}

/-- Changing fields that do not identify the call. -/
theorem Entries.set (e : Entries s L lost) (hx : x.key = (s.lp a).key) :
    Entries (s.set a x) L lost := by
  have hkey : ∀ b, ((s.set a x).lp b).key = (s.lp b).key := by
    intro b
    rw [set_lp]
    split
    · rename_i hb
      rw [hb, hx]
    · rfl
  refine ⟨e.heads, e.count, fun h b hb => ?_, fun h b hb c hc hk => ?_⟩
  · rw [hkey]
    exact e.hash h b hb
  · rw [hkey, hkey] at hk
    exact e.unique h b hb c hc hk

variable {n : Nat}

theorem Entries.find (e : Entries s L lost) (hn : ∀ h, (L h).length ≤ n) (k : Key) :
    ∃ l₁ l₂, L k.hash = l₁ ++ l₂ ∧ s.find n k = (l₁.getLast?, l₂.head?) ∧
      (∀ a ∈ l₁, (s.lp a).key ≠ k) ∧ ∀ a, l₂.head? = some a → (s.lp a).key = k := by
  obtain ⟨l₁, l₂, h1, h2, h3, h4⟩ := walk_spec (fun a => decide ((s.lp a).key = k))
    (e.heads.chain k.hash) (hn k.hash)
  exact ⟨l₁, l₂, h1, h2, fun a ha => of_decide_eq_false (h3 a ha),
    fun a ha => of_decide_eq_true (h4 a ha)⟩

variable {l₁ l₂ : List Addr}

theorem Entries.drop (e : Entries s L lost) (hl : L h = l₁ ++ a :: l₂) :
    Entries (s.drop h l₁.getLast? a) (update L h (l₁ ++ l₂)) lost := by
  have hsub : ∀ k, ∀ b ∈ update L h (l₁ ++ l₂) k, b ∈ L k := by
    intro k b hb
    rcases mem_update hb with ⟨rfl, hb'⟩ | ⟨-, hb'⟩
    · rw [hl]
      exact ((List.sublist_cons_self a l₂).append_left l₁).subset hb'
    · exact hb'
  refine ⟨e.heads.remove hl, ?_, fun k b hb => e.hash k b (hsub k b hb),
    fun k b hb c hc => e.unique k b (hsub k b hb) c (hsub k c hc)⟩
  have hs := length_update L h (l₁ ++ l₂)
  have hc := e.count
  rw [hl, List.length_append, List.length_append, List.length_cons] at hs
  show s.nlimbo - 1 = _
  push_cast at hs
  omega

/-- A new entry at the end of its bucket. -/
theorem Entries.append (e : Entries s L lost) (ha : ∀ k, a ∉ L k)
    (hx : ∀ b ∈ L x.key.hash, (s.lp b).key ≠ x.key) {n : Int} (hn : n = s.nlimbo + 1) :
    Entries (({ s with nlimbo := n, next := update s.next a none } : Tcppriv).assign
        x.key.hash (L x.key.hash).getLast? (some a) |>.set a x)
      (update L x.key.hash (L x.key.hash ++ [a])) lost := by
  have hl : L x.key.hash = L x.key.hash ++ [] := (List.append_nil _).symm
  have hi := e.heads.insert hl ha
  have hlp : ∀ k, ∀ b ∈ L k, b ≠ a := fun k b hb hba => ha k (hba ▸ hb)
  refine ⟨hi, ?_, fun k b hb => ?_, fun k b hb c hc hk => ?_⟩
  · have hs := length_update L x.key.hash (L x.key.hash ++ [a])
    rw [List.length_append, List.length_singleton] at hs
    show n = _
    rw [hn, e.count]
    push_cast at hs
    omega
  · rcases mem_update hb with ⟨rfl, hb'⟩ | ⟨-, hb'⟩
    · rw [set_lp]
      split
      · rfl
      · rename_i hba
        rcases List.mem_append.mp hb' with hb' | hb'
        · exact e.hash _ b hb'
        · exact absurd (List.mem_singleton.mp hb') hba
    · rw [set_lp, if_neg (hlp k b hb')]
      exact e.hash k b hb'
  · rw [set_lp, set_lp] at hk
    rcases mem_update hb with ⟨rfl, hb'⟩ | ⟨hkh, hb'⟩
    · rcases mem_update hc with ⟨-, hc'⟩ | ⟨hne, -⟩
      · rcases List.mem_append.mp hb' with hb' | hb' <;> rcases List.mem_append.mp hc' with hc' | hc'
        · rw [if_neg (hlp _ b hb'), if_neg (hlp _ c hc')] at hk
          exact e.unique _ b hb' c hc' hk
        · rw [if_neg (hlp _ b hb'), if_pos (List.mem_singleton.mp hc')] at hk
          exact absurd hk (hx b hb')
        · rw [if_pos (List.mem_singleton.mp hb'), if_neg (hlp _ c hc')] at hk
          exact absurd hk.symm (hx c hc')
        · rw [List.mem_singleton.mp hb', List.mem_singleton.mp hc']
      · exact absurd rfl hne
    · rcases mem_update hc with ⟨h1, -⟩ | ⟨-, hc'⟩
      · exact absurd h1 hkh
      · rw [if_neg (hlp k b hb'), if_neg (hlp k c hc')] at hk
        exact e.unique k b hb' c hc' hk

/-! ## The functions -/

/-- `sndsynack` leaves what identifies the call. -/
theorem sndsynack_key (x : Limbo) (r : Sent) : (sndsynack x r).key = x.key := by
  unfold sndsynack
  dsimp only
  split <;> rfl

theorem fill_key (x : Limbo) (seg : Seg) (source dest : IPaddr) (version : UInt8) (iss : UInt32) :
    (x.fill seg source dest version iss).key = seg.key source dest version := rfl

/-- The SYN ACK of an entry is sent, or the entry is dropped. -/
theorem Entries.answer (e : Entries s L lost) (hl : L h = l₁ ++ a :: l₂) (r : Sent) :
    ∃ L', Entries (answer s h l₁.getLast? a r) L' lost := by
  unfold Tcp.answer
  have hs := e.set (a := a) (x := sndsynack (s.lp a) r) (sndsynack_key _ _)
  dsimp only
  split
  · exact ⟨L, hs⟩
  · exact ⟨_, hs.drop hl⟩

theorem set_set (s : Tcppriv) (a : Addr) (x y : Limbo) : (s.set a x).set a y = s.set a y := by
  unfold Tcppriv.set
  dsimp only
  rw [update_idem]

/-- A new call in memory that is not in the table. -/
theorem Entries.alloc (e : Entries s L lost) {source dest : IPaddr} {seg : Seg} {version : UInt8}
    {mem : Option Addr} (hmem : ∀ a, mem = some a → ∀ k, a ∉ L k) (iss : UInt32) (r : Sent)
    (hk : ∀ b ∈ L (seg.key source dest version).hash, (s.lp b).key ≠ seg.key source dest version) :
    ∃ L', Entries (limbo.alloc source dest seg version mem iss r s
      (seg.key source dest version).hash (L (seg.key source dest version).hash).getLast?) L' lost := by
  unfold limbo.alloc
  cases mem with
  | none => exact ⟨L, e⟩
  | some a =>
    have ha := e.append (x := cleared.fill seg source dest version iss) (hmem a rfl) hk rfl
    have hl : update L (seg.key source dest version).hash
        (L (seg.key source dest version).hash ++ [a]) (seg.key source dest version).hash =
        L (seg.key source dest version).hash ++ [a] := update_self _ _ _
    exact ha.answer hl r

variable {k : Key}

/-- The oldest entry of a bucket with more than one is recycled. -/
theorem Entries.recycle (e : Entries s L lost) {l : List Addr} (hl : L k.hash = a :: l)
    (hx : x.key = k) (hk : ∀ b ∈ l, (s.lp b).key ≠ k) :
    Entries ((s.recycle k.hash l.getLast? a).set a x) (update L k.hash (l ++ [a])) lost := by
  subst hx
  -- the entry leaves the front of the bucket, and comes back at the end
  have hd := e.drop (show L x.key.hash = [] ++ a :: l from hl)
  have hn := e.heads.nodup x.key.hash
  rw [hl] at hn
  have ha : ∀ j, a ∉ update L x.key.hash ([] ++ l) j := by
    intro j hj
    rcases mem_update hj with ⟨-, hj'⟩ | ⟨hne, hj'⟩
    · exact (List.nodup_cons.mp hn).1 hj'
    · exact hne (e.heads.apart hj' (hl ▸ List.mem_cons_self))
  have h := hd.append (x := x) (n := s.nlimbo) ha (fun b hb => by
    rw [update_self] at hb
    exact hk b hb) (by show s.nlimbo = s.nlimbo - 1 + 1; omega)
  rw [update_self, update_idem, List.nil_append] at h
  exact h

/-- Recycling the only entry of a bucket takes it off the table: the bucket is empty, and the entry
is linked to itself. -/
def severed (s : Tcppriv) (h : Fin NLHT) (a : Addr) (x : Limbo) : Tcppriv :=
  ({ s with lht := Function.update s.lht h none
            next := Function.update s.next a (some a) } : Tcppriv).set a x

theorem Entries.severed (e : Entries s L lost) (hl : L h = [a]) (x : Limbo) :
    Entries (Tcp.severed s h a x) (update L h []) (lost + 1) := by
  have hd := e.drop (show L h = [] ++ [a] from hl)
  rw [List.append_nil] at hd
  have hne : ∀ k, ∀ b ∈ update L h [] k, b ≠ a := by
    intro k b hb
    rcases mem_update hb with ⟨-, hb'⟩ | ⟨hkh, hb'⟩
    · cases hb'
    · rintro rfl
      exact hkh (e.heads.apart hb' (hl ▸ List.mem_cons_self))
  have hnext : s.next a = none := by
    have := e.heads.chain h
    rw [hl] at this
    exact this.2
  have hlp : ∀ k, ∀ b ∈ update L h [] k, (Tcp.severed s h a x).lp b = s.lp b :=
    fun k b hb => (set_lp _ _ _ _).trans (if_neg (hne k b hb))
  refine ⟨⟨fun k => ?_, hd.heads.nodup, hd.heads.apart⟩, ?_, fun k b hb => ?_,
    fun k b hb c hc hk => ?_⟩
  · have hc : Chain (s.drop h none a).next (update s.lht h (s.next a) k) _ :=
      hd.heads.chain k
    rw [hnext] at hc
    exact hc.congr fun b hb => update_of_ne (hne k b hb) _ _
  · have hcount : s.nlimbo - 1 = _ := hd.count
    show s.nlimbo = _
    push_cast
    omega
  · rw [hlp k b hb]
    exact hd.hash k b hb
  · rw [hlp k b hb, hlp k c hc] at hk
    exact hd.unique k b hb c hc hk

theorem recycle_severed (hnext : s.next a = none) (x : Limbo) :
    (s.recycle h (some a) a).set a x = Tcp.severed s h a x := by
  unfold Tcppriv.recycle Tcp.severed Tcppriv.assign Tcppriv.set
  simp only [hnext, rehead, relink, update_idem]

theorem severed_set (s : Tcppriv) (h : Fin NLHT) (a : Addr) (x y : Limbo) :
    (Tcp.severed s h a x).set a y = Tcp.severed s h a y := set_set _ _ _ _

/-- The entry that was recycled is dropped: its bucket is empty, as it should be. -/
theorem severed_drop (s : Tcppriv) (h : Fin NLHT) (a : Addr) (x : Limbo) :
    (Tcp.severed s h a x).drop h (some a) a =
      { Tcp.severed s h a x with nlimbo := s.nlimbo - 1 } := by
  unfold Tcppriv.drop Tcppriv.assign Tcp.severed Tcppriv.set
  simp only [rehead, relink, update_self, update_idem]

/-- The SYN ACK of a call that took the only entry of its bucket. -/
theorem Entries.answer_severed (e : Entries s L lost) (hl : L h = [a]) (x : Limbo) (r : Sent) :
    ∃ L', Entries (Tcp.answer (Tcp.severed s h a x) h (some a) a r) L' (lost + r.ok.toNat) := by
  unfold Tcp.answer
  dsimp only
  rw [severed_set]
  have he := e.severed hl (sndsynack ((Tcp.severed s h a x).lp a) r)
  refine ⟨update L h [], ?_⟩
  cases r.ok with
  | true =>
    rw [if_pos rfl]
    exact he
  | false =>
    rw [if_neg Bool.false_ne_true, severed_drop]
    refine ⟨he.heads, ?_, he.hash, he.unique⟩
    have hcount : s.nlimbo = _ := he.count
    show s.nlimbo - 1 = _
    rw [hcount, Nat.cast_add_one, ← add_assoc, add_sub_cancel_right]
    rfl

/-- The call `limbo` recycles the only entry of the bucket, and the SYN ACK is sent. -/
def severs (s : Tcppriv) (k : Key) (r : Sent) : Bool :=
  match s.lht k.hash with
  | some a =>
    (s.next a).isNone && decide ((s.lp a).key ≠ k) && decide (s.nlimbo ≥ Maxlimbo) && r.ok
  | none => false

theorem severs_some (h : s.lht k.hash = some a) (r : Sent) :
    severs s k r =
      ((s.next a).isNone && decide ((s.lp a).key ≠ k) && decide (s.nlimbo ≥ Maxlimbo) && r.ok) := by
  rw [severs, h]

theorem severs_not_full (h : s.nlimbo < Maxlimbo) (k : Key) (r : Sent) : severs s k r = false := by
  have hd : decide (s.nlimbo ≥ Maxlimbo) = false := decide_eq_false (not_le.mpr h)
  unfold severs
  cases s.lht k.hash with
  | none => rfl
  | some a =>
    dsimp only
    rw [hd, Bool.and_false, Bool.false_and]

theorem severs_none (h : s.lht k.hash = none) (r : Sent) : severs s k r = false := by
  rw [severs, h]

/-- A bucket that begins with an entry. -/
theorem Entries.head (e : Entries s L lost) (ha : s.lht h = some a) :
    ∃ l, L h = a :: l ∧ Chain s.next (s.next a) l := by
  have hc := e.heads.chain h
  rw [ha] at hc
  cases hL : L h with
  | nil =>
    rw [hL] at hc
    cases hc
  | cons b l =>
    rw [hL] at hc
    obtain ⟨⟨⟩, hc⟩ := hc
    exact ⟨l, rfl, hc⟩

/-- A call that is in limbo already recycles nothing. -/
theorem Entries.not_severs (e : Entries s L lost) (ha : a ∈ L k.hash) (hk : (s.lp a).key = k)
    (r : Sent) : severs s k r = false := by
  cases hb : s.lht k.hash with
  | none => exact severs_none hb r
  | some b =>
    rw [severs_some hb]
    obtain ⟨l, hl, hc⟩ := e.head hb
    cases hbn : s.next b with
    | some c => rfl
    | none =>
      rw [hbn] at hc
      cases l with
      | nil =>
        rw [hl] at ha
        have hbk : (s.lp b).key = k := List.mem_singleton.mp ha ▸ hk
        simp [hbk]
      | cons d l => cases hc.1

/-- A call of `limbo` loses an entry when it severs it, and none otherwise. -/
theorem Entries.limbo (e : Entries s L lost) (hn : ∀ h, (L h).length ≤ n) (source dest : IPaddr)
    (seg : Seg) (version : UInt8) {mem : Option Addr} (hmem : ∀ a, mem = some a → ∀ k, a ∉ L k)
    (iss : UInt32) (r : Sent) :
    ∃ L', Entries (limbo n s source dest seg version mem iss r) L'
      (lost + (severs s (seg.key source dest version) r).toNat) := by
  obtain ⟨l₁, l₂, hl, hf, h₁, h₂⟩ := e.find hn (seg.key source dest version)
  unfold Tcp.limbo
  dsimp only
  rw [hf]
  cases l₂ with
  | cons a l₂ =>
    -- the call is in limbo already
    have hmem : a ∈ L (seg.key source dest version).hash := by
      rw [hl]
      exact List.mem_append_right _ List.mem_cons_self
    rw [e.not_severs hmem (h₂ a rfl) r]
    exact (e.set (a := a) (x := { s.lp a with irs := seg.seq }) rfl).answer hl r
  | nil =>
    rw [List.append_nil] at hl
    subst hl
    dsimp only [List.head?]
    cases hhead : s.lht (seg.key source dest version).hash with
    | none =>
      rw [severs_none hhead]
      exact e.alloc hmem iss r h₁
    | some a =>
      rw [severs_some hhead]
      dsimp only
      by_cases hfull : s.nlimbo ≥ Maxlimbo
      · rw [if_pos hfull]
        obtain ⟨l, hl, hnext⟩ := e.head hhead
        have hx := fill_key (s.lp a) seg source dest version iss
        cases l with
        | cons b l =>
          -- another entry stays in the bucket
          have hlast : (L (seg.key source dest version).hash).getLast? = (b :: l).getLast? := by
            rw [hl]
            exact List.getLast?_cons_of_ne_nil (List.cons_ne_nil b l)
          have he := e.recycle hl hx fun c hc => h₁ c (hl ▸ List.mem_cons_of_mem a hc)
          rw [hlast, hnext.1]
          have hl' : update L (seg.key source dest version).hash ((b :: l) ++ [a])
              (seg.key source dest version).hash = (b :: l) ++ [a] := update_self _ _ _
          exact he.answer hl' r
        | nil =>
          have hk : (s.lp a).key ≠ seg.key source dest version :=
            h₁ a (hl ▸ List.mem_cons_self)
          have hlast : (L (seg.key source dest version).hash).getLast? = some a := by
            rw [hl]
            rfl
          rw [hlast, recycle_severed hnext, show s.next a = none from hnext, decide_eq_true hk,
            decide_eq_true hfull]
          exact e.answer_severed hl _ r
      · rw [if_neg hfull, decide_eq_false hfull, Bool.and_false, Bool.false_and]
        exact e.alloc hmem iss r h₁

theorem Entries.limborst (e : Entries s L lost) (hn : ∀ h, (L h).length ≤ n) (seg : Seg)
    (src dst : IPaddr) (version : UInt8) :
    ∃ L', Entries (limborst n s seg src dst version) L' lost := by
  obtain ⟨l₁, l₂, hl, hf, -, -⟩ := e.find hn (seg.key src dst version)
  unfold Tcp.limborst
  dsimp only
  rw [hf]
  cases l₂ with
  | nil => exact ⟨L, e⟩
  | cons a l₂ =>
    dsimp only [List.head?]
    split
    · exact ⟨_, e.drop hl⟩
    · exact ⟨L, e⟩

theorem Entries.tcpincoming (e : Entries s L lost) (hn : ∀ h, (L h).length ≤ n) (seg : Seg)
    (src dst : IPaddr) (version : UInt8) :
    ∃ L', Entries (tcpincoming n s seg src dst version).1 L' lost := by
  unfold Tcp.tcpincoming
  split
  · exact ⟨L, e⟩
  · obtain ⟨l₁, l₂, hl, hf, -, -⟩ := e.find hn (seg.key src dst version)
    dsimp only
    rw [hf]
    cases l₂ with
    | nil => exact ⟨L, e⟩
    | cons a l₂ =>
      dsimp only [List.head?]
      split
      · exact ⟨L, e⟩
      · exact ⟨_, e.drop hl⟩

/-- The pointer that `limborexmit` holds comes after `l₁`. -/
theorem Entries.deref (e : Entries s L lost) (hl : L h = l₁ ++ l₂) :
    s.deref h l₁.getLast? = l₂.head? := by
  have hc := e.heads.chain h
  rw [hl] at hc
  rcases List.eq_nil_or_concat l₁ with rfl | ⟨l, q, rfl⟩
  · exact hc.head.symm
  · rw [List.concat_eq_append] at hc ⊢
    rw [List.append_assoc] at hc
    rw [List.getLast?_concat]
    exact hc.rest.head.symm

theorem Entries.found (e : Entries s L lost) (hl : L h = l₁ ++ l₂)
    (hd : s.deref h l₁.getLast? = some a) : ∃ l, l₂ = a :: l := by
  rw [e.deref hl] at hd
  exact List.head?_eq_some_iff.mp hd

theorem Entries.bump (e : Entries s L lost) (a : Addr) :
    Entries (s.set a { s.lp a with rexmits := (s.lp a).rexmits + 1 }) L lost := e.set rfl

/-- The bucket that the loop of `limborexmit` goes through, from the position after `l₁` on. -/
theorem Entries.rexmitloop (now : UInt32) (out : Nat → Sent) (h : Fin NLHT) (s : Tcppriv)
    (l : Option Addr) (seen : Nat) {L : Fin NLHT → List Addr} (e : Entries s L lost)
    (hl : L h = l₁ ++ l₂) (hp : l = l₁.getLast?) :
    ∃ L', Entries (rexmitloop now out h s l seen).1 L' lost := by
  fun_induction Tcp.rexmitloop now out h s l seen generalizing L l₁ l₂ with
  | case1 s l seen hd => exact ⟨L, e⟩
  | case7 s l seen a hd hs => exact ⟨L, e⟩
  | case2 s l seen a hd hs hdue ih => exact ih e hl hp
  | case3 s l seen a hd hs hdue s' hrex =>
    rename_i ih
    subst hp
    obtain ⟨l, rfl⟩ := e.found hl hd
    have hs' := e.bump a
    exact ih (hs'.drop hl) (update_self _ _ _) rfl
  | case4 s l seen a hd hs hdue s' hrex hmany =>
    rename_i ih
    exact ih (e.bump a) hl hp
  | case5 s l seen a hd hs hdue s' hrex hmany s'' =>
    rename_i ih
    subst hp
    obtain ⟨l, rfl⟩ := e.found hl hd
    have hs' := e.bump a
    have hl' : L h = (l₁ ++ [a]) ++ l := by
      rw [List.append_assoc]
      exact hl
    exact ih (hs'.set (sndsynack_key _ _)) hl' List.getLast?_concat.symm
  | case6 s l seen a hd hs hdue s' hrex hmany s'' =>
    rename_i ih
    subst hp
    obtain ⟨l, rfl⟩ := e.found hl hd
    have hs' := e.bump a
    exact ih ((hs'.set (sndsynack_key _ _)).drop hl) (update_self _ _ _) rfl

theorem Entries.limborexmit (e : Entries s L lost) (canlock : Bool) (now : UInt32)
    (out : Nat → Sent) : ∃ L', Entries (limborexmit canlock now out s) L' lost := by
  unfold Tcp.limborexmit
  split
  · refine List.foldlRecOn (motive := fun r : Tcppriv × Nat => ∃ L', Entries r.1 L' lost)
      (List.finRange NLHT) _ ⟨L, e⟩ fun r ⟨L', e'⟩ h _ => ?_
    split
    · exact e'.rexmitloop now out h r.1 none r.2 (List.nil_append _).symm rfl
    · exact ⟨L', e'⟩
  · exact ⟨L, e⟩

/-! ## Runs -/

/-- A call of one of the functions, with what it is given. -/
inductive Op
  | limbo (source dest : IPaddr) (seg : Seg) (version : UInt8) (mem : Option Addr) (iss : UInt32)
    (r : Sent)
  | limborst (seg : Seg) (src dst : IPaddr) (version : UInt8)
  | limborexmit (canlock : Bool) (now : UInt32) (out : Nat → Sent)
  | tcpincoming (seg : Seg) (src dst : IPaddr) (version : UInt8)

def exec (n : Nat) (s : Tcppriv) : Op → Tcppriv
  | .limbo source dest seg version mem iss r => limbo n s source dest seg version mem iss r
  | .limborst seg src dst version => limborst n s seg src dst version
  | .limborexmit canlock now out => limborexmit canlock now out s
  | .tcpincoming seg src dst version => (tcpincoming n s seg src dst version).1

/-- The memory that `malloc` returns is not in the table. -/
def Op.Fresh (s : Tcppriv) : Op → Prop
  | .limbo _ _ _ _ mem _ _ => ∀ a, mem = some a → ∀ h, ¬Follows s.next (s.lht h) a
  | _ => True

/-- The call takes the only entry of its bucket off a full table. -/
def Op.severs (s : Tcppriv) : Op → Bool
  | .limbo source dest seg version _ _ r => Tcp.severs s (seg.key source dest version) r
  | _ => false

/-- The buckets are lists of at most `n` entries: the loops over them end. -/
def Tcppriv.Ends (s : Tcppriv) (n : Nat) : Prop :=
  ∀ h, ∃ l, Chain s.next (s.lht h) l ∧ l.length ≤ n

/-- The calls in any order; the label says whether the call severs an entry. -/
def System : Lts Tcppriv (Op × Bool) where
  init s := s = newpriv
  step s e s' := e.1.Fresh s ∧ e.2 = e.1.severs s ∧ ∃ n, s.Ends n ∧ s' = exec n s e.1

theorem Entries.length_le (e : Entries s L lost) (hn : s.Ends n) (h : Fin NLHT) :
    (L h).length ≤ n := by
  obtain ⟨l, hl, hln⟩ := hn h
  rw [(e.heads.chain h).unique hl]
  exact hln

theorem Entries.ends (e : Entries s L lost) : s.Ends (∑ h, (L h).length) :=
  fun h => ⟨L h, e.heads.chain h,
    Finset.single_le_sum (f := fun h => (L h).length) (fun _ _ => Nat.zero_le _)
      (Finset.mem_univ h)⟩

theorem Entries.step (e : Entries s L lost) {l : Op × Bool} {s' : Tcppriv}
    (h : System.step s l s') : ∃ L', Entries s' L' (lost + l.2.toNat) := by
  obtain ⟨op, b⟩ := l
  obtain ⟨hf, hb, n, hn, rfl⟩ := h
  have hb : b = op.severs s := hb
  subst hb
  have hlen := e.length_le hn
  cases op with
  | limbo source dest seg version mem iss r =>
    refine e.limbo hlen source dest seg version (fun a ha k hk => ?_) iss r
    exact hf a ha k ((e.heads.chain k).follows hk)
  | limborst seg src dst version => exact e.limborst hlen seg src dst version
  | limborexmit canlock now out => exact e.limborexmit canlock now out
  | tcpincoming seg src dst version => exact e.tcpincoming hlen seg src dst version

theorem newpriv_entries : Entries newpriv (fun _ => []) 0 where
  heads := ⟨fun _ => rfl, fun _ => List.nodup_nil, fun h => nomatch h⟩
  count := by simp [newpriv]
  hash _ _ h := nomatch h
  unique _ _ h := nomatch h

/-- What is counted and not on the table are the entries that calls have severed. -/
theorem run_entries {es : List (Op × Bool)} {s : Tcppriv} (h : System.Run es s) :
    ∃ L, Entries s L (es.countP (·.2)) := by
  refine h.induct (I := fun es s => ∃ L, Entries s L (es.countP (·.2))) ?_ ?_
  · rintro s rfl
    exact ⟨_, newpriv_entries⟩
  · rintro es s ⟨op, b⟩ s' ⟨L, e⟩ hs
    rw [List.countP_append, List.countP_singleton]
    have h := e.step hs
    cases b <;> exact h

/-- The table is intact exactly when no call has severed an entry. -/
theorem limbo_intact_iff {es : List (Op × Bool)} {s : Tcppriv} (h : System.Run es s) :
    Intact s ↔ ∀ e ∈ es, e.2 = false := by
  obtain ⟨L, e⟩ := run_entries h
  rw [e.intact_iff, List.countP_eq_zero]
  simp only [Bool.not_eq_true]

/-- A SYN for the port `lport` from the port `rport`, whose SYN ACK is sent. -/
private def syn (lport rport : UInt16) : Seg := ⟨rport, lport, 0, 0, true, false, 0, 0⟩

private def call (lport rport : UInt16) (a : Addr) : Op :=
  .limbo IPnoaddr IPnoaddr (syn lport rport) 4 (some a) 0 ⟨true, 0, 0⟩

theorem limbo_intact_call : Intact (exec 0 newpriv (call 0 1 0)) := by
  have hstep : System.step newpriv (call 0 1 0, false) (exec 0 newpriv (call 0 1 0)) :=
    ⟨fun a _ h hf => (nomatch hf), rfl, 0, fun h => ⟨[], rfl, Nat.le_refl 0⟩, rfl⟩
  have hrun : System.Run ([] ++ [(call 0 1 0, false)]) (exec 0 newpriv (call 0 1 0)) :=
    Lts.Run.step (.init rfl) hstep
  exact (limbo_intact_iff hrun).mpr (by simp)

/-! ## The table is full -/

/-- A new call, while the table is not full. -/
theorem Entries.limbo_new (e : Entries s L lost) (hn : ∀ h, (L h).length ≤ n) (source dest : IPaddr)
    (seg : Seg) (version : UInt8) (ha : ∀ k, a ∉ L k)
    (hk : ∀ b ∈ L (seg.key source dest version).hash, (s.lp b).key ≠ seg.key source dest version)
    (hfull : s.nlimbo < Maxlimbo) (iss : UInt32) {r : Sent} (hr : r.ok = true) :
    ∃ s', Tcp.limbo n s source dest seg version (some a) iss r = s' ∧
      Entries s' (update L (seg.key source dest version).hash
        (L (seg.key source dest version).hash ++ [a])) lost ∧
      s'.nlimbo = s.nlimbo + 1 ∧ (s'.lp a).key = seg.key source dest version ∧
      ∀ b ≠ a, s'.lp b = s.lp b := by
  refine ⟨_, rfl, ?_⟩
  obtain ⟨l₁, l₂, hl, hf, h₁, h₂⟩ := e.find hn (seg.key source dest version)
  have hl₂ : l₂ = [] := by
    cases l₂ with
    | nil => rfl
    | cons b l₂ => exact absurd (h₂ b rfl) (hk b (hl ▸ List.mem_append_right _ List.mem_cons_self))
  subst hl₂
  rw [List.append_nil] at hl
  subst hl
  have hlimbo : Tcp.limbo n s source dest seg version (some a) iss r =
      limbo.alloc source dest seg version (some a) iss r s (seg.key source dest version).hash
        (L (seg.key source dest version).hash).getLast? := by
    unfold Tcp.limbo
    dsimp only
    rw [hf]
    dsimp only [List.head?]
    cases s.lht (seg.key source dest version).hash with
    | none => rfl
    | some b => exact if_neg (by omega)
  rw [hlimbo]
  unfold limbo.alloc Tcp.answer
  dsimp only
  rw [set_set, if_pos hr]
  generalize hx : sndsynack _ r = x
  have hxk : x.key = seg.key source dest version := by
    rw [← hx, sndsynack_key, set_lp, if_pos rfl]
    exact fill_key _ _ _ _ _ _
  rw [← hxk] at hk ⊢
  refine ⟨e.append ha hk rfl, rfl, ?_, fun b hb => ?_⟩
  · rw [set_lp, if_pos rfl]
  · rw [set_lp, if_neg hb]
    rfl

/-- The bucket of the calls from a port. -/
private def bucket (rport : UInt16) : Fin NLHT := hashipa IPnoaddr rport

/-- A call from the port 1, and `n` calls from the port 0, which are in another bucket. -/
private structure Filled (s : Tcppriv) (L : Fin NLHT → List Addr) (n : Nat) : Prop where
  reach : System.Reach s
  entries : Entries s L 0
  total : s.nlimbo = n + 1
  first : L (bucket 1) = [0]
  port : (s.lp 0).key.lport = 0
  addrs : ∀ h, ∀ a ∈ L h, a ≤ n
  ports : ∀ a ∈ L (bucket 0), (s.lp a).key.lport.toNat < n

theorem filled_zero : ∃ s L, Filled s L 0 := by
  obtain ⟨s', hs', he, h1, h2, h3⟩ := newpriv_entries.limbo_new (n := 0) (fun _ => Nat.le_refl 0)
    IPnoaddr IPnoaddr (syn 0 1) 4 (a := 0)
    (fun _ => List.not_mem_nil) (fun _ hb => nomatch hb) (by decide) 0 (r := ⟨true, 0, 0⟩) rfl
  have hstep : System.step newpriv (call 0 1 0, false) s' :=
    ⟨fun a _ h hf => (nomatch hf), rfl, 0, fun h => ⟨[], rfl, Nat.le_refl 0⟩, hs'.symm⟩
  refine ⟨s', _, ⟨_, Lts.Run.step (.init rfl) hstep⟩, he, h1, update_self _ _ _, ?_, ?_, ?_⟩
  · rw [h2]
    rfl
  · intro h a ha
    rcases mem_update ha with ⟨-, ha'⟩ | ⟨-, ha'⟩
    · exact (List.mem_singleton.mp ha').le
    · cases ha'
  · intro a ha
    rcases mem_update ha with ⟨h, -⟩ | ⟨-, ha'⟩
    · exact absurd h (by decide)
    · cases ha'

theorem Filled.next (f : Filled s L n) (hn : n < 999) : ∃ s' L', Filled s' L' (n + 1) := by
  have hport : (UInt16.ofNat n).toNat = n := by
    rw [UInt16.toNat_ofNat']
    omega
  have hnew : ∀ k, n + 1 ∉ L k := fun k hk => Nat.not_succ_le_self n (f.addrs k _ hk)
  have hlp : ∀ k, ∀ a ∈ L k, a ≠ n + 1 := fun k a ha hne => hnew k (hne ▸ ha)
  have hkeys : ∀ b ∈ L (bucket 0),
      (s.lp b).key ≠ (syn (UInt16.ofNat n) 0).key IPnoaddr IPnoaddr 4 := fun b hb hk => by
    have := f.ports b hb
    rw [hk] at this
    exact absurd (hport.symm.trans_lt this) (Nat.lt_irrefl n)
  have hfull : s.nlimbo < Maxlimbo := by
    rw [f.total, Maxlimbo]
    omega
  obtain ⟨s', hs', he, h1, h2, h3⟩ := f.entries.limbo_new (f.entries.length_le f.entries.ends)
    IPnoaddr IPnoaddr (syn (UInt16.ofNat n) 0) 4 hnew hkeys hfull 0 (r := ⟨true, 0, 0⟩) rfl
  have hstep : System.step s (call (UInt16.ofNat n) 0 (n + 1), false) s' := by
    refine ⟨fun a ha h hf => ?_, (severs_not_full hfull _ _).symm, _, f.entries.ends, hs'.symm⟩
    cases ha
    exact hnew h ((f.entries.heads.chain h).mem_of_follows hf)
  have hne : bucket 1 ≠ bucket 0 := by decide
  refine ⟨s', _, ⟨f.reach.step hstep, he, ?_, (update_of_ne hne _ _).trans f.first, ?_, ?_, ?_⟩⟩
  · rw [h1, f.total]
    push_cast
    rfl
  · rw [h3 0 (Nat.succ_ne_zero n).symm]
    exact f.port
  · intro h a ha
    rcases mem_update ha with ⟨-, ha'⟩ | ⟨-, ha'⟩
    · rcases List.mem_append.mp ha' with ha' | ha'
      · exact (f.addrs _ a ha').trans (Nat.le_succ n)
      · exact (List.mem_singleton.mp ha').le
    · exact (f.addrs h a ha').trans (Nat.le_succ n)
  · intro a ha
    rcases mem_update ha with ⟨-, ha'⟩ | ⟨h, -⟩
    · rcases List.mem_append.mp ha' with ha' | ha'
      · rw [h3 a (hlp _ a ha')]
        exact (f.ports a ha').trans (Nat.lt_succ_self n)
      · rw [List.mem_singleton.mp ha', h2]
        exact hport.trans_lt (Nat.lt_succ_self n)
    · exact absurd rfl h

private theorem filled (n : Nat) (hn : n < 1000) : ∃ s L, Filled s L n := by
  induction n with
  | zero => exact filled_zero
  | succ n ih =>
    obtain ⟨s, L, f⟩ := ih (by omega)
    exact f.next (by omega)

/-- The table is full, and the call from the port 1 is alone in its bucket. A second call from that
port takes its place, and is on no list. -/
theorem limbo_severed : ¬∀ s, System.Reach s → Intact s := by
  obtain ⟨s, L, f⟩ := filled 999 (by decide)
  have hhead : s.lht (bucket 1) = some 0 := by
    have := f.entries.heads.chain (bucket 1)
    rw [f.first] at this
    exact this.1
  have hnext : s.next 0 = none := by
    have := f.entries.heads.chain (bucket 1)
    rw [f.first] at this
    exact this.2
  have hkey : (s.lp 0).key ≠ (syn 1 1).key IPnoaddr IPnoaddr 4 := fun h => by
    have := f.port
    rw [h] at this
    exact absurd this (by decide)
  have hsev : (call 1 1 1000).severs s = true := by
    refine (severs_some (k := (syn 1 1).key IPnoaddr IPnoaddr 4) hhead ⟨true, 0, 0⟩).trans ?_
    rw [hnext, decide_eq_true hkey, f.total]
    rfl
  have hstep : System.step s (call 1 1 1000, true)
      (exec (∑ h, (L h).length) s (call 1 1 1000)) := by
    have hfresh : (call 1 1 1000).Fresh s := fun a ha h hf => by
      cases ha
      exact absurd (f.addrs h _ ((f.entries.heads.chain h).mem_of_follows hf)) (by decide)
    exact ⟨hfresh, hsev.symm, ∑ h, (L h).length, f.entries.ends, rfl⟩
  obtain ⟨L', e⟩ := f.entries.step hstep
  intro hall
  have := e.intact_iff.mp (hall _ (f.reach.step hstep))
  exact absurd this (by decide)

end NixMark.Tcp
