import NixMark.Lib.Window
import NixMark.Qio.Block

/-!
# Packets in memory

The IP code sets the pointers of a block from lengths that come from the network, so here a block is
its memory with the pointers as offsets from `base`. (`Qio.Block` is the view of the queues, where
the data is a list.)

* `Block.setrp`, `Block.setwp`: the assignments that a length can lead out of the block; `Fault`
  says which bound they break.
* `nhgets`, `nhgetl`, `hnputs`, `ipcsum`: the fields of the header.
* `pullupblock`, `padblock`, `reserve`: what they do to the data of a chain.
-/

namespace NixMark.Ip

export Lib (window window_length window_zero window_congr window_add window_take window_drop
  window_frame)

/-- A block; `foff` and `flen` are the `Ipfrag` at `base`. -/
structure Block where
  mem : Nat → UInt8
  rp : Nat
  wp : Nat
  lim : Nat
  foff : Nat
  flen : Nat

/-- A pointer that is set beyond the next one. -/
inductive Fault where
  | rp
  | wp
deriving DecidableEq

def IP_VER4 : Nat := 0x40
def IP_HLEN4 : Nat := 5
def IP_DF : Nat := 0x4000
def IP_MF : Nat := 0x2000
def IP4HDR : Nat := 20
def IP_MAX : Nat := 64 * 1024
def IPFRAGSZ : Nat := 4

namespace Block

def BLEN (b : Block) : Nat := b.wp - b.rp

/-- The bytes of the block. -/
def data (b : Block) : List UInt8 := window b.mem b.rp b.BLEN

/-- The pointers are in order. -/
def Ordered (b : Block) : Prop := b.rp ≤ b.wp ∧ b.wp ≤ b.lim

def setrp (b : Block) (rp : Nat) : Except Fault Block :=
  if rp ≤ b.wp then .ok { b with rp := rp } else .error .rp

def setwp (b : Block) (wp : Nat) : Except Fault Block :=
  if wp ≤ b.lim then .ok { b with wp := wp } else .error .wp

/-- `memmove(b->wp, src->rp, n); b->wp += n;` -/
def put (b src : Block) (n : Nat) : Block :=
  { b with
    mem := fun a => if b.wp ≤ a ∧ a < b.wp + n then src.mem (src.rp + (a - b.wp)) else b.mem a
    wp := b.wp + n }

/-- `memmove(b->rp + n, b->rp, IP4HDR)` -/
def moveup (b : Block) (n : Nat) : Block :=
  { b with
    mem := fun a => if b.rp + n ≤ a ∧ a < b.rp + n + IP4HDR then b.mem (a - n) else b.mem a }

/-! ## The header -/

def byte (b : Block) (o : Nat) : Nat := (b.mem (b.rp + o)).toNat

def setbyte (b : Block) (o v : Nat) : Block :=
  { b with mem := fun a => if a = b.rp + o then UInt8.ofNat v else b.mem a }

def nhgets (b : Block) (o : Nat) : Nat := b.byte o * 256 + b.byte (o + 1)

def nhgetl (b : Block) (o : Nat) : Nat := b.nhgets o * 65536 + b.nhgets (o + 2)

def hnputs (b : Block) (o v : Nat) : Block := (b.setbyte o (v / 256)).setbyte (o + 1) v

def vihl (b : Block) : Nat := b.byte 0
def tos (b : Block) : Nat := b.byte 1
def length (b : Block) : Nat := b.nhgets 2
def id (b : Block) : Nat := b.nhgets 4
def frag (b : Block) : Nat := b.nhgets 6
def ttl (b : Block) : Nat := b.byte 8
def src (b : Block) : Nat := b.nhgetl 12
def dst (b : Block) : Nat := b.nhgetl 16

/-- The end around carry of `ipcsum`. -/
def fold (sum : Nat) : Nat := sum % 65536 + sum / 65536

/-- `ipcsum` of the header at `rp` -/
def ipcsum (b : Block) : Nat :=
  let words := (b.vihl % 16) * 2
  let sum := ((List.range words).map fun k => b.nhgets (2 * k)).sum
  (fold (fold sum)) % 65536 ^^^ 0xffff

end Block

/-! ## Chains -/

/-- `allocb`; the model clears the memory. -/
def allocb (size : Nat) : Block :=
  let b := Qio.allocb 0 size
  { mem := fun _ => 0, rp := b.head, wp := b.head, lim := b.head + b.tail, foff := 0, flen := 0 }

def blocklen (bs : List Block) : Nat := (bs.map Block.BLEN).sum

/-- The bytes of a chain. -/
def bytes (bs : List Block) : List UInt8 := bs.flatMap Block.data

/-- The loop of `pullupblock`. -/
def pull (bp : Block) (n : Nat) : List Block → Option (Block × List Block)
  | [] => none
  | nbp :: next =>
    if n < nbp.BLEN then some (bp.put nbp n, { nbp with rp := nbp.rp + n } :: next)
    else if n - nbp.BLEN = 0 then some (bp.put nbp nbp.BLEN, next)
    else pull (bp.put nbp nbp.BLEN) (n - nbp.BLEN) next

/-- `pullupblock` on the chain `bp`, `next` -/
def pullupblock (bp : Block) (next : List Block) (n : Nat) : Option (Block × List Block) :=
  if n ≤ bp.BLEN then some (bp, next)
  else if bp.lim - bp.rp < n then pull (allocb n) n (bp :: next)
  else pull bp (n - bp.BLEN) next

/-- `padblock` for a size that is not negative -/
def padblock (bp : Block) (size : Nat) : Block :=
  if size ≤ bp.rp then { bp with rp := bp.rp - size }
  else
    let nbp := allocb (size + bp.BLEN)
    let nbp : Block := { nbp with rp := nbp.rp + size, wp := nbp.rp + size }
    let nbp := nbp.put bp bp.BLEN
    { nbp with rp := nbp.rp - size }

/-- Room for the `Ipfrag` in front of the data. -/
def reserve (bp : Block) : Block :=
  if bp.rp ≤ IPFRAGSZ then
    let bp := padblock bp IPFRAGSZ
    { bp with rp := bp.rp + IPFRAGSZ }
  else bp

/-! ## Fields -/

namespace Block

variable {b : Block} {o o' v n : Nat}

theorem byte_lt (b : Block) (o : Nat) : b.byte o < 256 := UInt8.toNat_lt _

theorem nhgets_lt (b : Block) (o : Nat) : b.nhgets o < 65536 := by
  have h₁ := b.byte_lt o
  have h₂ := b.byte_lt (o + 1)
  unfold nhgets
  omega

@[simp] theorem setbyte_rp (b : Block) (o v : Nat) : (b.setbyte o v).rp = b.rp := rfl
@[simp] theorem setbyte_wp (b : Block) (o v : Nat) : (b.setbyte o v).wp = b.wp := rfl
@[simp] theorem setbyte_lim (b : Block) (o v : Nat) : (b.setbyte o v).lim = b.lim := rfl
@[simp] theorem setbyte_foff (b : Block) (o v : Nat) : (b.setbyte o v).foff = b.foff := rfl
@[simp] theorem setbyte_flen (b : Block) (o v : Nat) : (b.setbyte o v).flen = b.flen := rfl
@[simp] theorem hnputs_rp (b : Block) (o v : Nat) : (b.hnputs o v).rp = b.rp := rfl
@[simp] theorem hnputs_wp (b : Block) (o v : Nat) : (b.hnputs o v).wp = b.wp := rfl
@[simp] theorem hnputs_lim (b : Block) (o v : Nat) : (b.hnputs o v).lim = b.lim := rfl
@[simp] theorem hnputs_foff (b : Block) (o v : Nat) : (b.hnputs o v).foff = b.foff := rfl
@[simp] theorem hnputs_flen (b : Block) (o v : Nat) : (b.hnputs o v).flen = b.flen := rfl

theorem byte_setbyte (b : Block) (o v : Nat) : (b.setbyte o v).byte o = v % 256 := by
  simp [byte, setbyte]

theorem byte_setbyte_ne (h : o' ≠ o) : (b.setbyte o v).byte o' = b.byte o' := by
  simp [byte, setbyte, h]

theorem byte_hnputs_ne (h : o' ≠ o) (h' : o' ≠ o + 1) : (b.hnputs o v).byte o' = b.byte o' := by
  rw [hnputs, byte_setbyte_ne h', byte_setbyte_ne h]

theorem nhgets_hnputs (b : Block) (o v : Nat) : (b.hnputs o v).nhgets o = v % 65536 := by
  have h₀ : (b.hnputs o v).byte o = v / 256 % 256 := by
    rw [hnputs, byte_setbyte_ne (by omega), byte_setbyte]
  have h₁ : (b.hnputs o v).byte (o + 1) = v % 256 := by rw [hnputs, byte_setbyte]
  rw [nhgets, h₀, h₁]
  omega

theorem nhgets_hnputs_ne (h : o' + 1 < o ∨ o + 1 < o') :
    (b.hnputs o v).nhgets o' = b.nhgets o' := by
  rw [nhgets, nhgets, byte_hnputs_ne (by omega) (by omega), byte_hnputs_ne (by omega) (by omega)]

theorem nhgets_setbyte_ne (h : o' + 1 < o ∨ o < o') : (b.setbyte o v).nhgets o' = b.nhgets o' := by
  rw [nhgets, nhgets, byte_setbyte_ne (by omega), byte_setbyte_ne (by omega)]

/-- The bytes behind a field that is set. -/
theorem window_setbyte {a n : Nat} (h : b.rp + o < a) :
    window (b.setbyte o v).mem a n = window b.mem a n :=
  window_frame fun x hx _ => if_neg (show x ≠ b.rp + o by omega)

theorem window_hnputs {a n : Nat} (h : b.rp + o + 1 < a) :
    window (b.hnputs o v).mem a n = window b.mem a n := by
  rw [hnputs, window_setbyte (by rw [setbyte_rp]; omega), window_setbyte (by omega)]

/-! ## The header that is moved up -/

/-- The header stands in front of the bytes that are left. -/
def advance (b : Block) (n : Nat) : Block := { b.moveup n with rp := b.rp + n }

theorem byte_advance (b : Block) (n : Nat) (h : o < IP4HDR) : (b.advance n).byte o = b.byte o := by
  have hin : b.rp + n ≤ b.rp + n + o ∧ b.rp + n + o < b.rp + n + IP4HDR := by omega
  simp only [byte, advance, moveup]
  rw [if_pos hin, show b.rp + n + o - n = b.rp + o by omega]

theorem window_advance {a k : Nat} (h : b.rp + n + IP4HDR ≤ a) :
    window (b.advance n).mem a k = window b.mem a k :=
  window_frame fun x hx _ =>
    if_neg (show ¬ (b.rp + n ≤ x ∧ x < b.rp + n + IP4HDR) by omega)

/-! ## Data that is copied -/

theorem data_length (b : Block) : b.data.length = b.BLEN := window_length _ _ _

theorem BLEN_put (b src : Block) (n : Nat) (h : b.rp ≤ b.wp) : (b.put src n).BLEN = b.BLEN + n := by
  simp only [BLEN, put]
  omega

theorem data_put {b src : Block} {n : Nat} (h : b.rp ≤ b.wp) (hn : n ≤ src.BLEN) :
    (b.put src n).data = b.data ++ src.data.take n := by
  rw [data, BLEN_put b src n h, window_add, data, data, window_take hn]
  congr 1
  · exact window_frame fun x hx hx' => if_neg (by simp only [BLEN, put] at hx hx'; omega)
  · have hwp : b.rp + b.BLEN = b.wp := by
      unfold BLEN
      omega
    refine window_congr fun k hk => ?_
    rw [show (b.put src n).rp = b.rp from rfl, hwp]
    exact (if_pos ⟨Nat.le_add_right _ _, Nat.add_lt_add_left hk _⟩).trans
      (by rw [Nat.add_sub_cancel_left])

theorem data_skip {b : Block} {n : Nat} (hn : n ≤ b.BLEN) :
    ({ b with rp := b.rp + n } : Block).data = b.data.drop n := by
  rw [data, data, window_drop hn]
  unfold BLEN
  rw [Nat.sub_add_eq]

end Block

/-! ## Chains -/

theorem blocklen_eq (bs : List Block) : blocklen bs = (bytes bs).length := by
  rw [blocklen, bytes, List.length_flatMap]
  exact congrArg List.sum (List.map_congr_left fun b _ => (Block.data_length b).symm)

@[simp] theorem bytes_nil : bytes [] = [] := rfl

@[simp] theorem bytes_cons (b : Block) (bs : List Block) : bytes (b :: bs) = b.data ++ bytes bs :=
  List.flatMap_cons

theorem blocklen_cons (b : Block) (l : List Block) : blocklen (b :: l) = b.BLEN + blocklen l := by
  rw [blocklen, List.map_cons, List.sum_cons, ← blocklen]

theorem allocb_room (size : Nat) : size ≤ (allocb size).lim - (allocb size).rp := by
  have h := Qio.allocb_room 0 size
  simp only [allocb]
  omega

theorem allocb_ordered (size : Nat) : (allocb size).Ordered :=
  ⟨Nat.le_refl _, Nat.le_add_right _ _⟩

theorem allocb_data (size : Nat) : (allocb size).data = [] := by
  rw [Block.data, Block.BLEN]
  simp [allocb]

theorem Block.Ordered.put {b src : Block} {n : Nat} (h : b.Ordered) (hn : b.wp + n ≤ b.lim) :
    (b.put src n).Ordered :=
  ⟨h.1.trans (Nat.le_add_right _ _), hn⟩

/-- What `pull` gives: the bytes of the chain with `n` more of them in the first block. -/
theorem pull_spec {bp b : Block} {n : Nat} {next l : List Block} (hb : bp.Ordered)
    (hroom : bp.wp + n ≤ bp.lim) (hn : ∀ c ∈ next, c.Ordered)
    (h : pull bp n next = some (b, l)) :
    b.Ordered ∧ (∀ c ∈ l, c.Ordered) ∧ b.data ++ bytes l = bp.data ++ bytes next ∧
      b.BLEN = bp.BLEN + n ∧ ((∀ c ∈ next, 0 < c.BLEN) → ∀ c ∈ l, 0 < c.BLEN) := by
  induction next generalizing bp n with
  | nil => cases h
  | cons nbp next ih =>
    have hnbp := hn nbp List.mem_cons_self
    have hn' := fun c hc => hn c (List.mem_cons_of_mem nbp hc)
    rw [pull] at h
    split_ifs at h with h₁ h₂
    · cases h
      refine ⟨hb.put hroom, ?_, ?_, Block.BLEN_put _ _ _ hb.1, ?_⟩
      · rintro c (_ | ⟨_, hc⟩)
        · have := hnbp.1
          unfold Block.BLEN at h₁
          exact ⟨show nbp.rp + n ≤ nbp.wp by omega, hnbp.2⟩
        · exact hn' c hc
      · rw [Block.data_put hb.1 h₁.le, bytes_cons, bytes_cons, Block.data_skip h₁.le,
          List.append_assoc, ← List.append_assoc (nbp.data.take n), List.take_append_drop]
      · rintro hpos c (_ | ⟨_, hc⟩)
        · unfold Block.BLEN at h₁ ⊢
          simp only
          omega
        · exact hpos c (List.mem_cons_of_mem nbp hc)
    · have hi : nbp.BLEN = n := by omega
      cases h
      refine ⟨hb.put (by omega), hn', ?_, by rw [Block.BLEN_put _ _ _ hb.1, hi], ?_⟩
      · rw [Block.data_put hb.1 (Nat.le_refl _), ← nbp.data_length, List.take_length, bytes_cons,
          List.append_assoc]
      · exact fun hpos c hc => hpos c (List.mem_cons_of_mem nbp hc)
    · have hroom' : (bp.put nbp nbp.BLEN).wp + (n - nbp.BLEN) ≤ (bp.put nbp nbp.BLEN).lim := by
        simp only [Block.put]
        omega
      obtain ⟨h₃, h₄, h₅, h₆, h₇⟩ := ih (hb.put (by omega)) hroom' hn' h
      refine ⟨h₃, h₄, ?_, ?_, fun hpos => h₇ fun c hc => hpos c (List.mem_cons_of_mem nbp hc)⟩
      · rw [h₅, Block.data_put hb.1 (Nat.le_refl _), ← nbp.data_length, List.take_length,
          bytes_cons, List.append_assoc]
      · rw [h₆, Block.BLEN_put _ _ _ hb.1]
        omega

theorem pull_isSome {bp : Block} {n : Nat} {next : List Block} (h0 : 0 < n)
    (h : n ≤ blocklen next) : (pull bp n next).isSome := by
  induction next generalizing bp n with
  | nil => exact absurd (h0.trans_le h) (Nat.lt_irrefl 0)
  | cons nbp next ih =>
    rw [pull]
    split_ifs with h₁ h₂
    · rfl
    · rfl
    · refine ih (Nat.pos_of_ne_zero h₂) ?_
      rw [blocklen, List.map_cons, List.sum_cons] at h
      unfold blocklen
      omega

/-- What `pullupblock` gives: the bytes of the chain with `n` of them in the first block. -/
theorem pullupblock_spec {bp b : Block} {n : Nat} {next l : List Block} (hb : bp.Ordered)
    (hn : ∀ c ∈ next, c.Ordered) (h : pullupblock bp next n = some (b, l)) :
    b.Ordered ∧ (∀ c ∈ l, c.Ordered) ∧ bytes (b :: l) = bytes (bp :: next) ∧ n ≤ b.BLEN ∧
      ((∀ c ∈ next, 0 < c.BLEN) → ∀ c ∈ l, 0 < c.BLEN) := by
  unfold pullupblock at h
  split_ifs at h with h₁ h₂
  · cases h
    exact ⟨hb, hn, rfl, h₁, fun hpos => hpos⟩
  · -- the first round of the loop copies all of the first block to the new one
    have ho := allocb_ordered n
    have hroom := allocb_room n
    have hlim : (allocb n).wp = (allocb n).rp := rfl
    rw [pull, if_neg (by omega), if_neg (by omega)] at h
    have hroom' : ((allocb n).put bp bp.BLEN).wp + (n - bp.BLEN) ≤
        ((allocb n).put bp bp.BLEN).lim := by
      simp only [Block.put]
      omega
    obtain ⟨h₃, h₄, h₅, h₆, h₇⟩ := pull_spec (ho.put (by omega)) hroom' hn h
    refine ⟨h₃, h₄, ?_, ?_, h₇⟩
    · rw [bytes_cons, h₅, Block.data_put ho.1 (Nat.le_refl _), allocb_data, ← bp.data_length,
        List.take_length, bytes_cons, List.nil_append]
    · rw [h₆, Block.BLEN_put _ _ _ ho.1]
      omega
  · have hroom : bp.wp + (n - bp.BLEN) ≤ bp.lim := by
      have := hb.1
      have := hb.2
      unfold Block.BLEN at *
      omega
    obtain ⟨h₃, h₄, h₅, h₆, h₇⟩ := pull_spec hb hroom hn h
    exact ⟨h₃, h₄, by rw [bytes_cons, h₅, bytes_cons], by omega, h₇⟩

theorem pullupblock_isSome {bp : Block} {next : List Block} {n : Nat}
    (h : n ≤ blocklen (bp :: next)) : (pullupblock bp next n).isSome := by
  have hlen : blocklen (bp :: next) = bp.BLEN + blocklen next := by simp [blocklen]
  unfold pullupblock
  split_ifs with h₁ h₂
  · rfl
  · exact pull_isSome (by omega) h
  · exact pull_isSome (by omega) (by omega)

/-! ## Room in front -/

theorem reserve_spec {b : Block} (h : b.Ordered) :
    (reserve b).Ordered ∧ (reserve b).data = b.data := by
  unfold reserve
  split_ifs with h₁
  · unfold padblock
    split_ifs with h₂
    · simp only [Nat.sub_add_cancel h₂]
      exact ⟨h, trivial⟩
    · have hroom := allocb_room (IPFRAGSZ + b.BLEN)
      have hput : ∀ nb : Block, nb.rp = nb.wp → (nb.put b b.BLEN).data = b.data := by
        intro nb he
        rw [Block.data_put he.le (Nat.le_refl _), ← b.data_length, List.take_length]
        simp [Block.data, Block.BLEN, he]
      set c := allocb (IPFRAGSZ + b.BLEN)
      have hd := hput { c with rp := c.rp + IPFRAGSZ, wp := c.rp + IPFRAGSZ } rfl
      simp only [Block.put, Nat.add_sub_cancel] at hd ⊢
      refine ⟨⟨Nat.le_add_right _ _, ?_⟩, hd⟩
      simp only
      omega
  · exact ⟨h, rfl⟩

/-- The header is read from the bytes of the chain. -/
theorem byte_eq {b : Block} {l : List Block} {o : Nat} (ho : o < b.BLEN) :
    b.byte o = ((bytes (b :: l))[o]?.getD 0).toNat := by
  have hlen : o < b.data.length := by rwa [b.data_length]
  rw [bytes_cons, List.getElem?_append_left hlen, List.getElem?_eq_getElem hlen]
  simp only [Block.byte, Block.data, window, List.getElem_map, List.getElem_range, Option.getD_some]

variable {b c : Block} {l l' : List Block} {o : Nat}

theorem byte_congr (h : bytes (b :: l) = bytes (c :: l')) (hb : o < b.BLEN) (hc : o < c.BLEN) :
    b.byte o = c.byte o := by
  rw [byte_eq (l := l) hb, h, ← byte_eq hc]

theorem nhgets_congr (h : bytes (b :: l) = bytes (c :: l')) (hb : o + 1 < b.BLEN)
    (hc : o + 1 < c.BLEN) : b.nhgets o = c.nhgets o := by
  rw [Block.nhgets, Block.nhgets, byte_congr h (by omega) (by omega), byte_congr h hb hc]

theorem nhgetl_congr (h : bytes (b :: l) = bytes (c :: l')) (hb : o + 3 < b.BLEN)
    (hc : o + 3 < c.BLEN) : b.nhgetl o = c.nhgetl o := by
  rw [Block.nhgetl, Block.nhgetl, nhgets_congr h (by omega) (by omega),
    nhgets_congr h (by omega) (by omega)]

end NixMark.Ip
