import NixMark.Ip.Block
import NixMark.Lib.Words

/-!
# Chains of blocks (`port/qio.c`)

The functions on chains that the protocols use, on blocks in memory. A chain is the list of its
blocks; nil is the empty list. Blocks that are freed leave the model, and `allocb` always has a
block. An `int` is a number of 32 bits where it is a sum.

* `concatblock`, `packblock`, `padend`, `trimblock`, `copyblock`, `adjustblock`, `pullblock`,
  `qcopy` (`pullupblock` is in `Ip.Block`).
* `Refines`: what they do to the bytes of a chain; `chains_refine`.
* `adjustblock_exact`: when the two paths of `adjustblock` agree.
-/

namespace NixMark.Ip

open Lib

/-- A call that does not return: it follows a nil pointer, or it panics. -/
inductive Stop where
  | deref
  | panic
deriving DecidableEq

/-- `memset(b->wp, 0, n); b->wp += n;` -/
def Block.fill (b : Block) (n : Nat) : Block :=
  { b with
    mem := fun a => if b.wp ≤ a ∧ a < b.wp + n then 0 else b.mem a
    wp := b.wp + n }

/-- The loop of `concatblock`. -/
def concatloop (nb : Block) : List Block → Block
  | [] => nb
  | f :: next => concatloop (nb.put f f.BLEN) next

/-- `concatblock` -/
def concatblock (bp : Block) (next : List Block) : Block :=
  match next with
  | [] => bp
  | _ :: _ => concatloop (allocb (long (blocklen (bp :: next))).toNat) (bp :: next)

/-- `packblock`; the storage is `[base, lim)`, and `base` is 0 here. -/
def packblock : List Block → List Block
  | [] => []
  | nbp :: next =>
    (if long (4 * nbp.BLEN) < nbp.lim then (allocb nbp.BLEN).put nbp nbp.BLEN else nbp) ::
      packblock next

/-- `padblock` for the size `-size` -/
def padend (bp : Block) (next : List Block) (size : Nat) : Except Stop Block :=
  match next with
  | _ :: _ => .error .panic
  | [] =>
    if size ≤ bp.lim - bp.wp then .ok bp
    else .ok ((allocb (size + bp.BLEN)).put bp bp.BLEN)

/-- The loop of `trimblock` to the offset. -/
def trimstart : List Block → Nat → Except Stop (List Block)
  | [], _ => .error .deref
  | bp :: next, offset =>
    if bp.BLEN < offset then trimstart next (offset - bp.BLEN)
    else .ok ({ bp with rp := bp.rp + offset } :: next)

/-- The loop of `trimblock` to the end. -/
def trimend : List Block → Nat → Except Stop (List Block)
  | [], _ => .error .deref
  | bp :: next, len =>
    if bp.BLEN < len then (trimend next (len - bp.BLEN)).map (bp :: ·)
    else .ok [{ bp with wp := bp.wp - (bp.BLEN - len) }]

/-- `trimblock` -/
def trimblock (bp : Block) (next : List Block) (offset len : Nat) : Except Stop (List Block) :=
  if long (blocklen (bp :: next)) < long (offset + len) then .ok []
  else trimstart (bp :: next) offset >>= fun bs => trimend bs len

/-- The loop of `copyblock`, and the zeros behind it. -/
def copyloop (nbp : Block) : List Block → Nat → Block
  | [], count => nbp.fill count
  | bp :: next, count =>
    if count = 0 then nbp
    else
      let l := min bp.BLEN count
      copyloop (nbp.put bp l) next (count - l)

/-- `copyblock`, where `intr` is the flag `BINTR` of `bp`, whose blocks come from `iallocb`, and
`limited` that `iallocb` gives none. -/
def copyblock (intr limited : Bool) (bp : Block) (next : List Block) (count : Nat) :
    Option Block :=
  if intr && limited then none else some (copyloop (allocb count) (bp :: next) count)

/-- `adjustblock` -/
def adjustblock (intr limited : Bool) (bp : Block) (next : List Block) (len : Int) :
    Option (Block × List Block) :=
  if len < 0 then none
  else
    let len := len.toNat
    if bp.lim < bp.rp + len then (copyblock intr limited bp next len).map fun nbp => (nbp, [])
    else
      let bp := if bp.BLEN < len then bp.fill (len - bp.BLEN) else bp
      some ({ bp with wp := bp.rp + len }, next)

/-- `pullblock`: the count, and the chain. A block that is not used up ends the loop, as nothing is
left to take. -/
def pullblock : List Block → Nat → Nat × List Block
  | [], _ => (0, [])
  | bp :: next, count =>
    if count = 0 then (0, bp :: next)
    else
      let n := min bp.BLEN count
      let bp : Block := { bp with rp := bp.rp + n }
      if bp.BLEN = 0 then
        let r := pullblock next (count - n)
        (n + r.1, r.2)
      else (n, bp :: next)

/-- The loop of `qcopy` to the offset; the pointer `p` is the `rp` of the first block here. -/
def qcopyseek : List Block → Nat → Nat → List Block
  | [], _, _ => []
  | b :: next, sofar, offset =>
    if offset < sofar + b.BLEN then { b with rp := b.rp + (offset - sofar) } :: next
    else qcopyseek next (sofar + b.BLEN) offset

/-- The loop of `qcopy` that copies. -/
def qcopyloop (len : Nat) (nb : Block) : List Block → Nat → Block
  | [], _ => nb
  | b :: next, sofar =>
    if sofar < len then
      let n := min b.BLEN (len - sofar)
      qcopyloop len (nb.put b n) next (sofar + n)
    else nb

/-- `qcopy` of a queue whose blocks are `bs` -/
def qcopy (bs : List Block) (len offset : Nat) : Block :=
  qcopyloop len (allocb len) (qcopyseek bs 0 offset) 0

/-! ## Small lemmas -/

namespace Block

variable {b : Block} {n : Nat}

theorem data_fill (h : b.rp ≤ b.wp) : (b.fill n).data = b.data ++ List.replicate n 0 := by
  have hlen : (b.fill n).BLEN = b.BLEN + n := by
    simp only [BLEN, fill]
    omega
  have hwp : b.rp + b.BLEN = b.wp := by
    unfold BLEN
    omega
  rw [data, hlen, window_add]
  congr 1
  · exact window_frame fun x hx hx' => if_neg (by simp only [fill] at hx hx'; omega)
  · refine List.eq_replicate_iff.mpr ⟨window_length _ _ _, fun x hx => ?_⟩
    obtain ⟨k, hk, rfl⟩ := List.mem_map.mp hx
    rw [List.mem_range] at hk
    exact if_pos (by simp only [fill]; omega)

theorem Ordered.fill (h : b.Ordered) (hn : b.wp + n ≤ b.lim) : (b.fill n).Ordered :=
  ⟨h.1.trans (Nat.le_add_right _ _), hn⟩

/-- The data of a block that is cut down to `n` bytes. -/
theorem data_trim (h : b.rp ≤ b.wp) (hn : n ≤ b.BLEN) :
    ({ b with wp := b.wp - (b.BLEN - n) } : Block).data = b.data.take n := by
  have hlen : ({ b with wp := b.wp - (b.BLEN - n) } : Block).BLEN = n := by
    unfold BLEN at hn ⊢
    simp only
    omega
  rw [data, hlen, data, window_take hn]

theorem Ordered.skip (h : b.Ordered) (hn : n ≤ b.BLEN) :
    ({ b with rp := b.rp + n } : Block).Ordered := by
  have := h.1
  unfold BLEN at hn
  exact ⟨show b.rp + n ≤ b.wp by omega, h.2⟩

theorem Ordered.trim (h : b.Ordered) (n : Nat) :
    ({ b with wp := b.wp - (b.BLEN - n) } : Block).Ordered := by
  have h₁ := h.1
  have h₂ := h.2
  unfold BLEN
  exact ⟨show b.rp ≤ b.wp - (b.wp - b.rp - n) by omega,
    show b.wp - (b.wp - b.rp - n) ≤ b.lim by omega⟩

theorem data_put_all {src : Block} (h : b.rp ≤ b.wp) :
    (b.put src src.BLEN).data = b.data ++ src.data := by
  rw [data_put h (Nat.le_refl _), ← src.data_length, List.take_length]

end Block

/-! ## One block -/

variable {bp nb b : Block} {next bs l : List Block} {n : Nat}

theorem concatloop_spec (h : nb.Ordered) (hroom : nb.wp + blocklen bs ≤ nb.lim) :
    (concatloop nb bs).Ordered ∧ (concatloop nb bs).data = nb.data ++ bytes bs := by
  induction bs generalizing nb with
  | nil => exact ⟨h, (List.append_nil _).symm⟩
  | cons f next ih =>
    rw [blocklen_cons] at hroom
    have hput : (nb.put f f.BLEN).Ordered := h.put (by omega)
    obtain ⟨ho, hd⟩ := ih hput (by simp only [Block.put]; omega)
    refine ⟨ho, hd.trans ?_⟩
    rw [Block.data_put_all h.1, bytes_cons, List.append_assoc]

/-- A new block has room for what it was allocated for. -/
theorem allocb_fits (n : Nat) : (allocb n).wp + n ≤ (allocb n).lim := by
  have := allocb_room n
  have hwp : (allocb n).wp = (allocb n).rp := rfl
  have := (allocb_ordered n).2
  omega

theorem concatblock_spec (hb : bp.Ordered) (hlen : blocklen (bp :: next) < 2 ^ 31) :
    (concatblock bp next).Ordered ∧ (concatblock bp next).data = bytes (bp :: next) := by
  cases next with
  | nil => exact ⟨hb, by simp [concatblock]⟩
  | cons c next =>
    have hl : (long (blocklen (bp :: c :: next))).toNat = blocklen (bp :: c :: next) := by
      rw [long_eq (by omega) (by omega)]
      rfl
    simp only [concatblock, hl]
    obtain ⟨ho, hd⟩ := @concatloop_spec _ (bp :: c :: next)
      (allocb_ordered (blocklen (bp :: c :: next))) (allocb_fits _)
    exact ⟨ho, by rw [hd, allocb_data, List.nil_append]⟩

theorem allocb_put (b : Block) (k : Nat) :
    ((allocb (k + b.BLEN)).put b b.BLEN).Ordered ∧
      ((allocb (k + b.BLEN)).put b b.BLEN).data = b.data := by
  have hf := allocb_fits (k + b.BLEN)
  refine ⟨(allocb_ordered _).put (by omega), ?_⟩
  rw [Block.data_put_all (allocb_ordered _).1, allocb_data, List.nil_append]

theorem padend_spec (hb : bp.Ordered) (n : Nat) :
    ∃ b, padend bp [] n = .ok b ∧ b.Ordered ∧ b.data = bp.data := by
  simp only [padend]
  split
  · exact ⟨bp, rfl, hb, rfl⟩
  · exact ⟨_, rfl, allocb_put bp n⟩

theorem packblock_spec (h : ∀ c ∈ bs, c.Ordered) :
    (∀ c ∈ packblock bs, c.Ordered) ∧ bytes (packblock bs) = bytes bs := by
  induction bs with
  | nil => exact ⟨by simp [packblock], rfl⟩
  | cons nbp next ih =>
    obtain ⟨ho, hd⟩ := ih fun c hc => h c (List.mem_cons_of_mem _ hc)
    have hp := allocb_put nbp 0
    rw [Nat.zero_add] at hp
    rw [packblock]
    split
    · exact ⟨List.forall_mem_cons.mpr ⟨hp.1, ho⟩, by rw [bytes_cons, bytes_cons, hp.2, hd]⟩
    · exact ⟨List.forall_mem_cons.mpr ⟨h nbp List.mem_cons_self, ho⟩,
        by rw [bytes_cons, bytes_cons, hd]⟩

/-! ## A part of the bytes -/

theorem drop_behind (h : b.BLEN ≤ n) :
    (bytes (b :: next)).drop n = (bytes next).drop (n - b.BLEN) := by
  rw [← b.data_length] at h ⊢
  rw [bytes_cons, List.drop_append, List.drop_eq_nil_of_le h, List.nil_append]

theorem drop_within (h : n ≤ b.BLEN) :
    (bytes (b :: next)).drop n = b.data.drop n ++ bytes next := by
  rw [← b.data_length] at h
  rw [bytes_cons, List.drop_append_of_le_length h]

theorem take_behind (h : b.BLEN ≤ n) :
    (bytes (b :: next)).take n = b.data ++ (bytes next).take (n - b.BLEN) := by
  rw [← b.data_length] at h ⊢
  rw [bytes_cons, List.take_append, List.take_of_length_le h]

theorem take_within (h : n ≤ b.BLEN) : (bytes (b :: next)).take n = b.data.take n := by
  rw [← b.data_length] at h
  rw [bytes_cons, List.take_append_of_le_length h]

/-- The bytes that a block gives to a copy of `n` bytes, and those that follow. -/
theorem take_min (b : Block) (next : List Block) (n : Nat) : (bytes (b :: next)).take n =
    b.data.take (min b.BLEN n) ++ (bytes next).take (n - min b.BLEN n) := by
  rcases Nat.le_total b.BLEN n with h | h
  · rw [take_behind h, Nat.min_eq_left h, ← b.data_length, List.take_length]
  · rw [take_within h, Nat.min_eq_right h, Nat.sub_self, List.take_zero, List.append_nil]

theorem trimstart_spec (h : ∀ c ∈ bs, c.Ordered) (hne : bs ≠ []) (hn : n ≤ blocklen bs) :
    ∃ l, trimstart bs n = .ok l ∧ l ≠ [] ∧ (∀ c ∈ l, c.Ordered) ∧ bytes l = (bytes bs).drop n := by
  induction bs generalizing n with
  | nil => exact absurd rfl hne
  | cons b next ih =>
    obtain ⟨hb, hnext⟩ := List.forall_mem_cons.mp h
    rw [blocklen_cons] at hn
    rw [trimstart]
    split
    · next hlt =>
      have hne : next ≠ [] := by
        rintro rfl
        simp [blocklen] at hn
        omega
      obtain ⟨l, he, hl, ho, hd⟩ := ih hnext hne (n := n - b.BLEN) (by omega)
      exact ⟨l, he, hl, ho, by rw [hd, drop_behind hlt.le]⟩
    · next hle =>
      refine ⟨_, rfl, List.cons_ne_nil _ _, List.forall_mem_cons.mpr ⟨hb.skip (by omega), hnext⟩,
        ?_⟩
      rw [bytes_cons, Block.data_skip (by omega), drop_within (by omega)]

theorem trimend_spec (h : ∀ c ∈ bs, c.Ordered) (hne : bs ≠ []) (hn : n ≤ blocklen bs) :
    ∃ l, trimend bs n = .ok l ∧ l ≠ [] ∧ (∀ c ∈ l, c.Ordered) ∧ bytes l = (bytes bs).take n := by
  induction bs generalizing n with
  | nil => exact absurd rfl hne
  | cons b next ih =>
    obtain ⟨hb, hnext⟩ := List.forall_mem_cons.mp h
    rw [blocklen_cons] at hn
    rw [trimend]
    split
    · next hlt =>
      have hne : next ≠ [] := by
        rintro rfl
        simp [blocklen] at hn
        omega
      obtain ⟨l, he, hl, ho, hd⟩ := ih hnext hne (n := n - b.BLEN) (by omega)
      refine ⟨b :: l, by rw [he]; rfl, List.cons_ne_nil _ _, List.forall_mem_cons.mpr ⟨hb, ho⟩, ?_⟩
      rw [bytes_cons, hd, take_behind hlt.le]
    · next hle =>
      refine ⟨_, rfl, List.cons_ne_nil _ _, by simpa using hb.trim n, ?_⟩
      rw [bytes_cons, bytes_nil, List.append_nil, Block.data_trim hb.1 (by omega),
        take_within (by omega)]

theorem trimblock_spec (hb : bp.Ordered) (hn : ∀ c ∈ next, c.Ordered)
    (hlen : blocklen (bp :: next) < 2 ^ 31) {offset len : Nat} (hsum : offset + len < 2 ^ 31) :
    (blocklen (bp :: next) < offset + len ∧ trimblock bp next offset len = .ok []) ∨
    (offset + len ≤ blocklen (bp :: next) ∧
      ∃ l, trimblock bp next offset len = .ok l ∧ l ≠ [] ∧ (∀ c ∈ l, c.Ordered) ∧
        bytes l = ((bytes (bp :: next)).drop offset).take len) := by
  have h : ∀ c ∈ bp :: next, c.Ordered := List.forall_mem_cons.mpr ⟨hb, hn⟩
  unfold trimblock
  rw [long_eq (by omega) (by omega), long_eq (by omega) (by omega)]
  split
  · next hlt => exact .inl ⟨by omega, rfl⟩
  · next hle =>
    obtain ⟨m, he, hm, ho, hd⟩ := trimstart_spec h (List.cons_ne_nil _ _) (n := offset) (by omega)
    have hml : len ≤ blocklen m := by
      rw [blocklen_eq, hd, List.length_drop, ← blocklen_eq]
      omega
    obtain ⟨l, he', hl, ho', hd'⟩ := trimend_spec ho hm hml
    exact .inr ⟨by omega, l, by rw [he]; exact he', hl, ho', by rw [hd', hd]⟩

/-! ## Copies -/

theorem copyloop_spec (h : nb.Ordered) (hroom : nb.wp + n ≤ nb.lim) :
    (copyloop nb bs n).Ordered ∧ (copyloop nb bs n).data =
      nb.data ++ ((bytes bs).take n ++ List.replicate (n - blocklen bs) 0) := by
  induction bs generalizing nb n with
  | nil =>
    rw [copyloop]
    exact ⟨h.fill hroom, by simp [Block.data_fill h.1, blocklen]⟩
  | cons b next ih =>
    rw [copyloop]
    by_cases h0 : n = 0
    · rw [if_pos h0, h0]
      exact ⟨h, by simp⟩
    · rw [if_neg h0]
      have hput : (nb.put b (min b.BLEN n)).Ordered := h.put (by omega)
      obtain ⟨ho, hd⟩ := ih hput (n := n - min b.BLEN n) (by simp only [Block.put]; omega)
      refine ⟨ho, hd.trans ?_⟩
      rw [Block.data_put h.1 (Nat.min_le_left _ _), take_min, blocklen_cons, List.append_assoc,
        List.append_assoc,
        show n - (b.BLEN + blocklen next) = n - min b.BLEN n - blocklen next by omega]

theorem pullblock_spec (h : ∀ c ∈ bs, c.Ordered) (n : Nat) :
    (pullblock bs n).1 = min n (blocklen bs) ∧ (∀ c ∈ (pullblock bs n).2, c.Ordered) ∧
      bytes (pullblock bs n).2 = (bytes bs).drop n := by
  induction bs generalizing n with
  | nil => simp [pullblock, blocklen]
  | cons b next ih =>
    obtain ⟨hb, hnext⟩ := List.forall_mem_cons.mp h
    rw [pullblock]
    by_cases h0 : n = 0
    · rw [if_pos h0, h0]
      exact ⟨(Nat.zero_min _).symm, h, rfl⟩
    rw [if_neg h0]
    have hskip : ({ b with rp := b.rp + min b.BLEN n } : Block).BLEN = b.BLEN - min b.BLEN n := by
      simp only [Block.BLEN, Nat.sub_add_eq]
    simp only [hskip]
    split
    · next hall =>
      obtain ⟨hr, ho, hd⟩ := ih hnext (n - min b.BLEN n)
      have hmin : min b.BLEN n = b.BLEN := by omega
      rw [hmin] at hr ho hd ⊢
      refine ⟨?_, ho, ?_⟩
      · rw [hr, blocklen_cons]
        omega
      · rw [hd, drop_behind (by omega)]
    · next hsome =>
      have hmin : min b.BLEN n = n := by omega
      rw [hmin]
      refine ⟨?_, List.forall_mem_cons.mpr ⟨hb.skip (by omega), hnext⟩, ?_⟩
      · rw [blocklen_cons]
        omega
      · rw [bytes_cons, Block.data_skip (by omega), drop_within (by omega)]

theorem qcopyseek_spec {sofar offset : Nat} (h : ∀ c ∈ bs, c.Ordered) (hle : sofar ≤ offset) :
    bytes (qcopyseek bs sofar offset) = (bytes bs).drop (offset - sofar) := by
  induction bs generalizing sofar with
  | nil => simp [qcopyseek]
  | cons b next ih =>
    rw [qcopyseek]
    split
    · next hlt => rw [bytes_cons, Block.data_skip (by omega), drop_within (by omega)]
    · next hge =>
      rw [ih (fun c hc => h c (List.mem_cons_of_mem _ hc)) (by omega), drop_behind (by omega),
        Nat.sub_add_eq]

theorem qcopyloop_spec {sofar len : Nat} (h : nb.Ordered) (hroom : nb.wp + (len - sofar) ≤ nb.lim)
    (hle : sofar ≤ len) : (qcopyloop len nb bs sofar).Ordered ∧
      (qcopyloop len nb bs sofar).data = nb.data ++ (bytes bs).take (len - sofar) := by
  induction bs generalizing nb sofar with
  | nil => simp [qcopyloop, h]
  | cons b next ih =>
    rw [qcopyloop]
    split
    · next hlt =>
      have hput : (nb.put b (min b.BLEN (len - sofar))).Ordered := h.put (by omega)
      have hroom : (nb.put b (min b.BLEN (len - sofar))).wp +
          (len - (sofar + min b.BLEN (len - sofar))) ≤ (nb.put b (min b.BLEN (len - sofar))).lim := by
        simp only [Block.put]
        omega
      obtain ⟨ho, hd⟩ := ih hput hroom (by omega)
      refine ⟨ho, hd.trans ?_⟩
      rw [Block.data_put h.1 (Nat.min_le_left _ _), List.append_assoc, take_min, Nat.sub_add_eq]
    · next hge =>
      rw [Nat.sub_eq_zero_of_le (by omega), List.take_zero, List.append_nil]
      exact ⟨h, rfl⟩

theorem copyblock_spec (intr limited : Bool) (bp : Block) (next : List Block) (count : Nat) :
    (intr && limited) = true ∧ copyblock intr limited bp next count = none ∨
    (intr && limited) = false ∧ ∃ nb, copyblock intr limited bp next count = some nb ∧
      nb.Ordered ∧ nb.data = (bytes (bp :: next)).take count ++
        List.replicate (count - blocklen (bp :: next)) 0 := by
  unfold copyblock
  split
  · next h => exact .inl ⟨h, rfl⟩
  · next h =>
    obtain ⟨ho, hd⟩ := @copyloop_spec _ (bp :: next) _ (allocb_ordered count) (allocb_fits count)
    refine .inr ⟨by simpa using h, _, rfl, ho, ?_⟩
    rw [hd, allocb_data, List.nil_append]

/-! ## All of them -/

/-- What the functions do to the bytes of the chain `bp`, `next`. -/
structure Refines (bp : Block) (next : List Block) : Prop where
  concat : (concatblock bp next).Ordered ∧ (concatblock bp next).data = bytes (bp :: next)
  pack : (∀ c ∈ packblock (bp :: next), c.Ordered) ∧
    bytes (packblock (bp :: next)) = bytes (bp :: next)
  pad : ∀ n, next = [] ∧ (∃ b, padend bp next n = .ok b ∧ b.Ordered ∧ b.data = bytes (bp :: next)) ∨
    next ≠ [] ∧ padend bp next n = .error .panic
  pullup : ∀ n, blocklen (bp :: next) < n ∧ pullupblock bp next n = none ∨
    n ≤ blocklen (bp :: next) ∧ ∃ b l, pullupblock bp next n = some (b, l) ∧ b.Ordered ∧
      (∀ c ∈ l, c.Ordered) ∧ bytes (b :: l) = bytes (bp :: next) ∧ n ≤ b.BLEN
  trim : ∀ offset len, offset + len < 2 ^ 31 →
    blocklen (bp :: next) < offset + len ∧ trimblock bp next offset len = .ok [] ∨
    offset + len ≤ blocklen (bp :: next) ∧ ∃ l, trimblock bp next offset len = .ok l ∧ l ≠ [] ∧
      (∀ c ∈ l, c.Ordered) ∧ bytes l = ((bytes (bp :: next)).drop offset).take len
  copy : ∀ intr limited count,
    (intr && limited) = true ∧ copyblock intr limited bp next count = none ∨
    (intr && limited) = false ∧ ∃ nb, copyblock intr limited bp next count = some nb ∧
      nb.Ordered ∧ nb.data = (bytes (bp :: next)).take count ++
        List.replicate (count - blocklen (bp :: next)) 0
  pull : ∀ count, (pullblock (bp :: next) count).1 = min count (blocklen (bp :: next)) ∧
    (∀ c ∈ (pullblock (bp :: next) count).2, c.Ordered) ∧
    bytes (pullblock (bp :: next) count).2 = (bytes (bp :: next)).drop count
  qcopy : ∀ len offset, (qcopy (bp :: next) len offset).Ordered ∧
    (qcopy (bp :: next) len offset).data = ((bytes (bp :: next)).drop offset).take len
  /-- `pullblock` and `qcopy` take nil too. -/
  nil : ∀ n offset, pullblock [] n = (0, []) ∧ (Ip.qcopy [] n offset).Ordered ∧
    (Ip.qcopy [] n offset).data = []

theorem pullupblock_iff (hb : bp.Ordered) (hn : ∀ c ∈ next, c.Ordered) (n : Nat) :
    blocklen (bp :: next) < n ∧ pullupblock bp next n = none ∨
    n ≤ blocklen (bp :: next) ∧ ∃ b l, pullupblock bp next n = some (b, l) ∧ b.Ordered ∧
      (∀ c ∈ l, c.Ordered) ∧ bytes (b :: l) = bytes (bp :: next) ∧ n ≤ b.BLEN := by
  cases hr : pullupblock bp next n with
  | none =>
    refine .inl ⟨not_le.mp fun hle => ?_, rfl⟩
    have := pullupblock_isSome hle
    rw [hr] at this
    cases this
  | some r =>
    obtain ⟨b, l⟩ := r
    obtain ⟨ho, hl, hd, hle, -⟩ := pullupblock_spec hb hn hr
    refine .inr ⟨?_, b, l, rfl, ho, hl, hd, hle⟩
    have hlen := congrArg List.length hd
    rw [← blocklen_eq, ← blocklen_eq, blocklen_cons b] at hlen
    omega

theorem qcopy_spec (h : ∀ c ∈ bs, c.Ordered) (len offset : Nat) :
    (qcopy bs len offset).Ordered ∧
      (qcopy bs len offset).data = ((bytes bs).drop offset).take len := by
  obtain ⟨ho, hd⟩ := @qcopyloop_spec _ (qcopyseek bs 0 offset) _ _ (allocb_ordered len)
    (allocb_fits len) (Nat.zero_le len)
  refine ⟨ho, hd.trans ?_⟩
  rw [allocb_data, List.nil_append, qcopyseek_spec h (Nat.zero_le offset)]
  rfl

/-- The chain is of fewer bytes than an `int` counts. -/
theorem chains_refine (hb : bp.Ordered) (hn : ∀ c ∈ next, c.Ordered)
    (hlen : blocklen (bp :: next) < 2 ^ 31) : Refines bp next := by
  have h : ∀ c ∈ bp :: next, c.Ordered := List.forall_mem_cons.mpr ⟨hb, hn⟩
  exact
    { concat := concatblock_spec hb hlen
      pack := packblock_spec h
      pad := by
        intro n
        cases next with
        | nil =>
          obtain ⟨b, he, ho, hd⟩ := padend_spec hb n
          exact .inl ⟨rfl, b, he, ho, by rw [hd, bytes_cons, bytes_nil, List.append_nil]⟩
        | cons c next => exact .inr ⟨List.cons_ne_nil _ _, rfl⟩
      pullup := pullupblock_iff hb hn
      trim := fun _ _ hsum => trimblock_spec hb hn hlen hsum
      copy := fun intr limited count => copyblock_spec intr limited bp next count
      pull := pullblock_spec h
      qcopy := qcopy_spec h
      nil := fun n offset => ⟨rfl, allocb_ordered n, allocb_data n⟩ }

/-- A block of one byte, with room behind it. -/
private def onebyte : Block :=
  { mem := fun _ => 7, rp := 64, wp := 65, lim := 192, foff := 0, flen := 0 }

theorem onebyte_ordered : onebyte.Ordered := ⟨by decide, by decide⟩

theorem chains_refine_two : Refines onebyte [onebyte] :=
  chains_refine onebyte_ordered (by simp [onebyte_ordered]) (by decide)

/-- A block of more bytes than an `int` counts. -/
private def manybytes : Block :=
  { mem := fun _ => 7, rp := 64, wp := 64 + 2 ^ 31, lim := 64 + 2 ^ 31, foff := 0, flen := 0 }

/-- `padblock` panics on a chain, `copyblock` may have no block, `trimblock` follows a nil pointer
when the sum of its arguments overflows, and `concatblock` writes past its block when the number of
bytes does. -/
theorem chains_stop :
    (¬ ∀ (bp : Block) (next : List Block) (n : Nat), bp.Ordered → (∀ c ∈ next, c.Ordered) →
      ∃ b, padend bp next n = .ok b ∧ b.data = bytes (bp :: next)) ∧
    (¬ ∀ (intr limited : Bool) (bp : Block) (next : List Block) (n : Nat), bp.Ordered →
      (∀ c ∈ next, c.Ordered) → ∃ nb, copyblock intr limited bp next n = some nb) ∧
    (¬ ∀ (bp : Block) (next : List Block) (offset len : Nat), bp.Ordered →
      (∀ c ∈ next, c.Ordered) → offset < 2 ^ 31 → len < 2 ^ 31 →
      ∃ l, trimblock bp next offset len = .ok l) ∧
    ¬ ∀ (bp : Block) (next : List Block), bp.Ordered → (∀ c ∈ next, c.Ordered) →
      (concatblock bp next).Ordered := by
  refine ⟨fun h => ?_, fun h => ?_, fun h => ?_, fun h => ?_⟩
  · obtain ⟨b, he, -⟩ := h onebyte [onebyte] 1 onebyte_ordered (by simp [onebyte_ordered])
    cases he
  · obtain ⟨nb, he⟩ := h true true onebyte [] 1 onebyte_ordered (by simp)
    cases he
  · obtain ⟨l, he⟩ := h onebyte [] 1 (2 ^ 31 - 1) onebyte_ordered (by simp) (by decide)
      (by decide)
    have hd : (trimblock onebyte [] 1 (2 ^ 31 - 1)).toBool = false := by decide +kernel
    rw [he] at hd
    cases hd
  · have ho := h manybytes [onebyte] ⟨by decide, by decide⟩ (by simp [onebyte_ordered])
    revert ho
    unfold Block.Ordered
    decide +kernel

/-! ## A block of a given length -/

/-- The result is one block of `len` bytes: those of the chain, and zeros. -/
def Adjusted (bp : Block) (next : List Block) (len : Nat) (r : Option (Block × List Block)) :
    Prop :=
  ∃ b, r = some (b, []) ∧ b.Ordered ∧ b.BLEN = len ∧
    b.data = (bytes (bp :: next)).take len ++ List.replicate (len - blocklen (bp :: next)) 0

/-- The path that copies gives that block if there is one to copy to; the path in place gives it if
nothing is behind the block. -/
theorem adjustblock_exact (hb : bp.Ordered) (intr limited : Bool) (len : Nat) :
    Adjusted bp next len (adjustblock intr limited bp next len) ↔
      if bp.lim < bp.rp + len then (intr && limited) = false else next = [] := by
  have hcount : ∀ nb : Block, nb.data = (bytes (bp :: next)).take len ++
      List.replicate (len - blocklen (bp :: next)) 0 → nb.BLEN = len := by
    intro nb hd
    rw [← nb.data_length, hd, List.length_append, List.length_take, List.length_replicate,
      ← blocklen_eq]
    omega
  rw [adjustblock, if_neg (by omega), Int.toNat_natCast]
  dsimp only
  split
  · rcases copyblock_spec intr limited bp next len with ⟨hl, he⟩ | ⟨hl, nb, he, ho, hd⟩
    · rw [he, hl]
      refine iff_of_false ?_ (by decide)
      rintro ⟨b, hb, -⟩
      cases hb
    · rw [he, hl]
      exact iff_of_true ⟨nb, rfl, ho, hcount nb hd, hd⟩ rfl
  · next hfit =>
    constructor
    · rintro ⟨b, he, -⟩
      exact (Prod.mk.inj (Option.some.inj he)).2
    · rintro rfl
      have hone : ∀ c : Block, c.Ordered → c.data = bp.data.take len ++
          List.replicate (len - bp.BLEN) 0 → ∃ b, some (c, ([] : List Block)) = some (b, []) ∧
          b.Ordered ∧ b.BLEN = len ∧ b.data = (bytes [bp]).take len ++
            List.replicate (len - blocklen [bp]) 0 := by
        intro c ho hd
        have hd' : c.data = (bytes [bp]).take len ++ List.replicate (len - blocklen [bp]) 0 := by
          simpa [blocklen_cons, blocklen] using hd
        exact ⟨c, rfl, ho, hcount c hd', hd'⟩
      have hwp : bp.rp + bp.BLEN = bp.wp := by
        unfold Block.BLEN
        have := hb.1
        omega
      split
      · next hlt =>
        have hf : (bp.fill (len - bp.BLEN)).rp + len = (bp.fill (len - bp.BLEN)).wp := by
          simp only [Block.fill]
          omega
        rw [hf]
        refine hone (bp.fill (len - bp.BLEN)) (hb.fill (by omega)) ?_
        rw [Block.data_fill hb.1, List.take_of_length_le (by rw [Block.data_length]; omega)]
      · next hge =>
        have he : bp.rp + len = bp.wp - (bp.BLEN - len) := by omega
        rw [he]
        refine hone _ (hb.trim len) ?_
        rw [Block.data_trim hb.1 (by omega), Nat.sub_eq_zero_of_le (by omega),
          List.replicate_zero, List.append_nil]

theorem adjustblock_exact_two : Adjusted onebyte [] 2 (adjustblock true true onebyte [] 2) :=
  (adjustblock_exact onebyte_ordered true true 2).mpr rfl

/-- In place, a block behind stays linked. -/
theorem adjustblock_behind : ¬ ∀ (intr limited : Bool) (bp : Block) (next : List Block) (len : Nat),
    bp.Ordered → (∀ c ∈ next, c.Ordered) → (intr && limited) = false →
    Adjusted bp next len (adjustblock intr limited bp next len) := by
  intro h
  have hnext : ∀ c ∈ [onebyte], c.Ordered := by simp [onebyte_ordered]
  obtain ⟨b, he, -⟩ := h false false onebyte [onebyte] 2 onebyte_ordered hnext rfl
  exact List.cons_ne_nil _ _ (Prod.mk.inj (Option.some.inj he)).2

end NixMark.Ip
