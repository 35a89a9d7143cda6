import NixMark.Tls.Pair

/-!
# Records round trip

* `fetch_fair`: reading from a channel that splits the stream anyhow and interrupts.
* `Libsec.Inverts`, `dec_enc`: protection undone. `recbytes`: a record as it goes to the channel.
-/

namespace NixMark.Tls

open Lib State

variable {K : Type} {L : Libsec K}

/-! ## The channel -/

/-- Blocks have bytes, and a call that fails was interrupted. -/
def Bread.Fair : Bread → Prop
  | .blocks bl => 0 < blocklen bl
  | .error e => e = Eintr

variable {n : Nat}

theorem fetch_fair {input i : List Bread} {l u : List Block} {e : Option String}
    (hfair : ∀ b ∈ input, b.Fair) (hn : n ≤ (bytes l ++ stream input).length)
    (h : fetch n input l = (e, i, u)) :
    (∀ e', e = some e' → e' = Eintr ∧ i.length < input.length) ∧ i.length ≤ input.length ∧
      ∀ b ∈ i, b.Fair := by
  induction input generalizing l with
  | nil =>
    unfold fetch at h
    split at h
    · cases h
      exact ⟨fun _ he => absurd he.symm (Option.some_ne_none _), Nat.le_refl _, hfair⟩
    · rename_i hlen
      rw [List.length_append] at hn
      exact absurd hn hlen
  | cons b input ih =>
    have hrest : ∀ b ∈ input, b.Fair := fun b hb => hfair b (List.mem_cons_of_mem _ hb)
    have hb := hfair b List.mem_cons_self
    cases b with
    | blocks bl =>
      unfold fetch at h
      split at h
      · cases h
        exact ⟨fun _ he => absurd he.symm (Option.some_ne_none _), Nat.le_refl _, hfair⟩
      · split at h
        · rename_i hzero
          exact absurd hb (by rw [Bread.Fair, hzero]; exact Nat.lt_irrefl 0)
        · rw [stream_cons, ← List.append_assoc] at hn
          obtain ⟨he, hlen, hi⟩ := ih hrest (by rw [bytes_append]; exact hn) h
          exact ⟨fun e' h => ⟨(he e' h).1, Nat.lt_succ_of_lt (he e' h).2⟩, Nat.le_succ_of_le hlen, hi⟩
    | error e' =>
      unfold fetch at h
      split at h
      · cases h
        exact ⟨fun _ he => absurd he.symm (Option.some_ne_none _), Nat.le_refl _, hfair⟩
      · cases h
        exact ⟨fun e' he => ⟨(Option.some.inj he) ▸ hb, Nat.lt_succ_self _⟩, Nat.le_succ _, hrest⟩

/-! ## Numbers -/

theorem get16_put16 {x : Nat} (h : x < 65536) (rest : List UInt8) : get16 (put16 x ++ rest) = x := by
  unfold get16 put16
  simp
  omega

/-! ## Protection -/

/-- Decryption undoes encryption on whole blocks, and both leave the same key. -/
structure Libsec.Inverts (L : Libsec K) : Prop where
  block : ∀ ea k b, ea.block ≠ 0 → b.length % ea.block = 0 →
    L.decrypt ea k (L.encrypt ea k b).1 = (b, (L.encrypt ea k b).2)
  stream : ∀ k b, L.encrypt .rc4_128 k (L.encrypt .rc4_128 k b).1 =
    (b, (L.encrypt .rc4_128 k b).2)

variable {buf : List UInt8}

/-- The padding: each byte says how many there are but one. -/
theorem blockpad_eq {block : Nat} (hb : 0 < block) :
    ∃ q, q < block ∧ blockpad buf block = buf ++ List.replicate (q + 1) (UInt8.ofNat q) ∧
      (blockpad buf block).length % block = 0 := by
  have hmod := Nat.mod_lt (buf.length + block) hb
  refine ⟨block - (buf.length + block) % block - 1, by omega, ?_, ?_⟩
  · unfold blockpad
    have hrep : buf.length + block - (buf.length + block) % block - buf.length =
        block - (buf.length + block) % block - 1 + 1 := by omega
    have hpad : buf.length + block - (buf.length + block) % block - (buf.length + 1) =
        block - (buf.length + block) % block - 1 := by omega
    dsimp only
    rw [hrep, hpad]
  · have hlen : (blockpad buf block).length = buf.length + block - (buf.length + block) % block := by
      unfold blockpad
      rw [List.length_append, List.length_replicate]
      omega
    rw [hlen]
    exact Nat.sub_mod_eq_zero_of_mod_eq (Nat.mod_mod _ _).symm

theorem unpad_blockpad {ssl : Bool} {block : Nat} (hbuf : buf ≠ []) (hb : 0 < block)
    (hb' : block ≤ 256) : unpad ssl (blockpad buf block) block = some buf.length := by
  obtain ⟨q, hq, heq, hzero⟩ := @blockpad_eq buf block hb
  have hpos := List.length_pos_iff.2 hbuf
  have hlast : (blockpad buf block).getLast? = some (UInt8.ofNat q) := by
    rw [heq, List.replicate_succ', ← List.append_assoc, List.getLast?_concat]
  have hlen : (blockpad buf block).length = buf.length + (q + 1) := by
    rw [heq, List.length_append, List.length_replicate]
  have hpad : (UInt8.ofNat q).toNat = q := UInt8.toNat_ofNat_of_lt' (Nat.lt_of_lt_of_le hq hb')
  unfold unpad
  rw [hlast]
  dsimp only
  rw [hpad, hlen]
  have hnn : ((buf.length + (q + 1) : Nat) : Int) - 1 - q = buf.length := by omega
  rw [hnn]
  split
  · rename_i h
    rcases h with h | h
    · omega
    · exact absurd (hlen ▸ hzero) h
  · split
    · rename_i h
      refine absurd h.2 ?_
      rw [Int.toNat_natCast, heq, List.drop_left, Bool.not_eq_true, List.any_eq_false]
      intro x hx
      rw [List.eq_of_mem_replicate hx]
      simp
    · rfl

variable {sec : Secret K}

/-- What was encrypted is decrypted, with the padding behind it. -/
theorem dec_enc (hL : L.Inverts) (h : buf ≠ [] ∨ sec.encalg.block = 0) :
    ∃ pad, sec.dec L (sec.enc L buf).1 =
      some ((buf.length : Int), buf ++ pad, (sec.enc L buf).2) := by
  unfold Secret.dec Secret.enc
  have hblock : ∀ ea : Enc, ea.block ≠ 0 → ea.block ≤ 256 ∧ 0 < ea.block := by
    intro ea hea
    cases ea <;> revert hea <;> decide
  cases henc : sec.encalg
  case clear => exact ⟨[], by simp⟩
  case rc4_128 =>
    refine ⟨[], ?_⟩
    dsimp only
    rw [hL.stream, L.encrypt_length, List.append_nil]
  all_goals
    have hne := h.resolve_right (by rw [henc]; decide)
    obtain ⟨q, -, heq, hzero⟩ := @blockpad_eq buf sec.encalg.block (by rw [henc]; decide)
    rw [henc] at heq hzero
    refine ⟨List.replicate (q + 1) (UInt8.ofNat q), ?_⟩
    dsimp only
    rw [hL.block _ _ _ (by decide) hzero, unpad_blockpad hne (by decide) (by decide), ← heq]
    rfl

theorem enc_length {sec : Secret K} {buf : List UInt8} :
    buf.length ≤ (sec.enc L buf).1.length ∧ (sec.enc L buf).1.length ≤ buf.length + 16 := by
  unfold Secret.enc
  cases henc : sec.encalg
  case clear => exact ⟨Nat.le_refl _, Nat.le_add_right ..⟩
  case rc4_128 =>
    dsimp only
    rw [L.encrypt_length]
    exact ⟨Nat.le_refl _, Nat.le_add_right ..⟩
  all_goals
    dsimp only
    rw [L.encrypt_length]
    unfold blockpad
    rw [List.length_append, List.length_replicate]
    simp only [Enc.block]
    omega

/-! ## A record -/

/-- The record of a piece of data, as it goes to the channel, and the secret afterwards. -/
def recbytes (L : Libsec K) (pm : PackMac) (v type : Nat) (sec : Secret K) (seq : UInt32)
    (piece : List UInt8) : List UInt8 × Secret K :=
  let p := UInt8.ofNat type :: put16 v
  let r := sec.enc L (piece ++ packMac L pm sec seq (p ++ put16 piece.length) piece)
  (p ++ put16 r.1.length ++ r.1, r.2)

/-- The piece is not lost in the padding of a block cipher. -/
def Whole (sec : Secret K) (piece : List UInt8) : Prop :=
  piece ≠ [] ∨ sec.maclen ≠ 0 ∨ sec.encalg.block = 0

variable {piece : List UInt8} {r : Conn K} {pm : PackMac}

theorem wp_checked {header piece : List UInt8} {r : Conn K} {sec : Secret K} {pm : PackMac}
    (hL : L.Inverts) (hsec : r.tr.inn.sec = some sec) (hpm : r.tr.packMac = some pm)
    (hwhole : Whole sec piece) {Q : Option Check × List UInt8 → Conn K → Prop}
    {E : String → Conn K → Prop} {F : Prop} :
    let buf := piece ++ packMac L pm sec r.tr.inn.seq (header.take 3 ++ put16 piece.length) piece
    (∀ check, Q (check, piece) (r.counted (sec.enc L buf).2)) →
    Prog.wp (unprotect L header (sec.enc L buf).1) Q E F r := by
  intro buf hQ
  have hmac : (packMac L pm sec r.tr.inn.seq (header.take 3 ++ put16 piece.length) piece).length =
      sec.maclen := L.mac_length ..
  have hbuf : buf.length = piece.length + sec.maclen := by
    rw [List.length_append, hmac]
  have hne : buf ≠ [] ∨ sec.encalg.block = 0 := by
    rcases hwhole with h | h | h
    · exact .inl fun hnil => h (List.append_eq_nil_iff.1 hnil).1
    · exact .inl fun hnil => h (by rw [← hmac, (List.append_eq_nil_iff.1 hnil).2]; rfl)
    · exact .inr h
  obtain ⟨pad, hdec⟩ := dec_enc hL hne
  unfold unprotect
  rw [Prog.wp_bind, wp_tr]
  dsimp only
  rw [hsec]
  dsimp only
  rw [hdec]
  dsimp only
  rw [hpm]
  dsimp only
  have hle : ¬ ((buf.length : Int) < sec.maclen) := by omega
  have hlen : (if (sec.maclen : Int) ≤ buf.length then ((buf.length : Int) - sec.maclen).toNat
      else (sec.enc L buf).1.length) = piece.length := by
    rw [if_pos (Int.not_lt.1 hle)]
    omega
  have hfits : ¬ (sec.enc L buf).1.length < piece.length + sec.maclen := by
    rw [← hbuf]
    exact Nat.not_lt.2 enc_length.1
  have htake : (buf ++ pad).take piece.length = piece := by
    rw [List.append_assoc, List.take_left']
    rfl
  have hdrop : ((buf ++ pad).drop piece.length).take sec.maclen =
      packMac L pm sec r.tr.inn.seq (header.take 3 ++ put16 piece.length) piece := by
    rw [List.append_assoc, List.drop_left' rfl, List.take_left' hmac]
  rw [hlen, Prog.wp_bind, wp_update, if_neg hle, if_neg hfits, htake, hdrop,
    if_neg (fun h => h rfl)]
  exact hQ _

/-- The blocks of the reader after a call that was interrupted, or that took a record. -/
def Rests (r : Conn K) (rest : List UInt8) (r' : Conn K) : Prop :=
  ∃ i u, r' = r.moved i u ∧ bytes u ++ stream i = rest ∧ i.length ≤ r.input.length ∧
    ∀ b ∈ i, b.Fair

/-- The call was interrupted: nothing is lost, and the interrupt is gone. -/
def Interrupted (r : Conn K) (e : String) (r' : Conn K) : Prop :=
  e = Eintr ∧ Rests r r.pending r' ∧ r'.input.length < r.input.length

theorem ensure_fair (hfair : ∀ b ∈ r.input, b.Fair) (hn : n ≤ r.pending.length) {F : Prop} :
    Prog.wp (ensure n)
      (fun _ r' => Rests r r.pending r' ∧ n ≤ (bytes r'.tr.unprocessed).length ∧
        fetch n r.input r.tr.unprocessed = (none, r'.input, r'.tr.unprocessed))
      (Interrupted r) F r := by
  unfold ensure
  simp only [Prog.wp_bind, Prog.wp_get, Prog.wp_modify]
  generalize hf : fetch n r.input r.tr.unprocessed = f
  obtain ⟨e, i, u⟩ := f
  obtain ⟨he, hlen, hi⟩ := fetch_fair hfair hn hf
  have hbytes := fetch_bytes hf
  cases e with
  | none => exact ⟨⟨i, u, rfl, hbytes, hlen, hi⟩, fetch_enough hf, rfl⟩
  | some e => exact ⟨(he e rfl).1, ⟨i, u, rfl, hbytes, hlen, hi⟩, (he e rfl).2⟩

variable {v type : Nat} {seq : UInt32}

theorem recbytes_header {pm : PackMac} {v type : Nat} {sec : Secret K} {seq : UInt32}
    {piece : List UInt8} :
    ∃ ct, (recbytes L pm v type sec seq piece).1 =
      (UInt8.ofNat type :: put16 v ++ put16 ct.length) ++ ct ∧
      ct = (sec.enc L (piece ++ packMac L pm sec seq
        (UInt8.ofNat type :: put16 v ++ put16 piece.length) piece)).1 := ⟨_, rfl, rfl⟩

variable {rest : List UInt8}

theorem tlsrecread_reaches (hL : L.Inverts) (htype : type = RApplication ∨ type = RChangeCipherSpec)
    (hpm : r.tr.packMac = some pm) (hv : r.tr.version < 65536) (hsec : r.tr.inn.sec = some sec)
    (hwhole : Whole sec piece) (hlen : piece.length ≤ MaxRecLen) (hfair : ∀ b ∈ r.input, b.Fair)
    (hpending : r.pending = (recbytes L pm r.tr.version type sec r.tr.inn.seq piece).1 ++ rest)
    {Q : Unit → Conn K → Prop} (hQ : ∀ h check r', h.type = type →
      Rests (r.counted (recbytes L pm r.tr.version type sec r.tr.inn.seq piece).2) rest r' →
      Prog.wp (dispatch L h check piece) Q (fun _ _ => False) False r') :
    Prog.wp (tlsrecread L) Q (Interrupted r) (Empty r) r := by
  obtain ⟨ct, hrec, hct⟩ := @recbytes_header K L pm r.tr.version type sec r.tr.inn.seq piece
  have hmac : (packMac L pm sec r.tr.inn.seq
      (UInt8.ofNat type :: put16 r.tr.version ++ put16 piece.length) piece).length ≤ 20 := by
    unfold packMac
    rw [L.mac_length]
    cases sec.hashalg <;> decide
  have hctlen : ct.length ≤ MaxCipherRecLen := by
    have h := (@enc_length K L sec (piece ++ packMac L pm sec r.tr.inn.seq
      (UInt8.ofNat type :: put16 r.tr.version ++ put16 piece.length) piece)).2
    rw [← hct, List.length_append] at h
    have : MaxCipherRecLen = MaxRecLen + 2048 := rfl
    omega
  rw [hrec] at hpending
  generalize hheader : UInt8.ofNat type :: put16 r.tr.version ++ put16 ct.length = header at hpending
  have hheaderlen : header.length = RecHdrLen := by
    rw [← hheader]
    rfl
  have hhead : header.getD 0 0 = UInt8.ofNat type := by
    rw [← hheader]
    rfl
  have hver : get16 (header.drop 1) = r.tr.version := by
    rw [← hheader]
    exact get16_put16 hv _
  have hget : get16 (header.drop 3) = ct.length := by
    rw [← hheader]
    have h : ct.length < 65536 := Nat.lt_of_le_of_lt hctlen (by decide)
    have h := get16_put16 h []
    rw [List.append_nil] at h
    exact h
  have htypes : (header.getD 0 0).toNat = type := by
    rw [hhead]
    rcases htype with rfl | rfl <;> rfl
  have hssl : ¬ (header.getD 0 0 &&& 0x80 ≠ 0) := by
    rw [hhead, Classical.not_not]
    rcases htype with rfl | rfl <;> rfl
  unfold tlsrecread
  rw [Prog.wp_bind, Prog.wp_handle]
  refine Prog.wp_imp (ensure_fair hfair ?_) ?_ ?_ id
  · rw [hpending, List.length_append, List.length_append, hheaderlen]
    omega
  · rintro - _ ⟨⟨i, u, rfl, hbytes, hilen, hi⟩, henough, hfetch⟩
    have henough : RecHdrLen ≤ (bytes u).length := henough
    have hfst : (consume u RecHdrLen).1 = header := by
      have h := congrArg (List.take RecHdrLen) (hbytes.trans hpending)
      rw [List.take_append_of_le_length henough, List.append_assoc, List.take_left' hheaderlen] at h
      rw [consume_fst, h]
    have hsnd : bytes (consume u RecHdrLen).2 ++ stream i = ct ++ rest := by
      have h := congrArg (List.drop RecHdrLen) (hbytes.trans hpending)
      rw [List.drop_append_of_le_length henough, List.append_assoc, List.drop_left' hheaderlen] at h
      rw [consume_snd, h]
    have hempty : ct = [] → (consume u RecHdrLen).2 = [] → Empty r := by
      intro hnil hrest
      unfold Empty
      rw [hfetch]
      refine ⟨rfl, fun h => hssl ?_, .inl ?_, ?_, .inl hrest⟩
      · exact hfst ▸ h.2
      · exact hfst.symm ▸ hver
      · change get16 ((consume u RecHdrLen).1.drop 3) = 0
        rw [hfst, hget, hnil]
        rfl
    rw [Prog.wp_bind, wp_tr, Prog.wp_bind, wp_update, Prog.wp_bind, Prog.wp_handle]
    have hr₂ : ({ r.moved i u with tr := { (r.moved i u).tr with
        unprocessed := (consume (r.moved i u).tr.unprocessed RecHdrLen).2 } } : Conn K) =
        r.moved i (consume u RecHdrLen).2 := rfl
    have hfst' : (consume (r.moved i u).tr.unprocessed RecHdrLen).1 = header := hfst
    rw [hfst', hr₂]
    unfold readhead parsehead
    rw [Prog.wp_bind, Prog.wp_bind, wp_tr]
    rw [if_neg (fun h => hssl h.2), Prog.wp_pure, Prog.wp_bind, wp_tr, htypes, hver, hget]
    have hbound : ¬ ((MaxCipherRecLen : Int) < (ct.length : Int) ∨ (ct.length : Int) < 0) := by
      omega
    rw [if_neg (fun h => h.1 rfl), if_neg hbound, Prog.wp_bind]
    dsimp only
    rw [Int.toNat_natCast]
    have hpending₂ : (r.moved i (consume u RecHdrLen).2).pending = ct ++ rest := hsnd
    refine Prog.wp_imp (ensure_fair hi ?_) ?_ ?_ id
    · rw [hpending₂, List.length_append]
      omega
    · rintro - _ ⟨⟨i', u', rfl, hbytes', hilen', hi'⟩, henough', hfetch'⟩
      have henough' : ct.length ≤ (bytes u').length := henough'
      rw [hpending₂] at hbytes'
      have hct' : (bytes u').take ct.length = ct := by
        have h := congrArg (List.take ct.length) hbytes'
        rwa [List.take_append_of_le_length henough', List.take_left'] at h
        rfl
      have hrest' : (bytes u').drop ct.length ++ stream i' = rest := by
        have h := congrArg (List.drop ct.length) hbytes'
        rwa [List.drop_append_of_le_length henough', List.drop_left'] at h
        rfl
      rw [Prog.wp_pure, Prog.wp_handle, Prog.wp_bind]
      unfold grab
      rw [Prog.wp_bind, wp_tr]
      split
      · rename_i hgrab
        have hnil : u' = [] := qgrab_none.1 hgrab
        rw [hnil, bytes_nil, List.take_nil] at hct'
        rw [← hct'] at hfetch'
        change fetch 0 _ _ = (none, i', u') at hfetch'
        rw [fetch_zero] at hfetch'
        cases hfetch'
        exact hempty hct'.symm hnil
      · rename_i b l hgrab
        have hgrab : qgrab u' ct.length = some (b, l) := hgrab
        obtain ⟨hb, hl⟩ := qgrab_some hgrab
        rw [hct'] at hb
        rw [Prog.wp_bind, wp_update, Prog.wp_pure, Prog.wp_bind, hb]
        have hthree : UInt8.ofNat type :: put16 r.tr.version = header.take 3 := by
          rw [← hheader]
          rfl
        rw [hthree] at hct
        rw [hct]
        refine @wp_checked K L header piece (r.moved i' l) sec pm hL hsec hpm hwhole _ _ _
          fun check => ?_
        refine Prog.wp_imp (hQ _ check _ rfl ⟨i', l, ?_, ?_, Nat.le_trans hilen' hilen, hi'⟩) (fun _ _ h => h)
          (fun _ _ => False.elim) False.elim
        · rw [← hthree]
          rfl
        · rw [hl]
          exact hrest'
    · rintro e _ ⟨rfl, ⟨i', u', rfl, hbytes', hilen', hi'⟩, hless⟩
      rw [if_pos rfl, Prog.wp_bind, wp_update]
      refine ⟨rfl, ⟨i', regurgitate header u', rfl, ?_, Nat.le_trans hilen' hilen, hi'⟩,
        Nat.lt_of_lt_of_le hless hilen⟩
      rw [regurgitate_bytes, List.append_assoc, hbytes', hpending₂, hpending, List.append_assoc]
  · rintro e r' hinterrupted
    rw [Prog.wp_bind, Prog.wp_whenever]
    exact ⟨fun h => absurd hinterrupted.1 h, fun _ => hinterrupted⟩

/-- The record that the reader takes: what is in the buffer, and what the rest of it becomes. -/
structure Takes (r : Conn K) (rest : List UInt8) (inn : OneWay K) (processed : List Block)
    (r' : Conn K) : Prop where
  tr : ∃ u, r'.tr = { r.tr with unprocessed := u, inn := inn, processed := processed }
  pending : r'.pending = rest
  fair : ∀ b ∈ r'.input, b.Fair

theorem takes_data (hL : L.Inverts) (hopened : r.tr.opened) (hpm : r.tr.packMac = some pm)
    (hv : r.tr.version < 65536) (hsec : r.tr.inn.sec = some sec) (hwhole : Whole sec piece)
    (hlen : piece.length ≤ MaxRecLen) (hfair : ∀ b ∈ r.input, b.Fair) (hpending : r.pending =
      (recbytes L pm r.tr.version RApplication sec r.tr.inn.seq piece).1 ++ rest) :
    Prog.wp (tlsrecread L)
      (fun _ => Takes r rest
        { r.tr.inn with
          seq := r.tr.inn.seq + 1
          sec := some (recbytes L pm r.tr.version RApplication sec r.tr.inn.seq piece).2 }
        (if piece = [] then r.tr.processed else [⟨Hdrspc, piece⟩]))
      (Interrupted r) (Empty r) r := by
  refine tlsrecread_reaches hL (.inl rfl) hpm hv hsec hwhole hlen hfair hpending ?_
  rintro h check r' htype ⟨i, u, rfl, hbytes, -, hi⟩
  unfold dispatch
  rw [Prog.wp_bind, wp_tr, htype, if_neg (by decide), if_neg (by decide), if_neg (by decide),
    if_neg (by decide), if_pos rfl]
  split
  · rename_i hclosed
    have hclosed : (!r.tr.opened) = true := hclosed
    rw [hopened] at hclosed
    cases hclosed
  · rw [Prog.wp_whenever]
    refine ⟨fun hne => ?_, fun heq => ?_⟩
    · rw [Prog.wp_bind, wp_update, wp_note, if_neg hne]
      exact ⟨⟨u, rfl⟩, hbytes, hi⟩
    · rw [if_pos (Classical.not_not.1 heq)]
      exact ⟨⟨u, rfl⟩, hbytes, hi⟩

theorem takes_change (hL : L.Inverts) (hnew : r.tr.inn.new.isSome) (hpm : r.tr.packMac = some pm)
    (hv : r.tr.version < 65536) (hsec : r.tr.inn.sec = some sec) (hfair : ∀ b ∈ r.input, b.Fair)
    (hpending : r.pending =
      (recbytes L pm r.tr.version RChangeCipherSpec sec r.tr.inn.seq [1]).1 ++ rest) :
    Prog.wp (tlsrecread L) (fun _ => Takes r rest r.tr.inn.change r.tr.processed)
      (Interrupted r) (Empty r) r := by
  have hwhole : Whole sec [1] := .inl (List.cons_ne_nil _ _)
  have hlen : ([1] : List UInt8).length ≤ MaxRecLen := by decide
  refine tlsrecread_reaches hL (.inr rfl) hpm hv hsec hwhole hlen hfair hpending ?_
  rintro h check r' htype ⟨i, u, rfl, hbytes, -, hi⟩
  unfold dispatch
  rw [Prog.wp_bind, wp_tr, htype, if_pos rfl, if_neg (fun h => h rfl)]
  split
  · rename_i hnone
    have hnone : r.tr.inn.new.isNone = true := hnone
    rw [Option.isNone_iff_eq_none] at hnone
    rw [hnone] at hnew
    cases hnew
  · exact ⟨⟨u, rfl⟩, hbytes, hi⟩

/-! ## Records on their way -/

/-- The records `recs` take the secret and its counter to `last` and `lastseq`; the secrets `news`
are put in force by them, and the data in them is `d`. -/
inductive Flight (L : Libsec K) (pm : PackMac) (v : Nat) (last : Secret K) (lastseq : UInt32) :
    Secret K → UInt32 → List (Secret K) → List (List UInt8) → List UInt8 → Prop
  | nil : Flight L pm v last lastseq last lastseq [] [] []
  | data {sec : Secret K} {seq : UInt32} {news : List (Secret K)} {recs : List (List UInt8)}
      {piece d : List UInt8} : Whole sec piece → piece.length ≤ MaxRecLen →
      Flight L pm v last lastseq (recbytes L pm v RApplication sec seq piece).2 (seq + 1) news recs d →
      Flight L pm v last lastseq sec seq news
        ((recbytes L pm v RApplication sec seq piece).1 :: recs) (piece ++ d)
  | change {sec new : Secret K} {seq : UInt32} {news : List (Secret K)} {recs : List (List UInt8)}
      {d : List UInt8} : Flight L pm v last lastseq new 0 news recs d →
      Flight L pm v last lastseq sec seq (new :: news)
        ((recbytes L pm v RChangeCipherSpec sec seq [1]).1 :: recs) d

variable {news : List (Secret K)} {d : List UInt8}

theorem Flight.append {last last' : Secret K} {lastseq lastseq' : UInt32} {news' : List (Secret K)}
    {recs recs' : List (List UInt8)} {d' : List UInt8}
    (h : Flight L pm v last lastseq sec seq news recs d)
    (h' : Flight L pm v last' lastseq' last lastseq news' recs' d') :
    Flight L pm v last' lastseq' sec seq (news ++ news') (recs ++ recs') (d ++ d') := by
  induction h with
  | nil => exact h'
  | data hwhole hlen _ ih =>
    rw [List.append_assoc]
    exact .data hwhole hlen ih
  | change _ ih => exact .change ih

/-! ## The end that writes -/

/-- The writer's record after a write. -/
def OneWay.counted (o : OneWay K) (sec : Secret K) : OneWay K :=
  { o with seq := o.seq + 1, sec := some sec }

/-- What a record leaves of the writer's side. -/
def Sent (L : Libsec K) (pm : PackMac) (v type : Nat) (sec : Secret K) (o : OneWay K)
    (piece : List UInt8) : OneWay K :=
  if type = RChangeCipherSpec then o.change
  else o.counted (recbytes L pm v type sec o.seq piece).2

theorem sent_counted {o : OneWay K} (h : type ≠ RChangeCipherSpec) :
    Sent L pm v type sec o piece = o.counted (recbytes L pm v type sec o.seq piece).2 := if_neg h

variable {w : Conn K} {b : List UInt8}

theorem wp_bwrite {nb : List UInt8} (hb : w.bwrites = []) {Q : Unit → Conn K → Prop}
    {E : String → Conn K → Prop} {F : Prop} :
    Prog.wp (bwrite type b nb) Q E F w ↔
      Q () { w with bwrites := [], wire := w.wire ++ [nb], log := w.log ++ [.wrote type b] } := by
  unfold bwrite
  simp only [Prog.wp_bind, Prog.wp_get, Prog.wp_modify, wp_note]
  rw [hb]
  exact Iff.rfl

theorem writerec_sends {copied : Bool}
    (hs : w.tr.state = SHandshake ∨ w.tr.state = SOpen ∨ w.tr.state = SRClose)
    (hpm : w.tr.packMac = some pm) (hsec : w.tr.out.sec = some sec) (hb : w.bwrites = [])
    (hnew : type = RChangeCipherSpec → w.tr.out.new.isSome) :
    Prog.wp (writerec L type piece copied)
      (fun _ w' => w'.bwrites = [] ∧
        w'.wire = w.wire ++ [(recbytes L pm w.tr.version type sec w.tr.out.seq piece).1] ∧
        w'.tr = { w.tr with out := Sent L pm w.tr.version type sec w.tr.out piece })
      (fun _ _ => False) False w := by
  unfold writerec
  rw [Prog.wp_bind]
  refine Prog.wp_imp checkstate_spec ?_ ?_ id
  · rintro - w ⟨rfl, -⟩
    rw [Prog.wp_bind]
    unfold protect
    rw [Prog.wp_bind, wp_tr]
    dsimp only
    rw [hsec]
    dsimp only
    rw [hpm]
    dsimp only
    rw [Prog.wp_bind, wp_update, Prog.wp_pure, Prog.wp_bind]
    unfold changeout Sent
    rw [Prog.wp_bind, wp_tr]
    split
    · rename_i htype
      have hsome := hnew htype
      rw [← Option.not_isNone, Bool.not_eq_true'] at hsome
      split
      · rename_i hnone
        exact absurd (hnone.symm.trans hsome) (by decide)
      · rw [wp_update, Prog.wp_handle]
        refine (wp_bwrite ?_).2 ⟨rfl, rfl, ?_⟩
        · exact hb
        · rw [← hpm]
          rfl
    · rw [Prog.wp_pure, Prog.wp_handle]
      refine (wp_bwrite ?_).2 ⟨rfl, rfl, ?_⟩
      · exact hb
      · rw [← hpm]
        rfl
  · rintro - _ ⟨rfl, hno⟩
    refine hno ?_
    split
    · rcases hs with hs | hs | hs <;> rw [hs] <;> decide
    · rcases hs with hs | hs | hs <;> rw [hs] <;> decide

theorem whole_ne (h : piece ≠ []) : Whole sec piece := .inl h

/-- The records of a block, whatever its length. -/
theorem tlsrecwrite_sends (hs : w.tr.state = SHandshake ∨ w.tr.state = SOpen ∨ w.tr.state = SRClose)
    (hpm : w.tr.packMac = some pm) (hsec : w.tr.out.sec = some sec) (hb : w.bwrites = [])
    (hwhole : Whole sec b) :
    Prog.wp (tlsrecwrite L RApplication b)
      (fun _ w' => ∃ sec' seq' recs,
        Flight L pm w.tr.version sec' seq' sec w.tr.out.seq [] recs b ∧
        w'.tr = { w.tr with out := { w.tr.out with seq := seq', sec := some sec' } } ∧
        w'.bwrites = [] ∧ w'.wire = w.wire ++ recs)
      (fun _ _ => False) False w := by
  unfold tlsrecwrite
  have hfuel : b.length < (b.length / MaxRecLen + 1) * MaxRecLen := by
    rw [Nat.add_mul, Nat.one_mul, Nat.mul_comm]
    have := Nat.div_add_mod b.length MaxRecLen
    have := Nat.mod_lt b.length (by decide : 0 < MaxRecLen)
    omega
  generalize b.length / MaxRecLen + 1 = fuel at hfuel
  have happ : RApplication ≠ RChangeCipherSpec := by decide
  induction fuel generalizing b w sec with
  | zero => omega
  | succ fuel ih =>
    unfold tlsrecwrite.go
    split
    · rename_i hlong
      have hne : b.take MaxRecLen ≠ [] := by
        intro hnil
        have h := congrArg List.length hnil
        rw [List.length_take, Nat.min_eq_left (Nat.le_of_lt hlong)] at h
        exact absurd h (by decide)
      have hne' : b.drop MaxRecLen ≠ [] := by
        intro hnil
        have h := congrArg List.length hnil
        rw [List.length_drop, List.length_nil] at h
        omega
      rw [Prog.wp_bind]
      refine Prog.wp_imp (writerec_sends hs hpm hsec hb fun h => absurd h happ) ?_
        (fun _ _ => False.elim) id
      rintro - w₁ ⟨hb₁, hwire₁, htr₁⟩
      have hout : w₁.tr.out = w.tr.out.counted
          (recbytes L pm w.tr.version RApplication sec w.tr.out.seq (b.take MaxRecLen)).2 := by
        rw [htr₁]
        exact sent_counted happ
      refine Prog.wp_imp (ih (by rw [htr₁]; exact hs) (by rw [htr₁]; exact hpm) (by rw [hout]; rfl) hb₁
        (whole_ne hne') ?_) ?_ (fun _ _ => False.elim) id
      · rw [List.length_drop]
        rw [Nat.add_mul] at hfuel
        omega
      · rintro - w₂ ⟨sec', seq', recs, hflight, htr₂, hb₂, hwire₂⟩
        refine ⟨sec', seq', (recbytes L pm w.tr.version RApplication sec w.tr.out.seq
          (b.take MaxRecLen)).1 :: recs, ?_, ?_, hb₂, ?_⟩
        · have hlen : (b.take MaxRecLen).length ≤ MaxRecLen := by
            rw [List.length_take]
            exact Nat.min_le_left ..
          rw [hout] at hflight
          have hversion : w₁.tr.version = w.tr.version := by rw [htr₁]
          rw [hversion] at hflight
          have h := Flight.data (whole_ne hne) hlen hflight
          rwa [List.take_append_drop] at h
        · rw [htr₂, hout, htr₁]
          rfl
        · rw [hwire₂, hwire₁, List.append_assoc]
          rfl
    · rename_i hshort
      refine Prog.wp_imp (writerec_sends hs hpm hsec hb fun h => absurd h happ) ?_
        (fun _ _ => False.elim) id
      rintro - w₁ ⟨hb₁, hwire₁, htr₁⟩
      have hflight := @Flight.data K L pm w.tr.version
        (recbytes L pm w.tr.version RApplication sec w.tr.out.seq b).2 (w.tr.out.seq + 1) sec
        w.tr.out.seq [] [] b [] hwhole (Nat.not_lt.1 hshort) .nil
      refine ⟨(recbytes L pm w.tr.version RApplication sec w.tr.out.seq b).2, w.tr.out.seq + 1, _, ?_, ?_,
        hb₁, hwire₁⟩
      · rwa [List.append_nil] at hflight
      · rw [htr₁]
        dsimp only
        rw [sent_counted happ]
        rfl

/-! ## Secrets -/

/-- The secret that the end that writes will put in force. -/
def Agreement.out (L : Libsec K) (v : Nat) (a : Agreement) : Option (Secret K) :=
  (parsehashalg a.hashalg).bind fun ha => (parseencalg a.encalg).bind fun ea =>
    if a.x.length < 2 * ha.maclen + 2 * ea.keylen + 2 * ea.ivlen then none
    else
      let secs := mksecrets L v ha ea a.x
      some (if a.isclient = 0 then secs.2 else secs.1)

variable {a : Agreement}

theorem flip_out : a.flip.flip.out L v = a.out L v := by
  unfold Agreement.out Agreement.flip
  by_cases hclient : a.isclient = 0 <;> simp [hclient]

/-- What the reader configures is what the writer does. -/
theorem secret_spec {a : Agreement} {s : Conn K} (hc : s.tr.c = true) (hv : s.tr.verset = true) :
    Prog.wp (a.secret L)
      (fun _ s' => ∃ inn out, a.out L s.tr.version = some out ∧
        a.flip.out L s.tr.version = some inn ∧
        s' = { s with tr := { s.tr with
          inn := { s.tr.inn with new := some inn }, out := { s.tr.out with new := some out } } })
      (fun _ _ => a.out L s.tr.version = none) False s := by
  unfold Agreement.secret ctlsecret
  rw [Prog.wp_bind, wp_tr]
  split
  · rename_i h
    rw [hc, hv] at h
    simp at h
  · rw [Prog.wp_bind, wp_update]
    have hout : ∀ a : Agreement, a.out L s.tr.version =
        (parsehashalg a.hashalg).bind fun ha => (parseencalg a.encalg).bind fun ea =>
          if a.x.length < 2 * ha.maclen + 2 * ea.keylen + 2 * ea.ivlen then none
          else
            let secs := mksecrets L s.tr.version ha ea a.x
            some (if a.isclient = 0 then secs.2 else secs.1) := fun _ => rfl
    split
    · rename_i hha
      rw [wp_raise, hout, hha]
      rfl
    · rename_i ha hha
      split
      · rename_i hea
        rw [wp_raise, hout, hha, hea]
        rfl
      · rename_i ea hea
        split
        · rename_i hx
          rw [wp_raise, hout, hha, hea]
          exact if_pos hx
        · rename_i hx
          refine ⟨_, _, ?_, ?_, rfl⟩
          · rw [hout, hha, hea]
            exact if_neg hx
          · rw [hout]
            unfold Agreement.flip
            rw [hha, hea]
            refine (if_neg hx).trans ?_
            by_cases hclient : a.isclient = 0
            · simp [hclient]
            · simp [hclient]

/-! ## The two ends -/

structure Linked (L : Libsec K) (p : Pair K) (pm : PackMac) (ws rs : Secret K)
    (news : List (Secret K)) (d : List UInt8) : Prop where
  packMac : p.w.tr.packMac = some pm ∧ p.r.tr.packMac = some pm
  wsec : p.w.tr.out.sec = some ws
  rsec : p.r.tr.inn.sec = some rs
  flight : Flight L pm p.w.tr.version ws p.w.tr.out.seq rs p.r.tr.inn.seq
    (p.r.tr.inn.new.toList ++ news) p.flight d
  agreed : p.agreed.map (Agreement.out L p.w.tr.version) = news.map some
  sent : p.sent = p.got ++ bytes p.r.tr.processed ++ d
  version : p.w.tr.version < 65536 ∧ p.r.tr.version = p.w.tr.version
  configured : (p.w.tr.c ∧ p.w.tr.verset) ∧ p.r.tr.c ∧ p.r.tr.verset
  writes : p.w.tr.state = SHandshake ∨ p.w.tr.state = SOpen ∨ p.w.tr.state = SRClose
  reads : p.r.tr.state = SOpen ∧ p.r.tr.opened
  pending : p.r.pending ++ p.line = p.flight.flatten
  fair : ∀ b ∈ p.r.input, b.Fair

def Pair.Linked (L : Libsec K) (p : Pair K) : Prop := ∃ pm ws rs news d, Tls.Linked L p pm ws rs news d

/-- An empty block is not written under a block cipher without a MAC, and no record of length 0 is
read that the code cannot take. -/
def Pair.Good (p : Pair K) : Pair.Act → Prop
  | .data b => ∀ sec, p.w.tr.out.sec = some sec → Whole sec b
  | .record => ¬ Empty p.r
  | _ => True

variable {p : Pair K}

theorem linked_init (h : (pair L).init p) : p.Linked L := by
  obtain ⟨⟨⟨hsec, hrsec⟩, hseq, hnew, ⟨hpm, hrpm⟩, hv, hrv, ⟨hc, hverset, hrc, hrverset⟩, hw, hr, hproc,
    hun, hin⟩, hline, hflight, hagreed, hsent, hgot⟩ := h
  obtain ⟨ws, hws⟩ := Option.isSome_iff_exists.1 hsec
  obtain ⟨pm, hpm⟩ := Option.isSome_iff_exists.1 hpm
  refine ⟨pm, ws, ws, [], [], ⟨hpm, hrpm.trans hpm⟩, hws, hrsec.trans hws, ?_, ?_, ?_, ⟨?_, hrv⟩,
    ⟨⟨hc, hverset⟩, hrc, hrverset⟩, hw, hr, ?_, ?_⟩
  · rw [hnew, hseq, hflight]
    exact .nil
  · rw [hagreed]
    rfl
  · rw [hsent, hgot, hproc]
    rfl
  · rcases hv with hv | hv <;> rw [hv] <;> decide
  · unfold Conn.pending
    rw [hun, hin, hline, hflight]
    rfl
  · rw [hin]
    exact nofun

variable {ws rs : Secret K}

/-- A write: the records of `x` go on the line. -/
theorem Linked.write (h : Linked L p pm ws rs news d) {x : Op K Unit} (after : List (Secret K))
    (more : List Agreement) (hmore : more.map (Agreement.out L p.w.tr.version) = after.map some)
    (hx : Prog.wp x
      (fun _ w' => ∃ ws' recs, Flight L pm p.w.tr.version ws' w'.tr.out.seq ws p.w.tr.out.seq after
          recs b ∧ w'.tr.out.sec = some ws' ∧ w'.tr.packMac = some pm ∧
          w'.tr.version = p.w.tr.version ∧ w'.tr.c ∧ w'.tr.verset ∧ w'.tr.state = p.w.tr.state ∧
          w'.wire = recs)
      (fun _ _ => True) False { p.w with bwrites := [], wire := [] })
    {p' : Pair K} (hp' : p.write x = some p') :
    Pair.Linked L { p' with sent := p'.sent ++ b, agreed := p'.agreed ++ more } := by
  unfold Pair.write at hp'
  split at hp'
  · rename_i w hrun
    cases hp'
    obtain ⟨ws', recs, hflight, hsec, hpm, hv, hc, hverset, hstate, hwire⟩ := Prog.wp_ok hx hrun
    refine ⟨pm, ws', rs, news ++ after, d ++ b, ⟨hpm, h.packMac.2⟩, hsec, h.rsec, ?_, ?_, ?_, ?_,
      ⟨⟨hc, hverset⟩, h.configured.2⟩, ?_, h.reads, ?_, h.fair⟩
    · dsimp only
      rw [hv, hwire, ← List.append_assoc]
      exact h.flight.append hflight
    · dsimp only
      rw [hv, List.map_append, List.map_append, h.agreed, hmore]
    · dsimp only
      rw [h.sent, List.append_assoc]
    · dsimp only
      rw [hv]
      exact h.version
    · dsimp only
      rw [hstate]
      exact h.writes
    · dsimp only
      rw [hwire, List.flatten_append, ← h.pending, List.append_assoc]
  · cases hp'

theorem write_some {x : Op K Unit}
    (hx : Prog.wp x (fun _ _ => True) (fun _ _ => False) False { p.w with bwrites := [], wire := [] })
    :
    (p.write x).isSome := by
  unfold Pair.write
  unfold Prog.wp at hx
  split at hx
  · rename_i hrun
    rw [hrun]
    rfl
  · exact hx.elim
  · exact hx.elim

theorem Linked.data_sends (h : Linked L p pm ws rs news d) (hb : Whole ws b) :
    Prog.wp (tlsrecwrite L RApplication b)
      (fun _ w' => ∃ ws' recs, Flight L pm p.w.tr.version ws' w'.tr.out.seq ws p.w.tr.out.seq []
          recs b ∧ w'.tr.out.sec = some ws' ∧ w'.tr.packMac = some pm ∧
          w'.tr.version = p.w.tr.version ∧ w'.tr.c ∧ w'.tr.verset ∧ w'.tr.state = p.w.tr.state ∧
          w'.wire = recs)
      (fun _ _ => False) False { p.w with bwrites := [], wire := [] } := by
  refine Prog.wp_imp (tlsrecwrite_sends h.writes h.packMac.1 h.wsec rfl hb) ?_ (fun _ _ h => h) id
  rintro - w' ⟨ws', seq', recs, hflight, htr, -, hwire⟩
  refine ⟨ws', recs, ?_, ?_, ?_, ?_, ?_, ?_, ?_, ?_⟩
  · rw [htr]
    exact hflight
  · rw [htr]
  · rw [htr]
    exact h.packMac.1
  · rw [htr]
  · rw [htr]
    exact h.configured.1.1
  · rw [htr]
    exact h.configured.1.2
  · rw [htr]
  · rw [hwire]
    rfl

theorem Linked.change_sends (h : Linked L p pm ws rs news d) {new : Secret K}
    (hnew : a.out L p.w.tr.version = some new) :
    Prog.wp (do a.secret L; ctlchangecipher L)
      (fun _ w' => ∃ ws' recs, Flight L pm p.w.tr.version ws' w'.tr.out.seq ws p.w.tr.out.seq [new]
          recs [] ∧ w'.tr.out.sec = some ws' ∧ w'.tr.packMac = some pm ∧
          w'.tr.version = p.w.tr.version ∧ w'.tr.c ∧ w'.tr.verset ∧ w'.tr.state = p.w.tr.state ∧
          w'.wire = recs)
      (fun _ _ => True) False { p.w with bwrites := [], wire := [] } := by
  rw [Prog.wp_bind]
  refine Prog.wp_imp (secret_spec h.configured.1.1 h.configured.1.2) ?_ (fun _ _ _ => trivial) id
  rintro - _ ⟨inn, out, hout, -, rfl⟩
  cases hnew.symm.trans hout
  unfold ctlchangecipher
  rw [Prog.wp_bind, wp_tr]
  rw [if_neg (by exact nofun)]
  have hshort : tlsrecwrite L RChangeCipherSpec [1] = writerec L RChangeCipherSpec [1] false := by
    unfold tlsrecwrite tlsrecwrite.go
    exact if_neg (by decide)
  rw [hshort]
  refine Prog.wp_imp (writerec_sends h.writes h.packMac.1 h.wsec rfl fun _ => rfl) ?_
    (fun _ _ => False.elim) id
  rintro - w' ⟨-, hwire, htr⟩
  have hsent : w'.tr.out = ⟨0, some new, none, p.w.tr.out.num + 1⟩ := by
    rw [htr]
    unfold Sent
    rw [if_pos rfl]
    rfl
  refine ⟨new, _, ?_, ?_, ?_, ?_, ?_, ?_, ?_, hwire⟩
  · rw [hsent]
    exact .change .nil
  · rw [hsent]
  · rw [htr]
    exact h.packMac.1
  · rw [htr]
  · rw [htr]
    exact h.configured.1.1
  · rw [htr]
    exact h.configured.1.2
  · rw [htr]

/-- The reader's side after a change of the other fields. -/
theorem Linked.reader {rs' : Secret K} {news' : List (Secret K)} {d' : List UInt8}
    (h : Linked L p pm ws rs news d) {u : List Block} {inn : OneWay K} {processed : List Block}
    {flight : List (List UInt8)} {got : List UInt8} {line : List UInt8} {agreed : List Agreement}
    (htr : r.tr = { p.r.tr with unprocessed := u, inn := inn, processed := processed })
    (hsec : inn.sec = some rs')
    (hflight : Flight L pm p.w.tr.version ws p.w.tr.out.seq rs' inn.seq (inn.new.toList ++ news')
      flight d')
    (hagreed : agreed.map (Agreement.out L p.w.tr.version) = news'.map some)
    (hsent : p.sent = got ++ bytes processed ++ d') (hpending : r.pending ++ line = flight.flatten)
    (hfair : ∀ b ∈ r.input, b.Fair) :
    Pair.Linked L
      { p with r := r, flight := flight, got := got, line := line, agreed := agreed } := by
  refine ⟨pm, ws, rs', news', d', ⟨h.packMac.1, ?_⟩, h.wsec, ?_, ?_, hagreed, ?_, ⟨h.version.1, ?_⟩,
    ⟨h.configured.1, ?_⟩, h.writes, ?_, hpending, hfair⟩
  · rw [htr]
    exact h.packMac.2
  · rw [htr]
    exact hsec
  · rw [htr]
    exact hflight
  · rw [htr]
    exact hsent
  · rw [htr]
    exact h.version.2
  · rw [htr]
    exact h.configured.2
  · rw [htr]
    exact h.reads

/-- The next record is taken, or the call was interrupted. -/
theorem Linked.record (hL : L.Inverts) (h : Linked L p pm ws rs news d) (hdue : p.Due) :
    Prog.wp (tlsrecread L)
      (fun _ r => Pair.Linked L { p with r := r, flight := p.flight.tail })
      (fun e r => Interrupted p.r e r ∧ Pair.Linked L { p with r := r }) (Empty p.r) p.r := by
  obtain ⟨hproc, rec, rest, hrecs, harrived, hnew⟩ := hdue
  have hv : p.r.tr.version < 65536 := h.version.2 ▸ h.version.1
  have hpending : ∃ more, p.r.pending = rec ++ more ∧ more ++ p.line = rest.flatten := by
    have hall := h.pending
    rw [hrecs, List.flatten_cons] at hall
    refine ⟨p.r.pending.drop rec.length, ?_, ?_⟩
    · have h := congrArg (List.take rec.length) hall
      rw [List.take_append_of_le_length harrived, List.take_left] at h
      conv => lhs; rw [← List.take_append_drop rec.length p.r.pending, h]
    · have h := congrArg (List.drop rec.length) hall
      rwa [List.drop_append_of_le_length harrived, List.drop_left] at h
  obtain ⟨more, hpending, hmore⟩ := hpending
  have hinterrupted : ∀ e r, Interrupted p.r e r →
      Interrupted p.r e r ∧ Pair.Linked L { p with r := r } := by
    intro e r hi
    obtain ⟨he, ⟨i, u, rfl, hbytes, -, hfair⟩, hless⟩ := id hi
    refine ⟨hi, h.reader (u := u) ?_ h.rsec h.flight h.agreed h.sent ?_ hfair⟩
    · rfl
    · have hp : (p.r.moved i u).pending = p.r.pending := hbytes
      rw [hp]
      exact h.pending
  have hflight := h.flight
  have hsent := h.sent
  rw [hproc, bytes_nil, List.append_nil] at hsent
  rw [hrecs, ← h.version.2] at hflight
  have htail : p.flight.tail = rest := by
    rw [hrecs]
    rfl
  rw [htail]
  have hfront := h.version.2
  generalize hns : p.r.tr.inn.new.toList ++ news = ns at hflight
  generalize hseq : p.r.tr.inn.seq = seq at hflight
  cases hflight with
  | @data _ _ _ _ piece d' hwhole hlen hrest =>
    rw [← hseq] at hpending hrest
    refine Prog.wp_imp (takes_data hL h.reads.2 h.packMac.2 hv h.rsec hwhole hlen h.fair hpending)
      ?_ hinterrupted id
    rw [hfront, ← hns] at hrest
    rintro - r ⟨⟨u, htr⟩, hp, hfair⟩
    rw [hfront] at htr
    refine h.reader htr rfl hrest h.agreed ?_ ?_ hfair
    · rw [hproc, hsent]
      split
      · rename_i hnil
        rw [hnil]
        simp
      · simp
    · rw [hp]
      exact hmore
  | @change _ new _ news' _ _ hrest =>
    rw [← hseq] at hpending
    obtain ⟨s, hs⟩ := Option.isSome_iff_exists.1 (hnew rfl)
    rw [hs] at hns
    obtain ⟨rfl, rfl⟩ := List.cons.inj hns
    refine Prog.wp_imp (takes_change hL (hnew rfl) h.packMac.2 hv h.rsec h.fair hpending)
      ?_ hinterrupted id
    rw [hfront] at hrest
    rintro - r ⟨⟨u, htr⟩, hp, hfair⟩
    refine h.reader htr hs hrest h.agreed ?_ ?_ hfair
    · rw [hproc, hsent, bytes_nil, List.append_nil]
    · rw [hp]
      exact hmore

/-- A call of `tlsbread` that has data takes at most `n` bytes of it. -/
theorem Linked.read (h : Linked L p pm ws rs news d) (hproc : p.r.tr.processed ≠ []) (n : Nat) :
    Prog.wp (dataread L n)
      (fun b r => b.length ≤ n ∧ Pair.Linked L { p with r := r, got := p.got ++ b })
      (fun _ _ => False) False p.r := by
  unfold dataread
  rw [Prog.wp_bind]
  refine Prog.wp_imp checkstate_spec ?_ ?_ id
  · rintro - r ⟨rfl, -⟩
    rw [Prog.wp_bind, Prog.wp_get, Prog.wp_bind, readrecs, Prog.wp_bind, wp_tr]
    rw [if_neg (show ¬ p.r.tr.wants false from hproc), Prog.wp_pure, Prog.wp_bind, wp_tr]
    split
    · rename_i hgrab
      exact hproc (qgrab_none.1 hgrab)
    · rename_i b l hgrab
      obtain ⟨hb, hl⟩ := qgrab_some hgrab
      rw [Prog.wp_bind, wp_update, Prog.wp_bind, wp_note, Prog.wp_pure]
      refine ⟨?_, h.reader (u := p.r.tr.unprocessed) rfl h.rsec h.flight h.agreed ?_ h.pending h.fair⟩
      · rw [hb]
        exact List.length_take_le ..
      · rw [h.sent, hb, hl, List.append_assoc p.got (List.take _ _), List.take_append_drop]
  · rintro - _ ⟨rfl, hno⟩
    exact hno (by rw [h.reads.1]; exact List.mem_singleton_self _)

theorem Flight.head_ne {last : Secret K} {lastseq : UInt32} {rec : List UInt8}
    {rest : List (List UInt8)} (h : Flight L pm v last lastseq sec seq news (rec :: rest) d) :
    0 < rec.length := by
  generalize hrecs : rec :: rest = recs at h
  cases h with
  | nil => cases hrecs
  | data => exact (List.cons.inj hrecs).1 ▸ Nat.succ_pos _
  | change => exact (List.cons.inj hrecs).1 ▸ Nat.succ_pos _

/-- A call that finds no data goes on with the next record. -/
theorem Linked.turn (hL : L.Inverts) (h : Linked L p pm ws rs news d) (hdue : p.Due)
    (hread : tlsrecread L p.r = .ok () r) (hfault : dataread L n r ≠ .fault) :
    dataread L n p.r = dataread L n r := by
  have hrec := Prog.wp_ok (h.record hL hdue) hread
  obtain ⟨pm', ws', rs', news', d', h'⟩ := hrec
  obtain ⟨hproc, rec, rest, hrecs, -⟩ := hdue
  have hflight := h.flight
  rw [hrecs] at hflight
  have hpos := hflight.head_ne
  have hp := congrArg List.length h.pending
  have hp' := congrArg List.length h'.pending
  rw [hrecs] at hp hp'
  simp only [List.length_append, List.flatten_cons, List.tail_cons] at hp hp'
  exact dataread_turn h.reads.1 hproc hread h'.reads.1 (by omega) hfault

theorem exec_linked {p' : Pair K} {a : Pair.Act} (hL : L.Inverts) (h : p.Linked L)
    (hstep : (pair L).step p a p') (hgood : p.Good a) : p'.Linked L := by
  obtain ⟨pm, ws, rs, news, d, h⟩ := h
  obtain ⟨hexec, hdue⟩ := hstep
  cases a with
  | data b =>
    obtain ⟨p₁, hp₁, rfl⟩ := Option.map_eq_some_iff.1 hexec
    have hsends := Prog.wp_imp (h.data_sends (hgood ws h.wsec)) (fun _ _ h => h)
      (fun _ _ _ => trivial) id
    have h' := h.write [] [] rfl hsends hp₁
    rwa [List.append_nil] at h'
  | change a =>
    obtain ⟨p₁, hp₁, rfl⟩ := Option.map_eq_some_iff.1 hexec
    cases hnew : a.out L p.w.tr.version with
    | none =>
      have hwp : Prog.wp (do a.secret L; ctlchangecipher L) (fun _ _ => False) (fun _ _ => True)
          False { p.w with bwrites := [], wire := [] } := by
        rw [Prog.wp_bind]
        refine Prog.wp_imp (secret_spec h.configured.1.1 h.configured.1.2) ?_
          (fun _ _ _ => trivial) id
        rintro - _ ⟨inn, out, hout, -, -⟩
        exact absurd (hnew.symm.trans hout) nofun
      unfold Pair.write at hp₁
      split at hp₁
      · rename_i hrun
        exact (Prog.wp_ok hwp hrun).elim
      · cases hp₁
    | some new =>
      have h' := h.write [new] [a] (by rw [List.map_singleton, hnew]; rfl) (h.change_sends hnew) hp₁
      rwa [List.append_nil] at h'
  | secret =>
    unfold Pair.exec at hexec
    dsimp only at hexec
    split at hexec
    · cases hexec
    · rename_i a rest hagreed
      split at hexec
      · cases hexec
      · rename_i hnone
        split at hexec
        · rename_i hrun
          cases hexec
          have hmap := h.agreed
          rw [hagreed, List.map_cons] at hmap
          cases news with
          | nil => cases hmap
          | cons new news =>
            obtain ⟨hnew, hmap⟩ := List.cons.inj hmap
            have hspec := @secret_spec K L a.flip p.r h.configured.2.1 h.configured.2.2
            have hsecret := Prog.wp_ok hspec hrun
            obtain ⟨inn, out, -, hinn, rfl⟩ := hsecret
            rw [flip_out, h.version.2, hnew] at hinn
            cases hinn
            have hflight := h.flight
            rw [Option.not_isSome_iff_eq_none.1 hnone] at hflight
            exact ⟨pm, ws, rs, news, d, h.packMac, h.wsec, h.rsec, hflight, hmap, h.sent, h.version,
              h.configured, h.writes, h.reads, h.pending, h.fair⟩
        · cases hexec
  | arrives bl =>
    unfold Pair.exec at hexec
    dsimp only at hexec
    split at hexec
    · rename_i hbl
      cases hexec
      refine h.reader (u := p.r.tr.unprocessed) rfl h.rsec h.flight h.agreed h.sent ?_ ?_
      · unfold Conn.pending
        rw [stream_concat, ← h.pending]
        unfold Conn.pending
        change bytes p.r.tr.unprocessed ++ (stream p.r.input ++ bytes bl) ++ _ = _
        rw [hbl.2]
        simp only [List.append_assoc, List.take_append_drop]
      · intro b hb
        rcases List.mem_append.1 hb with hb | hb
        · exact h.fair b hb
        · rw [List.mem_singleton.1 hb]
          exact hbl.1
    · cases hexec
  | interrupt =>
    cases hexec
    refine h.reader (u := p.r.tr.unprocessed) rfl h.rsec h.flight h.agreed h.sent ?_ ?_
    · unfold Conn.pending
      rw [stream_concat]
      change bytes p.r.tr.unprocessed ++ (stream p.r.input ++ []) ++ _ = _
      rw [List.append_nil]
      exact h.pending
    · intro b hb
      rcases List.mem_append.1 hb with hb | hb
      · exact h.fair b hb
      · rw [List.mem_singleton.1 hb]
        rfl
  | record =>
    have hrec := h.record hL (hdue rfl)
    unfold Pair.exec at hexec
    dsimp only at hexec
    split at hexec
    · split at hexec
      · rename_i hrun
        cases hexec
        have hlinked := Prog.wp_ok hrec hrun
        exact hlinked
      · rename_i hrun
        split at hexec
        · cases hexec
          have hlinked := Prog.wp_of_error hrec hrun
          exact hlinked.2
        · cases hexec
      · cases hexec
    · cases hexec
  | read n =>
    unfold Pair.exec at hexec
    dsimp only at hexec
    split at hexec
    · cases hexec
    · rename_i hproc
      split at hexec
      · rename_i hrun
        cases hexec
        have hlinked := Prog.wp_ok (h.read hproc n) hrun
        exact hlinked.2
      · cases hexec

theorem reach_linked (hL : L.Inverts) (h : ((pair L).restrict Pair.Good).Reach p) : p.Linked L := by
  refine Lts.Inductive.reach (S := (pair L).restrict Pair.Good) (I := Pair.Linked L)
    ⟨fun p hp => linked_init hp, ?_⟩ h
  exact fun p a p' hp hstep => exec_linked hL hp hstep.1 hstep.2

/-! ## The statement -/

/-- An end whose secrets are clear in both directions. -/
private def openend : Conn Unit :=
  let s : Conn Unit := Conn.zero
  let side : OneWay Unit := ⟨0, some ⟨.clear, .clear, false, (), []⟩, none, 1⟩
  { s with tr := { s.tr with
      c := true, version := TLSVersion, verset := true, opened := true, state := SOpen
      packMac := some .tlsPackMac, inn := side, out := side } }

private def ends : Pair Unit := ⟨openend, openend, [], [], [], [], []⟩

theorem ends_init : (pair nosec).init ends :=
  ⟨⟨⟨rfl, rfl⟩, rfl, rfl, ⟨rfl, rfl⟩, .inr rfl, rfl, ⟨rfl, rfl, rfl, rfl⟩, .inr (.inl rfl), ⟨rfl, rfl⟩,
    ⟨rfl, rfl, rfl⟩⟩, rfl, rfl, rfl, rfl, rfl⟩

private def due : List Pair.Act := [.data [], .arrives [⟨0, [23, 3, 1, 0, 0]⟩]]

end NixMark.Tls
