import NixMark.Tls.Final
import NixMark.Tls.Blocks

/-!
# A hostile peer

* `Check.Verified`, `Event.Fresh`: what is said about an accepted record.
* `Same`, `Aside`: what the calls that read no record leave alone. `Sane`: the invariant.
* `Empty`: a record of length 0 that the code cannot take. `Loop`: the states in which a call of
  `tlsbread` reads a record. `records_hostile`.
-/

namespace NixMark.Tls

open Lib State

variable {K : Type} {L : Libsec K}

/-! ## Accepted records -/

/-- The MAC that came with the record is the MAC of its number, header and data. -/
def Check.Verified (L : Libsec K) (c : Check) (b : List UInt8) : Prop :=
  L.mac c.ssl c.hashalg c.mackey (macinput c.pm c.seq c.header b) = c.mac ∧
    c.header.head? = some (UInt8.ofNat RApplication) ∧ c.header.drop 3 = put16 b.length

def Check.key (c : Check) : PackMac × Bool × Hash × List UInt8 := (c.pm, c.ssl, c.hashalg, c.mackey)

/-- Records accepted under one secret have one key and different numbers. -/
def Event.Fresh (e e' : Event) : Prop :=
  ∀ num c b c' b', e = .accepted num (some c) b → e' = .accepted num (some c') b' →
    c.key = c'.key ∧ c.seq ≠ c'.seq

def accepteddata (log : List Event) : List UInt8 :=
  log.flatMap fun
    | .accepted _ _ b => b
    | _ => []

def delivereddata (log : List Event) : List UInt8 :=
  log.flatMap fun
    | .delivered b => b
    | _ => []

/-- An event that is not about application data from the peer. -/
def Event.Idle : Event → Prop
  | .accepted _ _ _ | .delivered _ => False
  | _ => True

variable {l : List Event}

theorem accepteddata_append {l' : List Event} :
    accepteddata (l ++ l') = accepteddata l ++ accepteddata l' := List.flatMap_append

theorem delivereddata_append {l' : List Event} :
    delivereddata (l ++ l') = delivereddata l ++ delivereddata l' := List.flatMap_append

theorem accepteddata_idle (h : ∀ e ∈ l, e.Idle) : accepteddata l = [] := by
  refine List.flatMap_eq_nil_iff.2 fun e he => ?_
  cases e with
  | accepted => exact (h _ he).elim
  | _ => rfl

theorem delivereddata_idle (h : ∀ e ∈ l, e.Idle) : delivereddata l = [] := by
  refine List.flatMap_eq_nil_iff.2 fun e he => ?_
  cases e with
  | delivered => exact (h _ he).elim
  | _ => rfl

/-! ## The invariant -/

structure TlsRec.Wf (t : TlsRec K) : Prop where
  verset : t.verset = t.packMac.isSome
  mac : t.inn.sec.isSome ∨ t.inn.new.isSome ∨ t.out.sec.isSome ∨ t.out.new.isSome →
    t.packMac.isSome
  granted : t.opened → t.inn.sec.isSome

def Secret.key (sec : Secret K) (pm : PackMac) : PackMac × Bool × Hash × List UInt8 :=
  (pm, sec.ssl, sec.hashalg, sec.mackey)

structure Sane (L : Libsec K) (t : TlsRec K) (log : List Event) : Prop where
  wf : t.Wf
  verified : ∀ num c b, .accepted num c b ∈ log → ∃ check, c = some check ∧ check.Verified L b
  current : ∀ num c b, .accepted num (some c) b ∈ log → num ≤ t.inn.num ∧
    (num = t.inn.num → c.seq < t.inn.seq ∧
      ∃ sec pm, t.inn.sec = some sec ∧ t.packMac = some pm ∧ c.key = sec.key pm)
  fresh : log.Pairwise Event.Fresh
  data : accepteddata log = delivereddata log ++ bytes t.processed

def Conn.Sane (L : Libsec K) (s : Conn K) : Prop := Tls.Sane L s.tr s.log

/-- What only the reading of records changes. -/
structure Same (t t' : TlsRec K) : Prop where
  inn : t'.inn = t.inn
  packMac : t'.packMac = t.packMac
  verset : t'.verset = t.verset
  opened : t'.opened = t.opened
  processed : t'.processed = t.processed
  unprocessed : t'.unprocessed = t.unprocessed
  out : t'.out.sec.isSome ∨ t'.out.new.isSome → t.out.sec.isSome ∨ t.out.new.isSome

theorem Same.refl (t : TlsRec K) : Same t t := ⟨rfl, rfl, rfl, rfl, rfl, rfl, id⟩

variable {t t' : TlsRec K}

theorem Same.trans {t'' : TlsRec K} (h : Same t t') (h' : Same t' t'') : Same t t'' :=
  ⟨h'.inn.trans h.inn, h'.packMac.trans h.packMac, h'.verset.trans h.verset,
    h'.opened.trans h.opened, h'.processed.trans h.processed, h'.unprocessed.trans h.unprocessed,
    h.out ∘ h'.out⟩

structure Aside (s s' : Conn K) : Prop where
  same : Same s.tr s'.tr
  input : s'.input = s.input
  log : ∃ l, s'.log = s.log ++ l ∧ ∀ e ∈ l, e.Idle

theorem Aside.refl (s : Conn K) : Aside s s :=
  ⟨Same.refl _, rfl, [], (List.append_nil _).symm, fun _ he => nomatch he⟩

theorem TlsRec.Wf.same (h : t.Wf) (hs : Same t t') : t'.Wf where
  verset := by rw [hs.verset, hs.packMac, h.verset]
  mac hsec := by
    rw [hs.packMac]
    rw [hs.inn] at hsec
    exact h.mac (hsec.imp id (Or.imp id hs.out))
  granted ho := by
    rw [hs.inn]
    exact h.granted (hs.opened ▸ ho)

/-- Events of another kind change nothing. -/
theorem Sane.idle {log : List Event} (h : Sane L t log) (hl : ∀ e ∈ l, e.Idle) :
    Sane L t (log ++ l) := by
  have hmem : ∀ {num c b}, Event.accepted num c b ∈ log ++ l → .accepted num c b ∈ log := by
    intro num c b he
    rcases List.mem_append.1 he with he | he
    · exact he
    · exact (hl _ he).elim
  refine ⟨h.wf, fun num c b he => h.verified num c b (hmem he),
    fun num c b he => h.current num c b (hmem he), ?_, ?_⟩
  · rw [List.pairwise_append]
    refine ⟨h.fresh, List.pairwise_of_forall_mem_list fun e he e' he' => ?_, fun e he e' he' => ?_⟩
    · rintro num c b c' b' rfl
      exact (hl _ he).elim
    · rintro num c b c' b' - rfl
      exact (hl _ he').elim
  · rw [accepteddata_append, delivereddata_append, accepteddata_idle hl, delivereddata_idle hl,
      List.append_nil, List.append_nil]
    exact h.data

theorem Sane.same {log : List Event} (h : Sane L t log) (hs : Same t t') : Sane L t' log where
  wf := h.wf.same hs
  verified := h.verified
  current := by
    rw [hs.inn, hs.packMac]
    exact h.current
  fresh := h.fresh
  data := by
    rw [hs.processed]
    exact h.data

variable {s : Conn K}

theorem Conn.Sane.aside {s' : Conn K} (h : s.Sane L) (hs : Aside s s') : s'.Sane L := by
  obtain ⟨l, hlog, hl⟩ := hs.log
  unfold Conn.Sane
  rw [hlog]
  exact (Tls.Sane.same h hs.same).idle hl

/-! ## What reads no record -/

variable {s₀ : Conn K} {F : Prop}

theorem update_aside {f : TlsRec K → TlsRec K} (h : ∀ t, Same t (f t)) :
    Prog.Keeps (Aside s₀) (update f) F := fun s hs => ⟨hs.same.trans (h s.tr), hs.input, hs.log⟩

theorem note_aside {e : Event} (he : e.Idle) : Prog.Keeps (Aside s₀) (note e) F := by
  rintro s ⟨hsame, hinput, l, hlog, hl⟩
  refine ⟨hsame, hinput, l ++ [e], ?_, fun e' he' => ?_⟩
  · rw [← List.append_assoc, ← hlog]
  · rcases List.mem_append.1 he' with he' | he'
    · exact hl _ he'
    · rw [List.mem_singleton.1 he']
      exact he

variable {msg : String}

theorem alertHand_aside : Prog.Keeps (Aside s₀) (alertHand msg) F :=
  update_aside fun _ => ⟨rfl, rfl, rfl, rfl, rfl, rfl, id⟩

theorem tlsclosed_aside {new : State} : Prog.Keeps (Aside s₀) (tlsclosed new) F :=
  Prog.Keeps.bind (update_aside fun _ => ⟨rfl, rfl, rfl, rfl, rfl, rfl, id⟩) fun _ => alertHand_aside

theorem tlsSetState_aside {new : State} {old : List State} :
    Prog.Keeps (Aside s₀) (tlsSetState new old) F := by
  refine update_aside fun t => ?_
  split
  · exact ⟨rfl, rfl, rfl, rfl, rfl, rfl, id⟩
  · exact Same.refl t

theorem tlsError_aside : Prog.Keeps (Aside s₀) (tlsError msg) F := by
  refine Prog.Keeps.get.bind fun s => Prog.Keeps.ite ?_ .pure
  refine Prog.Keeps.bind (update_aside fun _ => ?_) fun _ => alertHand_aside
  exact ⟨rfl, rfl, rfl, rfl, rfl, rfl, id⟩

theorem checkstate_aside {ishand : Bool} {ok : List State} :
    Prog.Keeps (Aside s₀) (checkstate ishand ok) F := by
  intro s hs
  refine Prog.wp_imp checkstate_spec ?_ ?_ False.elim
  · rintro - _ ⟨rfl, -⟩
    exact hs
  · rintro - _ ⟨rfl, -⟩
    exact hs

variable {type : Nat}

theorem protect_aside (h₀ : s₀.tr.Wf) {piece : List UInt8} {copied : Bool} :
    Prog.Keeps (Aside s₀) (protect L type piece copied) F := by
  intro s hs
  unfold protect
  rw [Prog.wp_bind, wp_tr]
  dsimp only
  split
  · exact hs
  · rename_i sec hsec
    have hout : s.tr.out.sec.isSome := hsec ▸ rfl
    have hpm := (h₀.same hs.same).mac (.inr (.inr (.inl hout)))
    split
    · rename_i hnone
      rw [hnone] at hpm
      cases hpm
    · rw [Prog.wp_bind, wp_update]
      exact ⟨hs.same.trans ⟨rfl, rfl, rfl, rfl, rfl, rfl, fun _ => .inl hout⟩, hs.input, hs.log⟩

theorem changeout_aside : Prog.Keeps (Aside s₀) (changeout type) F := by
  intro s hs
  unfold changeout
  rw [Prog.wp_bind, wp_tr]
  split
  · split
    · exact hs
    · rename_i hnew
      rw [Bool.not_eq_true, Option.isNone_eq_false_iff] at hnew
      exact ⟨hs.same.trans ⟨rfl, rfl, rfl, rfl, rfl, rfl, fun _ => .inr hnew⟩, hs.input, hs.log⟩
  · exact hs

variable {b : List UInt8}

theorem bwrite_aside {nb : List UInt8} : Prog.Keeps (Aside s₀) (bwrite type b nb) F := by
  refine Prog.Keeps.get.bind fun s => Prog.Keeps.bind ?_ fun _ => Prog.Keeps.bind ?_ fun _ => ?_
  · exact fun s hs => ⟨hs.same, hs.input, hs.log⟩
  · exact note_aside trivial
  · split
    · exact .pure
    · exact .error

theorem writerec_aside (h₀ : s₀.tr.Wf) {piece : List UInt8} {copied : Bool} :
    Prog.Keeps (Aside s₀) (writerec L type piece copied) F := by
  refine checkstate_aside.bind fun _ => (protect_aside h₀).bind fun nb => changeout_aside.bind fun _ => ?_
  exact bwrite_aside.handle fun e => tlsError_aside.whenever.bind fun _ => .error

theorem tlsrecwrite_aside (h₀ : s₀.tr.Wf) : Prog.Keeps (Aside s₀) (tlsrecwrite L type b) := by
  unfold tlsrecwrite
  generalize b.length / MaxRecLen + 1 = fuel
  induction fuel generalizing b with
  | zero => exact .fault
  | succ fuel ih =>
    unfold tlsrecwrite.go
    exact Prog.Keeps.ite ((writerec_aside h₀).bind fun _ => ih) (writerec_aside h₀)

theorem sendAlert_aside (h₀ : s₀.tr.Wf) {err : Int} :
    Prog.Keeps (Aside s₀) (sendAlert L err) F := by
  refine Prog.Keeps.get.bind fun s => Prog.Keeps.bind (Prog.Keeps.handle ?_ fun _ => .pure)
    fun _ => tlsError_aside.whenever
  refine tlsSetState_aside.whenever.bind fun _ => ?_
  rw [tlsrecwrite_alert (by rw [alertbytes_length]; decide)]
  exact writerec_aside h₀

variable {α : Type}

theorem rcvError_fails (h₀ : s₀.tr.Wf) {err : Nat} {Q : α → Conn K → Prop} (hs : Aside s₀ s) :
    Prog.wp (rcvError L err msg : Op K α) Q (fun _ => Aside s₀) F s := by
  unfold rcvError
  rw [Prog.wp_bind]
  refine Prog.wp_imp (sendAlert_aside h₀ s hs) (fun _ s₁ hs₁ => ?_) (fun _ _ h => h) id
  rw [Prog.wp_bind, wp_tr]
  split <;> exact hs₁

theorem rcvAlert_fails {desc : UInt8} {Q : α → Conn K → Prop} (hs : Aside s₀ s) :
    Prog.wp (rcvAlert desc : Op K α) Q (fun _ => Aside s₀) F s := by
  unfold rcvAlert
  rw [Prog.wp_bind]
  refine Prog.wp_imp (tlsError_aside s hs) (fun _ s₁ hs₁ => ?_) (fun _ _ h => h) id
  rw [Prog.wp_bind, wp_tr]
  split <;> exact hs₁

theorem handshake_aside (h₀ : s₀.tr.Wf) : Prog.Keeps (Aside s₀) (handshake L b) F := by
  refine Prog.Keeps.get.bind fun s => ?_
  split
  · exact update_aside fun t => ⟨rfl, rfl, rfl, rfl, rfl, rfl, id⟩
  · exact ((sendAlert_aside h₀).handle fun _ => .pure).whenever

/-! ## A record -/

/-- The cipher works on whole blocks. -/
def TlsRec.blocked (t : TlsRec K) : Prop := ∃ sec, t.inn.sec = some sec ∧ sec.encalg.block ≠ 0

/-- The next record has the length 0, and nothing more is buffered or a block cipher is in force. -/
def Empty (s : Conn K) : Prop :=
  let r := fetch RecHdrLen s.input s.tr.unprocessed
  let q := consume r.2.2 RecHdrLen
  r.1 = none ∧ ¬ (s.tr.handin = 0 ∧ q.1.getD 0 0 &&& 0x80 ≠ 0) ∧
    (get16 (q.1.drop 1) = s.tr.version ∨ s.tr.verset = false ∧
      MinProtoVersion ≤ get16 (q.1.drop 1) ∧ get16 (q.1.drop 1) ≤ MaxProtoVersion) ∧
    get16 (q.1.drop 3) = 0 ∧ (q.2 = [] ∨ s.tr.blocked)

/-- The last number that a secret has for its records. -/
def Spent (s : Conn K) : Prop := s.tr.inn.seq = 0xffffffff

/-- The blocks of the channel and of the buffer are others. -/
def Conn.moved (s : Conn K) (i : List Bread) (u : List Block) : Conn K :=
  { s with input := i, tr := { s.tr with unprocessed := u } }

theorem Conn.Sane.moved (h : s.Sane L) (i : List Bread) (u : List Block) : (s.moved i u).Sane L :=
  ⟨⟨h.wf.verset, h.wf.mac, h.wf.granted⟩, h.verified, h.current, h.fresh, h.data⟩

variable {n : Nat}

theorem ensure_spec :
    Prog.wp (ensure n)
      (fun _ s' => ∃ i u, s' = s.moved i u ∧ fetch n s.input s.tr.unprocessed = (none, i, u))
      (fun _ s' => ∃ i u, s' = s.moved i u) F s := by
  unfold ensure
  simp only [Prog.wp_bind, Prog.wp_get, Prog.wp_modify]
  split
  · rename_i hr
    exact ⟨_, _, rfl, Prod.ext hr rfl⟩
  · exact ⟨_, _, rfl⟩

variable {header : List UInt8}

theorem parsehead_spec (h₀ : s₀.tr.Wf) (hs : Aside s₀ s) :
    Prog.wp (parsehead L header)
      (fun h s' => s' = s ∧ (h.type = RApplication → header.getD 0 0 = UInt8.ofNat RApplication) ∧
        (h.len = 0 → ¬ (s.tr.handin = 0 ∧ header.getD 0 0 &&& 0x80 ≠ 0) ∧
          h.ver = get16 (header.drop 1) ∧ get16 (header.drop 3) = 0))
      (fun _ s' => Aside s₀ s') F s := by
  unfold parsehead
  rw [Prog.wp_bind, wp_tr]
  split
  · dsimp only
    split
    · exact rcvError_fails h₀ hs
    · rename_i hhello
      rw [not_or, Classical.not_not] at hhello
      refine ⟨rfl, fun htype => ?_, fun hlen => ?_⟩
      · exact absurd (hhello.1.symm.trans htype) (by decide)
      · dsimp only at hlen
        rw [hlen] at hhello
        exact absurd hhello.2 (by decide)
  · rename_i hssl
    refine ⟨rfl, fun htype => ?_, fun hlen => ⟨hssl, rfl, ?_⟩⟩
    · exact UInt8.toNat_inj.1 htype
    · exact Int.ofNat_eq_zero.1 hlen

theorem readhead_spec (h₀ : s.tr.Wf) :
    Prog.wp (readhead L header)
      (fun h s' => ∃ i u, s' = s.moved i u ∧
        fetch h.len.toNat s.input s.tr.unprocessed = (none, i, u) ∧
        (h.type = RApplication → header.getD 0 0 = UInt8.ofNat RApplication) ∧
        (h.len.toNat = 0 → ¬ (s.tr.handin = 0 ∧ header.getD 0 0 &&& 0x80 ≠ 0) ∧
          (get16 (header.drop 1) = s.tr.version ∨ s.tr.verset = false ∧
            MinProtoVersion ≤ get16 (header.drop 1) ∧ get16 (header.drop 1) ≤ MaxProtoVersion) ∧
          get16 (header.drop 3) = 0))
      (fun _ s' => ∃ i u, Aside (s.moved i u) s') F s := by
  have herror : ∀ (e : String) (s' : Conn K), Aside s s' → ∃ i u, Aside (s.moved i u) s' :=
    fun _ _ hs => ⟨s.input, s.tr.unprocessed, hs⟩
  unfold readhead
  rw [Prog.wp_bind]
  refine Prog.wp_imp (parsehead_spec h₀ (Aside.refl s)) (fun h s₁ hs₁ => ?_) herror id
  obtain ⟨rfl, htype, hlen⟩ := hs₁
  rw [Prog.wp_bind, wp_tr]
  split
  · exact Prog.wp_imp (rcvError_fails h₀ (Aside.refl _)) (fun _ _ h => h) herror id
  · rename_i hver
    split
    · exact Prog.wp_imp (rcvError_fails h₀ (Aside.refl _)) (fun _ _ h => h) herror id
    · rename_i hbound
      rw [Prog.wp_bind]
      refine Prog.wp_imp ensure_spec ?_ ?_ id
      · rintro - s₂ ⟨i, u, rfl, hf⟩
        refine ⟨i, u, rfl, hf, htype, fun hzero => ?_⟩
        have hzero : h.len = 0 := by omega
        obtain ⟨hssl, hv, hget⟩ := hlen hzero
        rw [hv] at hver
        refine ⟨hssl, ?_, hget⟩
        rw [Classical.not_and_iff_not_or_not, Classical.not_not, not_or, not_or] at hver
        refine hver.imp id fun h => ⟨?_, ?_, ?_⟩
        · exact Bool.eq_false_iff.2 h.1
        · exact Nat.not_lt.1 h.2.1
        · exact Nat.not_lt.1 h.2.2
      · rintro - s₂ ⟨i, u, rfl⟩
        exact ⟨i, u, Aside.refl _⟩

variable {buf : List UInt8}

theorem unpad_none {ssl : Bool} {block : Nat} : unpad ssl buf block = none ↔ buf = [] := by
  unfold unpad
  split
  · rename_i h
    simp [List.getLast?_eq_none_iff.1 h]
  · rename_i pad h
    have hne : buf ≠ [] := by
      rintro rfl
      cases h
    simp only [hne, iff_false]
    split
    · exact nofun
    · split <;> exact nofun

theorem unpad_le {ssl : Bool} {block : Nat} {n : Int} (h : unpad ssl buf block = some n) :
    n ≤ buf.length := by
  unfold unpad at h
  split at h
  · cases h
  · dsimp only at h
    split at h
    · cases h
      omega
    · split at h
      · cases h
        omega
      · cases h
        omega

variable {sec : Secret K}

theorem dec_none (h : sec.dec L buf = none) : buf = [] ∧ sec.encalg.block ≠ 0 := by
  unfold Secret.dec at h
  cases henc : sec.encalg <;> rw [henc] at h
  case clear => cases h
  case rc4_128 => cases h
  all_goals
    dsimp only at h
    rw [Option.map_eq_none_iff, unpad_none, ← List.length_eq_zero_iff, L.decrypt_length,
      List.length_eq_zero_iff] at h
    exact ⟨h, by decide⟩

theorem dec_empty (h : sec.encalg.block ≠ 0) : sec.dec L [] = none := by
  unfold Secret.dec
  cases henc : sec.encalg <;> rw [henc] at h
  case clear => exact absurd rfl h
  case rc4_128 => exact absurd rfl h
  all_goals
    dsimp only
    rw [Option.map_eq_none_iff, unpad_none, ← List.length_eq_zero_iff, L.decrypt_length]
    rfl

/-- A secret keeps its hash. -/
theorem dec_some {sec' : Secret K} {n : Int} (h : sec.dec L buf = some (n, b, sec')) :
    (∀ pm, sec'.key pm = sec.key pm) ∧ n ≤ buf.length ∧ b.length = buf.length := by
  unfold Secret.dec at h
  cases henc : sec.encalg <;> rw [henc] at h
  case clear =>
    cases h
    exact ⟨fun _ => rfl, Int.le_refl _, rfl⟩
  case rc4_128 =>
    cases h
    exact ⟨fun _ => rfl, Int.le_refl _, L.encrypt_length ..⟩
  all_goals
    dsimp only at h
    rw [Option.map_eq_some_iff] at h
    obtain ⟨n', hn, h⟩ := h
    cases h
    have hle := unpad_le hn
    rw [L.decrypt_length] at hle
    exact ⟨fun _ => rfl, hle, L.decrypt_length ..⟩

/-- The state after a record under the secret. -/
def Conn.counted (s : Conn K) (sec : Secret K) : Conn K :=
  { s with tr := { s.tr with inn := { s.tr.inn with seq := s.tr.inn.seq + 1, sec := some sec } } }

theorem seq_lt (hs : ¬ Spent s) {seq : UInt32} (h : seq ≤ s.tr.inn.seq) :
    seq < s.tr.inn.seq + 1 := by
  unfold Spent at hs
  rw [← UInt32.toNat_inj] at hs
  rw [UInt32.lt_iff_toNat_lt, UInt32.toNat_add]
  rw [UInt32.le_iff_toNat_le] at h
  have := s.tr.inn.seq.toNat_lt
  simp at hs ⊢
  omega

theorem Conn.Sane.counted (h : s.Sane L) {sec' : Secret K} (hsec : s.tr.inn.sec = some sec)
    (hkey : ∀ pm, sec'.key pm = sec.key pm) (hs : ¬ Spent s) :
    (s.counted sec').Sane L where
  wf := by
    refine ⟨h.wf.verset, fun _ => h.wf.mac (.inl (hsec ▸ rfl)), fun _ => rfl⟩
  verified := h.verified
  current num c b he := by
    obtain ⟨hnum, hcur⟩ := h.current num c b he
    refine ⟨hnum, fun heq => ?_⟩
    obtain ⟨hseq, sec₁, pm, hsec₁, hpm, hk⟩ := hcur heq
    cases hsec.symm.trans hsec₁
    exact ⟨seq_lt hs (UInt32.le_of_lt hseq), sec', pm, rfl, hpm, hk.trans (hkey pm).symm⟩
  fresh := h.fresh
  data := h.data

/-- What is known of a record before its type is looked at. -/
def Ready (L : Libsec K) (s : Conn K) (header : List UInt8) (check : Option Check)
    (b : List UInt8) : Prop :=
  (s.tr.inn.sec = none ∧ check = none) ∨
  ∃ c sec pm, check = some c ∧ s.tr.inn.sec = some sec ∧ s.tr.packMac = some pm ∧
    c.key = sec.key pm ∧ c.seq < s.tr.inn.seq ∧
    (∀ c' b', Event.accepted s.tr.inn.num (some c') b' ∈ s.log → c'.seq < c.seq) ∧
    L.mac c.ssl c.hashalg c.mackey (macinput c.pm c.seq c.header b) = c.mac ∧
    c.header = header.take 3 ++ put16 b.length

variable {p : List UInt8}

theorem unprotect_spec (h : s.Sane L) (hs : ¬ Spent s) :
    Prog.wp (unprotect L header p)
      (fun r s' => s'.Sane L ∧ Ready L s' header r.1 r.2 ∧ s'.tr.processed = s.tr.processed ∧
        s'.tr.opened = s.tr.opened ∧ s'.tr.unprocessed = s.tr.unprocessed ∧ s'.input = s.input)
      (fun _ s' => s'.Sane L) (p = [] ∧ s.tr.blocked) s := by
  unfold unprotect
  rw [Prog.wp_bind, wp_tr]
  dsimp only
  split
  · rename_i hnone
    exact ⟨h, .inl ⟨hnone, rfl⟩, rfl, rfl, rfl, rfl⟩
  · rename_i sec hsec
    split
    · rename_i hdec
      obtain ⟨hp, hblock⟩ := dec_none hdec
      exact ⟨hp, sec, hsec, hblock⟩
    · rename_i unpad_len buf sec' hdec
      obtain ⟨hkey, hle, hbuf⟩ := dec_some hdec
      have h' : (s.counted sec').Sane L := h.counted hsec hkey hs
      split
      · rename_i hpm
        have hsome := h.wf.mac (.inl (hsec ▸ rfl))
        rw [hpm] at hsome
        cases hsome
      · rename_i pm hpm
        generalize hlen : (if (sec.maclen : Int) ≤ unpad_len then (unpad_len - sec.maclen).toNat
          else p.length) = len
        rw [Prog.wp_bind, wp_update]
        split
        · refine Prog.wp_imp (rcvError_fails h'.wf (Aside.refl (s.counted sec'))) (fun _ _ h => h)
            (fun _ _ hs' => h'.aside hs') id
        · rename_i hmac
          rw [if_pos (Int.not_lt.1 hmac)] at hlen
          split
          · omega
          · split
            · refine Prog.wp_imp (rcvError_fails h'.wf (Aside.refl (s.counted sec')))
                (fun _ _ h => h) (fun _ _ hs' => h'.aside hs') id
            · rename_i hfits heq
              have heq := Classical.not_not.1 heq
              refine ⟨h', .inr ⟨_, sec', pm, rfl, rfl, hpm, (hkey pm).symm, ?_, ?_, heq, ?_⟩,
                rfl, rfl, rfl, rfl⟩
              · exact seq_lt hs (UInt32.le_refl _)
              · intro c' b' he
                exact ((h.current _ c' b' he).2 rfl).1
              · dsimp only
                rw [List.length_take, hbuf, Nat.min_eq_left (by omega)]

theorem Conn.Sane.accept {check : Option Check} (hs : s.Sane L) (hready : Ready L s header check p)
    (hlen : 3 ≤ header.length) (hhead : header.getD 0 0 = UInt8.ofNat RApplication)
    (hopened : s.tr.opened = true) (hproc : s.tr.processed = []) :
    Tls.Sane L { s.tr with processed := [⟨Hdrspc, p⟩] }
      (s.log ++ [.accepted s.tr.inn.num check p]) := by
  obtain ⟨hnone, -⟩ | ⟨c, sec, pm, rfl, hsec, hpm, hkey, hseq, hlast, hmac, hheader⟩ := hready
  · have hsome := hs.wf.granted hopened
    rw [hnone] at hsome
    cases hsome
  have hverified : c.Verified L p := by
    refine ⟨hmac, ?_, ?_⟩
    · rw [hheader, List.head?_append_of_ne_nil]
      · cases header with
        | nil => cases hlen
        | cons x header => exact congrArg some hhead
      · intro hnil
        have := congrArg List.length hnil
        rw [List.length_take, List.length_nil] at this
        omega
    · rw [hheader, List.drop_left']
      rw [List.length_take]
      omega
  refine ⟨⟨hs.wf.verset, hs.wf.mac, hs.wf.granted⟩, fun num c' b he => ?_, fun num c' b he => ?_, ?_, ?_⟩
  · rcases List.mem_append.1 he with he | he
    · exact hs.verified num c' b he
    · cases List.mem_singleton.1 he
      exact ⟨c, rfl, hverified⟩
  · rcases List.mem_append.1 he with he | he
    · exact hs.current num c' b he
    · cases List.mem_singleton.1 he
      exact ⟨Nat.le_refl _, fun _ => ⟨hseq, sec, pm, hsec, hpm, hkey⟩⟩
  · rw [List.pairwise_append]
    refine ⟨hs.fresh, List.pairwise_singleton _ _, fun e he e' he' => ?_⟩
    rw [List.mem_singleton] at he'
    subst he'
    rintro num c₁ b₁ c₂ b₂ rfl he₂
    cases he₂
    obtain ⟨-, sec₁, pm₁, hsec₁, hpm₁, hkey₁⟩ := (hs.current _ _ _ he).2 rfl
    cases hsec.symm.trans hsec₁
    cases hpm.symm.trans hpm₁
    exact ⟨hkey₁.trans hkey.symm, UInt32.ne_of_lt (hlast _ _ he)⟩
  · have hdata := hs.data
    rw [hproc, bytes_nil, List.append_nil] at hdata
    rw [accepteddata_append, delivereddata_append, hdata]
    simp [accepteddata, delivereddata]

theorem dispatch_safe {h : Head} {check : Option Check} (hs : s.Sane L)
    (hready : Ready L s header check p) (hlen : 3 ≤ header.length)
    (htype : h.type = RApplication → header.getD 0 0 = UInt8.ofNat RApplication)
    (hproc : s.tr.opened → s.tr.processed = []) :
    Prog.wp (dispatch L h check p)
      (fun _ s' => s'.Sane L ∧ s'.tr.unprocessed = s.tr.unprocessed ∧ s'.input = s.input)
      (fun _ s' => s'.Sane L) F s := by
  have aside : ∀ {s₁ : Conn K} {x : Op K Unit}, Aside s s₁ → Prog.Keeps (Aside s) x F →
      Prog.wp x (fun _ s' => s'.Sane L ∧ s'.tr.unprocessed = s.tr.unprocessed ∧ s'.input = s.input)
        (fun _ s' => s'.Sane L) F s₁ := fun hs₁ hx =>
    Prog.wp_imp (hx _ hs₁) (fun _ _ h => ⟨hs.aside h, h.same.unprocessed, h.input⟩)
      (fun _ _ h => hs.aside h) id
  have fails : ∀ {s₁ : Conn K} {err : Nat} {msg : String}, Aside s s₁ →
      Prog.wp (rcvError L err msg : Op K Unit)
        (fun _ s' => s'.Sane L ∧ s'.tr.unprocessed = s.tr.unprocessed ∧ s'.input = s.input)
        (fun _ s' => s'.Sane L) F s₁ := fun hs₁ =>
    Prog.wp_imp (rcvError_fails hs.wf hs₁) (fun _ _ h => h) (fun _ _ h => hs.aside h) id
  have hself := Aside.refl s
  unfold dispatch
  rw [Prog.wp_bind, wp_tr]
  split
  · split
    · exact fails hself
    · split
      · exact fails hself
      · rename_i hnew
        rw [Bool.not_eq_true, Option.isNone_eq_false_iff] at hnew
        refine ⟨⟨⟨hs.wf.verset, fun _ => hs.wf.mac (.inr (.inl hnew)), fun _ => hnew⟩, hs.verified,
          fun num c b he => ?_, hs.fresh, hs.data⟩, rfl, rfl⟩
        have hnum := (hs.current num c b he).1
        exact ⟨Nat.le_succ_of_le hnum, fun heq => absurd (heq ▸ hnum) (Nat.not_succ_le_self _)⟩
  · split
    · split
      · rename_i level desc
        rw [Prog.wp_bind, wp_note]
        have hnote := note_aside (F := False) (e := .alert level desc) trivial s hself
        rw [wp_note] at hnote
        split
        · exact Prog.wp_imp (rcvAlert_fails hnote) (fun _ _ h => h) (fun _ _ h => hs.aside h) id
        · split
          · exact fails hnote
          · split
            · refine aside hnote (tlsclosed_aside.bind fun _ => ?_)
              exact Prog.Keeps.ite .error .error
            · split
              · exact aside hnote alertHand_aside
              · split
                · exact aside hnote alertHand_aside
                · exact fails hnote
      · exact fails hself
    · split
      · exact aside hself (handshake_aside hs.wf)
      · split
        · exact aside hself (handshake_aside hs.wf)
        · split
          · split
            · exact fails hself
            · rename_i htype' hopened
              rw [Prog.wp_whenever]
              refine ⟨fun _ => ?_, fun _ => ⟨hs, rfl, rfl⟩⟩
              rw [Prog.wp_bind, wp_update, wp_note]
              rw [Bool.not_eq_true, Bool.not_eq_false'] at hopened
              exact ⟨hs.accept hready hlen (htype htype') hopened (hproc hopened), rfl, rfl⟩
          · exact fails hself

theorem tlsrecread_safe (hs : s.Sane L) (hspent : ¬ Spent s)
    (hproc : s.tr.opened → s.tr.processed = []) :
    Prog.wp (tlsrecread L)
      (fun _ s' => s'.Sane L ∧ s'.pending.length + RecHdrLen ≤ s.pending.length)
      (fun _ s' => s'.Sane L) (Empty s) s := by
  have herror : ∀ {α : Type} {Q : α → Conn K → Prop} (e : String) (s' : Conn K), s'.Sane L →
      Prog.wp (do tlsError "channel error"; error e : Op K α) Q (fun _ s' => s'.Sane L) (Empty s)
        s' := by
    intro α Q e s' hs'
    rw [Prog.wp_bind]
    exact Prog.wp_imp (tlsError_aside s' (Aside.refl s')) (fun _ _ h => hs'.aside h)
      (fun _ _ h => hs'.aside h) id
  unfold tlsrecread
  rw [Prog.wp_bind, Prog.wp_handle]
  refine Prog.wp_imp ensure_spec ?_ ?_ id
  · rintro - s₁ ⟨i, u, rfl, hfetch⟩
    have hbytes := fetch_bytes hfetch
    have henough := fetch_enough hfetch
    rw [Prog.wp_bind, wp_tr, Prog.wp_bind, wp_update, Prog.wp_bind, Prog.wp_handle]
    have hheader : (consume u RecHdrLen).1.length = RecHdrLen := by
      rw [consume_fst, List.length_take, Nat.min_eq_left henough]
    have hthree : 3 ≤ (consume u RecHdrLen).1.length := by
      rw [hheader]
      decide
    have hrest : (bytes (consume u RecHdrLen).2).length + RecHdrLen = (bytes u).length := by
      rw [consume_snd, List.length_drop]
      omega
    have hempty : ∀ h : Head, h.len.toNat = 0 →
        (h.len.toNat = 0 → ¬ (s.tr.handin = 0 ∧ (consume u RecHdrLen).1.getD 0 0 &&& 0x80 ≠ 0) ∧
          (get16 ((consume u RecHdrLen).1.drop 1) = s.tr.version ∨ s.tr.verset = false ∧
            MinProtoVersion ≤ get16 ((consume u RecHdrLen).1.drop 1) ∧
            get16 ((consume u RecHdrLen).1.drop 1) ≤ MaxProtoVersion) ∧
          get16 ((consume u RecHdrLen).1.drop 3) = 0) →
        ((consume u RecHdrLen).2 = [] ∨ s.tr.blocked) → Empty s := by
      intro h hzero hhead hcase
      obtain ⟨hssl, hver, hget⟩ := hhead hzero
      unfold Empty
      rw [hfetch]
      exact ⟨rfl, hssl, hver, hget, hcase⟩
    have hs₂ : (s.moved i (consume u RecHdrLen).2).Sane L := hs.moved _ _
    refine Prog.wp_imp (readhead_spec hs₂.wf) ?_ ?_ id
    · rintro h s₃ ⟨i', u', rfl, hfetch', htype, hhead⟩
      have hbytes' : bytes u' ++ stream i' = bytes (consume u RecHdrLen).2 ++ stream i :=
        fetch_bytes hfetch'
      have henough' := fetch_enough hfetch'
      rw [Prog.wp_handle, Prog.wp_bind]
      unfold grab
      rw [Prog.wp_bind, wp_tr]
      split
      · rename_i hgrab
        have hnil : u' = [] := qgrab_none.1 hgrab
        rw [hnil] at henough'
        have hzero : h.len.toNat = 0 := Nat.le_zero.1 henough'
        rw [hzero, fetch_zero] at hfetch'
        cases hfetch'
        exact hempty h hzero hhead (.inl hnil)
      · rename_i b l hgrab
        obtain ⟨hb, hl⟩ : b.data = (bytes u').take h.len.toNat ∧ bytes l = (bytes u').drop h.len.toNat :=
          qgrab_some hgrab
        rw [Prog.wp_bind, wp_update, Prog.wp_pure, Prog.wp_bind]
        have hs₄ : (s.moved i' l).Sane L := hs.moved _ _
        refine Prog.wp_imp (unprotect_spec hs₄ hspent) ?_ herror ?_
        · rintro ⟨check, p⟩ s₅ ⟨hs₅, hready, hp, ho, hu, hi⟩
          refine Prog.wp_imp (dispatch_safe hs₅ hready hthree htype ?_) ?_ herror id
          · rw [hp, ho]
            exact hproc
          · rintro - s₆ ⟨hs₆, hu₆, hi₆⟩
            refine ⟨hs₆, ?_⟩
            have hlen := congrArg List.length hbytes
            have hlen' := congrArg List.length hbytes'
            have hlen'' := congrArg List.length hl
            have hpending : s₆.pending = bytes l ++ stream i' := by
              unfold Conn.pending
              rw [hu₆, hu, hi₆, hi]
              rfl
            rw [hpending]
            unfold Conn.pending
            simp only [List.length_append, List.length_drop] at hlen hlen' hlen'' ⊢
            omega
        · rintro ⟨hnil, hblocked⟩
          have hzero : h.len.toNat = 0 := by
            have hlen := congrArg List.length (hb.symm.trans hnil)
            rw [List.length_take, Nat.min_eq_left henough'] at hlen
            exact hlen
          rw [hzero, fetch_zero] at hfetch'
          exact hempty h hzero hhead (.inr hblocked)
    · rintro e s₃ ⟨i', u', haside⟩
      have hs₃ : s₃.Sane L := (hs₂.moved i' u').aside haside
      split
      · exact hs₃.moved s₃.input _
      · exact herror e s₃ hs₃
  · rintro e s₁ ⟨i, u, rfl⟩
    rw [Prog.wp_bind, Prog.wp_whenever]
    have hs₁ : (s.moved i u).Sane L := hs.moved i u
    refine ⟨fun _ => ?_, fun _ => hs₁⟩
    exact Prog.wp_imp (tlsError_aside _ (Aside.refl (s.moved i u))) (fun _ _ h => hs₁.aside h)
      (fun _ _ h => hs₁.aside h) id

theorem wp_ensure {i : List Bread} {u : List Block}
    (h : fetch n s.input s.tr.unprocessed = (none, i, u)) {Q : Unit → Conn K → Prop}
    {E : String → Conn K → Prop} : Prog.wp (ensure n) Q E F s ↔ Q () (s.moved i u) := by
  unfold ensure
  simp only [Prog.wp_bind, Prog.wp_get, Prog.wp_modify]
  rw [h]
  exact Iff.rfl

/-- The code does fault on such a record. -/
theorem empty_faults (h : Empty s) : tlsrecread L s = .fault := by
  have hwp : Prog.wp (tlsrecread L) (fun _ _ => False) (fun _ _ => False) True s := by
    obtain ⟨hfetch, hssl, hver, hget, hcase⟩ := h
    generalize hr : fetch RecHdrLen s.input s.tr.unprocessed = r at hfetch hssl hver hget hcase
    obtain ⟨e, i, u⟩ := r
    cases hfetch
    unfold tlsrecread
    rw [Prog.wp_bind, Prog.wp_handle, wp_ensure hr, Prog.wp_bind, wp_tr, Prog.wp_bind, wp_update,
      Prog.wp_bind, Prog.wp_handle]
    unfold readhead parsehead
    rw [Prog.wp_bind, Prog.wp_bind, wp_tr]
    split
    · rename_i h
      exact absurd h hssl
    rw [Prog.wp_pure, Prog.wp_bind, wp_tr]
    split
    · rename_i h
      rcases hver with hver | ⟨hset, hmin, hmax⟩
      · exact absurd hver h.1
      · rcases h.2 with h | h | h
        · exact absurd (hset.symm.trans h) Bool.false_ne_true
        · exact absurd hmin (Nat.not_le.2 h)
        · exact absurd hmax (Nat.not_le.2 h)
    have hzero : ((get16 ((consume u RecHdrLen).1.drop 3) : Nat) : Int) = 0 := by
      rw [hget]
      rfl
    have hfetch : fetch ((get16 ((consume u RecHdrLen).1.drop 3) : Nat) : Int).toNat i
        (consume u RecHdrLen).2 = (none, i, (consume u RecHdrLen).2) := by
      rw [hzero]
      exact fetch_zero
    split
    · rename_i h
      rcases h with h | h
      · exact absurd (hzero ▸ h : (MaxCipherRecLen : Int) < 0) (by decide)
      · exact absurd (hzero ▸ h : (0 : Int) < 0) (by decide)
    rw [Prog.wp_bind, wp_ensure hfetch, Prog.wp_pure, Prog.wp_handle, Prog.wp_bind]
    unfold grab
    rw [Prog.wp_bind, wp_tr]
    split
    · trivial
    · rename_i b l hgrab
      have hgrab : qgrab (consume u RecHdrLen).2
          ((get16 ((consume u RecHdrLen).1.drop 3) : Nat) : Int).toNat = some (b, l) := hgrab
      have hdata : b.data = [] := by
        rw [(qgrab_some hgrab).1, hzero]
        rfl
      obtain ⟨sec, hsec, hblock⟩ := hcase.resolve_left fun hnil => by
        rw [hnil] at hgrab
        cases hgrab
      rw [Prog.wp_bind, wp_update, Prog.wp_pure, Prog.wp_bind, hdata]
      unfold unprotect
      rw [Prog.wp_bind, wp_tr]
      split
      · rename_i hnone
        exact absurd (hsec.symm.trans hnone) nofun
      · rename_i sec' hsec'
        cases hsec.symm.trans hsec'
        rw [dec_empty hblock]
        trivial
  exact Prog.fault_of_wp hwp

/-! ## The reads -/

/-- The states in which a read of the file is allowed. -/
def readstates (hand : Bool) : List State := if hand then [SOpen, SHandshake, SLClose] else [SOpen]

/-- A call that starts to read in the first state reads a record in the second one. -/
inductive Loop (L : Libsec K) (hand : Bool) : Conn K → Conn K → Prop
  | here {s : Conn K} : s.tr.wants hand → Loop L hand s s
  | next {s s₁ s₂ : Conn K} : s.tr.wants hand → tlsrecread L s = .ok () s₁ → Loop L hand s₁ s₂ →
      Loop L hand s s₂

variable {hand : Bool}

theorem wants_processed (h : t.wants hand) : t.opened → t.processed = [] := by
  unfold TlsRec.wants at h
  intro ho
  cases hand with
  | false => exact h
  | true =>
    have h := h.1
    rw [ho] at h
    cases h

variable {fuel : Nat}

/-- The loop ends: each record takes bytes, and `fuel` counts more turns than there are bytes. -/
theorem readrecs_safe (hs : s.Sane L) (hfuel : s.pending.length < fuel)
    (hloop : ∀ s₁, Loop L hand s s₁ → ¬ Empty s₁ ∧ ¬ Spent s₁) :
    Prog.wp (readrecs L hand fuel) (fun _ s' => s'.Sane L ∧ ¬ s'.tr.wants hand)
      (fun _ s' => s'.Sane L) False s := by
  induction fuel generalizing s with
  | zero => cases hfuel
  | succ fuel ih =>
    rw [readrecs, Prog.wp_bind, wp_tr]
    split
    · rename_i hwants
      obtain ⟨hempty, hspent⟩ := hloop s (.here hwants)
      have hread := tlsrecread_safe hs hspent (wants_processed hwants)
      rw [Prog.wp_bind]
      refine Prog.wp_imp (Prog.wp_and hread Prog.wp_self) ?_ (fun _ _ h => h.1) fun h => hempty h.1
      rintro ⟨⟩ s₁ ⟨⟨hs₁, hlen⟩, hok⟩
      refine ih hs₁ ?_ fun s₂ h => hloop s₂ (.next hwants hok h)
      unfold RecHdrLen at hlen
      omega
    · rename_i hwants
      exact ⟨hs, hwants⟩

theorem readrecs_faults {hand : Bool} {fuel : Nat} {s s₁ : Conn K} (h : Loop L hand s s₁)
    (hempty : Empty s₁) : Prog.wp (readrecs L hand fuel) (fun _ _ => False) (fun _ _ => False) True s := by
  induction fuel generalizing s with
  | zero => trivial
  | succ fuel ih =>
    rw [readrecs, Prog.wp_bind, wp_tr]
    cases h with
    | here hwants =>
      rw [if_pos hwants, Prog.wp_bind]
      unfold Prog.wp
      rw [empty_faults hempty]
      trivial
    | next hwants hread h =>
      rw [if_pos hwants, Prog.wp_bind]
      have hnext := ih h
      unfold Prog.wp at hnext ⊢
      rw [hread]
      exact hnext

/-- What is given to a reader is the front of what was accepted. -/
theorem Conn.Sane.deliver (hs : s.Sane L) {b : Block} {l : List Block}
    (h : qgrab s.tr.processed n = some (b, l)) :
    Tls.Sane L { s.tr with processed := l } (s.log ++ [.delivered b.data]) := by
  obtain ⟨hb, hl⟩ := qgrab_some h
  have hmem : ∀ {num c b'}, Event.accepted num c b' ∈ s.log ++ [.delivered b.data] →
      .accepted num c b' ∈ s.log := by
    intro num c b' he
    rcases List.mem_append.1 he with he | he
    · exact he
    · cases List.mem_singleton.1 he
  refine ⟨⟨hs.wf.verset, hs.wf.mac, hs.wf.granted⟩, fun num c b' he => hs.verified num c b' (hmem he),
    fun num c b' he => hs.current num c b' (hmem he), ?_, ?_⟩
  · rw [List.pairwise_append]
    refine ⟨hs.fresh, List.pairwise_singleton _ _, fun e _ e' he' => ?_⟩
    rw [List.mem_singleton.1 he']
    exact fun num c b c' b' _ h => nomatch h
  · rw [accepteddata_append, delivereddata_append, hs.data]
    simp only [accepteddata, delivereddata, List.flatMap_cons, List.flatMap_nil, List.append_nil]
    rw [List.append_assoc, hb, hl, List.take_append_drop]

theorem dataread_safe (hs : s.Sane L)
    (hloop : s.tr.state = SOpen → ∀ s₁, Loop L false s s₁ → ¬ Empty s₁ ∧ ¬ Spent s₁) :
    Prog.wp (dataread L n) (fun _ s' => s'.Sane L) (fun _ s' => s'.Sane L) False s := by
  unfold dataread
  rw [Prog.wp_bind]
  refine Prog.wp_imp checkstate_spec ?_ ?_ id
  · rintro - _ ⟨rfl, hok⟩
    rw [Prog.wp_bind, Prog.wp_get, Prog.wp_bind]
    refine Prog.wp_imp (readrecs_safe hs ?_ (hloop (List.mem_singleton.1 hok))) ?_ (fun _ _ h => h) id
    · rw [avail_eq]
      omega
    rintro - s₁ ⟨hs₁, hwants⟩
    rw [Prog.wp_bind, wp_tr]
    split
    · rename_i hgrab
      exact hwants (qgrab_none.1 hgrab)
    · rename_i b l hgrab
      rw [Prog.wp_bind, wp_update, Prog.wp_bind, wp_note]
      exact hs₁.deliver hgrab
  · rintro - _ ⟨rfl, -⟩
    exact hs

theorem nexthand_spec :
    Prog.wp nexthand (fun _ s' => Aside s s' ∧ s'.tr.hprocessed ≠ []) (fun _ s' => Aside s s') F s := by
  unfold nexthand
  rw [Prog.wp_bind, wp_tr]
  split
  · split
    · exact Aside.refl s
    · rw [Prog.wp_bind, wp_update]
      exact ⟨⟨rfl, rfl, rfl, rfl, rfl, rfl, id⟩, rfl, (Aside.refl s).log⟩
    · rw [wp_update]
      exact ⟨⟨⟨rfl, rfl, rfl, rfl, rfl, rfl, id⟩, rfl, (Aside.refl s).log⟩, nofun⟩
  · rename_i hne
    exact ⟨Aside.refl s, hne⟩

theorem handbread_safe (hs : s.Sane L)
    (hloop : s.tr.state ∈ readstates true → ∀ s₁, Loop L true s s₁ → ¬ Empty s₁ ∧ ¬ Spent s₁) :
    Prog.wp (handbread L n) (fun _ s' => s'.Sane L) (fun _ s' => s'.Sane L) False s := by
  unfold handbread
  rw [Prog.wp_bind]
  refine Prog.wp_imp checkstate_spec ?_ ?_ id
  · rintro - _ ⟨rfl, hok⟩
    rw [Prog.wp_bind, Prog.wp_get, Prog.wp_bind]
    refine Prog.wp_imp (readrecs_safe hs ?_ (hloop hok)) ?_ (fun _ _ h => h) id
    · rw [avail_eq]
      omega
    rintro - s₁ ⟨hs₁, -⟩
    rw [Prog.wp_bind]
    refine Prog.wp_imp nexthand_spec ?_ (fun _ _ h => hs₁.aside h) id
    rintro - s₂ ⟨haside, hne⟩
    have hs₂ := hs₁.aside haside
    rw [Prog.wp_bind, wp_tr]
    split
    · rename_i hgrab
      exact hne (qgrab_none.1 hgrab)
    · rw [Prog.wp_bind, wp_update]
      exact Tls.Sane.same hs₂ ⟨rfl, rfl, rfl, rfl, rfl, rfl, id⟩
  · rintro - _ ⟨rfl, -⟩
    exact hs

/-! ## Runs -/

/-- No read takes a record that the code cannot take, or one past the last number of a secret. -/
def Readable (L : Libsec K) (s : Conn K) (a : Act) : Prop :=
  ∀ hand n bw, a = .call (.read hand n) bw → s.tr.state ∈ readstates hand →
    ∀ s₁, Loop L hand { s with bwrites := bw } s₁ → ¬ Empty s₁ ∧ ¬ Spent s₁

theorem read_safe (hs : s.Sane L)
    (hloop : s.tr.state ∈ readstates hand → ∀ s₁, Loop L hand s s₁ → ¬ Empty s₁ ∧ ¬ Spent s₁) :
    Prog.wp ((Call.read hand n).run L) (fun _ s' => s'.Sane L) (fun _ s' => s'.Sane L) False s := by
  cases hand with
  | false =>
    change Prog.wp (do let _ ← dataread L n; return) _ _ _ _
    rw [Prog.wp_bind]
    refine dataread_safe hs fun hopen => hloop ?_
    rw [hopen]
    exact List.mem_singleton_self _
  | true =>
    change Prog.wp (do let _ ← handbread L n; return) _ _ _ _
    rw [Prog.wp_bind]
    exact handbread_safe hs hloop

theorem read_faults {s₁ : Conn K} (hs : s.tr.state ∈ readstates hand) (h : Loop L hand s s₁)
    (hempty : Empty s₁) : (Call.read hand n).run L s = .fault := by
  refine Prog.fault_of_wp ?_
  have hcheck : ∀ {ishand : Bool} {α : Type} {x : Op K α},
      Prog.wp x (fun _ _ => False) (fun _ _ => False) True s →
      Prog.wp (do checkstate ishand (readstates hand); x) (fun _ _ => False) (fun _ _ => False)
        True s := by
    intro ishand α x hx
    rw [Prog.wp_bind]
    refine Prog.wp_imp checkstate_spec ?_ ?_ False.elim
    · rintro - _ ⟨rfl, -⟩
      exact hx
    · rintro - _ ⟨rfl, hno⟩
      exact absurd hs hno
  have hread := fun fuel => @readrecs_faults K L hand fuel s s₁ h hempty
  cases hand with
  | false =>
    change Prog.wp (do let _ ← dataread L n; return) _ _ _ _
    rw [Prog.wp_bind]
    refine Prog.wp_imp (hcheck ?_) (fun _ _ => False.elim) (fun _ _ => False.elim) id
    rw [Prog.wp_bind, Prog.wp_get, Prog.wp_bind]
    exact Prog.wp_imp (hread _) (fun _ _ => False.elim) (fun _ _ => False.elim) id
  | true =>
    change Prog.wp (do let _ ← handbread L n; return) _ _ _ _
    rw [Prog.wp_bind]
    refine Prog.wp_imp (hcheck ?_) (fun _ _ => False.elim) (fun _ _ => False.elim) id
    rw [Prog.wp_bind, Prog.wp_get, Prog.wp_bind]
    exact Prog.wp_imp (hread _) (fun _ _ => False.elim) (fun _ _ => False.elim) id

theorem keeps_sane {x : Op K α} (h : ∀ s₀ : Conn K, s₀.tr.Wf → Prog.Keeps (Aside s₀) x) :
    Prog.Keeps (Conn.Sane L) x := by
  intro s hs
  exact Prog.wp_imp (h s hs.wf s (Aside.refl s)) (fun _ _ h => hs.aside h) (fun _ _ h => hs.aside h) id

theorem tlsbwrite_aside {s₀ : Conn K} (h₀ : s₀.tr.Wf) :
    Prog.Keeps (Aside s₀) (tlsbwrite L hand b) :=
  Prog.Keeps.ite (tlsrecwrite_aside h₀) (checkstate_aside.bind fun _ => tlsrecwrite_aside h₀)

theorem tlswrite_aside {s₀ : Conn K} (h₀ : s₀.tr.Wf) {a : List UInt8} :
    Prog.Keeps (Aside s₀) (tlswrite L hand fuel a) := by
  induction fuel generalizing a with
  | zero => exact .fault
  | succ fuel ih => exact (tlsbwrite_aside h₀).bind fun _ => Prog.Keeps.ite .pure ih

theorem ctlfd_aside {s₀ : Conn K} {chan : Option String} {vers : Int} :
    Prog.Keeps (Aside s₀) (ctlfd chan vers) := by
  refine Prog.Keeps.get.bind fun s => Prog.Keeps.ite .error (Prog.Keeps.ite .error ?_)
  split
  · exact .error
  · refine Prog.Keeps.bind (update_aside fun t => ?_) fun _ => tlsSetState_aside
    exact ⟨rfl, rfl, rfl, rfl, rfl, rfl, id⟩

theorem ctlchangecipher_aside {s₀ : Conn K} (h₀ : s₀.tr.Wf) :
    Prog.Keeps (Aside s₀) (ctlchangecipher L) :=
  Prog.Keeps.get.bind fun _ => Prog.Keeps.ite .error (tlsrecwrite_aside h₀)

theorem ctlalert_aside {s₀ : Conn K} (h₀ : s₀.tr.Wf) {n : Int} :
    Prog.Keeps (Aside s₀) (ctlalert L n) :=
  Prog.Keeps.get.bind fun _ => Prog.Keeps.ite .error (sendAlert_aside h₀)

/-- The version is set while there are no secrets. -/
theorem ctlversion_sane {vers : Int} : Prog.Keeps (Conn.Sane L) (ctlversion vers) := by
  intro s hs
  have key : s.tr.verset ≠ true → ∀ pm v,
      Conn.Sane L { s with tr := { s.tr with packMac := some pm, verset := true, version := v } } := by
    intro hset pm v
    have hnone : s.tr.packMac.isSome = false := by
      rw [← hs.wf.verset]
      exact Bool.eq_false_iff.2 hset
    refine ⟨⟨rfl, fun _ => rfl, hs.wf.granted⟩, hs.verified, fun num c b he => ?_, hs.fresh, hs.data⟩
    obtain ⟨hnum, hcur⟩ := hs.current num c b he
    refine ⟨hnum, fun heq => ?_⟩
    obtain ⟨-, sec, pm', -, hpm, -⟩ := hcur heq
    rw [hpm] at hnone
    cases hnone
  unfold ctlversion
  rw [Prog.wp_bind, wp_tr]
  split
  · exact hs
  · split
    · exact hs
    · rename_i hset
      split
      · exact key hset _ _
      · split
        · exact key hset _ _
        · exact hs

theorem ctlsecret_sane {hashalg encalg : String} {isclient : Int} {x : List UInt8} :
    Prog.Keeps (Conn.Sane L) (ctlsecret L hashalg encalg isclient x) := by
  intro s hs
  have key : s.tr.verset = true → ∀ inn out,
      Conn.Sane L { s with tr := { s.tr with
        inn := { s.tr.inn with new := inn }, out := { s.tr.out with new := out } } } := by
    intro hset inn out
    refine ⟨⟨hs.wf.verset, fun _ => ?_, hs.wf.granted⟩, hs.verified, hs.current, hs.fresh, hs.data⟩
    rw [← hs.wf.verset]
    exact hset
  unfold ctlsecret
  rw [Prog.wp_bind, wp_tr]
  split
  · exact hs
  · rename_i hset
    have hset : s.tr.verset = true := by
      rw [not_or, Bool.not_eq_true, Bool.not_eq_true, Bool.not_eq_false', Bool.not_eq_false'] at hset
      exact hset.2
    rw [Prog.wp_bind, wp_update]
    split
    · exact key hset none none
    · split
      · exact key hset none none
      · split
        · exact key hset none none
        · exact key hset _ _

theorem ctlopened_sane : Prog.Keeps (Conn.Sane L) ctlopened := by
  intro s hs
  refine Prog.wp_imp ctlopened_spec ?_ ?_ False.elim
  · rintro - _ ⟨-, hinn, -, rfl⟩
    exact ⟨⟨hs.wf.verset, hs.wf.mac, fun _ => hinn⟩, hs.verified, hs.current, hs.fresh, hs.data⟩
  · rintro - _ rfl
    exact hs

theorem run_sane {c : Call} (hc : ∀ hand n, c ≠ .read hand n) : Prog.Keeps (Conn.Sane L) (c.run L) := by
  cases c with
  | fd => exact keeps_sane fun _ _ => ctlfd_aside
  | version => exact ctlversion_sane
  | secret => exact ctlsecret_sane
  | changecipher => exact keeps_sane fun _ h₀ => ctlchangecipher_aside h₀
  | opened => exact ctlopened_sane
  | alert => exact keeps_sane fun _ h₀ => ctlalert_aside h₀
  | write => exact keeps_sane fun _ h₀ => tlswrite_aside h₀
  | bwrite => exact keeps_sane fun _ h₀ => tlsbwrite_aside h₀
  | read hand n => exact absurd rfl (hc hand n)

theorem exec_sane {s' : Conn K} {a : Act} (hs : s.Sane L) (hread : Readable L s a)
    (h : s.exec L a = some s') : s'.Sane L := by
  cases a with
  | call c bw =>
    have hs₁ : Conn.Sane L { s with bwrites := bw } := hs
    by_cases hc : ∃ hand n, c = .read hand n
    · obtain ⟨hand, n, rfl⟩ := hc
      refine exec_wp h ?_
      exact Prog.wp_imp (read_safe hs₁ (hread hand n bw rfl)) (fun _ _ h => h) (fun _ _ h => h)
        False.elim
    · exact exec_wp h (run_sane (fun hand n hr => hc ⟨hand, n, hr⟩) _ hs₁)
  | arrives b =>
    cases h
    exact hs
  | openhand =>
    unfold Conn.exec at h
    dsimp only at h
    split at h
    · cases h
    · cases h
      exact Tls.Sane.same hs ⟨rfl, rfl, rfl, rfl, rfl, rfl, id⟩
  | closehand =>
    cases h
    exact Tls.Sane.same hs ⟨rfl, rfl, rfl, rfl, rfl, rfl, id⟩

theorem reach_sane (h : ((tls L).restrict (Readable L)).Reach s) : s.Sane L := by
  refine Lts.Inductive.reach (I := Conn.Sane L) ⟨?_, fun s a s' hs hstep => ?_⟩ h
  · rintro s rfl
    refine ⟨⟨rfl, fun h => ?_, nofun⟩, nofun, nofun, List.Pairwise.nil, rfl⟩
    rcases h with h | h | h | h <;> cases h
  · exact exec_sane hs hstep.2 hstep.1

/-- In every run whose reads take no record that the code cannot take: reads end, without an access
through a nil pointer or outside a record's block; accepted data had a cipher in force, a MAC over
its number, header and data, and a number that the secret had not had before; and what readers got
is the front of it. -/
theorem records_hostile (L : Libsec K) (s : Conn K)
    (h : ((tls L).restrict (Readable L)).Reach s) :
    (∀ hand n bw, Readable L s (.call (.read hand n) bw) →
      (Call.read hand n).run L { s with bwrites := bw } ≠ .fault) ∧
    (∀ hand n bw s₁, s.tr.state ∈ readstates hand → Loop L hand { s with bwrites := bw } s₁ →
      Empty s₁ → (Call.read hand n).run L { s with bwrites := bw } = .fault) ∧
    (∀ num c b, .accepted num c b ∈ s.log → ∃ check, c = some check ∧ check.Verified L b) ∧
    s.log.Pairwise Event.Fresh ∧
    delivereddata s.log <+: accepteddata s.log := by
  have hs := reach_sane h
  refine ⟨fun hand n bw hread => ?_, fun hand n bw s₁ hstate hloop hempty => ?_, hs.verified,
    hs.fresh, ?_⟩
  · have hs₁ : Conn.Sane L { s with bwrites := bw } := hs
    exact Prog.not_fault_of_wp (read_safe hs₁ (hread hand n bw rfl))
  · exact read_faults hstate hloop hempty
  · rw [hs.data]
    exact List.prefix_append ..

private def greeted : List Act := [
  .openhand, .call (.fd none 0x301) [], .arrives (.blocks [⟨0, [22, 3, 1, 0, 1, 7]⟩])]

private def greeting : Conn Unit :=
  let s : Conn Unit := Conn.zero
  { s with
    tr := { s.tr with c := true, version := 0x301, state := SHandshake, handq := some [] }
    input := [.blocks [⟨0, [22, 3, 1, 0, 1, 7]⟩]] }

private def stops (s : Conn Unit) : Bool :=
  match tlsrecread nosec s with
  | .ok _ s₁ => ¬ s₁.tr.wants true
  | _ => true

/-- A handshake record of one byte has arrived. -/
theorem records_hostile_greeted :
    ((tls nosec).restrict (Readable nosec)).Reach greeting ∧
      (Call.read true 1).run nosec greeting ≠ .fault := by
  have hreach : ((tls nosec).restrict (Readable nosec)).Reach greeting := by
    have hrun : greeted.foldlM (Conn.exec nosec) Conn.zero = some greeting := rfl
    refine Lts.Reach.exec_restrict (fun _ _ _ h => h) ⟨[], .init rfl⟩
      (fun a ha s hand n bw h => ?_) hrun
    rw [h] at ha
    cases ha with
    | tail _ ha => cases ha with
      | tail _ ha => cases ha with
        | tail _ ha => cases ha
  refine ⟨hreach, (records_hostile nosec greeting hreach).1 true 1 [] ?_⟩
  have hstops : ∀ s₁, tlsrecread nosec greeting = .ok () s₁ → ¬ s₁.tr.wants true := by
    intro s₁ hread
    have hrun : stops greeting = true := by decide +kernel
    unfold stops at hrun
    rw [hread] at hrun
    exact of_decide_eq_true hrun
  rintro hand n bw h - s₁ hloop
  cases h
  cases hloop with
  | here _ =>
    refine ⟨fun hempty => ?_, fun hspent => ?_⟩
    · exact absurd hempty.2.2.2.1 (by decide)
    · exact absurd hspent (by decide : (0 : UInt32) ≠ 0xffffffff)
  | next _ hread hloop =>
    cases hloop with
    | here hwants => exact absurd hwants (hstops _ hread)
    | next hwants => exact absurd hwants (hstops _ hread)

private def emptied : List Act := [
  .openhand, .call (.fd none 0x301) [], .arrives (.blocks [⟨0, [22, 3, 1, 0, 0]⟩])]

private def faults (s : Conn Unit) : Bool :=
  match (Call.read true 1).run nosec { s with bwrites := [] } with
  | .fault => true
  | _ => false

/-- The last record that has arrived is empty. -/
theorem records_hostile_before :
    ¬ ∀ s, (tls nosec).Reach s → ∀ hand n bw,
      (Call.read hand n).run nosec { s with bwrites := bw } ≠ .fault := by
  intro h
  have hrun : (emptied.foldlM (Conn.exec nosec) Conn.zero).any faults = true := by
    decide +kernel
  obtain ⟨s, hs, hfaults⟩ := (Option.any_eq_true ..).1 hrun
  have hreach : (tls nosec).Reach s := Lts.Reach.exec (fun _ _ _ h => h) ⟨[], .init rfl⟩ hs
  have hne := h s hreach true 1 []
  unfold faults at hfaults
  split at hfaults
  · rename_i hfault
    exact hne hfault
  · cases hfaults

end NixMark.Tls
