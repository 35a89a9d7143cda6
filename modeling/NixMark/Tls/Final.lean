import NixMark.Tls.Dev

/-!
# Connection states are final

* `Event.Fatal`, `Event.Data`, `closing`, `closed`: the events that the statements are about.
* `Inv`: what the state says about the events so far; `Moves`, `Inv.note`: what keeps it. One lemma
  for each function; `sendAlert_spec` says what an alert does.
* `Steps`: what one call may do. `Good`: the condition on a step; `states_final`.
-/

namespace NixMark.Tls

open Lib State

variable {K : Type} {L : Libsec K}

/-! ## Events -/

def Event.Wrote : Event → Prop
  | .wrote _ _ => True
  | _ => False

/-- A fatal alert, sent or received. -/
def Event.Fatal : Event → Prop
  | .wrote type b => type = RAlert ∧ b.head? = some 2
  | .alert level _ => level = 2
  | _ => False

/-- Application data, sent or delivered. -/
def Event.Data : Event → Prop
  | .wrote type _ => type = RApplication
  | .delivered _ => True
  | _ => False

/-- The record of a close notify alert. -/
def closing : Event := .wrote RAlert [1, 0]

def closed : Event := .alert 1 0

/-! ## The invariant -/

/-- A change of the record that leaves errors and what was granted as they were. -/
structure Moves (t t' : TlsRec K) : Prop where
  error : t.state = SError → t'.state = SError
  isopen : t'.state = SOpen → t.state = SOpen
  opened : t'.opened = t.opened
  inn : t.inn.sec.isSome → t'.inn.sec.isSome
  out : t.out.sec.isSome → t'.out.sec.isSome

theorem Moves.refl (t : TlsRec K) : Moves t t := ⟨id, id, rfl, id, id⟩

theorem Moves.trans {t t' t'' : TlsRec K} (h : Moves t t') (h' : Moves t' t'') : Moves t t'' :=
  ⟨h'.error ∘ h.error, h.isopen ∘ h'.isopen, h'.opened.trans h.opened, h'.inn ∘ h.inn,
    h'.out ∘ h.out⟩

theorem moves_error {t : TlsRec K} : Moves t { t with state := SError } :=
  ⟨fun _ => rfl, nofun, rfl, id, id⟩

/-- What the state says about the events so far. `sent` tells whether the log has a close notify
alert that was sent, `o` is the value of `opened`, and the state is open only where `may` holds. -/
structure Inv (sent may : Prop) (o : Bool) (t : TlsRec K) (log : List Event) : Prop where
  quiet : log.Pairwise fun e e' => e.Fatal → ¬ e'.Wrote
  fatal : ∀ e ∈ log, e.Fatal → t.state = SError
  data : ∀ e ∈ log, e.Data → o = true
  closed : closed ∈ log → t.state = SError
  sent_iff : closing ∈ log ↔ sent
  isopen : t.state = SOpen → may
  granted : may → o = true
  opened : t.opened = o
  ciphers : o = true → t.inn.sec.isSome ∧ t.out.sec.isSome

variable {sent may : Prop} {o : Bool} {t t' : TlsRec K} {log : List Event} {e : Event}

theorem Inv.move (h : Inv sent may o t log) (hm : Moves t t') : Inv sent may o t' log where
  quiet := h.quiet
  fatal e he hf := hm.error (h.fatal e he hf)
  data := h.data
  closed hc := hm.error (h.closed hc)
  sent_iff := h.sent_iff
  isopen hs := h.isopen (hm.isopen hs)
  granted := h.granted
  opened := hm.opened.trans h.opened
  ciphers ho := ⟨hm.inn (h.ciphers ho).1, hm.out (h.ciphers ho).2⟩

/-- Another event; a fatal alert or a close notify alert asks for the error state. -/
theorem Inv.note (h : Inv sent may o t log) (hq : e.Wrote → t.state ≠ SError)
    (hf : e.Fatal → t'.state = SError) (hd : e.Data → o = true) (hc : e = Tls.closed → t'.state = SError)
    (hm : Moves t t') : Inv (sent ∨ e = closing) may o t' (log ++ [e]) := by
  have h' := h.move hm
  refine ⟨?_, ?_, ?_, ?_, ?_, h'.isopen, h'.granted, h'.opened, h'.ciphers⟩
  · rw [List.pairwise_append]
    refine ⟨h.quiet, List.pairwise_singleton _ _, fun e₁ he₁ e₂ he₂ hf₁ hw => ?_⟩
    rw [List.mem_singleton] at he₂
    subst he₂
    exact hq hw (h.fatal e₁ he₁ hf₁)
  · intro e₁ he₁ hf₁
    rcases List.mem_append.1 he₁ with he₁ | he₁
    · exact h'.fatal e₁ he₁ hf₁
    · rw [List.mem_singleton] at he₁
      exact hf (he₁ ▸ hf₁)
  · intro e₁ he₁ hd₁
    rcases List.mem_append.1 he₁ with he₁ | he₁
    · exact h.data e₁ he₁ hd₁
    · rw [List.mem_singleton] at he₁
      exact hd (he₁ ▸ hd₁)
  · intro he₁
    rcases List.mem_append.1 he₁ with he₁ | he₁
    · exact h'.closed he₁
    · rw [List.mem_singleton] at he₁
      exact hc he₁.symm
  · rw [List.mem_append, List.mem_singleton, h.sent_iff, @eq_comm _ closing]

theorem Inv.unsent (h : Inv (sent ∨ e = closing) may o t log) (he : e ≠ closing) :
    Inv sent may o t log :=
  { h with sent_iff := h.sent_iff.trans (or_iff_left he) }

def Conn.Inv (sent may : Prop) (o : Bool) (s : Conn K) : Prop := Tls.Inv sent may o s.tr s.log

/-- The invariant, once the state is an error. -/
def Conn.Weak (sent may : Prop) (o : Bool) (s : Conn K) : Prop :=
  Tls.Inv sent may o { s.tr with state := SError } s.log

variable {s : Conn K}

theorem Conn.Inv.weak (h : s.Inv sent may o) : s.Weak sent may o :=
  Tls.Inv.move h moves_error

/-! ## The state -/

variable {E : String → Conn K → Prop}

@[simp] theorem wp_tr {Q : TlsRec K → Conn K → Prop} {F : Prop} :
    Prog.wp tr Q E F s ↔ Q s.tr s := Iff.rfl

@[simp] theorem wp_update {f : TlsRec K → TlsRec K} {Q : Unit → Conn K → Prop} {F : Prop} :
    Prog.wp (update f) Q E F s ↔ Q () { s with tr := f s.tr } := Iff.rfl

@[simp] theorem wp_note {Q : Unit → Conn K → Prop} {F : Prop} :
    Prog.wp (note e) Q E F s ↔ Q () { s with log := s.log ++ [e] } := Iff.rfl

variable {α : Type} {msg : String}

@[simp] theorem wp_raise {Q : α → Conn K → Prop} {F : Prop} :
    Prog.wp (error msg) Q E F s ↔ E msg s := Iff.rfl

theorem checkstate_spec {ishand : Bool} {ok : List State} :
    Prog.wp (checkstate ishand ok) (fun _ s' => s' = s ∧ s.tr.state ∈ ok)
      (fun _ s' => s' = s ∧ s.tr.state ∉ ok) False s := by
  unfold checkstate
  simp only [Prog.wp_bind, wp_tr]
  split
  · rename_i hok
    exact ⟨rfl, hok⟩
  · rename_i hok
    split <;> first
      | exact ⟨rfl, hok⟩
      | (split <;> exact ⟨rfl, hok⟩)

theorem update_keeps {f : TlsRec K → TlsRec K} (h : ∀ t, Moves t (f t)) :
    Prog.Keeps (Conn.Inv sent may o) (update f) := fun _ hs => Inv.move hs (h _)

theorem alertHand_keeps : Prog.Keeps (@Conn.Inv K sent may o) (alertHand msg) :=
  update_keeps fun _ => ⟨id, id, rfl, id, id⟩

theorem tlsSetState_keeps {old : List State} (hold : SError ∉ old) :
    Prog.Keeps (@Conn.Inv K sent may o) (tlsSetState SAlert old) := by
  refine update_keeps fun t => ?_
  split
  · rename_i hmem
    exact ⟨fun h => absurd (h ▸ hmem) hold, nofun, rfl, id, id⟩
  · exact Moves.refl t

/-- Whatever the state was, it is an error afterwards. -/
theorem tlsError_spec (h : s.Weak sent may o) :
    Prog.wp (tlsError msg) (fun _ s' => s'.Inv sent may o ∧ s'.tr.state = SError)
      (fun _ _ => False) False s := by
  unfold tlsError
  rw [Prog.wp_bind, wp_tr]
  split
  · rw [Prog.wp_bind, wp_update]
    exact ⟨Inv.move h ⟨id, id, rfl, id, id⟩, rfl⟩
  · rename_i herr
    have herr := Classical.not_not.1 herr
    exact ⟨Inv.move h ⟨fun _ => herr, fun hs => absurd (herr.symm.trans hs) nofun, rfl, id, id⟩,
      herr⟩

theorem tlsError_keeps : Prog.Keeps (@Conn.Inv K sent may o) (tlsError msg) := by
  intro s hs
  refine Prog.wp_imp (tlsError_spec hs.weak) ?_ ?_ ?_
  · exact fun _ _ h => h.1
  · exact fun _ _ h => h.elim
  · exact fun h => h.elim

/-! ## Writing -/

/-- What a write of the record `e` does: the record is written unless the state forbids it. -/
def Written (e : Event) (s s' : Conn K) : Prop :=
  Moves s.tr s'.tr ∧ (s'.log = s.log ∨ s.tr.state ≠ SError ∧ s'.log = s.log ++ [e])

variable {s' : Conn K}

theorem Written.weak (h : Written e s s') (hs : s.Inv sent may o) (hd : e.Data → o = true)
    (hc : e ≠ closed) (he : e ≠ closing) : s'.Weak sent may o := by
  obtain ⟨hm, hlog | ⟨hne, hlog⟩⟩ := h
  · unfold Conn.Weak
    rw [hlog]
    exact Inv.move hs (hm.trans moves_error)
  · unfold Conn.Weak
    rw [hlog]
    exact (Inv.note hs (fun _ => hne) (fun _ => rfl) hd (fun h => absurd h hc)
      (hm.trans moves_error)).unsent he

theorem Written.notice (h : Written e s s') (hs : s.Inv sent may o) (hd : e.Data → o = true)
    (hc : e ≠ closed) (hf : ¬ e.Fatal) :
    ∃ sent', s'.Inv sent' may o ∧ (sent → sent') ∧
      (sent' → sent ∨ e = closing ∧ closed ∉ s'.log) := by
  obtain ⟨hm, hlog | ⟨hne, hlog⟩⟩ := h
  · refine ⟨sent, ?_, id, Or.inl⟩
    unfold Conn.Inv
    rw [hlog]
    exact Inv.move hs hm
  · refine ⟨sent ∨ e = closing, ?_, Or.inl, Or.imp id fun he => ⟨he, fun hmem => ?_⟩⟩
    · unfold Conn.Inv
      rw [hlog]
      exact Inv.note hs (fun _ => hne) (fun h => absurd h hf) hd (fun h => absurd h hc) hm
    · rw [hlog, List.mem_append, List.mem_singleton] at hmem
      rcases hmem with hmem | hmem
      · exact hne (hs.closed hmem)
      · exact hc hmem.symm

theorem Written.inv (h : Written e s s') (hs : s.Inv sent may o) (hd : e.Data → o = true)
    (hc : e ≠ closed) (hf : ¬ e.Fatal) (he : e ≠ closing) : s'.Inv sent may o := by
  obtain ⟨sent', h', hmono, hsent⟩ := h.notice hs hd hc hf
  exact { h' with
    sent_iff := h'.sent_iff.trans ⟨fun h => (hsent h).resolve_right fun h => he h.1, hmono⟩ }

variable {type : Nat} {piece : List UInt8} {copied : Bool}

theorem protect_spec :
    Prog.wp (protect L type piece copied)
      (fun _ s' => Moves s.tr s'.tr ∧ s'.tr.state = s.tr.state ∧ s'.log = s.log)
      (fun _ _ => False) True s := by
  unfold protect
  rw [Prog.wp_bind, wp_tr]
  dsimp only
  split
  · exact ⟨Moves.refl _, rfl, rfl⟩
  · rename_i sec hsec
    split
    · trivial
    · rw [Prog.wp_bind, wp_update]
      exact ⟨⟨id, id, rfl, id, fun _ => rfl⟩, rfl, rfl⟩

theorem changeout_spec :
    Prog.wp (changeout type)
      (fun _ s' => Moves s.tr s'.tr ∧ s'.tr.state = s.tr.state ∧ s'.log = s.log)
      (fun _ s' => s' = s) True s := by
  unfold changeout
  rw [Prog.wp_bind, wp_tr]
  split
  · split
    · rfl
    · rename_i hnew
      refine ⟨⟨id, id, rfl, id, fun _ => ?_⟩, rfl, rfl⟩
      rwa [Bool.not_eq_true, Option.isNone_eq_false_iff] at hnew
  · exact ⟨Moves.refl _, rfl, rfl⟩

variable {b : List UInt8}

theorem bwrite_spec {nb : List UInt8} :
    Prog.wp (bwrite type b nb) (fun _ s' => s'.tr = s.tr ∧ s'.log = s.log ++ [.wrote type b])
      (fun _ s' => s'.tr = s.tr ∧ s'.log = s.log ++ [.wrote type b]) False s := by
  unfold bwrite
  simp only [Prog.wp_bind, Prog.wp_get, Prog.wp_modify, wp_note]
  split <;> exact ⟨rfl, rfl⟩

theorem tlsError_moves :
    Prog.wp (tlsError msg) (fun _ s' => Moves s.tr s'.tr ∧ s'.log = s.log) (fun _ _ => False)
      False s := by
  unfold tlsError
  rw [Prog.wp_bind, wp_tr]
  split
  · rw [Prog.wp_bind, wp_update]
    exact ⟨⟨fun _ => rfl, nofun, rfl, id, id⟩, rfl⟩
  · exact ⟨Moves.refl _, rfl⟩

theorem writerec_spec :
    Prog.wp (writerec L type piece copied) (fun _ => Written (.wrote type piece) s)
      (fun _ => Written (.wrote type piece) s) True s := by
  unfold writerec
  rw [Prog.wp_bind]
  refine Prog.wp_imp checkstate_spec ?_ ?_ False.elim
  · rintro - s₀ ⟨rfl, hok⟩
    have hne : s₀.tr.state ≠ SError := by
      intro herr
      rw [herr] at hok
      split at hok <;> simp at hok
    rw [Prog.wp_bind]
    refine Prog.wp_imp protect_spec ?_ (fun _ _ => False.elim) id
    rintro nb s₁ ⟨hm₁, hs₁, hlog₁⟩
    rw [Prog.wp_bind]
    refine Prog.wp_imp changeout_spec ?_ ?_ id
    · rintro - s₂ ⟨hm₂, hs₂, hlog₂⟩
      have hm := hm₁.trans hm₂
      rw [Prog.wp_handle]
      refine Prog.wp_imp bwrite_spec ?_ ?_ False.elim
      · rintro - s₃ ⟨htr, hlog⟩
        exact ⟨htr ▸ hm, .inr ⟨hne, by rw [hlog, hlog₂, hlog₁]⟩⟩
      · rintro e s₃ ⟨htr, hlog⟩
        rw [Prog.wp_bind, Prog.wp_whenever]
        refine ⟨fun _ => Prog.wp_imp tlsError_moves ?_ (fun _ _ => False.elim) False.elim,
          fun _ => ?_⟩
        · rintro - s₄ ⟨hm₄, hlog₄⟩
          exact ⟨hm.trans (htr ▸ hm₄), .inr ⟨hne, by rw [hlog₄, hlog, hlog₂, hlog₁]⟩⟩
        · exact ⟨htr ▸ hm, .inr ⟨hne, by rw [hlog, hlog₂, hlog₁]⟩⟩
    · rintro - _ rfl
      exact ⟨hm₁, .inl hlog₁⟩
  · rintro - _ ⟨rfl, -⟩
    exact ⟨Moves.refl _, .inl rfl⟩

/-- Records that are no alerts. -/
theorem writerec_keeps (ht : type ≠ RAlert) (hd : type = RApplication → o = true) :
    Prog.Keeps (Conn.Inv sent may o) (writerec L type piece copied) := by
  intro s hs
  have key : ∀ s', Written (.wrote type piece) s s' → s'.Inv sent may o := fun s' h =>
    h.inv hs hd nofun (fun hf => ht hf.1) fun h => ht (Event.wrote.inj h).1
  exact Prog.wp_imp writerec_spec (fun _ => key) (fun _ => key) id

theorem tlsrecwrite_keeps (ht : type ≠ RAlert) (hd : type = RApplication → o = true) :
    Prog.Keeps (Conn.Inv sent may o) (tlsrecwrite L type b) := by
  unfold tlsrecwrite
  generalize b.length / MaxRecLen + 1 = fuel
  induction fuel generalizing b with
  | zero => exact Prog.Keeps.fault
  | succ fuel ih =>
    unfold tlsrecwrite.go
    exact Prog.Keeps.ite ((writerec_keeps ht hd).bind fun _ => ih) (writerec_keeps ht hd)

/-! ## Alerts -/

theorem tlsrecwrite_alert (hb : b.length ≤ MaxRecLen) :
    tlsrecwrite L RAlert b = writerec L RAlert b false := by
  unfold tlsrecwrite tlsrecwrite.go
  rw [if_neg (Nat.not_lt.2 hb)]

variable {err : Int}

theorem alertbytes_length {version : Nat} : (alertbytes version err).length = 2 := rfl

theorem alertbytes_fatal {version : Nat} :
    (alertbytes version err).head? = some 2 ↔ alertfatal err = true := by
  unfold alertbytes
  cases alertfatal err <;> simp

/-- A fatal alert leaves the error state; another one is one record. -/
theorem sendAlert_spec (hs : s.Inv sent may o) :
    Prog.wp (sendAlert L err)
      (fun _ s' => if alertfatal err then s'.Inv sent may o else
        Written (.wrote RAlert (alertbytes s.tr.version err)) s s')
      (fun _ _ => False) True s := by
  unfold sendAlert
  rw [Prog.wp_bind, wp_tr, Prog.wp_bind, Prog.wp_handle, Prog.wp_bind, Prog.wp_whenever,
    tlsrecwrite_alert (by rw [alertbytes_length]; decide)]
  have hbytes := @alertbytes_fatal err s.tr.version
  generalize alertbytes s.tr.version err = b at hbytes ⊢
  split
  · rename_i hfatal
    have hclosing : Event.wrote RAlert b ≠ closing := by
      intro h
      rw [(Event.wrote.inj h).2] at hbytes
      exact absurd (hbytes.2 hfatal) (by decide)
    have hdata : (Event.wrote RAlert b).Data → o = true := fun h =>
      absurd h (by decide : RAlert ≠ RApplication)
    have key : ∀ s₁ : Conn K, s₁.Inv sent may o → ∀ s₂, Written (.wrote RAlert b) s₁ s₂ →
        Prog.wp (Prog.whenever (alertfatal err = true) (tlsError (alertmsg err)))
          (fun _ s' => s'.Inv sent may o) (fun _ _ => False) True s₂ := by
      intro s₁ hs₁ s₂ hw
      rw [Prog.wp_whenever]
      refine ⟨fun _ => ?_, fun h => absurd hfatal h⟩
      exact Prog.wp_imp (tlsError_spec (hw.weak hs₁ hdata nofun hclosing))
        (fun _ _ h => h.1) (fun _ _ h => h) False.elim
    refine ⟨fun _ => ?_, fun h => absurd hfatal h⟩
    have hs₁ := tlsSetState_keeps (by decide : SError ∉ [SOpen, SHandshake, SRClose]) s hs
    unfold tlsSetState at hs₁ ⊢
    rw [wp_update] at hs₁ ⊢
    exact Prog.wp_imp writerec_spec (fun _ => key _ hs₁) (fun _ => key _ hs₁) id
  · rename_i hfatal
    refine ⟨fun h => absurd h hfatal, fun _ => ?_⟩
    have key : ∀ s₂, Written (.wrote RAlert b) s s₂ →
        Prog.wp (Prog.whenever (alertfatal err = true) (tlsError (alertmsg err)))
          (fun _ s' => Written (.wrote RAlert b) s s') (fun _ _ => False) True s₂ := by
      intro s₂ hw
      rw [Prog.wp_whenever]
      exact ⟨fun h => absurd h hfatal, fun _ => hw⟩
    exact Prog.wp_imp writerec_spec (fun _ => key) (fun _ => key) id

theorem sendAlert_keeps (he : ∀ version, alertbytes version err ≠ [1, 0]) :
    Prog.Keeps (Conn.Inv sent may o) (sendAlert L err) := by
  intro s hs
  refine Prog.wp_imp (sendAlert_spec hs) (fun _ s' h => ?_) (fun _ _ => False.elim) id
  split at h
  · exact h
  · rename_i hfatal
    refine h.inv hs (fun h => absurd h (by decide : RAlert ≠ RApplication)) nofun ?_ ?_
    · exact fun hf => hfatal (alertbytes_fatal.1 hf.2)
    · exact fun h => he _ (Event.wrote.inj h).2

theorem fatal_bytes (h : alertfatal err = true) (version : Nat) :
    alertbytes version err ≠ [1, 0] := by
  intro hb
  have hhead := (@alertbytes_fatal err version).2 h
  rw [hb] at hhead
  exact absurd hhead (by decide)

theorem norenegotiation_bytes (version : Nat) :
    alertbytes version (ENoRenegotiation : Int) ≠ [1, 0] := by
  have hfind : (tlserrs.find? fun e => (e.err : Int) = (ENoRenegotiation : Int)) =
      some ⟨ENoRenegotiation, EUnexpectedMessage, ENoRenegotiation, false, "no renegotiation"⟩ := rfl
  unfold alertbytes
  rw [hfind]
  intro h
  have h := (List.cons.inj (List.cons.inj h).2).1
  dsimp only at h
  split at h <;> exact absurd h (by decide)

theorem rcvError_keeps {err : Nat} (h : alertfatal err = true) :
    Prog.Keeps (Conn.Inv sent may o) (rcvError L err msg : Op K α) := by
  refine (sendAlert_keeps (fatal_bytes h)).bind fun _ => Prog.Keeps.get.bind fun s => ?_
  exact Prog.Keeps.ite .error .error

/-! ## Reading -/

variable {n : Nat}

theorem ensure_keeps : Prog.Keeps (@Conn.Inv K sent may o) (ensure n) := by
  intro s hs
  unfold ensure
  simp only [Prog.wp_bind, Prog.wp_get, Prog.wp_modify]
  split <;> exact Inv.move hs ⟨id, id, rfl, id, id⟩

variable {header : List UInt8}

theorem parsehead_keeps : Prog.Keeps (Conn.Inv sent may o) (parsehead L header) := by
  refine Prog.Keeps.get.bind fun s => ?_
  refine Prog.Keeps.ite ?_ .pure
  exact Prog.Keeps.ite (rcvError_keeps rfl) .pure

theorem readhead_keeps : Prog.Keeps (Conn.Inv sent may o) (readhead L header) := by
  refine parsehead_keeps.bind fun h => Prog.Keeps.get.bind fun s => ?_
  refine Prog.Keeps.ite (rcvError_keeps rfl) (Prog.Keeps.ite (rcvError_keeps rfl) ?_)
  exact ensure_keeps.bind fun _ => .pure

theorem grab_keeps : Prog.Keeps (@Conn.Inv K sent may o) (grab n) := by
  refine Prog.Keeps.get.bind fun s => ?_
  split
  · exact .fault
  · refine Prog.Keeps.bind (update_keeps fun t => ?_) fun _ => .pure
    exact ⟨id, id, rfl, id, id⟩

theorem unprotect_keeps {p : List UInt8} :
    Prog.Keeps (Conn.Inv sent may o) (unprotect L header p) := by
  refine Prog.Keeps.get.bind fun s => ?_
  split
  · exact .pure
  · split
    · exact .fault
    · split
      · exact .fault
      · refine Prog.Keeps.bind (update_keeps fun t => ?_) fun _ => ?_
        · exact ⟨id, id, rfl, fun _ => rfl, id⟩
        refine Prog.Keeps.ite (rcvError_keeps rfl) (Prog.Keeps.ite .fault ?_)
        exact Prog.Keeps.ite (rcvError_keeps rfl) .pure

theorem handshake_keeps : Prog.Keeps (Conn.Inv sent may o) (handshake L b) := by
  refine Prog.Keeps.get.bind fun s => ?_
  split
  · exact update_keeps fun t => ⟨id, id, rfl, id, id⟩
  · exact ((sendAlert_keeps norenegotiation_bytes).handle fun _ => .pure).whenever

/-- A close notify alert and a fatal alert leave the error state to the caller. -/
theorem dispatch_spec {h : Head} {check : Option Check} {p : List UInt8} (hs : s.Inv sent may o) :
    Prog.wp (dispatch L h check p) (fun _ s' => s'.Inv sent may o) (fun _ s' => s'.Weak sent may o)
      True s := by
  have keep : ∀ {x : Op K Unit} {s : Conn K}, s.Inv sent may o →
      Prog.Keeps (Conn.Inv sent may o) x →
      Prog.wp x (fun _ s' => s'.Inv sent may o) (fun _ s' => s'.Weak sent may o) True s :=
    fun hs hx => Prog.wp_imp (hx _ hs) (fun _ _ h => h) (fun _ _ h => h.weak) id
  unfold dispatch
  rw [Prog.wp_bind, wp_tr]
  split
  · split
    · exact keep hs (rcvError_keeps rfl)
    · split
      · exact keep hs (rcvError_keeps rfl)
      · rename_i hnew
        rw [Bool.not_eq_true, Option.isNone_eq_false_iff] at hnew
        exact Inv.move hs ⟨id, id, rfl, fun _ => hnew, id⟩
  · split
    · split
      · rename_i level desc
        rw [Prog.wp_bind, wp_note]
        have hweak : Conn.Weak sent may o { s with log := s.log ++ [.alert level desc] } :=
          Inv.unsent (e := .alert level desc)
            (Inv.note hs nofun (fun _ => rfl) nofun (fun _ => rfl) moves_error) nofun
        split
        · unfold rcvAlert
          rw [Prog.wp_bind]
          refine Prog.wp_imp (tlsError_spec hweak) ?_ (fun _ _ => False.elim) False.elim
          rintro - s₂ ⟨hs₂, -⟩
          rw [Prog.wp_bind, wp_tr]
          split <;> exact hs₂.weak
        · rename_i hlevel
          have hinv : desc ≠ 0 ∨ level ≠ 1 →
              Conn.Inv sent may o { s with log := s.log ++ [.alert level desc] } := by
            intro hne
            refine Inv.unsent (e := .alert level desc) (Inv.note hs nofun
              (fun hf => absurd hf hlevel) nofun (fun hc => ?_) (Moves.refl _)) nofun
            have hc := Event.alert.inj hc
            exact absurd hc.2 (hne.resolve_right fun h => h hc.1)
          split
          · rename_i hone
            exact keep (hinv (.inr hone)) (rcvError_keeps rfl)
          · split
            · unfold tlsclosed alertHand
              rw [Prog.wp_bind, Prog.wp_bind, wp_update, wp_update]
              split <;> exact Inv.move hweak ⟨id, id, rfl, id, id⟩
            · rename_i hdesc
              have hs₁ := hinv (.inl fun h => hdesc (h ▸ rfl))
              split
              · exact keep hs₁ alertHand_keeps
              · split
                · exact keep hs₁ alertHand_keeps
                · exact keep hs₁ (rcvError_keeps rfl)
      · exact keep hs (rcvError_keeps rfl)
    · split
      · exact keep hs handshake_keeps
      · split
        · exact keep hs handshake_keeps
        · split
          · split
            · exact keep hs (rcvError_keeps rfl)
            · rw [Prog.wp_whenever]
              refine ⟨fun _ => ?_, fun _ => hs⟩
              rw [Prog.wp_bind, wp_update, wp_note]
              exact Inv.unsent (e := .accepted s.tr.inn.num check p)
                (Inv.note hs nofun nofun nofun nofun ⟨id, id, rfl, id, id⟩) nofun
          · exact keep hs (rcvError_keeps rfl)

theorem tlsrecread_keeps : Prog.Keeps (Conn.Inv sent may o) (tlsrecread L) := by
  refine Prog.Keeps.bind ?_ fun _ => Prog.Keeps.get.bind fun s => ?_
  · exact ensure_keeps.handle fun e => tlsError_keeps.whenever.bind fun _ => .error
  · refine Prog.Keeps.bind (update_keeps fun t => ?_) fun _ => Prog.Keeps.bind ?_ fun h => ?_
    · exact ⟨id, id, rfl, id, id⟩
    · refine readhead_keeps.handle fun e => Prog.Keeps.ite ?_ (tlsError_keeps.bind fun _ => .error)
      refine Prog.Keeps.bind (update_keeps fun t => ?_) fun _ => .error
      exact ⟨id, id, rfl, id, id⟩
    · intro s hs
      rw [Prog.wp_handle, Prog.wp_bind]
      have herror : ∀ e (s' : Conn K), s'.Weak sent may o →
          Prog.wp (do tlsError "channel error"; error e : Op K Unit) (fun _ => Conn.Inv sent may o)
            (fun _ => Conn.Inv sent may o) True s' := by
        intro e s' hs'
        rw [Prog.wp_bind]
        exact Prog.wp_imp (tlsError_spec hs') (fun _ _ h => h.1) (fun _ _ => False.elim) False.elim
      refine Prog.wp_imp (grab_keeps s hs) (fun b s₁ hs₁ => ?_) (fun e s' h => herror e s' h.weak) id
      rw [Prog.wp_bind]
      refine Prog.wp_imp (unprotect_keeps s₁ hs₁) (fun p s₂ hs₂ => ?_)
        (fun e s' h => herror e s' h.weak) id
      exact Prog.wp_imp (dispatch_spec hs₂) (fun _ _ h => h) herror id

variable {hand : Bool}

theorem readrecs_keeps {fuel : Nat} : Prog.Keeps (Conn.Inv sent may o) (readrecs L hand fuel) := by
  induction fuel with
  | zero => exact .fault
  | succ fuel ih =>
    refine Prog.Keeps.get.bind fun s => ?_
    exact Prog.Keeps.ite (tlsrecread_keeps.bind fun _ => ih) .pure

/-! ## The calls -/

theorem checkstate_keeps {ishand : Bool} {ok : List State} :
    Prog.Keeps (@Conn.Inv K sent may o) (checkstate ishand ok) := by
  intro s hs
  refine Prog.wp_imp checkstate_spec ?_ ?_ False.elim
  · rintro - _ ⟨rfl, -⟩
    exact hs
  · rintro - _ ⟨rfl, -⟩
    exact hs

/-- What is done to an open connection only may use that ciphers were granted. -/
theorem keeps_ofopen {x : Op K α} (hx : o = true → Prog.Keeps (Conn.Inv sent may o) x) :
    Prog.Keeps (Conn.Inv sent may o) (do checkstate false [SOpen]; x) := by
  intro s hs
  rw [Prog.wp_bind]
  refine Prog.wp_imp checkstate_spec ?_ ?_ False.elim
  · rintro - _ ⟨rfl, hok⟩
    exact hx (hs.granted (hs.isopen (List.mem_singleton.1 hok))) _ hs
  · rintro - _ ⟨rfl, -⟩
    exact hs

theorem dataread_keeps : Prog.Keeps (Conn.Inv sent may o) (dataread L n) := by
  refine keeps_ofopen fun ho => Prog.Keeps.get.bind fun s => readrecs_keeps.bind fun _ => ?_
  refine Prog.Keeps.get.bind fun s => ?_
  split
  · exact .fault
  · rename_i b l _
    refine Prog.Keeps.bind (update_keeps fun t => ?_) fun _ => Prog.Keeps.bind ?_ fun _ => .pure
    · exact ⟨id, id, rfl, id, id⟩
    · intro s hs
      exact Inv.unsent (e := .delivered b.data)
        (Inv.note hs nofun nofun (fun _ => ho) nofun (Moves.refl _)) nofun

theorem nexthand_keeps : Prog.Keeps (@Conn.Inv K sent may o) nexthand := by
  refine Prog.Keeps.get.bind fun s => Prog.Keeps.ite ?_ .pure
  split
  · exact .error
  · refine Prog.Keeps.bind (update_keeps fun t => ?_) fun _ => .error
    exact ⟨id, id, rfl, id, id⟩
  · exact update_keeps fun t => ⟨id, id, rfl, id, id⟩

theorem handbread_keeps : Prog.Keeps (Conn.Inv sent may o) (handbread L n) := by
  refine checkstate_keeps.bind fun _ => Prog.Keeps.get.bind fun s => readrecs_keeps.bind fun _ => ?_
  refine nexthand_keeps.bind fun _ => Prog.Keeps.get.bind fun s => ?_
  split
  · exact .fault
  · refine Prog.Keeps.bind (update_keeps fun t => ?_) fun _ => .pure
    exact ⟨id, id, rfl, id, id⟩

theorem tlsbwrite_keeps : Prog.Keeps (Conn.Inv sent may o) (tlsbwrite L hand b) := by
  refine Prog.Keeps.ite (tlsrecwrite_keeps (by decide) fun h => absurd h (by decide)) ?_
  exact keeps_ofopen fun ho => tlsrecwrite_keeps (by decide) fun _ => ho

theorem tlswrite_keeps {fuel : Nat} {a : List UInt8} :
    Prog.Keeps (Conn.Inv sent may o) (tlswrite L hand fuel a) := by
  induction fuel generalizing a with
  | zero => exact .fault
  | succ fuel ih => exact tlsbwrite_keeps.bind fun _ => Prog.Keeps.ite .pure ih

theorem ctlfd_keeps {chan : Option String} {vers : Int} :
    Prog.Keeps (@Conn.Inv K sent may o) (ctlfd chan vers) := by
  refine Prog.Keeps.get.bind fun s => Prog.Keeps.ite .error (Prog.Keeps.ite .error ?_)
  split
  · exact .error
  · refine Prog.Keeps.bind (update_keeps fun t => ?_) fun _ => update_keeps fun t => ?_
    · exact ⟨id, id, rfl, id, id⟩
    · split
      · rename_i hmem
        exact ⟨fun h => absurd (h ▸ hmem) (by decide), nofun, rfl, id, id⟩
      · exact Moves.refl t

theorem ctlversion_keeps {vers : Int} : Prog.Keeps (@Conn.Inv K sent may o) (ctlversion vers) := by
  refine Prog.Keeps.get.bind fun s => Prog.Keeps.ite .error (Prog.Keeps.ite .error ?_)
  refine Prog.Keeps.ite (update_keeps fun t => ?_) (Prog.Keeps.ite (update_keeps fun t => ?_) .error)
  · exact ⟨id, id, rfl, id, id⟩
  · exact ⟨id, id, rfl, id, id⟩

theorem ctlsecret_keeps {hashalg encalg : String} {isclient : Int} {x : List UInt8} :
    Prog.Keeps (Conn.Inv sent may o) (ctlsecret L hashalg encalg isclient x) := by
  refine Prog.Keeps.get.bind fun s => Prog.Keeps.ite .error ?_
  refine Prog.Keeps.bind (update_keeps fun t => ?_) fun _ => ?_
  · exact ⟨id, id, rfl, id, id⟩
  split
  · exact .error
  · split
    · exact .error
    · exact Prog.Keeps.ite .error (update_keeps fun t => ⟨id, id, rfl, id, id⟩)

theorem ctlchangecipher_keeps : Prog.Keeps (Conn.Inv sent may o) (ctlchangecipher L) := by
  refine Prog.Keeps.get.bind fun s => Prog.Keeps.ite .error ?_
  exact tlsrecwrite_keeps (by decide) fun h => absurd h (by decide)

theorem ctlopened_spec :
    Prog.wp ctlopened
      (fun _ s' => (s.tr.state = SHandshake ∨ s.tr.state = SOpen) ∧ s.tr.inn.sec.isSome ∧
        s.tr.out.sec.isSome ∧ s' = { s with tr := { s.tr with state := SOpen, opened := true } })
      (fun _ s' => s' = s) False s := by
  unfold ctlopened
  rw [Prog.wp_bind, wp_tr]
  split
  · rfl
  · rename_i hsec
    split
    · rfl
    · rename_i hstate
      rw [wp_update]
      rw [not_or, Bool.not_eq_true, Bool.not_eq_true, Option.isNone_eq_false_iff,
        Option.isNone_eq_false_iff] at hsec
      exact ⟨by tauto, hsec.1, hsec.2, rfl⟩

theorem ctlalert_spec {n : Int} (hs : s.Inv sent may o) :
    Prog.wp (ctlalert L n)
      (fun _ s' => ∃ sent', s'.Inv sent' may o ∧ (sent → sent') ∧
        (sent' → sent ∨ alertbytes s.tr.version n = [1, 0] ∧ closed ∉ s'.log))
      (fun _ s' => s' = s) True s := by
  unfold ctlalert
  rw [Prog.wp_bind, wp_tr]
  split
  · rfl
  · refine Prog.wp_imp (sendAlert_spec hs) (fun _ s' h => ?_) (fun _ _ => False.elim) id
    split at h
    · exact ⟨sent, h, id, Or.inl⟩
    · rename_i hfatal
      obtain ⟨sent', h, hmono, hsent⟩ := h.notice hs
        (fun h => absurd h (by decide : RAlert ≠ RApplication)) nofun
        (fun hf => hfatal (alertbytes_fatal.1 hf.2))
      exact ⟨sent', h, hmono, fun hs => (hsent hs).imp id fun h => ⟨(Event.wrote.inj h.1).2, h.2⟩⟩

/-! ## Runs -/

/-- Does the call read or write application data? -/
def Call.Data : Call → Prop
  | write hand _ | bwrite hand _ | read hand _ => hand = false
  | _ => False

/-- Is the call a write of application data? -/
def Call.DataWrite : Call → Prop
  | write hand _ | bwrite hand _ => hand = false
  | _ => False

/-- The call fails and changes nothing. -/
def Refused (L : Libsec K) (s : Conn K) (c : Call) : Prop :=
  ∀ bwrites, ∃ e, c.run L { s with bwrites := bwrites } = .error e { s with bwrites := bwrites }

theorem closed_fails {x : Op K α} (hs : s.tr.state ≠ SOpen) :
    Prog.wp (do checkstate false [SOpen]; x) (fun _ _ => False) (fun _ s' => s' = s) False s := by
  rw [Prog.wp_bind]
  refine Prog.wp_imp checkstate_spec ?_ (fun _ _ h => h.1) id
  rintro - _ ⟨rfl, hok⟩
  exact absurd (List.mem_singleton.1 hok) hs

variable {c : Call}

theorem refused (hc : c.Data) (hs : s.tr.state ≠ SOpen) : Refused L s c := by
  intro bw
  have h : Prog.wp (c.run L) (fun _ _ => False) (fun _ s' => s' = { s with bwrites := bw }) False
      { s with bwrites := bw } := by
    cases c with
    | write hand a =>
      subst hc
      change Prog.wp (tlswrite L false (a.length / MaxRecLen + 1) a) _ _ _ _
      rw [tlswrite, Prog.wp_bind]
      exact Prog.wp_imp (closed_fails hs) (fun _ _ => False.elim) (fun _ _ h => h) id
    | bwrite hand b =>
      subst hc
      exact closed_fails hs
    | read hand n =>
      subst hc
      change Prog.wp (do let _ ← dataread L n; return) _ _ _ _
      rw [Prog.wp_bind]
      exact Prog.wp_imp (closed_fails hs) (fun _ _ => False.elim) (fun _ _ h => h) id
    | _ => exact hc.elim
  obtain ⟨e, s', hrun, rfl⟩ := Prog.fails_of_wp h
  exact ⟨e, hrun⟩

/-- What holds of a connection between two calls. -/
def Conn.Sound (s : Conn K) : Prop := s.Inv (closing ∈ s.log) (s.tr.state = SOpen) s.tr.opened

theorem Conn.Inv.sound (h : s.Inv sent may o) : s.Sound :=
  { h with
    sent_iff := Iff.rfl
    isopen := id
    granted := fun hs => h.opened.trans (h.granted (h.isopen hs))
    opened := rfl
    data := fun e he hd => h.opened.trans (h.data e he hd)
    ciphers := fun ho => h.ciphers (h.opened.symm.trans ho) }

variable {bw : List (Option String)}

theorem Conn.Sound.opening (h : s.Sound) (hs : s.tr.state = SHandshake ∨ s.tr.state = SOpen)
    (hi : s.tr.inn.sec.isSome) (ho : s.tr.out.sec.isSome) :
    Conn.Sound { s with bwrites := bw, tr := { s.tr with state := SOpen, opened := true } } := by
  have hne : s.tr.state ≠ SError := by
    rcases hs with hs | hs <;> rw [hs] <;> exact State.noConfusion
  exact {
    quiet := h.quiet
    fatal := fun e he hf => absurd (h.fatal e he hf) hne
    data := fun _ _ _ => rfl
    closed := fun hc => absurd (h.closed hc) hne
    sent_iff := Iff.rfl
    isopen := id
    granted := fun _ => rfl
    opened := rfl
    ciphers := fun _ => ⟨hi, ho⟩ }

/-- One step: what may be new, and what was so before. -/
structure Steps (L : Libsec K) (s : Conn K) (a : Act) (s' : Conn K) : Prop where
  sound : s'.Sound
  data : ∀ e ∈ s'.log, e.Data → s.tr.opened = true
  sent : closing ∈ s'.log → closing ∈ s.log ∨
    (∃ n bw, a = .call (.alert n) bw ∧ alertbytes s.tr.version n = [1, 0]) ∧ closed ∉ s'.log
  isopen : s'.tr.state = SOpen → s.tr.state = SOpen ∨
    s.tr.state = SHandshake ∧ s.tr.inn.sec.isSome ∧ s.tr.out.sec.isSome ∧ ∃ bw, a = .call .opened bw

theorem Conn.Inv.steps {a : Act} (h : s'.Inv (closing ∈ s.log) (s.tr.state = SOpen) s.tr.opened) :
    Steps L s a s' where
  sound := h.sound
  data := h.data
  sent hs := .inl (h.sent_iff.1 hs)
  isopen hs := .inl (h.isopen hs)

theorem exec_call (h : s.exec L (.call c bw) = some s') :
    (∃ x, c.run L { s with bwrites := bw } = .ok x s') ∨
      ∃ e, c.run L { s with bwrites := bw } = .error e s' := by
  unfold Conn.exec at h
  split at h
  · rename_i heq
    cases heq
    split at h
    · split at h
      · rename_i hrun
        cases h
        exact .inl ⟨_, hrun⟩
      · rename_i hrun
        cases h
        exact .inr ⟨_, hrun⟩
      · cases h
    · cases h
  · rename_i heq
    cases heq
    split at h
    · rename_i hrun
      cases h
      exact .inl ⟨_, hrun⟩
    · rename_i hrun
      cases h
      exact .inr ⟨_, hrun⟩
    · cases h
  · rename_i heq
    cases heq
  · rename_i heq
    cases heq
  · rename_i heq
    cases heq

/-- What a call ends with, from what its program ends with. -/
theorem exec_wp {P : Conn K → Prop} (h : s.exec L (.call c bw) = some s')
    (hw : Prog.wp (c.run L) (fun _ => P) (fun _ => P) True { s with bwrites := bw }) : P s' := by
  obtain ⟨x, hrun⟩ | ⟨e, hrun⟩ := exec_call h
  · have hP := Prog.wp_ok hw hrun
    exact hP
  · have hP := Prog.wp_of_error hw hrun
    exact hP

/-- The calls but `opened` and `alert`. -/
theorem run_keeps (ho : c ≠ .opened) (ha : ∀ n, c ≠ .alert n) :
    Prog.Keeps (Conn.Inv sent may o) (c.run L) := by
  cases c with
  | fd => exact ctlfd_keeps
  | version => exact ctlversion_keeps
  | secret => exact ctlsecret_keeps
  | changecipher => exact ctlchangecipher_keeps
  | opened => exact absurd rfl ho
  | alert n => exact absurd rfl (ha n)
  | write => exact tlswrite_keeps
  | bwrite => exact tlsbwrite_keeps
  | read =>
    exact Prog.Keeps.ite (handbread_keeps.bind fun _ => .pure) (dataread_keeps.bind fun _ => .pure)

theorem exec_steps {a : Act} (hs : s.Sound) (h : s.exec L a = some s') : Steps L s a s' := by
  cases a with
  | call c bw =>
    have hs₁ : Conn.Inv (closing ∈ s.log) (s.tr.state = SOpen) s.tr.opened
        { s with bwrites := bw } := hs
    by_cases ho : c = .opened
    · subst ho
      refine exec_wp h (Prog.wp_imp ctlopened_spec ?_ ?_ False.elim)
      · rintro - _ ⟨hstate, hinn, hout, rfl⟩
        refine ⟨hs.opening hstate hinn hout, hs.data, Or.inl, fun _ => ?_⟩
        rcases hstate with hstate | hstate
        · exact .inr ⟨hstate, hinn, hout, bw, rfl⟩
        · exact .inl hstate
      · rintro - _ rfl
        exact hs₁.steps
    · by_cases ha : ∃ n, c = .alert n
      · obtain ⟨n, rfl⟩ := ha
        refine exec_wp h (Prog.wp_imp (ctlalert_spec hs₁) ?_ ?_ id)
        · rintro - s' ⟨sent', hs', hmono, hsent⟩
          refine ⟨hs'.sound, hs'.data, fun hc => ?_, fun ho => .inl (hs'.isopen ho)⟩
          exact (hsent (hs'.sent_iff.1 hc)).imp id fun hb => ⟨⟨n, bw, rfl, hb.1⟩, hb.2⟩
        · rintro - _ rfl
          exact hs₁.steps
      · refine Conn.Inv.steps (exec_wp h (run_keeps ho (fun n hn => ha ⟨n, hn⟩) _ hs₁))
  | arrives b =>
    cases h
    exact Conn.Inv.steps hs
  | openhand =>
    unfold Conn.exec at h
    dsimp only at h
    split at h
    · cases h
    · cases h
      exact Conn.Inv.steps (Inv.move hs ⟨id, id, rfl, id, id⟩)
  | closehand =>
    cases h
    exact Conn.Inv.steps (Inv.move hs ⟨id, id, rfl, id, id⟩)

theorem sound_zero : (Conn.zero : Conn K).Sound where
  quiet := List.Pairwise.nil
  fatal _ he := nomatch he
  data _ he := nomatch he
  closed he := nomatch he
  sent_iff := Iff.rfl
  isopen := id
  granted hs := nomatch hs
  opened := rfl
  ciphers ho := nomatch ho

theorem reach_sound (h : (tls L).Reach s) : s.Sound := by
  refine Lts.Inductive.reach ⟨?_, fun s a s' hs hstep => ?_⟩ h
  · rintro s rfl
    exact sound_zero
  · exact (exec_steps hs hstep).sound

/-! ## The statement -/

/-- A close notify alert is not sent from an open connection. Once one was sent, data messages are
not enabled, and none is received. -/
def Good (L : Libsec K) (s : Conn K) (a : Act) : Prop :=
  (∀ n bw, a = .call (.alert n) bw → alertbytes s.tr.version n = [1, 0] → s.tr.state ≠ SOpen) ∧
  (closing ∈ s.log →
    (∀ bw, a = .call .opened bw → s.tr.state = SHandshake → s.tr.inn.sec.isSome →
      s.tr.out.sec.isNone) ∧
    ∀ s', s.exec L a = some s' → closed ∉ s'.log)

theorem good_closing (h : ((tls L).restrict (Good L)).Reach s) :
    s.Sound ∧ (closing ∈ s.log → s.tr.state ≠ SOpen ∧ closed ∉ s.log) := by
  refine Lts.Inductive.reach (I := fun s : Conn K => s.Sound ∧
    (closing ∈ s.log → s.tr.state ≠ SOpen ∧ closed ∉ s.log)) ⟨?_, fun s a s' hs hstep => ?_⟩ h
  · rintro s rfl
    exact ⟨sound_zero, fun he => nomatch he⟩
  · obtain ⟨hstep, hgood, hsent⟩ := hstep
    have h := exec_steps hs.1 hstep
    refine ⟨h.sound, fun hc => ?_⟩
    by_cases hold : closing ∈ s.log
    · refine ⟨fun hopen => ?_, (hsent hold).2 s' hstep⟩
      rcases h.isopen hopen with hopen | ⟨hs₁, hi, ho, bw, rfl⟩
      · exact (hs.2 hold).1 hopen
      · have hnone := (hsent hold).1 bw rfl hs₁ hi
        rw [Option.isNone_iff_eq_none] at hnone
        rw [hnone] at ho
        exact absurd ho (by simp)
    · obtain ⟨⟨n, bw, rfl, hb⟩, hclosed⟩ := (h.sent hc).resolve_left hold
      refine ⟨fun hopen => ?_, hclosed⟩
      rcases h.isopen hopen with hopen | ⟨-, -, -, bw', ha⟩
      · exact hgood n bw rfl hb hopen
      · cases ha

/-- Once a fatal alert was sent or received, reads and writes of data fail and no record is written;
data is sent and delivered only after the connection was opened with both ciphers set. Once a close
notify alert was sent, data is not accepted, in the runs whose steps are all good. -/
theorem states_final (L : Libsec K) :
    (∀ s, (tls L).Reach s →
      (∀ e ∈ s.log, e.Fatal → ∀ c, Call.Data c → Refused L s c) ∧
      (s.log.Pairwise fun e e' => e.Fatal → ¬ e'.Wrote) ∧
      ∀ a s', s.exec L a = some s' → ∀ e ∈ s'.log, e.Data →
        s.tr.opened = true ∧ s.tr.inn.sec.isSome ∧ s.tr.out.sec.isSome) ∧
    ∀ s, ((tls L).restrict (Good L)).Reach s → closing ∈ s.log →
      (∀ c, Call.DataWrite c → Refused L s c) ∧ (closed ∈ s.log → s.tr.state = SClosed) := by
  refine ⟨fun s h => ?_, fun s h hc => ?_⟩
  · have hs := reach_sound h
    refine ⟨fun e he hf c hdata => refused hdata ?_, hs.quiet, fun a s' hstep e he hd => ?_⟩
    · rw [hs.fatal e he hf]
      exact State.noConfusion
    · have ho := (exec_steps hs hstep).data e he hd
      exact ⟨ho, hs.ciphers ho⟩
  · obtain ⟨hs, hsent⟩ := good_closing h
    refine ⟨fun c hwrite => refused ?_ (hsent hc).1, fun h => absurd h (hsent hc).2⟩
    cases c with
    | write => exact hwrite
    | bwrite => exact hwrite
    | _ => exact hwrite.elim

/-! ## A run -/

/-- A library that does nothing, for the runs on fixed inputs. -/
def nosec : Libsec Unit where
  setup _ _ _ := ()
  encrypt _ k b := (b, k)
  decrypt _ k b := (b, k)
  encrypt_length _ _ _ := rfl
  decrypt_length _ _ _ := rfl
  mac _ ha _ _ := List.replicate ha.maclen 0
  mac_length _ _ _ _ := List.length_replicate

private def alerted : List Act := [.call (.fd none 0x301) [], .call (.alert 0) []]

/-- The alert is sent during the handshake. -/
theorem states_final_alerted :
    ∃ s, ((tls nosec).restrict (Good nosec)).Reach s ∧ closing ∈ s.log ∧
      Refused nosec s (.write false [1]) := by
  have hrun : (alerted.foldlM (Conn.exec nosec) Conn.zero).any (fun s => closing ∈ s.log) = true := by
    decide +kernel
  obtain ⟨s, hs, hc⟩ := (Option.any_eq_true ..).1 hrun
  have hc := of_decide_eq_true hc
  rw [alerted, List.foldlM_cons] at hs
  obtain ⟨s₁, hs₁, hs₂⟩ := Option.bind_eq_some_iff.1 hs
  rw [List.foldlM_cons] at hs₂
  obtain ⟨s₂, hs₂, hs⟩ := Option.bind_eq_some_iff.1 hs₂
  cases hs
  have h₁ : s₁.log = [] := by
    cases hs₁
    rfl
  have h₀ : ((tls nosec).restrict (Good nosec)).Reach Conn.zero := ⟨[], .init rfl⟩
  have h : ((tls nosec).restrict (Good nosec)).Reach s := by
    refine (h₀.step ⟨hs₁, ?_, fun h => nomatch h⟩).step ⟨hs₂, ?_, fun h => ?_⟩
    · rintro n bw h
      cases h
    · rintro n bw - -
      cases hs₁
      exact State.noConfusion
    · rw [h₁] at h
      cases h
  exact ⟨s, h, hc, ((states_final nosec).2 s h hc).1 _ rfl⟩

private def halfclosed : List Act := [
  .openhand,
  .call (.fd none 0x301) [], .call (.version 0x301) [], .call (.secret "clear" "clear" 1 []) [],
  .call .changecipher [],
  .arrives (.blocks [⟨0, [20, 3, 1, 0, 1, 1]⟩]), .arrives (.blocks [⟨0, [22, 3, 1, 0, 1, 7]⟩]),
  .call (.read true 1) [],
  .call .opened [],
  .call (.alert 0) []]

private def accepts (s : Conn Unit) (c : Call) : Bool :=
  match c.run nosec s with
  | .ok _ _ => true
  | _ => false

/-- Data is written on an open connection after a close notify alert was sent. -/
theorem states_final_before :
    ¬ ∀ s, (tls nosec).Reach s → closing ∈ s.log → ∀ c, Call.DataWrite c → Refused nosec s c := by
  intro h
  have hrun : (halfclosed.foldlM (Conn.exec nosec) Conn.zero).any (fun s =>
      closing ∈ s.log ∧ accepts { s with bwrites := [] } (.write false [1]) = true) = true := by
    decide +kernel
  obtain ⟨s, hs, hc⟩ := (Option.any_eq_true ..).1 hrun
  obtain ⟨hc, haccepts⟩ := of_decide_eq_true hc
  have hreach : (tls nosec).Reach s :=
    Lts.Reach.exec (fun _ _ _ h => h) ⟨[], .init rfl⟩ hs
  obtain ⟨e, he⟩ := h s hreach hc (.write false [1]) rfl []
  unfold accepts at haccepts
  rw [he] at haccepts
  cases haccepts

end NixMark.Tls
