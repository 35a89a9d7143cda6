import NixMark.Nif.Modes
import NixMark.Qio.Queue

/-!
# Opens and closes of the files of an interface, step by step

An open is counted and its queue is open before `netown` is asked. A step is what is done with the
file locked; an open of `clone` looks at one file in a step.

* `Opening`, `Files`: an open that is under way; the interface with its queues.
* `Files.exec`, `files`: the steps, of any number of processes.
* `Exact`: counts, owners and queues are those of the opens. `Granted`: no open that was counted is
  refused.
* `files_exact`: then every run keeps to it. `open_refused`: an open that is refused stays counted.
-/

namespace NixMark.Nif

open Lib
open Function (update update_of_ne update_self)

variable {U A : Type}

/-! ## The system -/

inductive Phase where
  /-- the file that `openfile(nif, -1)` looks at next -/
  | scan (fp : Nat)
  /-- the file of `id` was opened, and `netown` comes next -/
  | netown (id : Nat)
deriving DecidableEq

structure Opening (U : Type) where
  user : U
  omode : Nat
  phase : Phase

structure Files (U A : Type) where
  nif : Netif U A
  iq : Nat → Qio.Queue
  opening : List (Opening U)
  chans : Nat → Nat

inductive Move (U : Type) where
  | netifopen (user : U) (id : Option Nat) (omode : Nat)
  /-- `mem`: there is memory for a new file -/
  | scan (n : Nat) (mem : Bool)
  | netown (n : Nat)
  | netifclose (id : Nat)

namespace Files

/-- How many opens of the file are under way. -/
def counted (s : Files U A) (id : Nat) : Nat :=
  s.opening.countP fun o => o.phase = .netown id

def reopen (s : Files U A) (id : Nat) (q : Qio.Queue) : Files U A :=
  { s with iq := Function.update s.iq id (Qio.qreopen q) }

/-- The open is over. -/
def finish (s : Files U A) (n : Nat) : Files U A := { s with opening := s.opening.eraseIdx n }

def next (s : Files U A) (n : Nat) (o : Opening U) (phase : Phase) : Files U A :=
  { s with opening := s.opening.set n { o with phase := phase } }

variable [DecidableEq U]

/-- The file that a clone has found. -/
def take (s : Files U A) (eve : U) (o : Opening U) (fp : Nat) (f : Netfile U) (q : Qio.Queue) :
    Files U A :=
  { s.reopen fp q with nif := s.nif.setfile fp (netown eve { f with inuse := 1 } o.user 0).1 }

variable [DecidableEq A]

omit [DecidableEq U] in
def close (s : Files U A) (id : Nat) : Files U A :=
  { s with
    nif := s.nif.netifclose id
    iq := if (s.nif.f id).any fun f => f.inuse == 1 then
      Function.update s.iq id (Qio.qclose (s.iq id)) else s.iq
    chans := Function.update s.chans id (s.chans id - 1) }

/-- The state, and whether the step refused an open. `limit` is that of the interface, and
`openmode` tells of a mode whether `openmode` takes it. -/
def exec (eve : U) (limit : Int) (openmode : Nat → Bool) (s : Files U A) :
    Move U → Option (Files U A × Bool)
  | .netifopen user none omode =>
    some ({ s with opening := ⟨user, omode, .scan 0⟩ :: s.opening }, false)
  | .netifopen user (some id) omode =>
    match s.nif.openfile id with
    | (_, .error _) => some (s, true)
    | (nif, .ok id) =>
      some ({ s.reopen id (s.iq id) with
        nif := nif
        opening := ⟨user, omode, .netown id⟩ :: s.opening }, false)
  | .scan n mem =>
    (s.opening[n]?).bind fun o =>
      match o.phase with
      | .netown _ => none
      | .scan fp =>
        if s.nif.nfile ≤ fp then some (s.finish n, true)
        else
          match s.nif.f fp with
          | none =>
            if mem then
              some ((s.take eve o fp .zero (Qio.qopen limit true false)).next n o (.netown fp), false)
            else some (s.finish n, true)
          | some f =>
            if f.inuse ≠ 0 then some (s.next n o (.scan (fp + 1)), false)
            else some ((s.take eve o fp f (s.iq fp)).next n o (.netown fp), false)
  | .netown n =>
    (s.opening[n]?).bind fun o =>
      match o.phase with
      | .scan _ => none
      | .netown id =>
        (s.nif.f id).map fun f =>
          let r := netown eve f o.user (o.omode % 8)
          let s := { s.finish n with nif := s.nif.setfile id r.1 }
          if r.2 && openmode o.omode then
            ({ s with chans := Function.update s.chans id (s.chans id + 1) }, false)
          else (s, true)
  | .netifclose id =>
    if s.chans id = 0 then none
    else some (s.close id, false)

end Files

variable [DecidableEq U] [DecidableEq A]

/-- All interleavings of opens and closes on an interface without files. -/
def files (U A : Type) [DecidableEq U] [DecidableEq A] (eve : U) (limit : Int)
    (openmode : Nat → Bool) : Lts (Files U A) (Move U) where
  init s := (∀ i, s.nif.f i = none) ∧ (∀ i, s.chans i = 0) ∧ s.opening = []
  step s e s' := ∃ r, s.exec eve limit openmode e = some (s', r)

/-! ## Statements -/

omit [DecidableEq A] in
/-- The mode of the file allows the open. -/
def Allows (eve : U) (f : Netfile U) (user : U) (omode : Nat) : Prop :=
  ∀ owner, f.owner = some owner →
    access (omode % 4) &&&
      (if user = owner then f.mode else if user = eve then f.mode <<< 3 else f.mode <<< 6) =
      access (omode % 4)

omit [DecidableEq A] in
def Granted (eve : U) (openmode : Nat → Bool) (s : Files U A) : Move U → Prop
  | .netown n => ∀ o id f, s.opening[n]? = some o → o.phase = .netown id → s.nif.f id = some f →
      Allows eve f o.user o.omode ∧ openmode o.omode = true
  | _ => True

structure Exact (eve : U) (limit : Int) (openmode : Nat → Bool) (s : Files U A) : Prop where
  inuse : ∀ i f, s.nif.f i = some f → f.inuse = s.chans i + s.counted i
  missing : ∀ i, s.nif.f i = none → s.chans i = 0 ∧ s.counted i = 0
  owner : ∀ i f, s.nif.f i = some f → f.inuse = 0 → f.owner = none
  queue : ∀ i f, s.nif.f i = some f → ((s.iq i).Qclosed = true ↔ f.inuse = 0)
  refused : ∀ e s', Granted eve openmode s e → s.exec eve limit openmode e = some (s', true) →
    s'.nif = s.nif ∧ s'.iq = s.iq ∧ s'.chans = s.chans ∧ s'.counted = s.counted
  clone : ∀ n o fp, s.opening[n]? = some o → o.phase = .scan fp → fp < s.nif.nfile →
    ∃ s', s.exec eve limit openmode (.scan n true) = some (s', false) ∧
      ((∃ o', s'.opening[n]? = some o' ∧ o'.phase = .netown fp) ↔
        ∀ f, s.nif.f fp = some f → f.inuse = 0)

/-! ## Counts -/

section

omit [DecidableEq U] [DecidableEq A]

variable {s s' : Files U A} {n i : Nat} {o : Opening U}

theorem counted_cons (o : Opening U) (l : List (Opening U)) :
    (o :: l).countP (fun o => o.phase = .netown i) =
      l.countP (fun o => o.phase = .netown i) + if o.phase = .netown i then 1 else 0 := by
  rw [List.countP_cons]
  simp only [decide_eq_true_eq]

theorem counted_finish (ho : s.opening[n]? = some o) :
    s.counted i = (s.finish n).counted i + if o.phase = .netown i then 1 else 0 := by
  obtain ⟨hn, rfl⟩ := List.getElem?_eq_some_iff.mp ho
  exact ((List.getElem_cons_eraseIdx_perm hn).countP_eq _).symm.trans (counted_cons _ _)

theorem counted_next {fp : Nat} (ho : s.opening[n]? = some o) (hscan : o.phase = .scan fp)
    (phase : Phase) :
    (s.next n o phase).counted i = s.counted i + if phase = .netown i then 1 else 0 := by
  obtain ⟨hn, rfl⟩ := List.getElem?_eq_some_iff.mp ho
  unfold Files.counted Files.next
  rw [List.countP_set hn, hscan]
  simp

end

/-- What holds of a file that is opened by `n` opens and channels. -/
structure Held (f : Netfile U) (q : Qio.Queue) (n : Nat) : Prop where
  inuse : f.inuse = n
  owner : n = 0 → f.owner = none
  queue : q.Qclosed = true ↔ n = 0

/-- And of one that may not be there. -/
def Stands (f : Option (Netfile U)) (q : Qio.Queue) (n : Nat) : Prop :=
  f.elim (n = 0) fun f => Held f q n

def Files.Inv (s : Files U A) : Prop :=
  ∀ i, Stands (s.nif.f i) (s.iq i) (s.chans i + s.counted i)

section

omit [DecidableEq U] [DecidableEq A]

variable {s s' : Files U A} {f : Netfile U} {q : Qio.Queue} {n : Nat}

theorem Stands.core {g g' : Option (Netfile U)} (h : Stands g q n)
    (hc : g'.map Netfile.core = g.map Netfile.core) : Stands g' q n := by
  cases g with
  | none =>
    obtain rfl := Option.map_eq_none_iff.mp hc
    exact h
  | some f =>
    obtain ⟨f', rfl, hf⟩ := Option.map_eq_some_iff.mp hc
    obtain ⟨hinuse, howner, hqueue⟩ := h
    have hi := congrArg Netfile.inuse hf
    have ho := congrArg Netfile.owner hf
    exact ⟨hi.trans hinuse, fun hz => ho.trans (howner hz), hqueue⟩

/-- A step that changes one file. -/
theorem Files.Inv.change (h : s.Inv) (id : Nat)
    (hf : ∀ j ≠ id, (s'.nif.f j).map Netfile.core = (s.nif.f j).map Netfile.core)
    (hq : ∀ j ≠ id, s'.iq j = s.iq j)
    (hn : ∀ j ≠ id, s'.chans j + s'.counted j = s.chans j + s.counted j)
    (hid : Stands (s'.nif.f id) (s'.iq id) (s'.chans id + s'.counted id)) : s'.Inv := by
  intro j
  by_cases hj : j = id
  · rw [hj]
    exact hid
  · rw [hq j hj, hn j hj]
    exact (h j).core (hf j hj)

/-- A step that changes none. -/
theorem Files.Inv.same (h : s.Inv) (hf : s'.nif = s.nif) (hq : s'.iq = s.iq)
    (hc : s'.chans = s.chans) (hn : ∀ i, s'.counted i = s.counted i) : s'.Inv := by
  intro i
  rw [hf, hq, hc, hn i]
  exact h i

theorem Files.Inv.held (h : s.Inv) {i : Nat} (hf : s.nif.f i = some f) :
    Held f (s.iq i) (s.chans i + s.counted i) := by
  have hi := h i
  rw [hf] at hi
  exact hi

/-- A file that is not in use. -/
theorem Files.Inv.free (h : s.Inv) {i : Nat} (hfree : ∀ f, s.nif.f i = some f → f.inuse = 0) :
    s.chans i + s.counted i = 0 := by
  cases hf : s.nif.f i with
  | none =>
    have hi := h i
    rw [hf] at hi
    exact hi
  | some f =>
    have hi := (h.held hf).inuse
    have hz := hfree f hf
    omega

end

/-! ## Steps -/

section

variable {s s' : Files U A} {eve : U} {limit : Int} {openmode : Nat → Bool} {n fp : Nat}
  {o : Opening U}

section
omit [DecidableEq A]

theorem netown_inuse (eve o : U) (p : Netfile U) (omode : Nat) :
    (netown eve p o omode).1.inuse = p.inuse := by
  rcases netown_cases eve o p omode with he | he <;> rw [he]

theorem netown_allows {f : Netfile U} {user : U} {omode : Nat} (h : Allows eve f user omode) :
    (netown eve f user (omode % 8)).2 = true := by
  unfold netown
  cases ho : f.owner with
  | none => rfl
  | some owner =>
    dsimp only
    rw [Nat.mod_mod_of_dvd omode (show 4 ∣ 8 by decide)]
    exact beq_iff_eq.mpr (h owner ho)

/-- A clone takes a file that was not in use. -/
theorem Files.Inv.take (h : s.Inv) (ho : s.opening[n]? = some o) (hscan : o.phase = .scan fp)
    (hfree : ∀ f, s.nif.f fp = some f → f.inuse = 0) (f : Netfile U) (q : Qio.Queue) :
    ((s.take eve o fp f q).next n o (.netown fp)).Inv := by
  have hcounted : ∀ i, ((s.take eve o fp f q).next n o (.netown fp)).counted i =
      s.counted i + if Phase.netown fp = .netown i then 1 else 0 := fun i => counted_next ho hscan _
  refine h.change fp (fun j hj => ?_) (fun j hj => ?_) (fun j hj => ?_) ?_
  · exact congrArg (Option.map _) (update_of_ne hj _ _)
  · exact update_of_ne hj _ _
  · rw [hcounted j, if_neg fun he => hj (Phase.netown.inj he).symm]
    rfl
  · rw [hcounted fp, if_pos rfl]
    have hz := h.free hfree
    have hf : ((s.take eve o fp f q).next n o (.netown fp)).nif.f fp =
        some (netown eve { f with inuse := 1 } o.user 0).1 := update_self ..
    have hq : ((s.take eve o fp f q).next n o (.netown fp)).iq fp = Qio.qreopen q :=
      update_self ..
    have hn : s.chans fp + (s.counted fp + 1) = 1 := by omega
    rw [hf, hq]
    change Held _ _ (s.chans fp + (s.counted fp + 1))
    rw [hn]
    refine ⟨netown_inuse .., fun h => absurd h Nat.one_ne_zero, fun h => ?_, fun h => ?_⟩
    · cases h
    · cases h

end

omit [DecidableEq U] [DecidableEq A] in
theorem Files.Inv.openfile {id : Nat} {f : Netfile U} (h : s.Inv) (hid : o.phase = .netown id)
    (hf : s.nif.f id = some f) (hnif : s'.nif = s.nif.setfile id { f with inuse := f.inuse + 1 })
    (hiq : s'.iq = update s.iq id (Qio.qreopen (s.iq id)))
    (hopening : s'.opening = o :: s.opening) (hchans : s'.chans = s.chans) : s'.Inv := by
  have hcounted : ∀ i, s'.counted i = s.counted i + if o.phase = .netown i then 1 else 0 := by
    intro i
    unfold Files.counted
    rw [hopening]
    exact counted_cons _ _
  refine h.change id (fun j hj => ?_) (fun j hj => ?_) (fun j hj => ?_) ?_
  · rw [hnif]
    exact congrArg (Option.map _) (update_of_ne hj _ _)
  · rw [hiq, update_of_ne hj]
  · rw [hcounted j, hid, if_neg fun he => hj (Phase.netown.inj he).symm, hchans]
    rfl
  · have hinuse := (h.held hf).inuse
    rw [hcounted id, hid, if_pos rfl, hchans, hiq, hnif, setfile_f, update_self, update_self]
    refine ⟨?_, fun hz => by omega, fun hq => ?_, fun hz => by omega⟩
    · dsimp only
      omega
    · cases hq

omit [DecidableEq A] in
theorem Files.Inv.netown {id : Nat} {f : Netfile U} {s' : Files U A} (h : s.Inv)
    (ho : s.opening[n]? = some o) (hid : o.phase = .netown id) (hf : s.nif.f id = some f)
    (hnif : s'.nif = s.nif.setfile id (netown eve f o.user (o.omode % 8)).1) (hiq : s'.iq = s.iq)
    (hopening : s'.opening = (s.finish n).opening)
    (hchans : s'.chans = update s.chans id (s.chans id + 1)) : s'.Inv := by
  have hcounted : ∀ i, s.counted i = s'.counted i + if o.phase = .netown i then 1 else 0 := by
    intro i
    rw [counted_finish ho]
    unfold Files.counted
    rw [hopening]
  refine h.change id (fun j hj => ?_) (fun j _ => congrFun hiq j) (fun j hj => ?_) ?_
  · rw [hnif]
    exact congrArg (Option.map _) (update_of_ne hj _ _)
  · rw [hcounted j, hid, if_neg fun he => hj (Phase.netown.inj he).symm, hchans, update_of_ne hj]
    rfl
  · have hc := hcounted id
    rw [hid, if_pos rfl] at hc
    have hheld := h.held hf
    have hsum : s'.chans id + s'.counted id = s.chans id + s.counted id := by
      rw [hchans, update_self]
      omega
    rw [hsum, hiq, hnif, setfile_f, update_self]
    exact ⟨(netown_inuse ..).trans hheld.inuse, fun hz => by omega, hheld.queue⟩

omit [DecidableEq U] in
theorem netifclose_spec {nif : Netif U A} {id : Nat} {f : Netfile U} (hf : nif.f id = some f) :
    (∀ j ≠ id, ((nif.netifclose id).f j).map Netfile.core = (nif.f j).map Netfile.core) ∧
      ∃ f', (nif.netifclose id).f id = some f' ∧ f'.inuse = f.inuse - 1 ∧
        (f.inuse - 1 = 0 → f'.owner = none) := by
  unfold Netif.netifclose
  rw [hf]
  dsimp only
  have hset : (nif.setfile id { f with inuse := f.inuse - 1 }).f id =
      some { f with inuse := f.inuse - 1 } := update_self ..
  have hsetoff : ∀ j ≠ id, (nif.setfile id { f with inuse := f.inuse - 1 }).f j = nif.f j :=
    fun j hj => update_of_ne hj _ _
  split
  · obtain ⟨-, -, -, -, hrest, f', hf', hinuse, hclosed⟩ := lastclose_spec hset
    exact ⟨fun j hj => (hrest j hj).trans (congrArg _ (hsetoff j hj)), f', hf', hinuse,
      fun _ => hclosed.owner⟩
  · rename_i hmore
    exact ⟨fun j hj => congrArg _ (hsetoff j hj), _, hset, rfl, fun hz => absurd hz hmore⟩

omit [DecidableEq U] in
theorem Files.Inv.close {id : Nat} (h : s.Inv) (hopen : s.chans id ≠ 0) : (s.close id).Inv := by
  cases hf : s.nif.f id with
  | none =>
    have hz := h.free (i := id) fun f hf' => by
      rw [hf] at hf'
      cases hf'
    omega
  | some f =>
    obtain ⟨hinuse, howner, hqueue⟩ := h.held hf
    obtain ⟨hrest, f', hf', hinuse', howner'⟩ := netifclose_spec hf
    have hcounted : ∀ i, (s.close id).counted i = s.counted i := fun _ => rfl
    have hiq : (s.close id).iq = if f.inuse == 1 then
        update s.iq id (Qio.qclose (s.iq id)) else s.iq := by
      unfold Files.close
      rw [hf]
      rfl
    refine h.change id hrest (fun j hj => ?_) (fun j hj => ?_) ?_
    · rw [hiq]
      split
      · exact update_of_ne hj _ _
      · rfl
    · exact congrArg (· + s.counted j) (update_of_ne hj _ _)
    · have hchans : (s.close id).chans id = s.chans id - 1 := update_self ..
      rw [hcounted, hchans, hiq, show (s.close id).nif.f id = some f' from hf']
      refine ⟨by omega, fun hz => howner' (by omega), ?_⟩
      split
      · rename_i hone
        have hone := eq_of_beq hone
        rw [update_self]
        exact ⟨fun _ => by omega, fun _ => rfl⟩
      · rename_i hmore
        have hmore : f.inuse ≠ 1 := fun he => hmore (beq_iff_eq.mpr he)
        exact ⟨fun hq => by have hz := hqueue.mp hq; omega, fun hz => by omega⟩

theorem exec_inv {e : Move U} {r : Bool} (h : s.Inv) (hg : Granted eve openmode s e)
    (he : s.exec eve limit openmode e = some (s', r)) : s'.Inv := by
  cases e with
  | netifopen user id omode =>
    cases id with
    | none =>
      cases he
      exact h.same rfl rfl rfl fun i => counted_cons _ _
    | some id =>
      dsimp only [Files.exec] at he
      unfold Netif.openfile at he
      cases hf : s.nif.f id with
      | none =>
        rw [hf] at he
        cases he
        exact h
      | some f =>
        rw [hf] at he
        cases he
        exact h.openfile (o := ⟨user, omode, .netown id⟩) rfl hf rfl rfl rfl rfl
  | scan n mem =>
    obtain ⟨o, ho, he⟩ := Option.bind_eq_some_iff.mp he
    split at he
    · cases he
    rename_i fp hscan
    have hfinish : (s.finish n).Inv := by
      refine h.same rfl rfl rfl fun i => ?_
      rw [counted_finish ho, hscan]
      rfl
    split at he
    · cases he
      exact hfinish
    split at he
    · rename_i hnone
      split at he
      · cases he
        refine h.take ho hscan (fun f hf => ?_) _ _
        rw [hnone] at hf
        cases hf
      · cases he
        exact hfinish
    · rename_i f hf
      split at he
      · cases he
        exact h.same rfl rfl rfl fun i => counted_next ho hscan _
      · rename_i hz
        cases he
        refine h.take ho hscan (fun g hg => ?_) _ _
        obtain rfl := Option.some.inj (hf.symm.trans hg)
        exact not_not.mp hz
  | netown n =>
    obtain ⟨o, ho, he⟩ := Option.bind_eq_some_iff.mp he
    split at he
    · cases he
    rename_i id hid
    obtain ⟨f, hf, he⟩ := Option.map_eq_some_iff.mp he
    obtain ⟨hallows, hmode⟩ := hg o id f ho hid hf
    dsimp only at he
    rw [netown_allows hallows, hmode] at he
    cases he
    exact h.netown ho hid hf rfl rfl rfl rfl
  | netifclose id =>
    dsimp only [Files.exec] at he
    split at he
    · cases he
    · rename_i hopen
      cases he
      exact h.close hopen

/-- An open that is refused leaves everything as it was. -/
theorem exec_refused {e : Move U} (hg : Granted eve openmode s e)
    (he : s.exec eve limit openmode e = some (s', true)) :
    s'.nif = s.nif ∧ s'.iq = s.iq ∧ s'.chans = s.chans ∧ s'.counted = s.counted := by
  cases e with
  | netifopen user id omode =>
    cases id with
    | none => cases he
    | some id =>
      dsimp only [Files.exec] at he
      split at he
      · cases he
        exact ⟨rfl, rfl, rfl, rfl⟩
      · cases he
  | scan n mem =>
    obtain ⟨o, ho, he⟩ := Option.bind_eq_some_iff.mp he
    split at he
    · cases he
    rename_i fp hscan
    have hfinish : (s.finish n).counted = s.counted := by
      funext i
      rw [counted_finish ho, hscan]
      rfl
    split at he
    · cases he
      exact ⟨rfl, rfl, rfl, hfinish⟩
    split at he
    · split at he
      · cases he
      · cases he
        exact ⟨rfl, rfl, rfl, hfinish⟩
    · split at he <;> cases he
  | netown n =>
    obtain ⟨o, ho, he⟩ := Option.bind_eq_some_iff.mp he
    split at he
    · cases he
    rename_i id hid
    obtain ⟨f, hf, he⟩ := Option.map_eq_some_iff.mp he
    obtain ⟨hallows, hmode⟩ := hg o id f ho hid hf
    dsimp only at he
    rw [netown_allows hallows, hmode] at he
    cases he
  | netifclose id =>
    dsimp only [Files.exec] at he
    split at he <;> cases he

/-- A clone takes the first file that it finds not in use. -/
theorem scan_takes (eve : U) (limit : Int) (openmode : Nat → Bool) (ho : s.opening[n]? = some o)
    (hscan : o.phase = .scan fp) (hfp : fp < s.nif.nfile) :
    ∃ s', s.exec eve limit openmode (.scan n true) = some (s', false) ∧
      ((∃ o', s'.opening[n]? = some o' ∧ o'.phase = .netown fp) ↔
        ∀ f, s.nif.f fp = some f → f.inuse = 0) := by
  have hn := (List.getElem?_eq_some_iff.mp ho).1
  have hnext : ∀ (t : Files U A) phase, t.opening = s.opening →
      (t.next n o phase).opening[n]? = some { o with phase := phase } := by
    intro t phase ht
    unfold Files.next
    rw [ht]
    exact List.getElem?_set_self hn
  have hexec : s.exec eve limit openmode (.scan n true) = (s.nif.f fp).elim
      (some ((s.take eve o fp .zero (Qio.qopen limit true false)).next n o (.netown fp), false))
      fun f =>
        if f.inuse ≠ 0 then some (s.next n o (.scan (fp + 1)), false)
        else some ((s.take eve o fp f (s.iq fp)).next n o (.netown fp), false) := by
    dsimp only [Files.exec]
    rw [ho]
    dsimp only [Option.bind]
    rw [hscan]
    dsimp only
    rw [if_neg (Nat.not_le.mpr hfp)]
    cases s.nif.f fp <;> rfl
  rw [hexec]
  cases hf : s.nif.f fp with
  | none =>
    refine ⟨_, rfl, ⟨fun _ f hf => ?_, fun _ => ⟨_, hnext _ _ rfl, rfl⟩⟩⟩
    cases hf
  | some f =>
    dsimp only [Option.elim]
    split
    · rename_i hne
      refine ⟨_, rfl, fun ⟨o', ho', hphase⟩ => ?_, fun hz => absurd (hz f rfl) hne⟩
      obtain rfl := Option.some.inj ((hnext s _ rfl).symm.trans ho')
      cases hphase
    · rename_i hz
      refine ⟨_, rfl, fun _ g hg => ?_, fun _ => ⟨_, hnext _ _ rfl, rfl⟩⟩
      obtain rfl := Option.some.inj hg
      exact not_not.mp hz

/-! ## The result -/

theorem Files.Inv.exact (h : s.Inv) : Exact eve limit openmode s where
  inuse i f hf := (h.held hf).inuse
  missing i hf := by
    have hz := h.free (i := i) fun f hf' => by
      rw [hf] at hf'
      cases hf'
    omega
  owner i f hf hz := by
    have hheld := h.held hf
    have hinuse := hheld.inuse
    exact hheld.owner (by omega)
  queue i f hf := by
    have hheld := h.held hf
    have hinuse := hheld.inuse
    rw [hheld.queue]
    omega
  refused _ _ hg he := exec_refused hg he
  clone _ _ _ ho hscan hfp := scan_takes eve limit openmode ho hscan hfp

/-- In every run in which no open is refused after it was counted. -/
theorem files_exact (h : ((files U A eve limit openmode).restrict (Granted eve openmode)).Reach s) :
    Exact eve limit openmode s := by
  refine Files.Inv.exact (Lts.Inductive.reach (I := Files.Inv) ⟨fun s hs i => ?_, ?_⟩ h)
  · obtain ⟨hf, hchans, hopening⟩ := hs
    rw [hf i, hchans i]
    change 0 + s.counted i = 0
    unfold Files.counted
    rw [hopening]
    rfl
  · rintro s e s' hi ⟨⟨r, he⟩, hg⟩
    exact exec_inv hi hg he

end

/-! ## Two runs -/

/-- An interface of one file. -/
private def single : Files Nat Unit where
  nif := ⟨1, fun _ => none, [], 0, 0, 0, 0, false, fun _ => false⟩
  iq _ := Qio.qopen 0 true false
  opening := []
  chans _ := 0

private def anymode (omode : Nat) : Bool := omode ≤ 3

theorem granted_step {s s' : Files Nat Unit} {e : Move Nat} {r : Bool}
    (h : ((files Nat Unit 0 64 anymode).restrict (Granted 0 anymode)).Reach s)
    (he : s.exec 0 64 anymode e = some (s', r)) (hg : Granted 0 anymode s e) :
    ((files Nat Unit 0 64 anymode).restrict (Granted 0 anymode)).Reach s' := h.step ⟨⟨r, he⟩, hg⟩

theorem single_init : (files Nat Unit 0 64 anymode).init single :=
  ⟨fun _ => rfl, fun _ => rfl, rfl⟩

/-- A clone is opened to read and write. -/
theorem files_exact_clone : ∃ s : Files Nat Unit, s.chans 0 = 1 ∧ Exact 0 64 anymode s := by
  have h0 : ((files Nat Unit 0 64 anymode).restrict (Granted 0 anymode)).Reach single :=
    ⟨[], .init single_init⟩
  have h1 := granted_step (e := .netifopen 1 none 2) h0 rfl trivial
  have h2 := granted_step (e := .scan 0 true) h1 rfl trivial
  have h3 := granted_step (e := .netown 0) h2 rfl fun o id f ho hid hf => ?_
  · exact ⟨_, rfl, files_exact h3⟩
  · obtain rfl := Option.some.inj ho
    obtain rfl := Phase.netown.inj hid
    obtain rfl := Option.some.inj hf
    refine ⟨fun owner howner => ?_, rfl⟩
    obtain rfl := Option.some.inj howner
    rfl

/-- Another user opens the file that one has opened: it is refused, and counted. -/
theorem open_refused : ¬ ∀ s : Files Nat Unit, (files Nat Unit 0 64 anymode).Reach s →
    Exact 0 64 anymode s := by
  intro h
  have h0 : (files Nat Unit 0 64 anymode).Reach single := ⟨[], .init single_init⟩
  have h1 := h0.step (e := .netifopen 1 none 2) ⟨false, rfl⟩
  have h2 := h1.step (e := .scan 0 true) ⟨false, rfl⟩
  have h3 := h2.step (e := .netown 0) ⟨false, rfl⟩
  have h4 := h3.step (e := .netifopen 2 (some 0) 0) ⟨false, rfl⟩
  have h5 := h4.step (e := .netown 0) ⟨true, rfl⟩
  have hinuse := (h _ h5).inuse 0 _ rfl
  exact absurd hinuse (by decide)

end NixMark.Nif
