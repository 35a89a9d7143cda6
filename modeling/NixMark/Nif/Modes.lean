import NixMark.Lib.Sums
import NixMark.Nif.Files

/-!
# The modes of an interface

* `opened`: how many open files meet a condition; `Modes`: the counts of the interface are these.
* `Netfile.core`, `Apart`: what has to do with multicast addresses is left aside.
* One lemma for each operation.
-/

namespace NixMark.Nif

open Lib
open Function (update update_apply update_idem update_of_ne update_self)

variable {U A : Type} {nif nif' nif'' : Netif U A} {chans chans' : Nat → Nat} {id : Nat}
  {f f' : Netfile U}

/-- A file without its multicast addresses. -/
def Netfile.core (f : Netfile U) : Netfile U := { f with maddr := fun _ => false, nmaddr := 0 }

def promiscuous (f : Netfile U) : Bool := f.prom != 0

def scanning (f : Netfile U) : Bool := f.scan != 0

def alltypes (f : Netfile U) : Bool := decide (f.type < 0)

/-- The file is open and meets the condition. -/
def isopen (nif : Netif U A) (chans : Nat → Nat) (p : Netfile U → Bool) (i : Nat) : Bool :=
  decide (0 < chans i) && (nif.f i).any p

/-- How many open files meet the condition. -/
def opened (nif : Netif U A) (chans : Nat → Nat) (p : Netfile U → Bool) : Nat :=
  (List.range nif.nfile).countP (isopen nif chans p)

/-- A file that is not open. -/
structure Netfile.Closed (f : Netfile U) : Prop where
  owner : f.owner = none
  prom : f.prom = 0
  scan : f.scan = 0
  type : f.type = 0

structure Modes (nif : Netif U A) (chans : Nat → Nat) : Prop where
  file : ∀ i, nif.f i = none → chans i = 0
  low : ∀ i f, nif.f i = some f → i < nif.nfile
  inuse : ∀ i f, nif.f i = some f → f.inuse = chans i
  closed : ∀ i f, nif.f i = some f → chans i = 0 → f.Closed
  prom : nif.prom = opened nif chans promiscuous
  scan : nif.scan = opened nif chans scanning
  all : nif.all = opened nif chans alltypes

/-! ## Multicast addresses aside -/

structure Apart (nif nif' : Netif U A) : Prop where
  nfile : nif'.nfile = nif.nfile
  prom : nif'.prom = nif.prom
  scan : nif'.scan = nif.scan
  all : nif'.all = nif.all
  f : ∀ i, (nif'.f i).map Netfile.core = (nif.f i).map Netfile.core

theorem Apart.refl (nif : Netif U A) : Apart nif nif := ⟨rfl, rfl, rfl, rfl, fun _ => rfl⟩

theorem Apart.trans (h : Apart nif nif') (h' : Apart nif' nif'') : Apart nif nif'' where
  nfile := h'.nfile.trans h.nfile
  prom := h'.prom.trans h.prom
  scan := h'.scan.trans h.scan
  all := h'.all.trans h.all
  f i := (h'.f i).trans (h.f i)

variable {g : Netfile U → Netfile U}

theorem Apart.mod (hg : ∀ f, (g f).core = f.core) : Apart nif (nif.mod id g) where
  nfile := rfl
  prom := rfl
  scan := rfl
  all := rfl
  f i := by
    change Option.map _ (update nif.f id ((nif.f id).map g) i) = _
    rw [update_apply]
    split
    · rename_i hi
      rw [hi, Option.map_map]
      congr 1
      funext f
      exact hg f
    · rfl

variable {i : Nat}

theorem Apart.setbit : Apart nif (nif.setbit id i) := by
  unfold Netif.setbit
  split
  · exact .mod fun _ => rfl
  · exact .refl nif

theorem Apart.clearbit : Apart nif (nif.clearbit id i) := by
  unfold Netif.clearbit
  split
  · exact .mod fun _ => rfl
  · exact .refl nif

variable [DecidableEq A]

theorem Apart.netmulti {addr : A} {add : Bool} : Apart nif (nif.netmulti id addr add).1 := by
  unfold Netif.netmulti
  split
  · exact .refl nif
  · dsimp only
    split
    · refine Apart.trans ?_ .setbit
      exact ⟨rfl, rfl, rfl, rfl, fun _ => rfl⟩
    · dsimp only
      refine Apart.trans ?_ .setbit
      split <;> exact ⟨rfl, rfl, rfl, rfl, fun _ => rfl⟩
    · exact .refl nif
    · split
      · exact .refl nif
      · dsimp only
        refine Apart.trans ?_ .clearbit
        split <;> exact ⟨rfl, rfl, rfl, rfl, fun _ => rfl⟩

theorem Apart.dropmulti {l : List (Netaddr A)} : Apart nif (nif.dropmulti id l) := by
  unfold Netif.dropmulti
  induction l generalizing nif with
  | nil => exact .refl nif
  | cons ap l ih =>
    rw [List.foldl_cons]
    refine Apart.trans ?_ ih
    split
    · exact .netmulti
    · exact .refl nif

omit [DecidableEq A]

theorem isopen_core {p : Netfile U → Bool} (hp : ∀ f, p f.core = p f)
    (hf : (nif'.f i).map Netfile.core = (nif.f i).map Netfile.core) (hc : chans' i = chans i) :
    isopen nif' chans' p i = isopen nif chans p i := by
  have hany : ∀ o : Option (Netfile U), o.any p = (o.map Netfile.core).any p := by
    intro o
    cases o with
    | none => rfl
    | some f => exact (hp f).symm
  unfold isopen
  rw [hany, hf, ← hany, hc]

/-- How many open files meet the condition, when one file changes. -/
theorem opened_off {p : Netfile U → Bool} (hp : ∀ f, p f.core = p f) (hid : id < nif.nfile)
    (hn : nif'.nfile = nif.nfile)
    (hf : ∀ j ≠ id, (nif'.f j).map Netfile.core = (nif.f j).map Netfile.core)
    (hc : ∀ j ≠ id, chans' j = chans j) :
    opened nif' chans' p + (isopen nif chans p id).toNat =
      opened nif chans p + (isopen nif' chans' p id).toNat := by
  unfold opened
  rw [hn]
  exact countP_of_off List.nodup_range (List.mem_range.mpr hid) fun j hj =>
    isopen_core hp (hf j hj) (hc j hj)

/-- One file changes, and the counts with it. -/
theorem Modes.change (h : Modes nif chans) (f' : Netfile U) (hid : id < nif.nfile) (hn : nif'.nfile = nif.nfile)
    (hf : ∀ j ≠ id, (nif'.f j).map Netfile.core = (nif.f j).map Netfile.core)
    (hc : ∀ j ≠ id, chans' j = chans j) (hf' : (nif'.f id).map Netfile.core = some f'.core)
    (hinuse : f'.inuse = chans' id) (hclosed : chans' id = 0 → f'.Closed)
    (hprom : nif'.prom + (isopen nif chans promiscuous id).toNat =
      nif.prom + (decide (0 < chans' id) && promiscuous f').toNat)
    (hscan : nif'.scan + (isopen nif chans scanning id).toNat =
      nif.scan + (decide (0 < chans' id) && scanning f').toNat)
    (hall : nif'.all + (isopen nif chans alltypes id).toNat =
      nif.all + (decide (0 < chans' id) && alltypes f').toNat) : Modes nif' chans' := by
  have hopen : ∀ p : Netfile U → Bool, (∀ f, p f.core = p f) →
      isopen nif' chans' p id = (decide (0 < chans' id) && p f') := by
    intro p hp
    obtain ⟨g, hg, hcore⟩ := Option.map_eq_some_iff.mp hf'
    unfold isopen
    rw [hg, Option.any_some, ← hp g, hcore, hp]
  have hold : ∀ i g, i ≠ id → nif'.f i = some g → ∃ f, nif.f i = some f ∧ f.core = g.core := by
    intro i g hi hg
    have hfi := hf i hi
    rw [hg] at hfi
    obtain ⟨f, hf, hcore⟩ := Option.map_eq_some_iff.mp hfi.symm
    exact ⟨f, hf, hcore⟩
  have hnew : ∀ g, nif'.f id = some g → g.core = f'.core := by
    intro g hg
    rw [hg] at hf'
    exact Option.some.inj hf'
  refine ⟨fun i hi => ?_, fun i g hg => ?_, fun i g hg => ?_, fun i g hg hz => ?_, ?_, ?_, ?_⟩
  · by_cases hid' : i = id
    · rw [hid'] at hi
      rw [hi] at hf'
      cases hf'
    · rw [hc i hid']
      have hfi := hf i hid'
      rw [hi] at hfi
      exact h.file i (Option.map_eq_none_iff.mp hfi.symm)
  · rw [hn]
    by_cases hid' : i = id
    · rw [hid']
      exact hid
    · obtain ⟨f, hf, -⟩ := hold i g hid' hg
      exact h.low i f hf
  · by_cases hid' : i = id
    · rw [hid'] at hg ⊢
      rw [← hinuse]
      have hcore := congrArg Netfile.inuse (hnew g hg)
      exact hcore
    · obtain ⟨f, hf, hcore⟩ := hold i g hid' hg
      rw [hc i hid', ← h.inuse i f hf]
      exact (congrArg Netfile.inuse hcore).symm
  · have hcl : ∀ {f : Netfile U}, f.core = g.core → f.Closed → g.Closed := fun he hc =>
      ⟨(congrArg Netfile.owner he).symm.trans hc.owner, (congrArg Netfile.prom he).symm.trans hc.prom,
        (congrArg Netfile.scan he).symm.trans hc.scan, (congrArg Netfile.type he).symm.trans hc.type⟩
    by_cases hid' : i = id
    · rw [hid'] at hg hz
      exact hcl (hnew g hg).symm (hclosed hz)
    · obtain ⟨f, hf, hcore⟩ := hold i g hid' hg
      rw [hc i hid'] at hz
      exact hcl hcore (h.closed i f hf hz)
  · have hoff := opened_off (p := promiscuous) (fun _ => rfl) hid hn hf hc
    rw [hopen promiscuous fun _ => rfl] at hoff
    have h0 := h.prom
    omega
  · have hoff := opened_off (p := scanning) (fun _ => rfl) hid hn hf hc
    rw [hopen scanning fun _ => rfl] at hoff
    have h0 := h.scan
    omega
  · have hoff := opened_off (p := alltypes) (fun _ => rfl) hid hn hf hc
    rw [hopen alltypes fun _ => rfl] at hoff
    have h0 := h.all
    omega

theorem Modes.apart (h : Modes nif chans) (ha : Apart nif nif') : Modes nif' chans := by
  have hold : ∀ i g, nif'.f i = some g → ∃ f, nif.f i = some f ∧ f.core = g.core := by
    intro i g hg
    have hfi := ha.f i
    rw [hg] at hfi
    obtain ⟨f, hf, hcore⟩ := Option.map_eq_some_iff.mp hfi.symm
    exact ⟨f, hf, hcore⟩
  have hopened : ∀ p : Netfile U → Bool, (∀ f, p f.core = p f) →
      opened nif' chans p = opened nif chans p := by
    intro p hp
    unfold opened
    rw [ha.nfile]
    exact List.countP_congr fun i _ => by rw [isopen_core hp (ha.f i) rfl]
  refine ⟨fun i hi => ?_, fun i g hg => ?_, fun i g hg => ?_, fun i g hg hz => ?_, ?_, ?_, ?_⟩
  · have hfi := ha.f i
    rw [hi] at hfi
    exact h.file i (Option.map_eq_none_iff.mp hfi.symm)
  · obtain ⟨f, hf, -⟩ := hold i g hg
    rw [ha.nfile]
    exact h.low i f hf
  · obtain ⟨f, hf, hcore⟩ := hold i g hg
    rw [← h.inuse i f hf]
    exact (congrArg Netfile.inuse hcore).symm
  · obtain ⟨f, hf, hcore⟩ := hold i g hg
    have hc := h.closed i f hf hz
    exact ⟨(congrArg Netfile.owner hcore).symm.trans hc.owner,
      (congrArg Netfile.prom hcore).symm.trans hc.prom,
      (congrArg Netfile.scan hcore).symm.trans hc.scan,
      (congrArg Netfile.type hcore).symm.trans hc.type⟩
  · rw [ha.prom, hopened promiscuous fun _ => rfl]
    exact h.prom
  · rw [ha.scan, hopened scanning fun _ => rfl]
    exact h.scan
  · rw [ha.all, hopened alltypes fun _ => rfl]
    exact h.all

/-! ## Opens -/

/-- A file that is not open is in no mode. -/
theorem Modes.isopen (h : Modes nif chans) (hf : nif.f id = some f) :
    isopen nif chans promiscuous id = promiscuous f ∧ isopen nif chans scanning id = scanning f ∧
      isopen nif chans alltypes id = alltypes f := by
  unfold Nif.isopen
  rw [hf, Option.any_some, Option.any_some, Option.any_some]
  by_cases hz : chans id = 0
  · obtain ⟨-, hp, hs, ht⟩ := h.closed id f hf hz
    unfold promiscuous scanning alltypes
    rw [hp, hs, ht, hz]
    exact ⟨rfl, rfl, rfl⟩
  · rw [decide_eq_true (Nat.pos_of_ne_zero hz)]
    exact ⟨Bool.true_and _, Bool.true_and _, Bool.true_and _⟩

/-- What an open changes of a file. -/
structure Reopened (f f' : Netfile U) : Prop where
  inuse : f'.inuse = f.inuse + 1
  prom : f'.prom = f.prom
  scan : f'.scan = f.scan
  type : f'.type = f.type
  maddr : f'.maddr = f.maddr
  nmaddr : f'.nmaddr = f.nmaddr

variable [DecidableEq U] {eve user : U} {omode : Nat} {mem : Bool} {named : Option Nat}

theorem netown_cases (eve o : U) (p : Netfile U) (omode : Nat) :
    (netown eve p o omode).1 = p ∨
      (netown eve p o omode).1 = { p with owner := some o, mode := 0o660 } := by
  unfold netown
  split
  · exact .inl rfl
  · exact .inr rfl

theorem Reopened.netown (h : Reopened f f') (eve o : U) (omode : Nat) :
    Reopened f (netown eve f' o omode).1 := by
  rcases netown_cases eve o f' omode with he | he
  · rw [he]
    exact h
  · rw [he]
    exact ⟨h.inuse, h.prom, h.scan, h.type, h.maddr, h.nmaddr⟩

/-- The open is permitted. -/
def Permitted (nif : Netif U A) (eve user : U) (id : Option Nat) (omode : Nat) : Prop :=
  match id with
  | some id => ∀ f, nif.f id = some f → (netown eve f user (omode % 8)).2 = true
  | none => omode % 4 ≠ 3

omit [DecidableEq U] in
theorem freefile_some (h : nif.freefile = some id) :
    id < nif.nfile ∧ ∀ f, nif.f id = some f → f.inuse = 0 := by
  unfold Netif.freefile at h
  refine ⟨List.mem_range.mp (List.mem_of_find?_eq_some h), fun f hf => ?_⟩
  have hp := List.find?_some h
  rw [hf] at hp
  exact eq_of_beq hp

omit [DecidableEq U] in
theorem setfile_setfile : (nif.setfile id f).setfile id f' = nif.setfile id f' := by
  unfold Netif.setfile
  simp only [update_idem]

/-- The owner may do anything but execute. -/
theorem netown_owner (eve user : U) (omode : Nat) (ho : f.owner = some user) (hm : f.mode = 0o660) (h3 : omode % 4 ≠ 3) :
    (netown eve f user (omode % 8)).2 = true := by
  unfold netown
  rw [ho]
  simp only [if_true, hm, Nat.mod_mod_of_dvd omode (show 4 ∣ 8 by decide)]
  have hlt := Nat.mod_lt omode (show 0 < 4 by decide)
  generalize omode % 4 = m at *
  have hm : m = 0 ∨ m = 1 ∨ m = 2 := by omega
  rcases hm with rfl | rfl | rfl <;> rfl

/-- The file that is opened, a new one or one that was there. -/
theorem netifopen_ok (h : Modes nif chans) (hp : Permitted nif eve user named omode)
    {r : Except Error Nat} (ho : nif.netifopen eve user named omode mem = (nif', r)) :
    (∃ e, r = .error e ∧ nif' = nif) ∨ ∃ id f', r = .ok id ∧ nif' = nif.setfile id f' ∧
      id < nif.nfile ∧ Reopened ((nif.f id).getD .zero) f' := by
  unfold Netif.netifopen at ho
  cases named with
  | some id =>
    rw [Option.elim_some] at ho
    unfold Netif.openfile at ho
    cases hf : nif.f id with
    | none =>
      rw [hf] at ho
      cases ho
      exact .inl ⟨_, rfl, rfl⟩
    | some f =>
      rw [hf] at ho
      have hown : (netown eve { f with inuse := f.inuse + 1 } user (omode % 8)).2 = true := by
        rw [← hp f hf]
        unfold netown
        cases f.owner <;> rfl
      simp only [Netif.setfile, update_self, hown, if_true] at ho
      obtain ⟨rfl, rfl⟩ := Prod.mk.inj ho
      refine .inr ⟨id, _, rfl, setfile_setfile, h.low id f hf, ?_⟩
      rw [hf]
      have hinuse : Reopened f { f with inuse := f.inuse + 1 } := ⟨rfl, rfl, rfl, rfl, rfl, rfl⟩
      exact hinuse.netown eve user (omode % 8)
  | none =>
    rw [Option.elim_none] at ho
    unfold Netif.clonefile at ho
    cases hfree : nif.freefile with
    | none =>
      rw [hfree] at ho
      cases ho
      exact .inl ⟨_, rfl, rfl⟩
    | some id =>
      rw [hfree] at ho
      obtain ⟨hlt, hzero⟩ := freefile_some hfree
      dsimp only at ho
      split at ho
      · rename_i nif₁ e he
        split at he
        · cases he
          cases ho
          exact .inl ⟨_, rfl, rfl⟩
        · cases he
      · rename_i nif₁ id₁ he
        split at he
        · cases he
        · obtain ⟨rfl, hid⟩ := Prod.mk.inj he
          cases hid
          have hnone : ((nif.f id).getD .zero).owner = none ∧
              ((nif.f id).getD .zero).inuse = 0 := by
            cases hf : nif.f id with
            | none => exact ⟨rfl, rfl⟩
            | some f =>
              have hz := hzero f hf
              have hi := h.inuse id f hf
              exact ⟨(h.closed id f hf (by omega)).owner, hz⟩
          have hfirst : (netown eve { (nif.f id).getD .zero with inuse := 1 } user 0).1 =
              { (nif.f id).getD .zero with inuse := 1, owner := some user, mode := 0o660 } := by
            unfold netown
            simp only [hnone.1]
          rw [hfirst] at ho
          have hown := netown_owner eve user omode
            (f := { (nif.f id).getD .zero with inuse := 1, owner := some user, mode := 0o660 })
            rfl rfl hp
          simp only [Netif.setfile, update_self, hown, if_true] at ho
          obtain ⟨rfl, rfl⟩ := Prod.mk.inj ho
          refine .inr ⟨id, _, rfl, setfile_setfile, hlt, ?_⟩
          have hinuse : Reopened ((nif.f id).getD .zero) { (nif.f id).getD .zero with
              inuse := 1, owner := some user, mode := 0o660 } :=
            ⟨by rw [hnone.2]; rfl, rfl, rfl, rfl, rfl, rfl⟩
          exact hinuse.netown eve user (omode % 8)

omit [DecidableEq U] in
theorem setfile_f : (nif.setfile id f).f = update nif.f id (some f) := rfl

omit [DecidableEq U] in
theorem Modes.reopen (h : Modes nif chans) (hid : id < nif.nfile)
    (hr : Reopened ((nif.f id).getD .zero) f') :
    Modes (nif.setfile id f') (update chans id (chans id + 1)) := by
  have hself : update chans id (chans id + 1) id = chans id + 1 := update_self ..
  have hpos : decide (0 < chans id + 1) = true := decide_eq_true (Nat.succ_pos _)
  have hmode : Nif.isopen nif chans promiscuous id = promiscuous f' ∧
      Nif.isopen nif chans scanning id = scanning f' ∧
      Nif.isopen nif chans alltypes id = alltypes f' := by
    cases hf : nif.f id with
    | none =>
      rw [hf] at hr
      unfold Nif.isopen promiscuous scanning alltypes
      rw [hf, hr.prom, hr.scan, hr.type]
      exact ⟨Bool.and_false _, Bool.and_false _, Bool.and_false _⟩
    | some f =>
      rw [hf] at hr
      obtain ⟨hp, hs, ha⟩ := h.isopen hf
      unfold promiscuous scanning alltypes at *
      rw [hr.prom, hr.scan, hr.type]
      exact ⟨hp, hs, ha⟩
  have hinuse : f'.inuse = ((chans id + 1 : Nat) : Int) := by
    rw [hr.inuse]
    cases hf : nif.f id with
    | none =>
      rw [h.file id hf]
      rfl
    | some f =>
      have hi := h.inuse id f hf
      change f.inuse + 1 = _
      omega
  refine h.change f' hid rfl (fun j hj => ?_) (fun j hj => update_of_ne hj _ _) ?_
    (by rw [hself]; exact hinuse) (fun hz => ?_) ?_ ?_ ?_
  · rw [setfile_f, update_of_ne hj]
  · rw [setfile_f, update_self]
    rfl
  · rw [hself] at hz
    cases hz
  · rw [hself, hpos, Bool.true_and, hmode.1]
    rfl
  · rw [hself, hpos, Bool.true_and, hmode.2.1]
    rfl
  · rw [hself, hpos, Bool.true_and, hmode.2.2]
    rfl

/-! ## Messages -/

omit [DecidableEq U] in
theorem mod_f (hf : nif.f id = some f) : (nif.mod id g).f = update nif.f id (some (g f)) := by
  unfold Netif.mod
  rw [hf]
  rfl

omit [DecidableEq U] in
/-- An open file changes by a message. -/
theorem Modes.message (h : Modes nif chans) (hf : nif.f id = some f) (hopen : chans id ≠ 0)
    (hn : nif'.nfile = nif.nfile) (hf' : nif'.f = (nif.mod id g).f) (hinuse : (g f).inuse = f.inuse)
    (hprom : nif'.prom + (promiscuous f).toNat = nif.prom + (promiscuous (g f)).toNat)
    (hscan : nif'.scan + (scanning f).toNat = nif.scan + (scanning (g f)).toNat)
    (hall : nif'.all + (alltypes f).toNat = nif.all + (alltypes (g f)).toNat) :
    Modes nif' chans := by
  obtain ⟨hp, hs, ha⟩ := h.isopen hf
  have hpos : decide (0 < chans id) = true := decide_eq_true (Nat.pos_of_ne_zero hopen)
  rw [mod_f hf] at hf'
  refine h.change (g f) (h.low id f hf) hn (fun j hj => ?_) (fun _ _ => rfl) ?_
    (hinuse.trans (h.inuse id f hf)) (fun hz => absurd hz hopen) ?_ ?_ ?_
  · rw [hf', update_of_ne hj]
  · rw [hf', update_self]
    rfl
  · rw [hp, hpos, Bool.true_and]
    exact hprom
  · rw [hs, hpos, Bool.true_and]
    exact hscan
  · rw [ha, hpos, Bool.true_and]
    exact hall

variable [DecidableEq A]

omit [DecidableEq U] in
theorem Modes.write (h : Modes nif chans) (hopen : chans id ≠ 0) (msg : Ctl A)
    (hgood : ∀ type, msg = .connect type → nif.typeinuse type = false →
      ∀ f, nif.f id = some f → 0 ≤ f.type) : Modes (nif.netifwrite id msg).1 chans := by
  obtain ⟨f, hf⟩ := Option.ne_none_iff_exists'.mp fun hn => hopen (h.file id hn)
  cases msg with
  | connect type =>
    simp only [Netif.netifwrite]
    split
    · exact h
    · rename_i hno
      have ht := hgood type rfl (Bool.not_eq_true _ ▸ hno) f hf
      have hfalse : alltypes f = false := decide_eq_false (Int.not_lt.mpr ht)
      refine h.message (g := fun f => { f with type := type }) hf hopen ?_ ?_ rfl ?_ ?_ ?_
      · dsimp only
        split <;> rfl
      · dsimp only
        split <;> rfl
      · dsimp only
        split <;> rfl
      · dsimp only
        split <;> rfl
      · rw [hfalse]
        unfold alltypes
        dsimp only
        split
        · rename_i hneg
          rw [decide_eq_true hneg]
          exact Int.add_zero _
        · rename_i hneg
          rw [decide_eq_false hneg]
          rfl
  | promiscuous =>
    simp only [Netif.netifwrite]
    rw [hf]
    dsimp only
    split
    · rename_i hz
      have hfalse : promiscuous f = false := by
        unfold promiscuous
        rw [hz]
        rfl
      refine h.message (g := fun f => { f with prom := 1 }) hf hopen rfl rfl rfl ?_ rfl rfl
      rw [hfalse]
      exact Int.add_zero _
    · exact h
  | scanbs type =>
    simp only [Netif.netifwrite]
    rw [hf]
    dsimp only
    split
    · rename_i hz
      have hfalse : scanning f = false := by
        unfold scanning
        rw [hz]
        rfl
      refine h.message (g := fun f => { f with scan := if type < 5 then 5 else type }) hf hopen
        rfl rfl rfl rfl ?_ rfl
      have htrue : scanning { f with scan := if type < 5 then 5 else type } = true := by
        unfold scanning
        rw [bne_iff_ne]
        dsimp only
        split <;> omega
      rw [hfalse, htrue]
      exact Int.add_zero _
    · exact h
  | bridge =>
    exact h.message (g := fun f => { f with bridge := 1 }) hf hopen rfl rfl rfl rfl rfl rfl
  | headersonly =>
    exact h.message (g := fun f => { f with headersonly := 1 }) hf hopen rfl rfl rfl rfl rfl rfl
  | addmulti addr =>
    cases addr with
    | none => exact h
    | some addr => exact h.apart .netmulti
  | remmulti addr =>
    cases addr with
    | none => exact h
    | some addr => exact h.apart .netmulti
  | other => exact h

/-! ## Closes -/

section
omit [DecidableEq U] [DecidableEq A]

theorem closeprom_spec (hf : nif.f id = some f) : ∃ f', f'.inuse = f.inuse ∧ f'.prom = 0 ∧
    f'.scan = f.scan ∧ f'.type = f.type ∧ f'.nmaddr = f.nmaddr ∧ (nif.closeprom id f).nfile = nif.nfile ∧
    (nif.closeprom id f).prom = nif.prom - (promiscuous f).toNat ∧
    (nif.closeprom id f).scan = nif.scan ∧ (nif.closeprom id f).all = nif.all ∧
    (nif.closeprom id f).f = update nif.f id (some f') := by
  unfold Netif.closeprom promiscuous
  by_cases hp : f.prom = 0
  · rw [if_neg (not_not.mpr hp), hp]
    exact ⟨f, rfl, hp, rfl, rfl, rfl, rfl, (Int.sub_zero _).symm, rfl, rfl,
      (Function.update_eq_self_iff.mpr hf.symm).symm⟩
  · rw [if_pos hp, bne_iff_ne.mpr hp]
    exact ⟨{ f with prom := 0 }, rfl, rfl, rfl, rfl, rfl, rfl, rfl, rfl, rfl, mod_f hf⟩

theorem closescan_spec {f₁ : Netfile U} (hf : nif.f id = some f₁) (hp : f₁.prom = 0)
    (hs : f₁.scan = f.scan) : ∃ f', f'.inuse = f₁.inuse ∧ f'.prom = 0 ∧ f'.scan = 0 ∧
    (nif.closescan id f).nfile = nif.nfile ∧
    (nif.closescan id f).scan = nif.scan - (scanning f).toNat ∧
    (nif.closescan id f).prom = nif.prom ∧ (nif.closescan id f).all = nif.all ∧
    (nif.closescan id f).f = update nif.f id (some f') := by
  unfold Netif.closescan scanning
  by_cases hz : f.scan = 0
  · rw [if_neg (not_not.mpr hz), hz]
    exact ⟨f₁, rfl, hp, hs.trans hz, rfl, (Int.sub_zero _).symm, rfl, rfl,
      (Function.update_eq_self_iff.mpr hf.symm).symm⟩
  · rw [if_pos hz, bne_iff_ne.mpr hz]
    exact ⟨{ f₁ with prom := 0, scan := 0 }, rfl, rfl, rfl, rfl, rfl, rfl, rfl, mod_f hf⟩

end

section
omit [DecidableEq U]

theorem Apart.closemulti : Apart nif (nif.closemulti id f) := by
  unfold Netif.closemulti
  split
  · exact Apart.trans .dropmulti (.mod fun _ => rfl)
  · exact .refl nif

/-- What the last close makes of the file and of the counts. -/
theorem lastclose_spec (hf : nif.f id = some f) :
    (nif.lastclose id f).nfile = nif.nfile ∧
      (nif.lastclose id f).prom = nif.prom - (promiscuous f).toNat ∧
      (nif.lastclose id f).scan = nif.scan - (scanning f).toNat ∧
      (nif.lastclose id f).all = nif.all - (alltypes f).toNat ∧
      (∀ j ≠ id, ((nif.lastclose id f).f j).map Netfile.core = (nif.f j).map Netfile.core) ∧
      ∃ f', (nif.lastclose id f).f id = some f' ∧ f'.inuse = f.inuse ∧ f'.Closed := by
  obtain ⟨f₁, hi₁, hp₁, hs₁, -, -, hn₁, hprom₁, hscan₁, hall₁, hf₁⟩ := closeprom_spec hf
  have hself₁ : (nif.closeprom id f).f id = some f₁ := by rw [hf₁, update_self]
  obtain ⟨f₂, hi₂, hp₂, hs₂, hn₂, hscan₂, hprom₂, hall₂, hf₂⟩ :=
    closescan_spec (f := f) hself₁ hp₁ hs₁
  have hself₂ : ((nif.closeprom id f).closescan id f).f id = some f₂ := by
    rw [hf₂, update_self]
  have hap : Apart _ (((nif.closeprom id f).closescan id f).closemulti id f) := .closemulti
  unfold Netif.lastclose
  generalize ((nif.closeprom id f).closescan id f).closemulti id f = n at *
  obtain ⟨f₃, hf₃, hcore₃⟩ : ∃ f₃, n.f id = some f₃ ∧ f₃.core = f₂.core := by
    have hfi := hap.f id
    rw [hself₂] at hfi
    exact Option.map_eq_some_iff.mp hfi
  have hall : (n.closetype f).all = n.all - (alltypes f).toNat := by
    unfold Netif.closetype alltypes
    by_cases ht : f.type < 0
    · rw [if_pos ht, decide_eq_true ht]
      rfl
    · rw [if_neg ht, decide_eq_false ht]
      exact (Int.sub_zero _).symm
  have hkeep : (n.closetype f).nfile = n.nfile ∧ (n.closetype f).prom = n.prom ∧
      (n.closetype f).scan = n.scan ∧ (n.closetype f).f = n.f := by
    unfold Netif.closetype
    split <;> exact ⟨rfl, rfl, rfl, rfl⟩
  obtain ⟨hn, hprom, hscan, hff⟩ := hkeep
  have hself : (n.closetype f).f id = some f₃ := by rw [hff, hf₃]
  refine ⟨?_, ?_, ?_, ?_, fun j hj => ?_, _, by rw [mod_f hself, update_self], ?_,
    ⟨rfl, ?_, ?_, rfl⟩⟩
  · exact hn.trans (hap.nfile.trans (hn₂.trans hn₁))
  · refine hprom.trans (hap.prom.trans ?_)
    rw [hprom₂, hprom₁]
  · refine hscan.trans (hap.scan.trans ?_)
    rw [hscan₂, hscan₁]
  · refine hall.trans ?_
    rw [hap.all, hall₂, hall₁]
  · rw [mod_f hself, update_of_ne hj, hff, hap.f j, hf₂, update_of_ne hj, hf₁, update_of_ne hj]
  · have hinuse := congrArg Netfile.inuse hcore₃
    change f₃.inuse = f.inuse
    change f₃.inuse = f₂.inuse at hinuse
    rw [hinuse, hi₂, hi₁]
  · have hprom := congrArg Netfile.prom hcore₃
    exact hprom.trans hp₂
  · have hscan := congrArg Netfile.scan hcore₃
    exact hscan.trans hs₂

theorem Modes.close (h : Modes nif chans) (hopen : chans id ≠ 0) :
    Modes (nif.netifclose id) (update chans id (chans id - 1)) := by
  obtain ⟨f, hf⟩ := Option.ne_none_iff_exists'.mp fun hn => hopen (h.file id hn)
  obtain ⟨hp, hs, ha⟩ := h.isopen hf
  have hi := h.inuse id f hf
  have hself : update chans id (chans id - 1) id = chans id - 1 := update_self ..
  have hoff : ∀ j ≠ id, update chans id (chans id - 1) j = chans j := fun j hj =>
    update_of_ne hj _ _
  have hcast : f.inuse - 1 = ((chans id - 1 : Nat) : Int) := by omega
  unfold Netif.netifclose
  rw [hf]
  dsimp only
  have hset : (nif.setfile id { f with inuse := f.inuse - 1 }).f id =
      some { f with inuse := f.inuse - 1 } := update_self ..
  have hsetoff : ∀ j ≠ id, (nif.setfile id { f with inuse := f.inuse - 1 }).f j = nif.f j :=
    fun j hj => update_of_ne hj _ _
  split
  · rename_i hlast
    have hz : chans id - 1 = 0 := by omega
    obtain ⟨hn, hprom, hscan, hall, hrest, f', hf', hinuse, hclosed⟩ := lastclose_spec hset
    refine h.change f' (h.low id f hf) hn (fun j hj => ?_) hoff (by rw [hf']; rfl)
      (by rw [hself, hinuse]; exact hcast) (fun _ => hclosed) ?_ ?_ ?_
    · rw [hrest j hj, hsetoff j hj]
    · rw [hself, hz, hp, hprom]
      change nif.prom - (promiscuous f).toNat + (promiscuous f).toNat = nif.prom + 0
      omega
    · rw [hself, hz, hs, hscan]
      change nif.scan - (scanning f).toNat + (scanning f).toNat = nif.scan + 0
      omega
    · rw [hself, hz, ha, hall]
      change nif.all - (alltypes f).toNat + (alltypes f).toNat = nif.all + 0
      omega
  · rename_i hlast
    have hpos : 0 < chans id - 1 := by omega
    refine h.change { f with inuse := f.inuse - 1 } (h.low id f hf) rfl (fun j hj => ?_) hoff
      ?_ (by rw [hself]; exact hcast) (fun hz => ?_) ?_ ?_ ?_
    · rw [hsetoff j hj]
    · rw [hset]
      rfl
    · rw [hself] at hz
      omega
    · rw [hself, decide_eq_true hpos, Bool.true_and, hp]
      rfl
    · rw [hself, decide_eq_true hpos, Bool.true_and, hs]
      rfl
    · rw [hself, decide_eq_true hpos, Bool.true_and, ha]
      rfl

end

end NixMark.Nif
