import NixMark.Env.Egrp
import NixMark.Lib.Lts

/-!
# Environment variables as arrays of bytes

The calls on all groups, each under the lock of its group, and what they do to the values of the
variables.

* `Egrp.value`: the value of a name; `Egrp.Inv`: names and paths are unique, and the memory of a
  value has its length.
* `exec`, `env`: the calls and their runs.
* `Meets`: what a call should do to the values; `Good`: when it does that.
* `env_arrays`: in every run of good calls each call does what it should, inside the memory of the
  values.
-/

namespace NixMark.Env

open Lib
open Function (update update_apply update_eq_self update_of_ne update_self)

/-! ## Values -/

/-- The bytes of a value. -/
def Evalue.bytes (e : Evalue) : List UInt8 := e.value.getD []

/-- The memory of the value has its length. -/
structure Evalue.Whole (e : Evalue) : Prop where
  length : e.bytes.length = e.len
  max : (e.len : Int) ≤ Maxenvsize

/-- The value of a name among variables. -/
def vals (ent : List Evalue) (name : Name) : Option (List UInt8) :=
  (ent.find? (·.name = name)).map Evalue.bytes

def Egrp.value (eg : Egrp) : Name → Option (List UInt8) := vals eg.ent

/-- The name of the variable that a path stands for. -/
def Egrp.named (eg : Egrp) (path : Nat) : Option Name := (envlookup eg none path).map (·.name)

structure Egrp.Inv (eg : Egrp) : Prop where
  names : (eg.ent.map (·.name)).Nodup
  paths : (eg.ent.map (·.path)).Nodup
  whole : ∀ e ∈ eg.ent, e.Whole

variable {eg : Egrp} {e e' : Evalue} {ent l : List Evalue} {name : Name} {path : Nat}

theorem Egrp.zero_inv : Egrp.zero.Inv := ⟨List.nodup_nil, List.nodup_nil, List.forall_mem_nil _⟩

theorem vals_cons : vals (e :: l) name = if e.name = name then some e.bytes else vals l name := by
  unfold vals
  rw [List.find?_cons]
  by_cases h : e.name = name <;> simp [h]

theorem vals_eq_some {v : List UInt8} (h : (l.map (·.name)).Nodup) :
    vals l name = some v ↔ ∃ e ∈ l, e.name = name ∧ e.bytes = v := by
  induction l with
  | nil => simp [vals]
  | cons e l ih =>
    rw [List.map_cons, List.nodup_cons] at h
    rw [vals_cons]
    split
    · rename_i he
      constructor
      · rintro ⟨⟩
        exact ⟨e, List.mem_cons_self, he, rfl⟩
      · rintro ⟨x, hx, hn, rfl⟩
        rcases List.mem_cons.mp hx with rfl | hx
        · rfl
        · exact absurd (List.mem_map.mpr ⟨x, hx, hn.trans he.symm⟩) h.1
    · rename_i he
      rw [ih h.2]
      constructor
      · rintro ⟨x, hx, hxn⟩
        exact ⟨x, List.mem_cons_of_mem e hx, hxn⟩
      · rintro ⟨x, hx, hn, hv⟩
        rcases List.mem_cons.mp hx with rfl | hx
        · exact absurd hn he
        · exact ⟨x, hx, hn, hv⟩

/-- The order of the variables does not matter. -/
theorem vals_perm (hp : ent.Perm l) (h : (ent.map (·.name)).Nodup) : vals ent = vals l := by
  funext name
  refine Option.ext fun v => ?_
  rw [vals_eq_some h, vals_eq_some ((hp.map _).nodup_iff.mp h)]
  simp only [hp.mem_iff]

/-- Names and paths are unique in any order of the variables. -/
theorem Egrp.Inv.perm (h : eg.Inv) (hp : eg.ent.Perm l) (path vers : Nat) :
    Egrp.Inv ⟨l, path, vers⟩ where
  names := (hp.map _).nodup_iff.mp h.names
  paths := (hp.map _).nodup_iff.mp h.paths
  whole e he := h.whole e (hp.symm.subset he)

/-- The variable that a path stands for, between the others. -/
theorem envlookup_split (h : envlookup eg none path = some e) :
    e.path = path ∧ ∃ pre post, eg.ent = pre ++ e :: post ∧
      eg.ent.findIdx? (·.path = path) = some pre.length := by
  obtain ⟨hp, pre, post, hent, hpre⟩ := List.find?_eq_some_iff_append.mp h
  simp only [reduceCtorEq, or_false, decide_eq_true_eq, Bool.not_eq_true', decide_eq_false_iff_not]
    at hp hpre
  refine ⟨hp, pre, post, hent, ?_⟩
  have hnone : pre.findIdx? (·.path = path) = none :=
    List.findIdx?_eq_none_iff.mpr fun a ha => decide_eq_false (hpre a ha)
  rw [hent, List.findIdx?_append, hnone, List.findIdx?_cons, decide_eq_true hp]
  simp

theorem envlookup_none (h : envlookup eg none path = none) :
    eg.ent.findIdx? (·.path = path) = none := by
  have hall := List.find?_eq_none.mp h
  refine List.findIdx?_eq_none_iff.mpr fun a ha => decide_eq_false fun hp => ?_
  exact hall a ha (decide_eq_true (.inl hp))

/-- What a change of a variable that keeps its name and path does. -/
theorem setent_spec (hi : eg.Inv) (h : envlookup eg none path = some e) (hn : e'.name = e.name)
    (hp : e'.path = e.path) (hw : e'.Whole) (vers : Nat) :
    Egrp.Inv { eg.setent e e' with vers := vers } ∧
      vals (eg.setent e e').ent = update eg.value e.name (some e'.bytes) := by
  obtain ⟨rfl, pre, post, hent, hidx⟩ := envlookup_split h
  have hset : (eg.setent e e').ent = pre ++ e' :: post := by
    unfold Egrp.setent
    rw [(List.findIdx?_eq_some_iff_findIdx_eq.mp hidx).2, hent, List.set_append_right _ _ (Nat.le_refl _),
      Nat.sub_self]
    rfl
  have hnames : ((eg.setent e e').ent.map (·.name)) = eg.ent.map (·.name) := by
    rw [hset, hent, List.map_append, List.map_append, List.map_cons, List.map_cons, hn]
  have hpaths : ((eg.setent e e').ent.map (·.path)) = eg.ent.map (·.path) := by
    rw [hset, hent, List.map_append, List.map_append, List.map_cons, List.map_cons, hp]
  refine ⟨⟨hnames ▸ hi.names, hpaths ▸ hi.paths, fun x hx => ?_⟩, ?_⟩
  · change x ∈ (eg.setent e e').ent at hx
    rw [hset] at hx
    rcases List.mem_append.mp hx with hx | hx
    · exact hi.whole x (hent ▸ List.mem_append_left _ hx)
    rcases List.mem_cons.mp hx with rfl | hx
    · exact hw
    · exact hi.whole x (hent ▸ List.mem_append_right _ (List.mem_cons_of_mem _ hx))
  · funext name
    rw [vals_perm (l := e' :: (pre ++ post)) (hset ▸ List.perm_middle) (hnames ▸ hi.names),
      Egrp.value, vals_perm (l := e :: (pre ++ post)) (hent ▸ List.perm_middle) hi.names, vals_cons, hn]
    by_cases hname : e.name = name
    · rw [if_pos hname, ← hname, update_self]
    · rw [if_neg hname, update_of_ne (Ne.symm hname), vals_cons, if_neg hname]

/-! ## One group -/

theorem load_eq {v : List UInt8} {offset n : Int} (h : 0 ≤ offset) (hn : offset + n ≤ v.length) :
    load (some v) offset n = .ok ((v.drop offset.toNat).take n.toNat) := if_pos ⟨h, hn⟩

theorem store_eq {v a : List UInt8} {offset : Int} (h : 0 ≤ offset)
    (hn : offset + a.length ≤ v.length) : store (some v) offset a =
      .ok (some (v.take offset.toNat ++ a ++ v.drop (offset.toNat + a.length))) := if_pos ⟨h, hn⟩

/-- The new bytes are where they were written; a gap reads as zero. -/
structure Written (old : List UInt8) (off : Nat) (a new : List UInt8) : Prop where
  length : new.length = max old.length (off + a.length)
  at_off : ∀ i, off ≤ i → i < off + a.length → new.getD i 0 = a.getD (i - off) 0
  elsewhere : ∀ i, i < off ∨ off + a.length ≤ i → new.getD i 0 = old.getD i 0

/-- Growing leaves the bytes and adds zeros. -/
theorem grow_spec (h : e.Whole) (len : Nat) (h0 : 0 < len) :
    ∃ v, grow e len = .ok { e with value := some v, len := max e.len len } ∧
      v = e.bytes ++ List.replicate (len - e.len) 0 := by
  have hlen := h.length
  unfold grow
  split
  · rename_i hgt
    have hlt : e.len < len := by omega
    rw [Nat.max_eq_right (Nat.le_of_lt hlt)]
    cases hv : e.value with
    | none =>
      have hb : e.bytes = [] := by rw [Evalue.bytes, hv]; rfl
      rw [hb] at hlen ⊢
      refine ⟨_, rfl, ?_⟩
      simp only [List.length_nil] at hlen
      rw [← hlen]
      rfl
    | some v =>
      have hb : e.bytes = v := by rw [Evalue.bytes, hv]; rfl
      rw [hb] at hlen ⊢
      have hl : load (some v) 0 e.len = .ok v := by
        rw [load_eq (Int.le_refl 0) (by omega)]
        simp [← hlen]
      have hs : store (some (List.replicate len 0)) 0 v =
          .ok (some (v ++ List.replicate (len - e.len) 0)) := by
        rw [store_eq (Int.le_refl 0) (by rw [List.length_replicate]; omega)]
        simp [List.drop_replicate, hlen]
      refine ⟨_, ?_, rfl⟩
      simp only [hl, Int.toNat_natCast, Except.bind, hs]
      rfl
  · rename_i hle
    have hle' : len ≤ e.len := by omega
    cases hv : e.value with
    | none =>
      have hb : e.bytes = [] := by rw [Evalue.bytes, hv]; rfl
      rw [hb] at hlen
      simp only [List.length_nil] at hlen
      omega
    | some v =>
      refine ⟨v, ?_, ?_⟩
      · rw [Nat.max_eq_left hle', ← hv]
      · rw [Evalue.bytes, hv, Nat.sub_eq_zero_of_le hle']
        simp

/-! ## The calls on a group -/

structure Chan where
  /-- `qid.type & QTDIR` -/
  dir : Bool
  aux : Option Nat
  path : Nat

def envwriteable (eve : Bool) (c : Chan) : Bool := eve || c.aux.isNone

inductive Call where
  | envopen (eve : Bool) (omode : BitVec 32)
  | envcreate (name : Name) (omode : BitVec 32)
  | envremove
  | envread (n off : Int)
  | envwrite (a : List UInt8) (off : Int)

inductive Reply where
  | opened (mode : BitVec 32)
  | created (path : Nat) (mode : BitVec 32)
  | removed
  | read (a : List UInt8)
  | wrote (n : Nat)
  | copied
  | error (err : Err)
deriving DecidableEq, Repr

/-- The reply of a call that may fail. -/
def reply {α : Type} (f : α → Reply) : Except Err α → Reply
  | .ok a => f a
  | .error err => .error err

def Call.run (eg : Egrp) (c : Chan) : Call → Except Fault (Egrp × Reply)
  | .envopen eve omode =>
    let r := Env.envopen eg c.dir (envwriteable eve c) c.path omode
    .ok (r.1, reply .opened r.2)
  | .envcreate name omode =>
    let r := Env.envcreate eg c.dir name omode
    .ok (r.1, reply (fun p => .created p.1 p.2) r.2)
  | .envremove =>
    let r := Env.envremove eg c.dir c.path
    .ok (r.1, reply (fun _ => .removed) r.2)
  | .envread n off => (Env.envread eg c.path n off).map fun r => (eg, reply .read r)
  | .envwrite a off => (Env.envwrite eg c.path a off).map fun r => (r.1, reply .wrote r.2)

abbrev Values := Name → Option (List UInt8)

/-- The bytes of a value from an offset on. -/
def slice (v : List UInt8) (off n : Int) : List UInt8 :=
  if off < 0 then [] else (v.drop off.toNat).take n.toNat

/-- What a call on a channel of the group should do to the values, and reply. -/
inductive Effect (eg : Egrp) (c : Chan) : Call → Reply → Values → Prop
  | opened {eve : Bool} {omode : BitVec 32} {r : Reply} : omode &&& OTRUNC = 0 →
      Effect eg c (.envopen eve omode) r eg.value
  | notopened {eve : Bool} {omode : BitVec 32} {err : Err} :
      Effect eg c (.envopen eve omode) (.error err) eg.value
  | truncated {eve : Bool} {omode : BitVec 32} {r : Reply} {name : Name} :
      omode &&& OTRUNC ≠ 0 → eg.named c.path = some name →
      Effect eg c (.envopen eve omode) r (Function.update eg.value name (some []))
  | created {name : Name} {omode mode : BitVec 32} {path : Nat} : eg.value name = none →
      Effect eg c (.envcreate name omode) (.created path mode)
        (Function.update eg.value name (some []))
  | notcreated {name : Name} {omode : BitVec 32} {err : Err} :
      Effect eg c (.envcreate name omode) (.error err) eg.value
  | removed {name : Name} : eg.named c.path = some name →
      Effect eg c .envremove .removed (Function.update eg.value name none)
  | notremoved {err : Err} : Effect eg c .envremove (.error err) eg.value
  | read {n off : Int} {name : Name} {v : List UInt8} : eg.named c.path = some name →
      eg.value name = some v → Effect eg c (.envread n off) (.read (slice v off n)) eg.value
  | notread {n off : Int} : eg.named c.path = none →
      Effect eg c (.envread n off) (.error .Enonexist) eg.value
  | nothing {off : Int} : Effect eg c (.envwrite [] off) (.wrote 0) eg.value
  | refused {a : List UInt8} {off : Int} : a ≠ [] → off < 0 ∨ Maxenvsize < off + a.length →
      Effect eg c (.envwrite a off) (.error .Etoobig) eg.value
  | notwritten {a : List UInt8} {off : Int} : a ≠ [] → eg.named c.path = none →
      Effect eg c (.envwrite a off) (.error .Enonexist) eg.value
  | written {a old new : List UInt8} {off : Int} {name : Name} : a ≠ [] → 0 ≤ off →
      off + a.length ≤ Maxenvsize → eg.named c.path = some name → eg.value name = some old →
      Written old off.toNat a new →
      Effect eg c (.envwrite a off) (.wrote a.length) (Function.update eg.value name (some new))

/-- The offset of a request is what `envread` takes it for, or nothing is copied. -/
def Reads (len : Nat) (n off : Int) : Prop :=
  n ≤ 0 ∧ (-2147483648 ≤ long off + n ∨ 2147483648 ≤ len - long off) ∨ len < long off ∨
    0 ≤ long off ∧ long off + n < 2147483648 ∧ (off = long off ∨ long off = len)

/-- The offset of a request is what `envwrite` takes it for, or the request is refused. -/
def Writes (a : List UInt8) (off : Int) : Prop :=
  a = [] ∨ long off > Maxenvsize ∨ (a.length : Int) > long (Maxenvsize - long off) ∨
    0 ≤ off ∧ off = long off

/-- The call does what it should: a new path is not in use, and offsets are in range. -/
def Call.Good (eg : Egrp) (c : Chan) : Call → Prop
  | .envcreate _ _ => ∀ e ∈ eg.ent, e.path ≠ incr eg.path
  | .envread n off => ∀ e, envlookup eg none c.path = some e → Reads e.len n off
  | .envwrite a off => ∀ e, envlookup eg none c.path = some e → Writes a off
  | _ => True

/-- What the system calls promise: counts are those of a `long`, and directories are not read or
written here. -/
def Call.Passed (c : Chan) : Call → Prop
  | .envread n _ => -2147483648 ≤ n ∧ n < 2147483648 ∧ c.dir = false
  | .envwrite a _ => a.length < 2147483648 ∧ c.dir = false
  | _ => True

theorem readn_spec {len : Nat} {n off : Int} (hlen : (len : Int) ≤ Maxenvsize)
    (hn0 : -2147483648 ≤ n) (hn : n < 2147483648) (hg : Reads len n off) :
    readn len n (long off) ≤ 0 ∧ (n ≤ 0 ∨ off < 0 ∨ len ≤ off) ∨
      0 < readn len n (long off) ∧ 0 ≤ off ∧ long off = off ∧
        readn len n (long off) = min n (len - off) := by
  obtain ⟨hlo, hhi⟩ := long_range off
  obtain ⟨k, hk⟩ := long_spec off
  unfold Maxenvsize at hlen
  unfold Reads at hg
  unfold readn
  split
  · exact .inl ⟨Int.le_refl 0, by omega⟩
  rename_i hle
  rcases hg with ⟨hn, hwrap⟩ | hlt | ⟨h0, hsum, hoff⟩
  · refine .inl ⟨?_, .inl hn⟩
    split
    · unfold long at *
      omega
    · exact hn
  · exact absurd hlt hle
  · rw [long_eq (x := long off + n) (by omega) hsum, long_eq (x := len - long off) (by omega) (by omega)]
    split <;> omega

theorem named_eq_some (h : envlookup eg none path = some e) : eg.named path = some e.name := by
  rw [Egrp.named, h]
  rfl

theorem named_eq_none (h : envlookup eg none path = none) : eg.named path = none := by
  rw [Egrp.named, h]
  rfl

theorem value_eq_some (hi : eg.Inv) (h : envlookup eg none path = some e) :
    eg.value e.name = some e.bytes :=
  (vals_eq_some hi.names).mpr ⟨e, List.mem_of_find?_eq_some h, rfl, rfl⟩

theorem envread_spec (hi : eg.Inv) {c : Chan} {n off : Int} (hn0 : -2147483648 ≤ n)
    (hn : n < 2147483648) (hg : (Call.envread n off).Good eg c) :
    ∃ r, (Call.envread n off).run eg c = .ok (eg, r) ∧ Effect eg c (.envread n off) r eg.value := by
  unfold Call.run envread
  cases he : envlookup eg none c.path with
  | none => exact ⟨_, rfl, .notread (named_eq_none he)⟩
  | some e =>
    have hw := hi.whole e (List.mem_of_find?_eq_some he)
    have hlen := hw.length
    have hread {b : List UInt8} (hb : b = slice e.bytes off n) :
        Effect eg c (.envread n off) (.read b) eg.value :=
      hb ▸ .read (named_eq_some he) (value_eq_some hi he)
    simp only
    rcases readn_spec hw.max hn0 hn (hg e he) with ⟨hle, hoff⟩ | ⟨hlt, hoff, hlong, hmin⟩
    · rw [if_pos hle]
      refine ⟨_, rfl, hread ?_⟩
      unfold slice
      split
      · rfl
      · rcases hoff with hn | hneg | hbig
        · rw [Int.toNat_eq_zero.mpr hn, List.take_zero]
        · omega
        · rw [List.drop_eq_nil_of_le (by omega), List.take_nil]
    · rw [if_neg (Int.not_le.mpr hlt)]
      have hsome : e.value = some e.bytes := by
        cases hv : e.value with
        | none =>
          rw [hmin] at hlt
          rw [Evalue.bytes, hv] at hlen
          simp only [Option.getD_none, List.length_nil] at hlen
          omega
        | some v => rw [Evalue.bytes, hv]; rfl
      rw [hsome, hmin, hlong, load_eq hoff (by omega)]
      refine ⟨_, rfl, hread ?_⟩
      unfold slice
      rw [if_neg (Int.not_lt.mpr hoff)]
      refine List.take_eq_take_iff.mpr ?_
      rw [List.length_drop]
      omega

/-- What is stored over the grown value. -/
theorem store_grown (old a : List UInt8) (off : Nat) :
    ∃ v, store (some (old ++ List.replicate (off + a.length - old.length) 0)) off a =
      .ok (some v) ∧ Written old off a v := by
  have hlen : (old ++ List.replicate (off + a.length - old.length) (0 : UInt8)).length =
      max old.length (off + a.length) := by
    rw [List.length_append, List.length_replicate]
    omega
  refine ⟨_, store_eq (Int.natCast_nonneg off) (by rw [hlen]; omega), ?_, fun i h h' => ?_,
    fun i h => ?_⟩
  · simp only [List.length_append, List.length_take, List.length_drop, hlen, Int.toNat_natCast]
    omega
  · simp only [Int.toNat_natCast, List.getD_eq_getElem?_getD, List.append_assoc]
    rw [List.getElem?_append_right (by rw [List.length_take, hlen]; omega), List.length_take, hlen,
      List.getElem?_append_left (by omega)]
    congr 2
    omega
  · have hold : ∀ i : Nat, (old ++ List.replicate (off + a.length - old.length) (0 : UInt8))[i]?.getD 0 =
        old[i]?.getD 0 := by
      intro i
      rw [List.getElem?_append]
      split
      · rfl
      · rw [List.getElem?_replicate, List.getElem?_eq_none (by omega)]
        split <;> rfl
    simp only [Int.toNat_natCast, List.getD_eq_getElem?_getD, List.append_assoc]
    rw [← hold i]
    rcases h with h | h
    · rw [List.getElem?_append_left (by rw [List.length_take, hlen]; omega),
        List.getElem?_take_of_lt h]
    · rw [List.getElem?_append_right (by rw [List.length_take]; omega), List.length_take, hlen,
        List.getElem?_append_right (by omega), List.getElem?_drop]
      congr 2
      omega

theorem envwrite_spec (hi : eg.Inv) {c : Chan} {a : List UInt8} {off : Int}
    (ha : a.length < 2147483648) (hg : (Call.envwrite a off).Good eg c) :
    ∃ eg' r, (Call.envwrite a off).run eg c = .ok (eg', r) ∧ eg'.Inv ∧
      Effect eg c (.envwrite a off) r eg'.value := by
  by_cases ha0 : a = []
  · rw [ha0]
    exact ⟨eg, _, rfl, hi, .nothing⟩
  have hpos : 0 < a.length := List.length_pos_iff.mpr ha0
  obtain ⟨hlo, hhi⟩ := long_range off
  obtain ⟨k, hk⟩ := long_spec off
  unfold Call.run Env.envwrite
  simp only
  rw [if_neg (by omega)]
  split
  · rename_i htoo
    refine ⟨eg, _, rfl, hi, .refused ha0 ?_⟩
    unfold Maxenvsize at *
    unfold long at *
    omega
  rename_i htoo
  cases he : envlookup eg none c.path with
  | none => exact ⟨eg, _, rfl, hi, .notwritten ha0 (named_eq_none he)⟩
  | some e =>
    have hw := hi.whole e (List.mem_of_find?_eq_some he)
    have hlen := hw.length
    have hoff : 0 ≤ off ∧ off = long off := by
      rcases hg e he with h | h | h | h
      · exact absurd h ha0
      · exact absurd (.inl h) htoo
      · exact absurd (.inr h) htoo
      · exact h
    obtain ⟨h0, hoff⟩ := hoff
    rw [← hoff] at htoo ⊢
    obtain ⟨o, rfl⟩ := Int.eq_ofNat_of_zero_le h0
    have hmax : (o : Int) + a.length ≤ Maxenvsize := by
      unfold Maxenvsize long at *
      omega
    have hlong : long ((o : Int) + a.length) = ((o + a.length : Nat) : Int) := by
      unfold Maxenvsize at hmax
      exact long_eq (by omega) (by omega)
    obtain ⟨v, hgrow, hv⟩ := grow_spec hw (o + a.length) (by omega)
    rw [← hlen] at hv
    obtain ⟨v', hstore, hwritten⟩ := store_grown e.bytes a o
    rw [← hv] at hstore
    simp only
    rw [hlong, hgrow]
    simp only [Except.bind, hstore]
    have hwhole : Evalue.Whole ⟨e.name, some v', max e.len (o + a.length), e.path, incr e.vers⟩ := by
      have hm := hw.max
      refine ⟨?_, by simp only; omega⟩
      rw [← hlen]
      exact hwritten.length
    obtain ⟨hinv, hvals⟩ := setent_spec hi he (by rfl) (by rfl) hwhole (incr eg.vers)
    refine ⟨_, _, rfl, hinv, ?_⟩
    have heff := Effect.written ha0 (Int.natCast_nonneg o) hmax (named_eq_some he)
      (value_eq_some hi he) hwritten
    rw [← show _ = update eg.value e.name (some v') from hvals] at heff
    exact heff

theorem envtrunc_spec (hi : eg.Inv) (h : envlookup eg none path = some e) (trunc : Bool) :
    (envtrunc eg e trunc).Inv ∧ (envtrunc eg e trunc).value =
      if trunc then update eg.value e.name (some []) else eg.value := by
  have hwhole : Evalue.Whole ⟨e.name, none, 0, e.path, incr e.vers⟩ :=
    ⟨rfl, show (0 : Int) ≤ 16300 by decide⟩
  obtain ⟨hinv, hvals⟩ := setent_spec hi h (by rfl) (by rfl) hwhole eg.vers
  unfold envtrunc
  cases trunc with
  | false => exact ⟨hi, rfl⟩
  | true =>
    cases hv : e.value with
    | some v => exact ⟨hinv, hvals⟩
    | none =>
      have hempty : e.bytes = [] := by
        rw [Evalue.bytes, hv]
        rfl
      refine ⟨hi, ?_⟩
      rw [if_pos rfl, ← hempty, ← value_eq_some hi h, update_eq_self]
      rfl

theorem envopen_spec (hi : eg.Inv) (c : Chan) (eve : Bool) (omode : BitVec 32) :
    ∃ eg' r, (Call.envopen eve omode).run eg c = .ok (eg', r) ∧ eg'.Inv ∧
      Effect eg c (.envopen eve omode) r eg'.value := by
  refine ⟨_, _, rfl, ?_⟩
  have hnot {err : Err} : eg.Inv ∧ Effect eg c (.envopen eve omode) (.error err) eg.value :=
    ⟨hi, .notopened⟩
  unfold Env.envopen
  split
  · split
    · exact hnot
    · rename_i homode
      rw [ne_eq, not_not] at homode
      exact ⟨hi, .opened (by rw [homode]; decide)⟩
  · split
    · exact hnot
    · cases he : envlookup eg none c.path with
      | none => exact hnot
      | some e =>
        obtain ⟨hinv, hvals⟩ := envtrunc_spec hi he (omode &&& OTRUNC != 0)
        refine ⟨hinv, ?_⟩
        simp only
        rw [hvals]
        split
        · rename_i htrunc
          exact .truncated (bne_iff_ne.mp htrunc) (named_eq_some he)
        · rename_i htrunc
          exact .opened (by simpa using htrunc)

theorem envcreate_spec (hi : eg.Inv) (c : Chan) (name : Name) (omode : BitVec 32)
    (hg : (Call.envcreate name omode).Good eg c) :
    ∃ eg' r, (Call.envcreate name omode).run eg c = .ok (eg', r) ∧ eg'.Inv ∧
      Effect eg c (.envcreate name omode) r eg'.value := by
  refine ⟨_, _, rfl, ?_⟩
  have hnot {err : Err} : eg.Inv ∧ Effect eg c (.envcreate name omode) (.error err) eg.value :=
    ⟨hi, .notcreated⟩
  unfold Env.envcreate
  split
  · exact hnot
  split
  · exact hnot
  simp only
  split
  · exact hnot
  rename_i hnone
  have hfresh : ∀ e ∈ eg.ent, e.name ≠ name := by
    intro e he hn
    rw [Option.not_isSome_iff_eq_none] at hnone
    exact List.find?_eq_none.mp hnone e he (decide_eq_true (.inr (congrArg some hn)))
  have hperm : (eg.ent ++ [⟨name, none, 0, incr eg.path, 0⟩] : List Evalue).Perm
      (⟨name, none, 0, incr eg.path, 0⟩ :: eg.ent) := List.perm_append_singleton _ _
  have hvalue : eg.value name = none := by
    rw [Egrp.value, vals, List.find?_eq_none.mpr fun e he => by simpa using hfresh e he]
    rfl
  have hinv : Egrp.Inv ⟨⟨name, none, 0, incr eg.path, 0⟩ :: eg.ent, incr eg.path, incr eg.vers⟩ := by
    refine ⟨?_, ?_, ?_⟩
    · rw [List.map_cons, List.nodup_cons]
      refine ⟨fun h => ?_, hi.names⟩
      obtain ⟨e, he, hn⟩ := List.mem_map.mp h
      exact hfresh e he hn
    · rw [List.map_cons, List.nodup_cons]
      refine ⟨fun h => ?_, hi.paths⟩
      obtain ⟨e, he, hp⟩ := List.mem_map.mp h
      exact hg e he hp
    · rintro e (_ | ⟨_, he⟩)
      · exact ⟨rfl, by simp only [Maxenvsize]; decide⟩
      · exact hi.whole e he
  have hvals : Egrp.value ⟨eg.ent ++ [⟨name, none, 0, incr eg.path, 0⟩], incr eg.path, incr eg.vers⟩ =
      update eg.value name (some []) := by
    funext n
    rw [Egrp.value, vals_perm hperm ((hperm.map _).nodup_iff.mpr hinv.names), vals_cons]
    by_cases hn : name = n
    · rw [if_pos hn, ← hn, update_self]
      rfl
    · rw [if_neg hn, update_of_ne (Ne.symm hn)]
      rfl
  refine ⟨hinv.perm hperm.symm _ _, ?_⟩
  rw [hvals]
  exact .created hvalue

/-- The last variable takes the place of the one that is removed. -/
theorem compact_perm {pre post : List Evalue} (e : Evalue) :
    (compact (pre ++ e :: post) pre.length).Perm (pre ++ post) := by
  unfold compact
  rw [List.getLast?_append_of_ne_nil _ (List.cons_ne_nil e post)]
  rcases List.eq_nil_or_concat post with rfl | ⟨post, y, rfl⟩
  · simp
  · rw [List.concat_eq_append, ← List.cons_append, List.getLast?_concat]
    simp only
    rw [List.set_append_right _ _ (Nat.le_refl _), Nat.sub_self, List.cons_append, List.set_cons_zero,
      ← List.cons_append, ← List.append_assoc, List.dropLast_concat]
    exact (List.perm_middle.trans (List.perm_append_singleton _ _).symm).trans
      (List.append_assoc .. ▸ List.Perm.refl _)

theorem envremove_spec (hi : eg.Inv) (c : Chan) :
    ∃ eg' r, Call.envremove.run eg c = .ok (eg', r) ∧ eg'.Inv ∧
      Effect eg c .envremove r eg'.value := by
  refine ⟨_, _, rfl, ?_⟩
  have hnot {err : Err} : eg.Inv ∧ Effect eg c .envremove (.error err) eg.value := ⟨hi, .notremoved⟩
  unfold Env.envremove
  split
  · exact hnot
  cases he : envlookup eg none c.path with
  | none =>
    rw [envlookup_none he]
    exact hnot
  | some e =>
    obtain ⟨-, pre, post, hent, hidx⟩ := envlookup_split he
    rw [hidx]
    have hperm : (e :: compact eg.ent pre.length).Perm eg.ent := by
      rw [hent]
      exact ((compact_perm e).cons e).trans List.perm_middle.symm
    have hinv := hi.perm hperm.symm eg.path (incr eg.vers)
    have hnames := hinv.names
    have hpaths := hinv.paths
    rw [List.map_cons, List.nodup_cons] at hnames hpaths
    refine ⟨⟨hnames.2, hpaths.2, fun x hx => hinv.whole x (List.mem_cons_of_mem _ hx)⟩, ?_⟩
    have hvals : vals (compact eg.ent pre.length) = update eg.value e.name none := by
      funext n
      rw [Egrp.value, ← vals_perm hperm hinv.names, update_apply]
      split
      · rename_i hn
        have hnone : (compact eg.ent pre.length).find? (·.name = e.name) = none := by
          refine List.find?_eq_none.mpr fun x hx hx' => hnames.1 (List.mem_map.mpr ⟨x, hx, ?_⟩)
          exact of_decide_eq_true hx'
        rw [hn, vals, hnone]
        rfl
      · rename_i hn
        rw [vals_cons, if_neg (Ne.symm hn)]
    have heff : Effect eg c .envremove .removed _ := .removed (named_eq_some he)
    rw [← hvals] at heff
    exact heff

/-! ## Copying -/

theorem copies_spec (path : Nat) (h : ∀ e ∈ l, e.Whole) : ∃ l', copies path l = .ok l' ∧
    l'.map (·.name) = l.map (·.name) ∧ vals l' = vals l ∧ (∀ e ∈ l', e.Whole) ∧
    l'.map (·.path) = (List.range l.length).map fun i => (path + 1 + i) % 4294967296 := by
  induction l generalizing path with
  | nil => exact ⟨[], rfl, rfl, rfl, List.forall_mem_nil _, rfl⟩
  | cons e l ih =>
    obtain ⟨l', hl', hnames, hvals, hwhole, hpaths⟩ :=
      ih (incr path) fun x hx => h x (List.mem_cons_of_mem e hx)
    have hw := h e List.mem_cons_self
    have hgoal : ∀ e' : Evalue, e'.name = e.name → e'.bytes = e.bytes → e'.len = e.len →
        e'.path = incr path → (e' :: l').map (·.name) = (e :: l).map (·.name) ∧
          vals (e' :: l') = vals (e :: l) ∧ (∀ x ∈ e' :: l', x.Whole) ∧
          (e' :: l').map (·.path) =
            (List.range (e :: l).length).map fun i => (path + 1 + i) % 4294967296 := by
      intro e' hn hb hlen hp
      refine ⟨by rw [List.map_cons, List.map_cons, hn, hnames], ?_, ?_, ?_⟩
      · funext name
        rw [vals_cons, vals_cons, hn, hb, hvals]
      · rintro x (_ | ⟨_, hx⟩)
        · exact ⟨by rw [hb, hlen]; exact hw.length, by rw [hlen]; exact hw.max⟩
        · exact hwhole x hx
      · rw [List.length_cons, List.range_succ_eq_map, List.map_cons, List.map_cons, List.map_map, hp,
          hpaths]
        refine congrArg _ (List.map_congr_left fun i _ => ?_)
        simp only [incr, Function.comp]
        omega
    rw [copies]
    cases hv : e.value with
    | none =>
      have hb : e.bytes = [] := by
        rw [Evalue.bytes, hv]
        rfl
      have hlen := hw.length
      rw [hb] at hlen
      refine ⟨_, by rw [hl']; rfl, hgoal ⟨e.name, none, 0, incr path, 0⟩ rfl ?_ hlen rfl⟩
      exact hb.symm
    | some v =>
      have hb : e.bytes = v := by
        rw [Evalue.bytes, hv]
        rfl
      have hlen := hw.length
      rw [hb] at hlen
      have hload : load (some v) 0 e.len = .ok v := by
        rw [load_eq (Int.le_refl 0) (by omega)]
        simp [← hlen]
      refine ⟨_, ?_, hgoal ⟨e.name, some v, e.len, incr path, 0⟩ rfl hb.symm rfl rfl⟩
      simp only [hload, Except.bind, hl']
      rfl

theorem envcpy_spec (new : Egrp) {fr : Egrp} (hi : fr.Inv) (hn : fr.ent.length ≤ 4294967296) :
    ∃ eg', envcpy new fr = .ok eg' ∧ eg'.Inv ∧ eg'.value = fr.value := by
  obtain ⟨l', hl', hnames, hvals, hwhole, hpaths⟩ := copies_spec new.path hi.whole
  refine ⟨⟨l', (new.path + l'.length) % 4294967296, new.vers⟩, by rw [envcpy, hl']; rfl,
    ⟨?_, ?_, hwhole⟩, hvals⟩
  · rw [hnames]
    exact hi.names
  · rw [hpaths]
    refine (List.nodup_map_iff_inj_on List.nodup_range).mpr fun i hi j hj he => ?_
    rw [List.mem_range] at hi hj
    omega

/-! ## All groups -/

abbrev Egrps := Nat → Egrp

/-- `envgrp`: `up` is the group of the process. -/
def envgrp (up : Nat) (c : Chan) : Nat := c.aux.getD up

inductive Op where
  | call (up : Nat) (c : Chan) (f : Call)
  | envcpy (new fr : Nat)

def exec (s : Egrps) : Op → Except Fault (Egrps × Reply)
  | .call up c f =>
    (f.run (s (envgrp up c)) c).map fun r => (Function.update s (envgrp up c) r.1, r.2)
  | .envcpy new fr => (envcpy (s new) (s fr)).map fun eg => (Function.update s new eg, .copied)

/-- What the callers promise: `envcpy` fills a new group. -/
def Op.Passed (s : Egrps) : Op → Prop
  | .call _ c f => f.Passed c
  | .envcpy new _ => s new = Egrp.zero

def env : Lts Egrps Op where
  init s := ∀ g, s g = Egrp.zero
  step s op s' := op.Passed s ∧ ∃ r, exec s op = .ok (s', r)

def Good (s : Egrps) : Op → Prop
  | .call up c f => f.Good (s (envgrp up c)) c
  | .envcpy _ fr => (s fr).ent.length ≤ 4294967296

/-- What a call should do: one group is changed. -/
def Meets (s : Egrps) (op : Op) (r : Reply) (s' : Egrps) : Prop :=
  match op with
  | .call up c f => Effect (s (envgrp up c)) c f r (s' (envgrp up c)).value ∧
      ∀ g ≠ envgrp up c, s' g = s g
  | .envcpy new fr => r = .copied ∧ (s' new).value = (s fr).value ∧ ∀ g ≠ new, s' g = s g

variable {s : Egrps}

theorem Call.run_spec (hi : eg.Inv) {c : Chan} {f : Call} (hp : f.Passed c) (hg : f.Good eg c) :
    ∃ eg' r, f.run eg c = .ok (eg', r) ∧ eg'.Inv ∧ Effect eg c f r eg'.value := by
  cases f with
  | envopen eve omode => exact envopen_spec hi c eve omode
  | envcreate name omode => exact envcreate_spec hi c name omode hg
  | envremove => exact envremove_spec hi c
  | envread n off =>
    obtain ⟨r, hr, he⟩ := envread_spec hi hp.1 hp.2.1 hg
    exact ⟨eg, r, hr, hi, he⟩
  | envwrite a off => exact envwrite_spec hi hp.1 hg

theorem exec_spec (hi : ∀ g, (s g).Inv) {op : Op} (hp : op.Passed s) (hg : Good s op) :
    ∃ s' r, exec s op = .ok (s', r) ∧ (∀ g, (s' g).Inv) ∧ Meets s op r s' := by
  have hupd : ∀ (g : Nat) (eg : Egrp), eg.Inv → ∀ g', (update s g eg g').Inv := by
    intro g eg heg g'
    rw [update_apply]
    split
    · exact heg
    · exact hi g'
  cases op with
  | call up c f =>
    obtain ⟨eg, r, hr, heg, he⟩ := Call.run_spec (hi _) hp hg
    refine ⟨_, r, by rw [exec, hr]; rfl, hupd _ eg heg, ?_, fun g hne => update_of_ne hne _ _⟩
    rw [update_self]
    exact he
  | envcpy new fr =>
    obtain ⟨eg, hr, heg, hv⟩ := envcpy_spec (s new) (hi fr) hg
    refine ⟨_, _, by rw [exec, hr]; rfl, hupd _ eg heg, rfl, ?_, fun g hne => update_of_ne hne _ _⟩
    rw [update_self]
    exact hv

theorem inv_inductive : (env.restrict Good).Inductive fun s => ∀ g, (s g).Inv where
  init s h g := by
    rw [h g]
    exact Egrp.zero_inv
  step s op s' hi h := by
    obtain ⟨⟨hp, r, hr⟩, hg⟩ := h
    obtain ⟨s₁, r₁, hr₁, hi', -⟩ := exec_spec hi hp hg
    cases hr₁.symm.trans hr
    exact hi'

/-- In every run whose calls are good, the memory of every value has its length, and the next good
call reads and writes inside it and does what it should. -/
theorem env_arrays (h : (env.restrict Good).Reach s) :
    (∀ g, ∀ e ∈ (s g).ent, e.bytes.length = e.len) ∧
    ∀ op : Op, op.Passed s → Good s op → ∃ s' r, exec s op = .ok (s', r) ∧ Meets s op r s' := by
  have hi := inv_inductive.reach h
  refine ⟨fun g e he => ((hi g).whole e he).length, fun op hp hg => ?_⟩
  obtain ⟨s', r, hr, -, hm⟩ := exec_spec hi hp hg
  exact ⟨s', r, hr, hm⟩

/-! ## A variable of three bytes -/

private def root : Chan := ⟨true, none, 0⟩

private def chan : Chan := ⟨false, none, 1⟩

private def started : Egrps := fun _ => Egrp.zero

private def made : Egrps := Function.update started 0 ⟨[⟨[120], none, 0, 1, 0⟩], 1, 1⟩

private def filled : Egrps := Function.update made 0 ⟨[⟨[120], some [1, 2, 3], 3, 1, 1⟩], 1, 2⟩

theorem made_step : env.step started (.call 0 root (.envcreate [120] 1)) made :=
  ⟨trivial, _, rfl⟩

theorem filled_step : env.step made (.call 0 chan (.envwrite [1, 2, 3] 0)) filled :=
  ⟨⟨by decide, rfl⟩, _, rfl⟩

theorem env_arrays_read : ∃ s' r, exec filled (.call 0 chan (.envread 10 1)) = .ok (s', r) ∧
    Meets filled (.call 0 chan (.envread 10 1)) r s' := by
  have hinit : (env.restrict Good).Reach started := ⟨[], .init (show ∀ g, started g = _ from fun _ => rfl)⟩
  have hmade : (env.restrict Good).Reach made := hinit.step ⟨made_step, List.forall_mem_nil _⟩
  have hfilled : (env.restrict Good).Reach filled :=
    hmade.step ⟨filled_step, fun e _ => .inr (.inr (.inr (by decide)))⟩
  refine (env_arrays hfilled).2 _ ⟨by decide, by decide, rfl⟩ fun e he => ?_
  cases he
  exact .inr (.inr (by decide))

/-- Offsets that are negative, or negative in 32 bits with a count added, lead out of the memory of
a value; an offset of 4 GiB is taken for 0. -/
theorem env_overrun : env.Reach filled ∧
    exec filled (.call 0 chan (.envwrite [9] (-2))) = .error .bounds ∧
    exec filled (.call 0 chan (.envread 1 (-2))) = .error .bounds ∧
    exec filled (.call 0 chan (.envread 2147483647 1)) = .error .bounds ∧
    ∃ s', exec filled (.call 0 chan (.envwrite [9] 4294967296)) = .ok (s', .wrote 1) ∧
      (s' 0).value [120] = some [9, 2, 3] := by
  have hinit : env.Reach started := ⟨[], .init (show ∀ g, started g = _ from fun _ => rfl)⟩
  exact ⟨(hinit.step made_step).step filled_step, rfl, rfl, rfl, _, rfl, rfl⟩

end NixMark.Env
