import NixMark.Fd.Fgrp
import NixMark.Lib.Lts

/-!
# Processes that share and copy tables of file descriptors

A section under the lock of a table is one step, `cclose` and the test of a loop are steps of their
own.

* `Pc`: what a process has yet to do in its system call, with the references that the call holds.
* `Sys.go`: the next statement; `Sys.act`: calls besides, and references that other code gets and
  gives up.
-/

namespace NixMark.Fd

open Lib

inductive Pc (G C : Type) where
  | idle
  | newfd (c : C)
  | newfd2 (c₀ c₁ : C)
  /-- `sysdup` with `nfd != -1` -/
  | dupto (oc : C) (nfd : Int)
  /-- `fdclose(fd, 0)` -/
  | fdclose (fd : Nat)
  /-- `i<=f->maxfd` in `sysexec` -/
  | exec (i : Nat)
  /-- `fdclose(i, CCEXEC)` -/
  | execclose (i : Nat)
  /-- `cclose` of each, then on with the loop of `sysexec` if that is where it is -/
  | cclose (cs : List C) (next : Option Nat)
  /-- `decref(f)` in `closefgrp` -/
  | closefgrp (g : G)
  /-- `i <= f->maxfd` in `closefgrp` -/
  | closing (g : G) (i : Nat)
  | cclosing (g : G) (i : Nat) (c : C)
  /-- `c->dev->close(c)` -/
  | asleep (g : G) (i : Nat)
  /-- `i <= f->maxfd` in `forceclosefgrp` -/
  | force (g : G) (i j : Nat)
  | ccloseq (g : G) (i j : Nat) (c : C)

/-- `up` is `up->fgrp`; `elsewhere` counts the references that neither tables nor the calls below
hold, such as those of the mount table or of a read that is going on. -/
structure Sys (P G C : Type) where
  fgrp : G → Option (Fgrp C)
  ref : C → Nat
  cexec : C → Bool
  elsewhere : C → Nat
  up : P → Option G
  pc : P → Pc G C

/-- What `rfork` does with the table. -/
inductive Copy where
  | share
  /-- `RFFDG` -/
  | dup (mem : Bool)
  /-- `RFCFDG` -/
  | clean

inductive Act (P G C : Type) where
  /-- other code opens a channel or gets another reference to it -/
  | get (c : C) (cexec : Bool)
  | put (c : C)
  /-- `newfd` with a reference that the caller has -/
  | newfd (c : C)
  | newfd2 (c₀ c₁ : C)
  | dup (ofd nfd : Int)
  | close (fd : Int)
  | exec
  | rfork (child : P) (g : G) (how : Copy)
  /-- without `RFPROC` -/
  | regroup (g : G) (how : Copy)
  | exit
  | go (mem₀ mem₁ : Bool)
  /-- a kill finds the process asleep in `closefgrp` -/
  | kill

variable {P G C : Type} [DecidableEq P] [DecidableEq G] [DecidableEq C]

namespace Sys

def goto (s : Sys P G C) (p : P) (k : Pc G C) : Sys P G C :=
  { s with pc := Function.update s.pc p k }

def setfgrp (s : Sys P G C) (g : G) (f : Option (Fgrp C)) : Sys P G C :=
  { s with fgrp := Function.update s.fgrp g f }

def setup (s : Sys P G C) (p : P) (g : Option G) : Sys P G C :=
  { s with up := Function.update s.up p g }

def incref (s : Sys P G C) (c : C) : Sys P G C :=
  { s with ref := Function.update s.ref c (s.ref c + 1) }

def decref (s : Sys P G C) (c : C) : Sys P G C :=
  { s with ref := Function.update s.ref c (s.ref c - 1) }

/-- One reference to each slot's channel more. -/
def increfs (s : Sys P G C) (f : Fgrp C) : Sys P G C :=
  { s with ref := fun c => s.ref c + f.fd.count (some c) }

/-- Other code gets a reference, perhaps to a new channel. -/
def get (s : Sys P G C) (c : C) (cexec : Bool) : Sys P G C :=
  { s.incref c with
    elsewhere := Function.update s.elsewhere c (s.elsewhere c + 1)
    cexec := if s.ref c = 0 then Function.update s.cexec c cexec else s.cexec }

/-- A caller has the reference. -/
def take (s : Sys P G C) (c : C) : Option (Sys P G C) :=
  if s.elsewhere c = 0 then none
  else some { s with elsewhere := Function.update s.elsewhere c (s.elsewhere c - 1) }

/-- `up->fgrp` -/
def table (s : Sys P G C) (p : P) : Option (G × Fgrp C) :=
  match s.up p with
  | none => none
  | some g => (s.fgrp g).map fun f => (g, f)

/-- A section under the lock of the table of `p`. -/
def locked (s : Sys P G C) (p : P) (body : Fgrp C → Fgrp C × Pc G C) : Option (Sys P G C) :=
  (s.table p).map fun (g, f) => (s.setfgrp g (some (body f).1)).goto p (body f).2

/-- The next statement of `p`. -/
def go (s : Sys P G C) (p : P) (mem₀ mem₁ : Bool) : Option (Sys P G C) :=
  match s.pc p with
  | .idle => none
  | .newfd c => s.locked p fun f =>
    match f.newfd c mem₀ with
    | (f, some _) => (f, .idle)
    | (f, none) => (f, .cclose [c] none)
  | .newfd2 c₀ c₁ => s.locked p fun f =>
    match f.newfd2 c₀ c₁ mem₀ mem₁ with
    | (f, some _) => (f, .idle)
    | (f, none) => (f, .cclose [c₀, c₁] none)
  | .dupto oc nfd => s.locked p fun f =>
    match f.dupto oc nfd mem₀ with
    | (f, some nc) => (f, .cclose nc.toList none)
    | (f, none) => (f, .cclose [oc] none)
  | .fdclose fd => s.locked p fun f =>
    ((f.fdclose fd fun _ => true).1, .cclose (f.fdclose fd fun _ => true).2.toList none)
  | .exec i => s.locked p fun f => (f, if i ≤ f.maxfd then .execclose i else .idle)
  | .execclose i => s.locked p fun f =>
    ((f.fdclose i s.cexec).1, .cclose (f.fdclose i s.cexec).2.toList (some (i + 1)))
  | .cclose (c :: cs) next => some ((s.decref c).goto p (.cclose cs next))
  | .cclose [] none => some (s.goto p .idle)
  | .cclose [] (some i) => some (s.goto p (.exec i))
  | .closefgrp g => (s.fgrp g).map fun f =>
    (s.setfgrp g (some { f with ref := f.ref - 1 })).goto p
      (if f.ref - 1 = 0 then .closing g 0 else .idle)
  | .closing g i => (s.fgrp g).map fun f =>
    if i ≤ f.maxfd then
      match f.slot i with
      | some c => (s.setfgrp g (some (f.put i none))).goto p (.cclosing g i c)
      | none => s.goto p (.closing g (i + 1))
    else (s.setfgrp g none).goto p .idle
  | .cclosing g i c => some ((s.decref c).goto p (.asleep g i))
  | .asleep g i => some (s.goto p (.closing g (i + 1)))
  | .force g i j => (s.fgrp g).map fun f =>
    if j ≤ f.maxfd then
      match f.slot j with
      | some c => (s.setfgrp g (some (f.put j none))).goto p (.ccloseq g i j c)
      | none => s.goto p (.force g i (j + 1))
    else s.goto p (.asleep g i)
  | .ccloseq g i j c => some ((s.decref c).goto p (.force g i (j + 1)))

/-- The table that a process gets from one that has `f`, which is table `g`; a new one is `g'`. -/
def copy (s : Sys P G C) (g : G) (f : Fgrp C) (g' : G) (p : P) : Copy → Option (Sys P G C)
  | .share => some ((s.setfgrp g (some { f with ref := f.ref + 1 })).setup p (some g))
  | .dup mem =>
    match s.fgrp g', f.dupfgrp mem with
    | none, some f' => some (((s.increfs f').setfgrp g' (some f')).setup p (some g'))
    | _, _ => none
  | .clean =>
    match s.fgrp g' with
    | none => some ((s.setfgrp g' (some .empty)).setup p (some g'))
    | _ => none

def call (s : Sys P G C) (p : P) : Act P G C → Option (Sys P G C)
  | .newfd c => (s.take c).map fun s => s.goto p (.newfd c)
  | .newfd2 c₀ c₁ => ((s.take c₀).bind fun s => s.take c₁).map fun s => s.goto p (.newfd2 c₀ c₁)
  | .dup ofd nfd => (s.table p).map fun (_, f) =>
    match f.fdtochan ofd with
    | none => s
    | some oc => (s.incref oc).goto p (if nfd = -1 then .newfd oc else .dupto oc nfd)
  | .close fd => (s.table p).map fun (_, f) =>
    match f.fdtochan fd with
    | none => s
    | some _ => s.goto p (.fdclose fd.toNat)
  | .exec => some (s.goto p (.exec 0))
  | .rfork child g' how => (s.table p).bind fun (g, f) =>
    match s.up child, s.pc child with
    | none, .idle => s.copy g f g' child how
    | _, _ => none
  | .regroup g' how => (s.table p).bind fun (g, f) =>
    match how with
    | .share => none
    | how => (s.copy g f g' p how).map fun s => s.goto p (.closefgrp g)
  | .exit => (s.table p).map fun (g, _) => (s.setup p none).goto p (.closefgrp g)
  | _ => none

def act (s : Sys P G C) (p : P) : Act P G C → Option (Sys P G C)
  | .get c cexec => some (s.get c cexec)
  | .put c => (s.take c).map fun s => s.decref c
  | .go mem₀ mem₁ => s.go p mem₀ mem₁
  | .kill =>
    match s.pc p with
    | .asleep g i => some (s.goto p (.force g i 0))
    | _ => none
  | call =>
    match s.pc p, s.up p with
    | .idle, some _ => s.call p call
    | _, _ => none

end Sys

/-- All interleavings, from the first process with its new table. -/
def kernel (P G C : Type) [DecidableEq P] [DecidableEq G] [DecidableEq C] :
    Lts (Sys P G C) (P × Act P G C) where
  init s := (∀ c, s.ref c = 0) ∧ (∀ c, s.elsewhere c = 0) ∧ (∀ p, s.pc p = .idle) ∧
    ∃ p g, s.up = Function.update (fun _ => none) p (some g) ∧
      s.fgrp = Function.update (fun _ => none) g (some .empty)
  step s e s' := s.act e.1 e.2 = some s'

end NixMark.Fd
