import Mathlib.Logic.Basic

/-!
# Programs with a state, errors and faults

A program changes a state and ends with a value, with an error or with a fault. An error keeps the
state that it finds; a handler goes on from there.

* `Prog`: programs, as a monad. `Prog.error`, `Prog.fault`, `Prog.handle`, `Prog.modify`.
* `Prog.wp x Q E F s`: from `s`, `x` ends with `Q` of its value and the state, with `E` of its error
  and the state, or with a fault, which `F` allows. The rules `wp_bind` to `wp_whenever`; `wp_imp`.
* `Prog.Keeps I x F`: whatever ends `x`, `I` holds afterwards when it held before; `x` ends with a
  fault only if `F` holds.
-/

namespace NixMark.Lib

/-- How a program ends. -/
inductive Res (ε σ α : Type) where
  | ok (a : α) (s : σ)
  | error (e : ε) (s : σ)
  | fault

def Prog (ε σ α : Type) : Type := σ → Res ε σ α

namespace Prog

variable {ε σ α β : Type}

def ret (a : α) : Prog ε σ α := fun s => .ok a s

def next (x : Prog ε σ α) (f : α → Prog ε σ β) : Prog ε σ β := fun s =>
  match x s with
  | .ok a s => f a s
  | .error e s => .error e s
  | .fault => .fault

instance : Monad (Prog ε σ) where
  pure := ret
  bind := next

def get : Prog ε σ σ := fun s => .ok s s

def modify (f : σ → σ) : Prog ε σ Unit := fun s => .ok () (f s)

def error (e : ε) : Prog ε σ α := fun s => .error e s

def fault : Prog ε σ α := fun _ => .fault

def handle (x : Prog ε σ α) (h : ε → Prog ε σ α) : Prog ε σ α := fun s =>
  match x s with
  | .ok a s => .ok a s
  | .error e s => h e s
  | .fault => .fault

def whenever (c : Prop) [Decidable c] (x : Prog ε σ Unit) : Prog ε σ Unit := if c then x else ret ()

/-! ## Weakest preconditions -/

def wp (x : Prog ε σ α) (Q : α → σ → Prop) (E : ε → σ → Prop) (F : Prop) (s : σ) : Prop :=
  match x s with
  | .ok a s => Q a s
  | .error e s => E e s
  | .fault => F

variable {x : Prog ε σ α} {Q : α → σ → Prop} {E : ε → σ → Prop} {F : Prop} {s : σ}

@[simp] theorem wp_pure {a : α} : wp (pure a : Prog ε σ α) Q E F s ↔ Q a s := Iff.rfl

@[simp] theorem wp_bind {f : α → Prog ε σ β} {R : β → σ → Prop} :
    wp (x >>= f) R E F s ↔ wp x (fun a s => wp (f a) R E F s) E F s := by
  change wp (next x f) R E F s ↔ _
  unfold wp next
  cases x s <;> rfl

@[simp] theorem wp_get {Q : σ → σ → Prop} : wp (get : Prog ε σ σ) Q E F s ↔ Q s s := Iff.rfl

@[simp] theorem wp_modify {f : σ → σ} {Q : Unit → σ → Prop} :
    wp (modify f : Prog ε σ Unit) Q E F s ↔ Q () (f s) := Iff.rfl

@[simp] theorem wp_handle {h : ε → Prog ε σ α} :
    wp (x.handle h) Q E F s ↔ wp x Q (fun e s => wp (h e) Q E F s) F s := by
  unfold wp handle
  cases x s <;> rfl

@[simp] theorem wp_whenever {c : Prop} [Decidable c] {x : Prog ε σ Unit} {Q : Unit → σ → Prop} :
    wp (whenever c x) Q E F s ↔ (c → wp x Q E F s) ∧ (¬ c → Q () s) := by
  unfold whenever
  split
  · rename_i hc
    exact ⟨fun h => ⟨fun _ => h, fun hn => absurd hc hn⟩, fun h => h.1 hc⟩
  · rename_i hc
    exact ⟨fun h => ⟨fun hp => absurd hp hc, fun _ => h⟩, fun h => h.2 hc⟩

theorem wp_imp {Q' : α → σ → Prop} {E' : ε → σ → Prop} {F' : Prop} (h : wp x Q E F s)
    (hQ : ∀ a s, Q a s → Q' a s) (hE : ∀ e s, E e s → E' e s) (hF : F → F') : wp x Q' E' F' s := by
  unfold wp at h ⊢
  cases hx : x s with
  | ok a s' =>
    rw [hx] at h
    exact hQ _ _ h
  | error e s' =>
    rw [hx] at h
    exact hE _ _ h
  | fault =>
    rw [hx] at h
    exact hF h

/-- Two postconditions at once. -/
theorem wp_and {Q' : α → σ → Prop} {E' : ε → σ → Prop} {F' : Prop} (h : wp x Q E F s)
    (h' : wp x Q' E' F' s) :
    wp x (fun a s => Q a s ∧ Q' a s) (fun e s => E e s ∧ E' e s) (F ∧ F') s := by
  unfold wp at h h' ⊢
  cases hx : x s with
  | ok a s' =>
    rw [hx] at h h'
    exact ⟨h, h'⟩
  | error e s' =>
    rw [hx] at h h'
    exact ⟨h, h'⟩
  | fault =>
    rw [hx] at h h'
    exact ⟨h, h'⟩

/-- The postconditions that say all. -/
theorem wp_self : wp x (fun a s' => x s = .ok a s') (fun e s' => x s = .error e s') (x s = .fault) s := by
  unfold wp
  cases x s <;> rfl

theorem wp_ok {a : α} {s' : σ} (h : wp x Q E F s) (hx : x s = .ok a s') : Q a s' := by
  unfold wp at h
  rw [hx] at h
  exact h

theorem wp_of_error {e : ε} {s' : σ} (h : wp x Q E F s) (hx : x s = .error e s') : E e s' := by
  unfold wp at h
  rw [hx] at h
  exact h

theorem not_fault_of_wp (h : wp x Q E False s) : x s ≠ .fault := by
  intro hx
  unfold wp at h
  rw [hx] at h
  exact h

theorem fault_of_wp (h : wp x (fun _ _ => False) (fun _ _ => False) True s) : x s = .fault := by
  unfold wp at h
  split at h
  · exact h.elim
  · exact h.elim
  · assumption

/-- A program that cannot but fail. -/
theorem fails_of_wp {P : ε → σ → Prop} (h : wp x (fun _ _ => False) P False s) :
    ∃ e s', x s = .error e s' ∧ P e s' := by
  unfold wp at h
  cases hx : x s with
  | ok a s' =>
    rw [hx] at h
    exact h.elim
  | error e s' =>
    rw [hx] at h
    exact ⟨e, s', rfl, h⟩
  | fault =>
    rw [hx] at h
    exact h.elim

/-! ## What is kept -/

/-- However the program ends, `I` holds afterwards; it ends with a fault only if `F` holds. -/
def Keeps (I : σ → Prop) (x : Prog ε σ α) (F : Prop := True) : Prop :=
  ∀ s, I s → wp x (fun _ => I) (fun _ => I) F s

variable {I : σ → Prop}

theorem Keeps.pure {a : α} : Keeps I (pure a : Prog ε σ α) F := fun _ hs => hs

theorem Keeps.get : Keeps I (get : Prog ε σ σ) F := fun _ hs => hs

theorem Keeps.error {e : ε} : Keeps I (error e : Prog ε σ α) F := fun _ hs => hs

theorem Keeps.fault : Keeps I (fault : Prog ε σ α) := fun _ _ => trivial

theorem Keeps.bind {f : α → Prog ε σ β} (h : Keeps I x F) (hf : ∀ a, Keeps I (f a) F) :
    Keeps I (x >>= f) F := by
  intro s hs
  rw [wp_bind]
  exact wp_imp (h s hs) (fun a s hs => hf a s hs) (fun _ _ hs => hs) id

theorem Keeps.handle {h : ε → Prog ε σ α} (hx : Keeps I x F) (hh : ∀ e, Keeps I (h e) F) :
    Keeps I (x.handle h) F := by
  intro s hs
  rw [wp_handle]
  exact wp_imp (hx s hs) (fun _ _ hs => hs) (fun e s hs => hh e s hs) id

theorem Keeps.ite {c : Prop} [Decidable c] {y : Prog ε σ α} (hx : Keeps I x F)
    (hy : Keeps I y F) : Keeps I (if c then x else y) F := by
  split
  · exact hx
  · exact hy

theorem Keeps.whenever {c : Prop} [Decidable c] {x : Prog ε σ Unit} (hx : Keeps I x F) :
    Keeps I (whenever c x) F := hx.ite Keeps.pure

end Prog
end NixMark.Lib
