/-!
# What a computation that may stop guarantees

* `Meets x E Q`: the value of `x` has `Q`, or `x` stops with an `E`.
* `Meets.bind`, `Meets.imp`: sequence and consequence.
-/

namespace NixMark.Lib

universe u v w

/-- `x` yields a value that has `Q`, or stops with an error that has `E`. -/
def Meets {ε : Type u} {α : Type v} (x : Except ε α) (E : ε → Prop) (Q : α → Prop) : Prop :=
  match x with
  | .ok a => Q a
  | .error e => E e

variable {ε : Type u} {α β : Type v} {x : Except ε α} {E : ε → Prop}

theorem Meets.imp {E' : ε → Prop} {Q Q' : α → Prop} (h : Meets x E Q) (hE : ∀ e, E e → E' e)
    (hQ : ∀ a, Q a → Q' a) : Meets x E' Q' := by
  cases x with
  | ok a => exact hQ a h
  | error e => exact hE e h

theorem Meets.bind {f : α → Except ε β} {Q : α → Prop} {R : β → Prop} (h : Meets x E Q)
    (hf : ∀ a, Q a → Meets (f a) E R) : Meets (x >>= f) E R := by
  cases x with
  | ok a => exact hf a h
  | error e => exact h

end NixMark.Lib
