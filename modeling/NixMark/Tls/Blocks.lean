import NixMark.Tls.Dev

/-!
# Lists of blocks as bytes

What `fetch`, `consume`, `qgrab` and `regurgitate` do with the bytes of a list; how the blocks lie
does not matter. `stream`: the bytes that a list of the channel's answers has.
-/

namespace NixMark.Tls

variable {l : List Block} {n : Nat}

@[simp] theorem bytes_nil : bytes [] = [] := rfl

@[simp] theorem bytes_cons {b : Block} : bytes (b :: l) = b.data ++ bytes l := rfl

variable {l' : List Block}

@[simp] theorem bytes_append : bytes (l ++ l') = bytes l ++ bytes l' :=
  List.flatMap_append

theorem consume_fst : (consume l n).1 = (bytes l).take n := by
  induction l generalizing n with
  | nil => simp [consume]
  | cons b l ih =>
    unfold consume
    rw [bytes_cons]
    split
    · rename_i hn
      rw [hn, List.take_zero]
    · split
      · rename_i hb
        rw [List.take_append, List.take_of_length_le hb, ← ih]
      · rename_i hb
        rw [List.take_append_of_le_length (Nat.le_of_not_le hb)]

theorem consume_snd : bytes (consume l n).2 = (bytes l).drop n := by
  induction l generalizing n with
  | nil => simp [consume]
  | cons b l ih =>
    unfold consume
    rw [bytes_cons]
    split
    · rename_i hn
      rw [hn, List.drop_zero, bytes_cons]
    · split
      · rename_i hb
        rw [List.drop_append, List.drop_eq_nil_of_le hb, List.nil_append, ih]
      · rename_i hb
        rw [List.drop_append_of_le_length (Nat.le_of_not_le hb), bytes_cons]

theorem qgrab_none : qgrab l n = none ↔ l = [] := by
  cases l with
  | nil => simp [qgrab]
  | cons b l =>
    rw [qgrab]
    split <;> simp

theorem qgrab_some {b : Block} (h : qgrab l n = some (b, l')) :
    b.data = (bytes l).take n ∧ bytes l' = (bytes l).drop n := by
  cases l with
  | nil => cases h
  | cons b' l =>
    rw [qgrab] at h
    split at h
    · rename_i hn
      cases h
      rw [bytes_cons, List.take_left' hn, List.drop_left' hn]
      exact ⟨rfl, rfl⟩
    · cases h
      exact ⟨consume_fst, consume_snd⟩

theorem regurgitate_bytes {p : List UInt8} : bytes (regurgitate p l) = p ++ bytes l := by
  cases l with
  | nil =>
    rw [regurgitate]
    split
    · rename_i hp
      rw [hp, List.nil_append]
    · rfl
  | cons b l =>
    rw [regurgitate]
    split
    · rename_i hp
      rw [hp, List.nil_append]
    · split
      · rfl
      · rw [bytes_cons, bytes_cons, List.append_assoc]

/-! ## The channel -/

def Bread.bytes : Bread → List UInt8
  | .blocks bl => Tls.bytes bl
  | .error _ => []

theorem Bread.len_eq (b : Bread) : b.len = b.bytes.length := by
  cases b <;> rfl

def stream (input : List Bread) : List UInt8 := input.flatMap (·.bytes)

variable {input : List Bread}

theorem stream_cons {b : Bread} : stream (b :: input) = b.bytes ++ stream input :=
  rfl

theorem stream_concat {b : Bread} : stream (input ++ [b]) = stream input ++ b.bytes := by
  unfold stream
  rw [List.flatMap_append, List.flatMap_singleton]

/-- The bytes that can still be read. -/
def Conn.pending {K : Type} (s : Conn K) : List UInt8 := bytes s.tr.unprocessed ++ stream s.input

theorem sum_len (input : List Bread) :
    input.foldr (fun b n => b.len + n) 0 = (stream input).length := by
  induction input with
  | nil => rfl
  | cons b input ih => rw [List.foldr_cons, ih, stream_cons, List.length_append, b.len_eq]

theorem avail_eq {K : Type} (s : Conn K) : s.avail = s.pending.length := by
  unfold Conn.avail Conn.pending blocklen
  rw [sum_len, List.length_append]

/-- The bytes that `fetch` leaves are those that it found. -/
theorem fetch_bytes {input' : List Bread} {e : Option String}
    (h : fetch n input l = (e, input', l')) :
    bytes l' ++ stream input' = bytes l ++ stream input := by
  induction input generalizing l with
  | nil =>
    unfold fetch at h
    split at h <;> cases h <;> rfl
  | cons b input ih =>
    cases b with
    | blocks bl =>
      unfold fetch at h
      split at h
      · cases h
        rfl
      · split at h
        · cases h
          rw [bytes_append, stream_cons, List.append_assoc]
          rfl
        · have h := ih h
          rw [h, bytes_append, stream_cons, List.append_assoc]
          rfl
    | error e' =>
      unfold fetch at h
      split at h
      · cases h
        rfl
      · cases h
        rfl

theorem fetch_enough {input' : List Bread} (h : fetch n input l = (none, input', l')) :
    n ≤ (bytes l').length := by
  induction input generalizing l with
  | nil =>
    unfold fetch at h
    split at h
    · cases h
      assumption
    · cases h
  | cons b input ih =>
    cases b with
    | blocks bl =>
      unfold fetch at h
      split at h
      · cases h
        assumption
      · split at h
        · cases h
        · exact ih h
    | error e' =>
      unfold fetch at h
      split at h
      · cases h
        assumption
      · cases h

theorem fetch_zero : fetch 0 input l = (none, input, l) := by
  cases input with
  | nil => exact if_pos (Nat.zero_le _)
  | cons b input => cases b <;> exact if_pos (Nat.zero_le _)

end NixMark.Tls
