import Mathlib.Data.List.Basic
import Mathlib.Tactic.Ring

/-! # Bounded buffers

A buffer is a list that is read and written by index, and an index outside of it
is an error. A program that walks over a buffer splits it at its position, so the
rules are about a part that is done and a part ahead.
-/
namespace LibXpf.Buffers

variable {α ε : Type*} (overrun : ε)

def read (buf : List α) (i : ℕ) : Except ε α :=
  match buf[i]? with
  | some a => .ok a
  | none => .error overrun

def write (buf : List α) (i : ℕ) (a : α) : Except ε (List α) :=
  if i < buf.length then .ok (buf.set i a) else .error overrun

/-- Write one value after the other, from index `i` on. -/
def writeAll (buf : List α) (i : ℕ) : List α → Except ε (List α)
  | [] => .ok buf
  | a :: rest =>
    match write overrun buf i a with
    | .ok buf' => writeAll buf' (i + 1) rest
    | .error e => .error e

variable {overrun} {buf done ahead values : List α} {a b : α} {i k : ℕ}

theorem read_lt (h : i < buf.length) : read overrun buf i = .ok buf[i] := by
  rw [read, List.getElem?_eq_getElem h]

theorem read_ahead (hi : i = done.length + k) (ha : ahead[k]? = some a) :
    read overrun (done ++ ahead) i = .ok a := by
  have hget : (done ++ ahead)[i]? = some a := by
    rw [hi, List.getElem?_append_right (by omega), Nat.add_sub_cancel_left]
    exact ha
  rw [read, hget]

theorem read_here (hi : i = done.length) : read overrun (done ++ a :: ahead) i = .ok a :=
  read_ahead (k := 0) hi rfl

theorem write_here (hi : i = done.length) :
    write overrun (done ++ a :: ahead) i b = .ok (done ++ b :: ahead) := by
  have hlt : i < (done ++ a :: ahead).length := by
    rw [hi, List.length_append, List.length_cons]
    omega
  rw [write, if_pos hlt, hi, List.set_append_right _ _ le_rfl, Nat.sub_self, List.set_cons_zero]

/-- Writing ahead moves what is written to the part that is done. -/
theorem writeAll_here (hi : i = done.length) (hroom : values.length ≤ ahead.length) :
    writeAll overrun (done ++ ahead) i values = .ok (done ++ values ++ ahead.drop values.length) := by
  induction values generalizing done ahead i with
  | nil => rw [writeAll, List.append_nil, List.length_nil, List.drop_zero]
  | cons v rest ih =>
    cases ahead with
    | nil => simp at hroom
    | cons a ahead =>
      have hnext : i + 1 = (done ++ [v]).length := by rw [hi, List.length_append, List.length_singleton]
      have hrest : rest.length ≤ ahead.length := by simpa using hroom
      have happend : done ++ v :: ahead = (done ++ [v]) ++ ahead := by rw [List.append_assoc, List.singleton_append]
      rw [writeAll, write_here hi]
      simp only
      rw [happend, ih hnext hrest, List.length_cons, List.drop_succ_cons, List.append_assoc done [v] rest,
        List.singleton_append]

section Longer
variable {buf' : List α}

theorem read_append (h : read overrun buf i = .ok a) (beyond : List α) : read overrun (buf ++ beyond) i = .ok a := by
  rw [read] at h ⊢
  cases hget : buf[i]? with
  | none => simp [hget] at h
  | some b =>
    have hlt := (List.getElem?_eq_some_iff.mp hget).1
    rw [List.getElem?_append_left hlt, hget]
    rwa [hget] at h

/-- What is written inside a buffer leaves the rest of a longer one as it is. -/
theorem write_append (h : write overrun buf i a = .ok buf') (beyond : List α) :
    write overrun (buf ++ beyond) i a = .ok (buf' ++ beyond) := by
  rw [write] at h ⊢
  split at h
  next hlt =>
    obtain rfl := Except.ok.inj h
    rw [if_pos (by rw [List.length_append]; omega), List.set_append_left _ _ hlt]
  next => cases h

theorem writeAll_append (h : writeAll overrun buf i values = .ok buf') (beyond : List α) :
    writeAll overrun (buf ++ beyond) i values = .ok (buf' ++ beyond) := by
  induction values generalizing buf i with
  | nil =>
    obtain rfl := Except.ok.inj h
    rfl
  | cons v rest ih =>
    rw [writeAll] at h ⊢
    cases hwrite : write overrun buf i v with
    | error e => simp [hwrite] at h
    | ok next =>
      rw [hwrite] at h
      rw [write_append hwrite beyond]
      exact ih h

end Longer

end LibXpf.Buffers
