import Mathlib.Data.List.GetD

/-!
# Segments of a list

* `segment` : the elements between two indices;
* `segment_of_le`, `segment_of_lt` : the recursion of a loop over the indices;
* `segment_append` : what follows a part of a segment is a segment.
-/

namespace Segments

open List

variable {α : Type*}
variable {after before rest : List α} {a : α}

/-- The elements from an index on, before another one. -/
def segment (l : List α) (start stop : ℕ) : List α := (l.drop start).take (stop - start)

variable {l : List α} {start stop : ℕ}

theorem segment_of_le (h : stop ≤ start) : segment l start stop = [] := by
  rw [segment, Nat.sub_eq_zero_of_le h, take_zero]

theorem segment_of_lt (h : start < stop) (hstop : stop ≤ l.length) (default : α) :
    segment l start stop = l.getD start default :: segment l (start + 1) stop := by
  have hlt := Nat.lt_of_lt_of_le h hstop
  rw [segment, drop_eq_getElem_cons hlt, show stop - start = stop - (start + 1) + 1 by omega,
    take_succ_cons, segment, getD_eq_getElem _ _ hlt]

theorem length_segment (start : ℕ) (hstop : stop ≤ l.length) :
    (segment l start stop).length = stop - start := by
  rw [segment, length_take, length_drop]
  omega

theorem segment_self : segment l 0 l.length = l := take_length

theorem lt_of_segment_eq_cons (h : segment l start stop = a :: rest) : start < stop := by
  refine Nat.lt_of_not_le fun hle => ?_
  rw [segment_of_le hle] at h
  exact cons_ne_nil _ _ h.symm

theorem segment_eq_cons (hstop : stop ≤ l.length) (h : segment l start stop = a :: rest)
    (default : α) : start < stop ∧ l.getD start default = a ∧
    segment l (start + 1) stop = rest := by
  have hlt := lt_of_segment_eq_cons h
  rw [segment_of_lt hlt hstop default] at h
  exact ⟨hlt, (List.cons.inj h).1, (List.cons.inj h).2⟩

theorem le_of_segment_eq_nil (hstop : stop ≤ l.length) (h : segment l start stop = []) :
    stop ≤ start := by
  have hlength := length_segment start hstop
  rw [h, length_nil] at hlength
  exact Nat.sub_eq_zero_iff_le.1 hlength.symm

theorem eq_succ_of_segment_eq_singleton (hstop : stop ≤ l.length) (h : segment l start stop = [a]) :
    stop = start + 1 := by
  have hlength := length_segment start hstop
  rw [h, length_singleton] at hlength
  omega

theorem segment_append (hstop : stop ≤ l.length) (h : segment l start stop = before ++ after) :
    segment l (start + before.length) stop = after := by
  induction before generalizing start with
  | nil => exact h
  | cons a before ih =>
    rw [length_cons, Nat.add_comm before.length, ← Nat.add_assoc]
    exact ih (segment_eq_cons hstop h a).2.2

theorem segment_left (h : segment l start stop = before ++ after) :
    segment l start (start + before.length) = before := by
  have hle : before.length ≤ stop - start := by
    have hlength := congrArg List.length h
    rw [segment, length_take, length_append] at hlength
    omega
  have htake : segment l start (start + before.length) =
      (segment l start stop).take before.length := by
    rw [segment, segment, take_take, Nat.add_sub_cancel_left, Nat.min_eq_left hle]
  rw [htake, h, take_left]

end Segments
