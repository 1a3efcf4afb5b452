/-!
# Tables of characters

A property of characters is a list of closed ranges of code points, each range after the one before
it.

* `covers`: whether a code point lies in one of the ranges. It stops at the first range that does
  not end before the code point.
* `covers_iff`: in a table that is in order, `covers` finds exactly the code points of its ranges.
-/

namespace PegMachine.Text

/-- The code points from the first number to the second, both included. -/
abbrev CharRange := Nat × Nat

/-- Every range holds a code point and starts after the ranges before it. -/
def Ascending : List CharRange → Prop
  | [] => True
  | [r] => r.1 ≤ r.2
  | r :: s :: rest => r.1 ≤ r.2 ∧ r.2 < s.1 ∧ Ascending (s :: rest)

instance Ascending.decidable : (table : List CharRange) → Decidable (Ascending table)
  | [] => inferInstanceAs (Decidable True)
  | [r] => inferInstanceAs (Decidable (r.1 ≤ r.2))
  | r :: s :: rest =>
    have := Ascending.decidable (s :: rest)
    inferInstanceAs (Decidable (r.1 ≤ r.2 ∧ r.2 < s.1 ∧ Ascending (s :: rest)))

/-- Whether a code point lies in one of the ranges of a table that is in order. -/
def covers : List CharRange → Nat → Bool
  | [], _ => false
  | r :: rest, code => if code ≤ r.2 then r.1 ≤ code else covers rest code

theorem Ascending.tail {r : CharRange} {rest : List CharRange} (h : Ascending (r :: rest)) :
    Ascending rest := by
  cases rest with
  | nil => trivial
  | cons s rest => exact h.2.2

theorem Ascending.head_le {r : CharRange} {rest : List CharRange} (h : Ascending (r :: rest)) :
    r.1 ≤ r.2 := by
  cases rest with
  | nil => exact h
  | cons s rest => exact h.1

theorem Ascending.lt_of_mem {r s : CharRange} {rest : List CharRange}
    (h : Ascending (r :: rest)) (hs : s ∈ rest) : r.2 < s.1 := by
  induction rest generalizing r with
  | nil => cases hs
  | cons t rest ih =>
    rcases List.mem_cons.mp hs with rfl | hs
    · exact h.2.1
    · exact Nat.lt_trans (Nat.lt_of_lt_of_le h.2.1 h.tail.head_le) (ih h.tail hs)

/-- **A table that is in order covers exactly the code points of its ranges.** -/
theorem covers_iff {table : List CharRange} (h : Ascending table) (code : Nat) :
    covers table code = true ↔ ∃ r ∈ table, r.1 ≤ code ∧ code ≤ r.2 := by
  induction table with
  | nil => simp [covers]
  | cons r rest ih =>
    rw [covers]
    split
    · rename_i hle
      refine ⟨fun hr => ⟨r, List.mem_cons_self, of_decide_eq_true hr, hle⟩, ?_⟩
      rintro ⟨s, hs, hlo, hhi⟩
      rcases List.mem_cons.mp hs with rfl | hs
      · exact decide_eq_true hlo
      · have := h.lt_of_mem hs
        omega
    · rename_i hlt
      rw [ih h.tail]
      refine ⟨fun ⟨s, hs, hin⟩ => ⟨s, List.mem_cons_of_mem _ hs, hin⟩, ?_⟩
      rintro ⟨s, hs, hin⟩
      rcases List.mem_cons.mp hs with rfl | hs
      · exact absurd hin.2 hlt
      · exact ⟨s, hs, hin⟩

end PegMachine.Text
