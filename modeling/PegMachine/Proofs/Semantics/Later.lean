import PegMachine.Proofs.Semantics.Readings

/-!
# Readings behind a prefix

What captures amount to when a prefix stands before the subject and the captures move along with it.

* `Reading.later`: the reading of a capture that has moved.
* `extract_later`: the text behind a prefix.
* `Content.reading_later`: **a capture amounts to the same**, unless it stands for its position.
-/

namespace PegMachine

variable {subject : Bytes} {arguments : List Value} {bindings : Bindings} {content : Content}
  {start stop : Nat} {nested : List Reading}

/-- The reading of a capture that has moved by `k` bytes. -/
def Reading.later (k : Nat) (reading : Reading) : Reading :=
  { reading with start := reading.start + k, stop := reading.stop + k }

theorem extract_later (u subject : Bytes) (start stop : Nat) :
    (u ++ subject).extract (start + u.size) (stop + u.size) = subject.extract start stop := by
  rw [Array.extract_append, Array.extract_empty_of_size_le_start (by omega), Array.empty_append,
    Nat.add_sub_cancel, Nat.add_sub_cancel]

/-! ## What is gathered -/

theorem nestedValues_later (k : Nat) (nested : List Reading) :
    nestedValues (nested.map (Reading.later k)) = nestedValues nested := by
  induction nested with
  | nil => rfl
  | cons reading rest ih =>
    rw [List.map_cons, nestedValues, nestedValues, ih]
    rfl

theorem nestedOr_later (k : Nat) (text : Bytes) (nested : List Reading) :
    nestedOr text (nested.map (Reading.later k)) = nestedOr text nested := by
  rw [nestedOr, nestedOr, nestedValues_later]

theorem foldOnto_later (k : Nat) (f : FoldFunction) (value : Value) (nested : List Reading) :
    foldOnto f value (nested.map (Reading.later k)) = foldOnto f value nested := by
  induction nested generalizing value with
  | nil => rfl
  | cons reading rest ih =>
    rw [List.map_cons, foldOnto, foldOnto]
    exact congrArg (reading.values >>= ·) (funext fun values => ih (f value values))

theorem folded_later (k : Nat) (f : FoldFunction) (nested : List Reading) :
    folded f (nested.map (Reading.later k)) = folded f nested := by
  cases nested with
  | nil => rfl
  | cons reading rest =>
    rw [List.map_cons, folded, folded, show (reading.later k).values = reading.values from rfl]
    simp only [foldOnto_later]

theorem replaced_later (u subject : Bytes) (used stop : Nat) (nested : List Reading) :
    replaced (u ++ subject) (used + u.size) (stop + u.size) (nested.map (Reading.later u.size)) =
      replaced subject used stop nested := by
  induction nested generalizing used with
  | nil => exact congrArg Except.ok (extract_later u subject used stop)
  | cons reading rest ih =>
    rw [List.map_cons, replaced, replaced]
    simp only [Reading.later, extract_later]
    rw [show rest.map _ = rest.map (Reading.later u.size) from rfl, ih]

theorem partsWithin_later (u subject : Bytes) (start stop : Nat) (nested : List Reading) :
    partsWithin (u ++ subject) (start + u.size) (stop + u.size)
        (nested.map (Reading.later u.size)) =
      partsWithin subject start stop nested := by
  rw [partsWithin, partsWithin, extract_later, List.flatMap_map]
  rfl

/-! ## Values and readings -/

/-- A capture that has moved along with the subject has the same values, unless it stands for its
position. -/
theorem Content.values_later (u : Bytes) (hplace : content ≠ .position) :
    content.values (u ++ subject) arguments bindings (start + u.size) (stop + u.size)
        (nested.map (Reading.later u.size)) =
      content.values subject arguments bindings start stop nested := by
  cases content with
  | position => exact absurd rfl hplace
  | argument n => cases n <;> rfl
  | const | backref | named | dynamic => rfl
  | simple => simp only [Content.values, nestedValues_later, extract_later]
  | table => simp only [Content.values, nestedValues_later]
  | subst => simp only [Content.values, replaced_later]
  | group | function | query => simp only [Content.values, nestedOr_later, extract_later]
  | fold => simp only [Content.values, folded_later]
  | template => simp only [Content.values, partsWithin_later]

/-- **A capture that has moved along with the subject amounts to the same**, unless it stands for its
position. -/
theorem Content.reading_later (u : Bytes) (hplace : content ≠ .position) :
    content.reading (u ++ subject) arguments bindings (start + u.size) (stop + u.size)
        (nested.map (Reading.later u.size)) =
      (content.reading subject arguments bindings start stop nested).later u.size := by
  have hvalues := @values_later subject arguments bindings content start stop nested u hplace
  cases content with
  | simple => simp only [Content.reading, Reading.later, hvalues, partsWithin_later]
  | named name =>
    simp only [Content.reading, Reading.later, hvalues, nestedOr_later, extract_later]
  | _ => simp only [Content.reading, Reading.later, hvalues]

end PegMachine
