import PegMachine.Proofs.Cursor.Loops

/-!
# Texts with one cursor

The pieces of a template, substitutions and templates are appended as the walks over the list find
them.

* `Cursor.addItems_run`: the pieces that a template can refer to.
* `Cursor.added`, `Cursor.substitute_run`: substitutions.
* `Cursor.expand_run`, `Cursor.fill_run`: templates, whose pieces take the cursor elsewhere.
-/

namespace PegMachine.Cursor

open Resolver

variable {r : Resolver} {cursor : Nat}

/-! ## Pieces of templates -/

theorem setIfInBounds_push_append {α : Type} (items more : Array α) (a b : α) :
    (items.push a ++ more).setIfInBounds items.size b = items ++ (#[b] ++ more) :=
  Array.toList_inj.1 (by simp)

theorem addItem_matches (r : Resolver) {inner : Array Piece → CursorM (Array Piece)}
    {found : Nat → Nat → Except Fault (Array Piece × Nat)}
    (hinner : ∀ items cursor, (inner items).run cursor =
      (found items.size cursor).map fun more => (items ++ more.1, more.2))
    (before pieces items : Array Piece) (cursor : Nat) (h : items = before ++ pieces) :
    Matches (fun pieces items => items = before ++ pieces)
      (r.addPieces found before.size pieces cursor) ((addItem r inner items).run cursor) := by
  subst h
  have hsize : (before ++ pieces).size = before.size + pieces.size := Array.size_append
  rw [addPieces, addItem, hsize]
  split
  · rw [StateT.run_bind, skip_run]
    cases present (Entry.after? r.entries cursor) with
    | error fault => exact .error fault
    | ok next => exact .ok (by rfl) next
  · cases hat : r.entries[cursor]? with
    | none =>
      rw [run_bind_error (entry_none hat), Entry.after?, hat]
      exact .error _
    | some first =>
      rw [run_bind_ok (entry_some hat)]
      simp only [Option.bind_some]
      split
      · rw [hinner, hsize]
        cases found (before.size + pieces.size) cursor with
        | error fault => exact .error fault
        | ok more => exact .ok (by rw [Array.append_assoc]) _
      · rw [run_bind_ok rfl, StateT.run_bind, skip_run]
        cases present (Entry.after? r.entries cursor) with
        | error fault => exact .error fault
        | ok next => exact .ok (by rw [Array.append_push]) next

theorem addItems_run (depth : Nat) (items : Array Piece) (cursor : Nat) :
    (addItems r depth items).run cursor =
      (r.pieces depth items.size cursor).map fun found => (items ++ found.1, found.2) := by
  induction depth generalizing items cursor with
  | zero => rfl
  | succ depth ih =>
    rw [addItems, pieces, inside]
    cases hat : r.entries[cursor]? with
    | none =>
      rw [run_bind_error (entry_none hat)]
      rfl
    | some first =>
      rw [run_bind_ok (entry_some hat)]
      simp only
      rw [run_bind_ok (advance_run _)]
      cases first with
      | closed | dynamic => rfl
      | full kind index pos length =>
        have hplaced := setIfInBounds_push_append items #[] (.text pos pos)
          (.text pos (pos + length))
        exact congrArg (fun items => Except.ok (items, cursor + 1)) hplaced
      | opened kind index pos =>
        have hbody := addItem_matches r ih (items.push (.text pos pos))
        rw [Array.size_push] at hbody
        have hloop := untilClose_matches (addPieces_ends (pieces_ends depth) (items.size + 1)) hbody
          (cursor + 1) Array.append_empty.symm
        simp only [Entry.start]
        rw [run_loop_bind hloop]
        cases walk r.entries (r.addPieces (r.pieces depth) (items.size + 1)) (cursor + 1) #[] with
        | error fault => rfl
        | ok result =>
          simp only [ok_bind, setIfInBounds_push_append]
          rfl

/-! ## Texts -/

/-- The text of a capture has been appended, if it has a value. -/
def added (done : Bytes) (found : Option Bytes × Nat) : (Bool × Bytes) × Nat :=
  ((found.1.isSome, done ++ found.1.getD #[]), found.2)

theorem expand_append (piece : Nat → Except Fault Bytes) (before done : Bytes)
    (format : List UInt8) : Resolver.expand piece (before ++ done) format =
      (Resolver.expand piece done format).map (before ++ ·) := by
  fun_induction Resolver.expand piece done format with
  | case1 => rfl
  | case2 => exact congrArg Except.ok Array.append_push.symm
  | case3 done c rest hdigit text htext ih =>
    rw [Resolver.expand, if_pos rfl, if_pos hdigit, htext, ← ih, ← Array.append_assoc]
  | case4 done c rest hdigit fault hfault =>
    rw [Resolver.expand, if_pos rfl, if_pos hdigit, hfault]
    rfl
  | case5 done c rest hdigit ih =>
    rw [Resolver.expand, if_pos rfl, if_neg hdigit, ← ih, Array.append_push]
  | case6 done b c rest hpercent ih =>
    rw [Resolver.expand, if_neg hpercent, ← ih, Array.append_push]

section Texts

variable {resolve : Nat → Except Fault Yield} {addText : Bytes → CursorM (Bool × Bytes)}
  (hresolve : ∀ cursor, Ensures (resolve cursor) (EndsAt r.entries cursor ·.next))
  (haddText : ∀ done cursor,
    (addText done).run cursor = (replacement resolve cursor).map (added done))

include haddText

theorem replaceOne_matches (before : Bytes) (state result : Bytes × Nat) (cursor : Nat)
    (h : result = (before ++ state.1, state.2)) :
    Matches (fun state result => result = (before ++ state.1, state.2))
      (r.replace resolve state cursor) ((replaceOne r addText result).run cursor) := by
  subst h
  obtain ⟨done, used⟩ := state
  rw [replace, replaceOne, run_bind_ok rfl]
  cases hat : r.entries[cursor]? with
  | none =>
    rw [run_bind_error (entry_none hat)]
    exact .error _
  | some first =>
    rw [run_bind_ok (entry_some hat), run_lift_bind]
    cases present (Entry.stop? r.entries cursor) with
    | error fault => exact .error fault
    | ok stop =>
      simp only [present, ok_bind, run_lift_bind]
      cases r.text used first.start with
      | error fault => exact .error fault
      | ok text =>
        simp only [ok_bind]
        rw [StateT.run_bind, haddText]
        cases replacement resolve cursor with
        | error fault => exact .error fault
        | ok found =>
          obtain ⟨text | text, next⟩ := found
          · exact .ok (by simp [added]) next
          · exact .ok (by simp [added]) next

include hresolve

/-- The text of a capture is appended with the nested captures replaced. -/
theorem substitute_run (done : Bytes) (cursor : Nat) :
    (substitute r addText done).run cursor =
      (r.substitute resolve cursor).map fun found => (done ++ found.1, found.2) := by
  rw [Cursor.substitute, Resolver.substitute, inside]
  cases hat : r.entries[cursor]? with
  | none =>
    rw [run_bind_error (entry_none hat)]
    rfl
  | some first =>
    rw [run_bind_ok (entry_some hat), run_bind_ok (advance_run _)]
    cases first with
    | closed | dynamic => rfl
    | full kind index pos length =>
      simp only [ok_bind, run_lift_bind]
      cases r.text pos (pos + length) with
      | error fault => rfl
      | ok text =>
        exact congrArg (fun text => Except.ok (done ++ text, cursor + 1)) Array.empty_append.symm
    | opened kind index pos =>
      have hloop := untilClose_matches (replace_ends hresolve) (replaceOne_matches haddText done)
        (cursor + 1) (s := (#[], pos)) (t := (done, pos)) (by simp)
      simp only
      rw [run_loop_bind (f := fun (result : Bytes × Nat) stop => do
        return result.1 ++ (← r.text result.2 stop)) hloop]
      cases walk r.entries (r.replace resolve) (cursor + 1) (#[], pos) with
      | error fault => rfl
      | ok result =>
        obtain ⟨⟨text, used⟩, stop, next⟩ := result
        simp only [ok_bind, run_lift_bind]
        cases r.text used stop with
        | error fault => rfl
        | ok text => exact congrArg (fun text => Except.ok (text, _)) (Array.append_assoc ..)

omit hresolve

theorem addPiece_run (items : Array Piece) (n : Nat) (done : Bytes) (cursor : Nat) :
    ((addPiece r addText items n done).run cursor).map Prod.fst =
      (r.pieceText resolve items n).map (done ++ ·) := by
  rw [addPiece, pieceText]
  cases items[n]? with
  | none => rfl
  | some piece =>
    cases piece with
    | text start stop =>
      simp only [run_lift_bind]
      cases r.text start stop <;> rfl
    | capture place =>
      simp only
      rw [run_bind_ok rfl, StateT.run_bind, haddText]
      cases replacement resolve place with
      | error fault => rfl
      | ok found =>
        obtain ⟨text | text, next⟩ := found <;> rfl

/-- A template is written out wherever the cursor is, which may move. -/
theorem expand_run (items : Array Piece) (done : Bytes) (format : List UInt8) (cursor : Nat) :
    ((expand r addText items done format).run cursor).map Prod.fst =
      Resolver.expand (r.pieceText resolve items) done format := by
  fun_induction Resolver.expand (r.pieceText resolve items) done format generalizing cursor with
  | case1 | case2 => rfl
  | case3 done c rest hdigit text htext ih =>
    have hpiece := addPiece_run (r := r) haddText items (c.toNat - 48) done cursor
    rw [htext] at hpiece
    obtain ⟨next, hrun⟩ := exists_of_map_fst_ok hpiece
    rw [Cursor.expand, if_pos rfl, if_pos hdigit, run_bind_ok hrun]
    exact ih next
  | case4 done c rest hdigit fault hfault =>
    have hpiece := addPiece_run (r := r) haddText items (c.toNat - 48) done cursor
    rw [hfault] at hpiece
    rw [Cursor.expand, if_pos rfl, if_pos hdigit, run_bind_error (error_of_map_fst_error hpiece)]
    rfl
  | case5 done c rest hdigit ih =>
    rw [Cursor.expand, if_pos rfl, if_neg hdigit]
    exact ih cursor
  | case6 done b c rest hpercent ih =>
    rw [Cursor.expand, if_neg hpercent]
    exact ih cursor

theorem fillFormat_run (format done : Bytes) (cursor : Nat) :
    (fillFormat r addText format done).run cursor =
      (r.fill resolve format cursor).map fun found => (done ++ found.1, found.2) := by
  have hsize : (#[] : Array Piece).size = 0 := rfl
  rw [fillFormat, Resolver.fill, StateT.run_bind, addItems_run, hsize]
  cases r.pieces (r.entries.size + 1) 0 cursor with
  | error fault => rfl
  | ok found =>
    simp only [Except.map, ok_bind, Array.empty_append]
    have htext := expand_run (r := r) haddText found.1 (done ++ #[]) format.toList found.2
    rw [expand_append, Array.append_empty] at htext
    rw [run_bind_ok rfl]
    cases hexpand : Resolver.expand (r.pieceText resolve found.1) #[] format.toList with
    | error fault =>
      rw [hexpand] at htext
      rw [run_bind_error (error_of_map_fst_error htext)]
      rfl
    | ok text =>
      rw [hexpand] at htext
      obtain ⟨next, hrun⟩ := exists_of_map_fst_ok htext
      rw [run_bind_ok hrun]
      rfl

theorem fill_run {first : Entry} {kind : CaptureKind} {index pos : Nat}
    (hat : r.entries[cursor]? = some first)
    (hfirst : first = .opened kind index pos ∨ ∃ length, first = .full kind index pos length)
    (done : Bytes) :
    (fill r addText done).run cursor = match r.program.constant? index with
      | some (.template format) =>
        (r.fill resolve format cursor).map fun found => (done ++ found.1, found.2)
      | _ => .error .malformedCaptures := by
  rw [Cursor.fill, run_bind_ok (entry_some hat)]
  rcases hfirst with rfl | ⟨length, rfl⟩ <;>
  · simp only [constant, run_lift_bind]
    cases r.program.constant? index with
    | none => rfl
    | some constant =>
      cases constant with
      | template format => exact fillFormat_run haddText format done cursor
      | _ => rfl

end Texts

end PegMachine.Cursor
