import PegMachine.Proofs.Cursor.Loops

/-!
# Nested values with one cursor

The values nested in a capture, those of a back reference and those of a fold are appended as the
walks over the list find them, and are counted.

* `Cursor.pushed`: values that have been appended. `Cursor.run_bind_pushed`: what follows them.
* `Cursor.pushNested_run`, `Cursor.pushNested_false_run`: nested values.
* `Cursor.backref_run`, `Cursor.fold_run`: back references and folds.
-/

namespace PegMachine.Cursor

open Resolver

variable {r : Resolver} {cursor : Nat}

/-! ## Nested values -/

theorem append_append_list {α : Type} (a b : Array α) (l : List α) :
    a ++ b ++ l = a ++ (b ++ l) :=
  Array.toList_inj.1 (by simp)

theorem size_append_list {α : Type} (a : Array α) (l : List α) :
    (a ++ l).size = a.size + l.length := by
  simp [← Array.length_toList]

theorem toList_empty_append {α : Type} (l : List α) : ((#[] : Array α) ++ l).toList = l := by
  simp

theorem getElem?_zero_append {α : Type} (l : List α) : ((#[] : Array α) ++ l)[0]? = l.head? := by
  cases l <;> simp

/-- The values of a capture have been appended, and are counted. -/
def pushed (out : Array Value) (found : Yield) : (Nat × Array Value) × Nat :=
  ((found.values.length, out ++ found.values), found.next)

theorem pushed_nil (out : Array Value) (next : Nat) : pushed out ⟨[], next⟩ = ((0, out), next) := by
  simp [pushed]

theorem pushed_one (out : Array Value) (value : Value) (next : Nat) :
    pushed out ⟨[value], next⟩ = ((1, out.push value), next) := by
  simp [pushed]

/-- What follows the values of a capture gets their number and the array, and starts where they
end. -/
theorem run_bind_pushed {α : Type} {x : CursorM (Nat × Array Value)} {out : Array Value}
    {outcome : Except Fault Yield} (h : x.run cursor = outcome.map (pushed out))
    (f : Nat × Array Value → CursorM α) :
    (x >>= f).run cursor =
      outcome >>= fun found => (f (found.values.length, out ++ found.values)).run found.next := by
  rw [StateT.run_bind, h]
  cases outcome <;> rfl

section Nested

variable {resolve : Nat → Except Fault Yield} {push : Array Value → CursorM (Nat × Array Value)}
  (hresolve : ∀ cursor, Ensures (resolve cursor) (EndsAt r.entries cursor ·.next))
  (hpush : ∀ out cursor, (push out).run cursor = (resolve cursor).map (pushed out))

include hpush

theorem pushMore_matches (out values : Array Value) (result : Nat × Array Value) (cursor : Nat)
    (h : result = (values.size, out ++ values)) :
    Matches (fun values result => result = (values.size, out ++ values))
      (gather resolve values cursor) ((pushMore push result).run cursor) := by
  subst h
  rw [gather, pushMore, run_bind_pushed (hpush _ cursor)]
  cases resolve cursor with
  | error fault => exact .error fault
  | ok found => exact .ok (by rw [size_append_list, append_append_list]) _

theorem foldIn_matches (f : FoldFunction) (acc : Option Value) (value : Value) (cursor : Nat)
    (h : acc = some value) : Matches (fun acc value => acc = some value)
      (combine resolve f acc cursor) ((foldIn push f value).run cursor) := by
  subst h
  rw [combine, foldIn, run_bind_pushed (hpush #[] cursor)]
  cases resolve cursor with
  | error fault => exact .error fault
  | ok found => exact .ok (by simp) _

include hresolve

theorem pushMore_loop (out : Array Value) (cursor : Nat) :
    LoopMatches r.entries (fun values result => result = (values.size, out ++ values))
      (walk r.entries (gather resolve) cursor #[])
      ((untilClose r (pushMore push) (0, out)).run cursor) :=
  untilClose_matches
    (fun _ cursor => (hresolve cursor).bind fun _ hfound => ensures_ok hfound)
    (pushMore_matches hpush out) cursor (by simp)

/-- The values nested in a capture are appended one after another, and the text of the capture
behind them. -/
theorem pushNested_run (whole : Bool) (out : Array Value) (cursor : Nat) :
    (pushNested r push whole out).run cursor = (do
      let nested ← r.collect resolve cursor
      if whole || nested.state.isEmpty then
        let text ← r.text nested.start nested.stop
        return ((nested.state.size + 1, (out ++ nested.state).push (.str text)), nested.next)
      else return ((nested.state.size, out ++ nested.state), nested.next)) := by
  rw [pushNested, collect, inside]
  cases hat : r.entries[cursor]? with
  | none =>
    rw [run_bind_error (entry_none hat)]
    rfl
  | some first =>
    rw [run_bind_ok (entry_some hat), run_bind_ok (advance_run _)]
    cases first with
    | closed | dynamic => rfl
    | full kind index pos length =>
      simp only [run_lift_bind, ok_bind]
      cases r.text pos (pos + length) <;> simp
    | opened kind index pos =>
      simp only
      rw [run_loop_bind (pushMore_loop hresolve hpush out (cursor + 1))]
      cases walk r.entries (gather resolve) (cursor + 1) #[] with
      | error fault => rfl
      | ok result =>
        obtain ⟨values, stop, next⟩ := result
        simp only [ok_bind]
        have hempty : values.isEmpty = (values.size == 0) := rfl
        rw [hempty]
        split
        · rw [run_lift_bind]
          rfl
        · rfl

theorem pushNested_false_run (out : Array Value) (cursor : Nat) :
    (pushNested r push false out).run cursor =
      (r.nestedOrText resolve cursor).map (pushed out) := by
  rw [pushNested_run hresolve hpush, nestedOrText]
  cases r.collect resolve cursor with
  | error fault => rfl
  | ok nested =>
    simp only [ok_bind, Bool.false_or]
    split
    · next hempty =>
      have hstate : nested.state = #[] := Array.isEmpty_iff.1 hempty
      rw [hstate]
      cases r.text nested.start nested.stop with
      | error fault => rfl
      | ok text => simp [ok_bind, pushed, Except.map, pure, Except.pure]
    · have hlist : out ++ nested.state = out ++ nested.state.toList :=
        Array.toList_inj.1 (by simp)
      simp [pushed, Except.map, pure, Except.pure, hlist]

theorem backref_run {index : Nat} (out : Array Value) (cursor : Nat) :
    (backref r push index out).run cursor = match r.program.constant? index with
      | some (.name name) => (r.backref resolve name cursor).map (pushed out)
      | _ => .error .malformedCaptures := by
  rw [Cursor.backref, constant, run_lift_bind]
  cases r.program.constant? index with
  | none => rfl
  | some constant =>
    cases constant with
    | name name =>
      simp only [present, ok_bind]
      rw [Resolver.backref, run_bind_ok rfl, run_lift_bind]
      cases Entry.groupBelow r.program name r.entries 0 cursor with
      | error fault => rfl
      | ok group =>
        simp only [ok_bind]
        rw [run_bind_ok rfl, run_bind_pushed (pushNested_false_run hresolve hpush out group)]
        cases r.nestedOrText resolve group <;> rfl
    | _ => rfl

theorem foldIn_loop (f : FoldFunction) (cursor : Nat) (value : Value) :
    LoopMatches r.entries (fun acc value => acc = some value)
      (walk r.entries (combine resolve f) cursor (some value))
      ((untilClose r (foldIn push f) value).run cursor) :=
  untilClose_matches (combine_ends hresolve f) (foldIn_matches hpush f) cursor rfl

/-- A walk that combines nothing has no value to begin with. -/
theorem foldNested_matches (f : FoldFunction) (cursor : Nat) :
    LoopMatches r.entries (fun acc value => acc = some value)
      (walk r.entries (combine resolve f) cursor none >>= fun result => match result.1 with
        | some _ => .ok result
        | none => .error .emptyFold)
      ((foldNested r push f).run cursor) := by
  rw [foldNested]
  cases hat : r.entries[cursor]? with
  | none =>
    rw [run_bind_error (atClose_none hat), walk_none hat]
    exact .error _
  | some first =>
    -- The first capture gives the initial value, the loop combines the values of the others.
    by_cases hclosed : ∃ pos, first = .closed pos
    · obtain ⟨pos, rfl⟩ := hclosed
      rw [run_bind_ok (atClose_closed hat), walk_closed hat]
      exact .error _
    · have hopen : ∀ pos, first ≠ .closed pos := fun pos he => hclosed ⟨pos, he⟩
      rw [run_bind_ok (atClose_open hat hopen), walk_open hat hopen, combine]
      simp only [Bool.false_eq_true, if_false]
      rw [run_bind_pushed (hpush #[] cursor)]
      cases hfound : resolve cursor with
      | error fault => exact .error _
      | ok found =>
        obtain ⟨values, next⟩ := found
        have hless : cursor < next := Entry.lt_of_after? (hresolve cursor _ hfound)
        cases values with
        | nil => exact .error _
        | cons value rest =>
          have hloop := foldIn_loop hresolve hpush f next value
          simp only [ok_bind, pure, Except.pure, if_pos hless, getElem?_zero_append,
            List.head?_cons]
          generalize walk r.entries (combine resolve f) next (some value) = outcome at hloop ⊢
          generalize (untilClose r (foldIn push f) value).run next = result at hloop ⊢
          cases hloop with
          | error fault => exact .error fault
          | ok h hclosed =>
            cases h
            exact .ok rfl hclosed

theorem fold_run {entry : Entry} {kind : CaptureKind} {index : Nat}
    (hat : r.entries[cursor]? = some entry) (hkind : entry.kind? = some kind) (out : Array Value) :
    (fold r push index out).run cursor = match r.program.constant? index with
      | some (.fold f) => (r.fold resolve f cursor).map (pushed out)
      | _ => .error .malformedCaptures := by
  rw [Cursor.fold, constant, run_lift_bind]
  cases r.program.constant? index with
  | none => rfl
  | some constant =>
    cases constant with
    | fold f =>
      simp only [present, ok_bind]
      rw [Resolver.fold, inside, hat, run_bind_ok (entry_some hat), run_bind_ok (advance_run _)]
      cases entry with
      | closed | dynamic => cases hkind
      | full => rfl
      | opened kind index pos =>
        have hloop := foldNested_matches hresolve hpush f (cursor + 1)
        generalize hrun : (foldNested r push f).run (cursor + 1) = result at hloop
        simp only
        generalize walk r.entries (combine resolve f) (cursor + 1) none = outcome at hloop
        cases outcome with
        | error fault =>
          cases hloop
          rw [run_bind_error hrun]
          rfl
        | ok result =>
          obtain ⟨acc, stop, next⟩ := result
          cases acc with
          | none =>
            cases hloop
            rw [run_bind_error hrun]
            rfl
          | some value =>
            cases hloop with
            | ok h hclosed =>
              cases h
              rw [run_bind_ok hrun, run_bind_ok (advance_run _)]
              exact congrArg Except.ok (pushed_one out value _).symm
    | _ => rfl

end Nested

end PegMachine.Cursor
