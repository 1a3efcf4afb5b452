import PegMachine.Proofs.Cursor.Nested
import PegMachine.Proofs.Cursor.Texts

/-!
# Values with one cursor

The resolver with one cursor finds what the walks over the list find: the same values and texts, in
the same places behind those that were there, the same faults, and the same cursor at the end.

* **`Cursor.push_run`**, `Cursor.addText_run`: the values of a capture, and its text.
* **`Cursor.resolve_run`**, `Cursor.nested_run`: the values of the whole list, and those nested in
  one capture.
* `Cursor.StopsBehind`: where a part leaves the cursor, with a lemma for each part.
-/

namespace PegMachine.Cursor

open Resolver

variable {r : Resolver} {cursor : Nat}

/-! ## Values -/

theorem rotateRight_append_singleton {α : Type} (l : List α) (a : α) :
    (l ++ [a]).rotateRight 1 = a :: l := by
  cases l with
  | nil => rfl
  | cons b l => simp [List.rotateRight]

theorem lastToFront_push (out values : Array Value) (text : Value) :
    lastToFront out.size ((out ++ values).push text) = out ++ (text :: values.toList) := by
  refine Array.toList_inj.1 ?_
  simp [lastToFront, rotateRight_append_singleton]

section Values

variable {resolve : Nat → Except Fault Yield} {push : Array Value → CursorM (Nat × Array Value)}
  {addText : Bytes → CursorM (Bool × Bytes)}
  (hresolve : ∀ cursor, Ensures (resolve cursor) (EndsAt r.entries cursor ·.next))
  (hpush : ∀ out cursor, (push out).run cursor = (resolve cursor).map (pushed out))
  (haddText : ∀ done cursor,
    (addText done).run cursor = (replacement resolve cursor).map (added done))

theorem skip_bind_run (out : Array Value) (cursor : Nat) :
    (do
      skip r
      return (0, out) : CursorM (Nat × Array Value)).run cursor =
      (do return ⟨[], ← present (Entry.after? r.entries cursor)⟩ : Except Fault Yield).map
        (pushed out) := by
  rw [StateT.run_bind, skip_run]
  cases present (Entry.after? r.entries cursor) with
  | error fault => rfl
  | ok next => exact congrArg Except.ok (pushed_nil out next).symm

theorem pushText_run {x : CursorM Bytes} {found : Except Fault (Bytes × Nat)}
    (hrun : x.run cursor = found.map fun found => (#[] ++ found.1, found.2)) (out : Array Value) :
    (do
      let text ← x
      return (1, out.push (.str text)) : CursorM (Nat × Array Value)).run cursor =
      (do
        let (text, next) ← found
        return ⟨[.str text], next⟩ : Except Fault Yield).map (pushed out) := by
  rw [StateT.run_bind, hrun]
  cases found with
  | error fault => rfl
  | ok found =>
    simp only [Except.map, ok_bind, Array.empty_append]
    exact congrArg Except.ok (pushed_one out _ _).symm

include hresolve hpush

theorem pushKind_simple (first : Entry) (index pos : Nat) (out : Array Value) (cursor : Nat) :
    (pushKind r push addText first .simple index pos out).run cursor =
      (r.valuesOf resolve .simple index pos cursor).map (pushed out) := by
  unfold pushKind valuesOf
  simp only
  rw [StateT.run_bind, pushNested_run hresolve hpush, textAndNested]
  cases r.collect resolve cursor with
  | error fault => rfl
  | ok nested =>
    simp only [ok_bind, Bool.true_or, if_true]
    cases r.text nested.start nested.stop with
    | error fault => rfl
    | ok text =>
      have hlast := lastToFront_push out nested.state (.str text)
      exact congrArg (fun values => Except.ok ((_, values), _)) hlast

theorem pushKind_table {first : Entry} {index pos : Nat} (hat : r.entries[cursor]? = some first)
    (hfirst : first = .opened .table index pos ∨ ∃ length, first = .full .table index pos length)
    (out : Array Value) : (pushKind r push addText first .table index pos out).run cursor =
      (r.valuesOf resolve .table index pos cursor).map (pushed out) := by
  unfold pushKind valuesOf
  rw [collect, inside, hat]
  rcases hfirst with rfl | ⟨length, rfl⟩
  · simp only
    rw [run_bind_ok (advance_run _)]
    have hloop := pushMore_loop hresolve hpush #[] (cursor + 1)
    generalize hrun : (untilClose r (pushMore push) (0, #[])).run (cursor + 1) = result at hloop
    generalize walk r.entries (gather resolve) (cursor + 1) #[] = outcome at hloop ⊢
    cases hloop with
    | error fault =>
      rw [run_bind_error hrun]
      rfl
    | ok h hclosed =>
      subst h
      rw [run_bind_ok hrun]
      simp only [Array.empty_append]
      exact congrArg Except.ok (pushed_one out _ _).symm
  · simp only
    rw [run_bind_ok (advance_run _)]
    exact congrArg Except.ok (pushed_one out _ _).symm

theorem pushKind_function (first : Entry) (index pos : Nat) (out : Array Value) (cursor : Nat) :
    (pushKind r push addText first .function index pos out).run cursor =
      (r.valuesOf resolve .function index pos cursor).map (pushed out) := by
  unfold pushKind valuesOf
  simp only
  rw [constant, run_lift_bind]
  cases r.program.constant? index with
  | none => rfl
  | some constant =>
    cases constant with
    | function f =>
      simp only [present, ok_bind]
      rw [run_bind_pushed (pushNested_false_run hresolve hpush #[] cursor)]
      cases r.nestedOrText resolve cursor with
      | error fault => rfl
      | ok found =>
        simp only [Except.map, ok_bind, pushed, toList_empty_append]
        rfl
    | _ => rfl

theorem pushKind_query (first : Entry) (index pos : Nat) (out : Array Value) (cursor : Nat) :
    (pushKind r push addText first .query index pos out).run cursor =
      (r.valuesOf resolve .query index pos cursor).map (pushed out) := by
  unfold pushKind valuesOf
  simp only
  rw [constant, run_lift_bind]
  cases r.program.constant? index with
  | none => rfl
  | some constant =>
    cases constant with
    | query table =>
      simp only [present, ok_bind]
      rw [run_bind_pushed (pushNested_false_run hresolve hpush #[] cursor)]
      cases r.nestedOrText resolve cursor with
      | error fault => rfl
      | ok found =>
        simp only [Except.map, ok_bind, getElem?_zero_append]
        cases (found.values.head?.bind Value.text?).bind table.find? with
        | none => exact congrArg Except.ok (pushed_nil out _).symm
        | some value => exact congrArg Except.ok (pushed_one out value _).symm
    | _ => rfl

include haddText

theorem pushKind_run {first : Entry} {kind : CaptureKind} {index pos : Nat}
    (hat : r.entries[cursor]? = some first)
    (hfirst : first = .opened kind index pos ∨ ∃ length, first = .full kind index pos length)
    (out : Array Value) : (pushKind r push addText first kind index pos out).run cursor =
      (r.valuesOf resolve kind index pos cursor).map (pushed out) := by
  cases kind with
  | simple => exact pushKind_simple hresolve hpush first index pos out cursor
  | table => exact pushKind_table hresolve hpush hat hfirst out
  | function => exact pushKind_function hresolve hpush first index pos out cursor
  | query => exact pushKind_query hresolve hpush first index pos out cursor
  | position => exact congrArg Except.ok (pushed_one out _ _).symm
  | const =>
    unfold pushKind valuesOf
    simp only
    rw [run_bind_ok (advance_run _), constant, run_lift_bind]
    cases r.program.constant? index with
    | none => rfl
    | some constant =>
      cases constant with
      | value value => exact congrArg Except.ok (pushed_one out _ _).symm
      | _ => rfl
  | argument =>
    unfold pushKind valuesOf
    simp only
    rw [run_bind_ok (advance_run _)]
    cases index with
    | zero => rfl
    | succ n =>
      simp only [Nat.succ_ne_zero, if_false, Nat.add_sub_cancel]
      cases r.arguments[n]? with
      | none => rfl
      | some value => exact congrArg Except.ok (pushed_one out _ _).symm
  | backref =>
    unfold pushKind valuesOf
    simp only
    rw [backref_run hresolve hpush]
    cases r.program.constant? index with
    | none => rfl
    | some constant => cases constant <;> rfl
  | group =>
    unfold pushKind valuesOf
    simp only
    split
    · exact pushNested_false_run hresolve hpush out cursor
    · exact skip_bind_run out cursor
  | template =>
    have hrun := fill_run haddText hat hfirst #[]
    unfold pushKind valuesOf
    simp only
    cases hconstant : r.program.constant? index with
    | none =>
      rw [hconstant] at hrun
      exact run_bind_error hrun
    | some constant =>
      rw [hconstant] at hrun
      cases constant with
      | template format => exact pushText_run hrun out
      | _ => exact run_bind_error hrun
  | subst =>
    unfold pushKind valuesOf
    exact pushText_run (substitute_run hresolve haddText #[] cursor) out
  | fold =>
    have hkind : first.kind? = some .fold := by
      rcases hfirst with rfl | ⟨length, rfl⟩ <;> rfl
    unfold pushKind valuesOf
    simp only
    rw [fold_run hresolve hpush hat hkind]
    cases r.program.constant? index with
    | none => rfl
    | some constant => cases constant <;> rfl
  | matchTime =>
    unfold pushKind valuesOf
    exact skip_bind_run out cursor

end Values

theorem exists_of_kind? {first : Entry} {kind : CaptureKind} (h : first.kind? = some kind) :
    ∃ index pos,
      first = .opened kind index pos ∨ ∃ length, first = .full kind index pos length := by
  cases first with
  | opened | full =>
    cases h
    simp
  | closed | dynamic => cases h

theorem values_succ {first : Entry} {kind : CaptureKind} {index pos : Nat}
    (hat : r.entries[cursor]? = some first)
    (hfirst : first = .opened kind index pos ∨ ∃ length, first = .full kind index pos length)
    (depth : Nat) :
    r.values (depth + 1) cursor = r.valuesOf (r.values depth) kind index pos cursor := by
  rw [values, hat]
  rcases hfirst with rfl | ⟨length, rfl⟩ <;> rfl

section Depth

variable {depth : Nat} (hwhole : Entry.PointsWhole r.entries)
  (hpush : ∀ out cursor, (push r depth out).run cursor = (r.values depth cursor).map (pushed out))
  (haddText : ∀ done cursor,
    (addText r depth done).run cursor = (replacement (r.values depth) cursor).map (added done))

include hwhole hpush haddText

theorem pushWith_run (out : Array Value) (cursor : Nat) :
    (pushWith r (push r depth) (addText r depth) out).run cursor =
      (r.values (depth + 1) cursor).map (pushed out) := by
  have hends := values_ends hwhole depth
  rw [pushWith, values]
  cases hat : r.entries[cursor]? with
  | none =>
    rw [run_bind_error (entry_none hat)]
    rfl
  | some first =>
    rw [run_bind_ok (entry_some hat)]
    cases first with
    | closed | dynamic => rfl
    | opened => exact pushKind_run hends hpush haddText hat (.inl rfl) out
    | full => exact pushKind_run hends hpush haddText hat (.inr ⟨_, rfl⟩) out

/-- A template or a substitution appends its text directly, any other capture by way of its first
value. -/
theorem addTextWith_run (done : Bytes) (cursor : Nat) :
    (addTextWith r (push r depth) (addText r depth) done).run cursor =
      (replacement (r.values (depth + 1)) cursor).map (added done) := by
  have hends := values_ends hwhole depth
  rw [addTextWith, replacement]
  cases hat : r.entries[cursor]? with
  | none =>
    rw [run_bind_error (entry_none hat), values, hat]
    rfl
  | some first =>
    rw [run_bind_ok (entry_some hat)]
    split
    · next hkind =>
      obtain ⟨index, pos, hfirst⟩ := exists_of_kind? hkind
      rw [StateT.run_bind, fill_run haddText hat hfirst, values_succ hat hfirst]
      unfold valuesOf
      cases r.program.constant? index with
      | none => rfl
      | some constant =>
        cases constant with
        | template format =>
          simp only
          cases r.fill (r.values depth) format cursor <;> rfl
        | _ => rfl
    · next hkind =>
      obtain ⟨index, pos, hfirst⟩ := exists_of_kind? hkind
      rw [StateT.run_bind, substitute_run hends haddText, values_succ hat hfirst, valuesOf]
      cases r.substitute (r.values depth) cursor <;> rfl
    · rw [StateT.run_bind, pushWith_run hwhole hpush haddText]
      cases r.values (depth + 1) cursor with
      | error fault => rfl
      | ok found =>
        obtain ⟨values, next⟩ := found
        cases values with
        | nil =>
          exact congrArg (fun text => Except.ok ((false, text), next)) Array.append_empty.symm
        | cons value rest =>
          simp only [Except.map, ok_bind, pushed, getElem?_zero_append, List.head?_cons]
          cases value.text? with
          | none => rfl
          | some text => rfl

end Depth

/-- Values and texts are appended as they are found, at any depth. -/
theorem runs_of_depth (hwhole : Entry.PointsWhole r.entries) (depth : Nat) :
    (∀ out cursor, (push r depth out).run cursor = (r.values depth cursor).map (pushed out)) ∧
      ∀ done cursor, (addText r depth done).run cursor =
        (replacement (r.values depth) cursor).map (added done) := by
  induction depth with
  | zero => exact ⟨fun _ _ => rfl, fun _ _ => rfl⟩
  | succ depth ih =>
    obtain ⟨hpush, haddText⟩ := ih
    exact ⟨pushWith_run hwhole hpush haddText, addTextWith_run hwhole hpush haddText⟩

/-- **The values of a capture are appended and counted, and the cursor ends behind it.** -/
theorem push_run (hwhole : Entry.PointsWhole r.entries) (depth : Nat) (out : Array Value)
    (cursor : Nat) : (push r depth out).run cursor = (r.values depth cursor).map (pushed out) :=
  (runs_of_depth hwhole depth).1 out cursor

theorem addText_run (hwhole : Entry.PointsWhole r.entries) (depth : Nat) (done : Bytes)
    (cursor : Nat) :
    (addText r depth done).run cursor = (replacement (r.values depth) cursor).map (added done) :=
  (runs_of_depth hwhole depth).2 done cursor

/-! ## The whole list -/

theorem resolveFrom_run (hwhole : Entry.PointsWhole r.entries) (cursor : Nat) (out : Array Value)
    {rounds : Nat} (hrounds : r.entries.size - cursor < rounds) :
    ((resolveFrom r rounds out).run cursor).map Prod.fst = r.resolveFrom cursor out := by
  have hends := values_ends hwhole r.maxDepth
  fun_induction Resolver.resolveFrom r cursor out generalizing rounds with
  | case1 cursor out hlt fault hfault =>
    obtain ⟨rounds, rfl⟩ : ∃ k, rounds = k + 1 := ⟨rounds - 1, by omega⟩
    have hpush := push_run hwhole r.maxDepth out cursor
    rw [hfault] at hpush
    rw [Cursor.resolveFrom, run_bind_ok rfl, if_pos hlt, run_bind_error hpush]
    rfl
  | case2 cursor out hlt found hfound hless ih =>
    obtain ⟨rounds, rfl⟩ : ∃ k, rounds = k + 1 := ⟨rounds - 1, by omega⟩
    have hpush := push_run hwhole r.maxDepth out cursor
    rw [hfound] at hpush
    rw [Cursor.resolveFrom, run_bind_ok rfl, if_pos hlt, run_bind_ok hpush]
    exact ih (by omega)
  | case3 cursor out hlt found hfound hless =>
    exact absurd (Entry.lt_of_after? (hends _ _ hfound)) hless
  | case4 cursor out hlt =>
    obtain ⟨rounds, rfl⟩ : ∃ k, rounds = k + 1 := ⟨rounds - 1, by omega⟩
    rw [Cursor.resolveFrom, run_bind_ok rfl, if_neg hlt]
    rfl

/-- **The values of the whole list are the same.** -/
theorem resolve_run (hwhole : Entry.PointsWhole r.entries) :
    ((resolve r).run 0).map Prod.fst = r.resolve := by
  have hrounds : r.entries.size - 0 < r.entries.size + 1 := by omega
  have hfrom := resolveFrom_run hwhole 0 #[] hrounds
  rw [Cursor.resolve, StateT.run_bind, Resolver.resolve, ← hfrom]
  cases (resolveFrom r (r.entries.size + 1) #[]).run 0 <;> rfl

/-- The values nested in one capture are the same, wherever the cursor is. -/
theorem nested_run (hwhole : Entry.PointsWhole r.entries) (place cursor : Nat) :
    ((nested r place).run cursor).map Prod.fst = r.nested place := by
  have hends := values_ends hwhole r.maxDepth
  rw [Cursor.nested, run_bind_ok rfl, StateT.run_bind,
    pushNested_false_run hends (push_run hwhole r.maxDepth), Resolver.nested]
  cases r.nestedOrText (r.values r.maxDepth) place with
  | error fault => rfl
  | ok found => exact congrArg Except.ok (toList_empty_append found.values)

/-! ## Where the cursor is left -/

/-- Started at a capture, the computation leaves the cursor right behind that capture, if it ends
without a fault, with a result as told. -/
def StopsBehind {α : Type} (entries : Array Entry) (cursor : Nat) (x : CursorM α)
    (post : α → Prop) : Prop :=
  Ensures (x.run cursor) fun result => EndsAt entries cursor result.2 ∧ post result.1

/-- Values have been appended, as many as the number tells. -/
def Counts (out : Array Value) (result : Nat × Array Value) : Prop :=
  ∃ values : List Value, result = (values.length, out ++ values)

/-- The second is the first with something appended. -/
def Appended {α : Type} (before after : Array α) : Prop := ∃ more : Array α, after = before ++ more

section

variable {entry : Entry} {kind : CaptureKind} (hwhole : Entry.PointsWhole r.entries) (depth : Nat)

include hwhole

theorem push_stopsBehind (out : Array Value) (cursor : Nat) :
    StopsBehind r.entries cursor (push r depth out) (Counts out) := by
  rw [StopsBehind, push_run hwhole]
  exact (values_ends hwhole depth cursor).map fun found hends => ⟨hends, found.values, rfl⟩

theorem pushNested_stopsBehind (whole : Bool) (out : Array Value) (cursor : Nat) :
    StopsBehind r.entries cursor (pushNested r (push r depth) whole out) (Counts out) := by
  have hends := values_ends hwhole depth
  rw [StopsBehind, pushNested_run hends (push_run hwhole depth)]
  refine (collect_ends hends cursor).bind fun nested hnested => ?_
  split
  · refine ensures_bind fun text => ensures_ok ⟨hnested, nested.state.toList ++ [.str text], ?_⟩
    refine Prod.ext (by simp) (Array.toList_inj.1 (by simp))
  · exact ensures_ok ⟨hnested, nested.state.toList, Prod.ext rfl (Array.toList_inj.1 (by simp))⟩

theorem backref_stopsBehind (hat : r.entries[cursor]? = some entry)
    (hkind : entry.kind? = some .backref) (index : Nat) (out : Array Value) :
    StopsBehind r.entries cursor (backref r (push r depth) index out) (Counts out) := by
  have hend : EndsAt r.entries cursor (cursor + 1) := by
    obtain ⟨index, pos, rfl | ⟨length, rfl⟩⟩ := exists_of_kind? hkind
    · cases hwhole _ (Array.mem_of_getElem? hat)
    · exact endsAt_full hat
  rw [StopsBehind, backref_run (values_ends hwhole depth) (push_run hwhole depth)]
  split
  · next name _ =>
    refine (backref_next _ name cursor).map fun found hnext => ⟨?_, found.values, rfl⟩
    show EndsAt r.entries cursor found.next
    rw [hnext]
    exact hend
  · exact ensures_error

theorem fold_stopsBehind (hat : r.entries[cursor]? = some entry)
    (hkind : entry.kind? = some kind) (index : Nat) (out : Array Value) :
    StopsBehind r.entries cursor (fold r (push r depth) index out) (Counts out) := by
  have hends := values_ends hwhole depth
  rw [StopsBehind, fold_run hends (push_run hwhole depth) hat hkind]
  split
  · next f _ => exact (fold_ends hends f cursor).map fun found hend => ⟨hend, found.values, rfl⟩
  · exact ensures_error

omit hwhole in
theorem addItems_stopsBehind (items : Array Piece) (cursor : Nat) :
    StopsBehind r.entries cursor (addItems r depth items) (Appended items) := by
  rw [StopsBehind, addItems_run]
  exact (pieces_ends depth _ cursor).map fun found hend => ⟨hend, found.1, rfl⟩

theorem substitute_stopsBehind (done : Bytes) (cursor : Nat) :
    StopsBehind r.entries cursor (substitute r (addText r depth) done) (Appended done) := by
  have hends := values_ends hwhole depth
  rw [StopsBehind, substitute_run hends (addText_run hwhole depth)]
  exact (substitute_ends hends cursor).map fun found hend => ⟨hend, found.1, rfl⟩

theorem fill_stopsBehind (done : Bytes) (cursor : Nat) :
    StopsBehind r.entries cursor (fill r (addText r depth) done) (Appended done) := by
  have hrun : ∀ {first : Entry} {kind : CaptureKind} {index pos : Nat},
      r.entries[cursor]? = some first →
      (first = .opened kind index pos ∨ ∃ length, first = .full kind index pos length) →
      StopsBehind r.entries cursor (fill r (addText r depth) done) (Appended done) := by
    intro first kind index pos hat hfirst
    rw [StopsBehind, fill_run (addText_run hwhole depth) hat hfirst]
    split
    · next format _ =>
      exact (fill_ends _ format cursor).map fun found hend => ⟨hend, found.1, rfl⟩
    · exact ensures_error
  cases hat : r.entries[cursor]? with
  | none =>
    rw [StopsBehind, fill, run_bind_error (entry_none hat)]
    exact ensures_error
  | some first =>
    cases first with
    | opened => exact hrun hat (.inl rfl)
    | full => exact hrun hat (.inr ⟨_, rfl⟩)
    | closed | dynamic =>
      rw [StopsBehind, fill, run_bind_ok (entry_some hat)]
      exact ensures_error

theorem addText_stopsBehind (done : Bytes) (cursor : Nat) :
    StopsBehind r.entries cursor (addText r depth done) fun result => Appended done result.2 := by
  rw [StopsBehind, addText_run hwhole]
  exact (replacement_ends (values_ends hwhole depth) cursor).map fun found hend => ⟨hend, _, rfl⟩

end

end PegMachine.Cursor
