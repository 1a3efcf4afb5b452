import PegMachine.Proofs.Captures.Ends
import PegMachine.Proofs.Captures.Walks
import PegMachine.Proofs.Cursor.Moves

/-!
# Loops of the cursor and walks

How a computation that moves the cursor runs, step by step, and when one of its loops ends as a walk
over the list does.

* `Cursor.run_bind_ok`, `Cursor.run_bind_error`, `Cursor.run_lift_bind`: one step of a computation.
* `Cursor.Matches`, `Cursor.LoopMatches`: computations and loops that end as others do.
* **`Cursor.untilClose_matches`**: a loop ends as a walk does, if its body does what is done at a
  visit.
* `Cursor.run_loop_bind`: what follows a loop starts behind the capture.
-/

namespace PegMachine.Cursor

open Resolver

section

variable {α β : Type} {x : CursorM α} {f : α → CursorM β} {cursor next : Nat} {fault : Fault}

theorem ok_bind (a : α) (f : α → Except Fault β) : (Except.ok a >>= f) = f a := rfl

theorem run_bind_ok {a : α} (h : x.run cursor = .ok (a, next)) :
    (x >>= f).run cursor = (f a).run next := by
  rw [StateT.run_bind, h]
  rfl

theorem run_bind_error (h : x.run cursor = .error fault) :
    (x >>= f).run cursor = .error fault := by
  rw [StateT.run_bind, h]
  rfl

theorem exists_of_map_fst_ok {result : Except Fault (α × Nat)} {a : α}
    (h : result.map Prod.fst = .ok a) : ∃ next, result = .ok (a, next) := by
  obtain fault | ⟨a', next⟩ := result
  · cases h
  · cases h
    exact ⟨next, rfl⟩

theorem error_of_map_fst_error {result : Except Fault (α × Nat)}
    (h : result.map Prod.fst = .error fault) : result = .error fault := by
  obtain fault' | found := result
  · cases h
    rfl
  · cases h

theorem run_lift_bind (y : Except Fault α) :
    ((liftM y : CursorM α) >>= f).run cursor = y >>= fun a => (f a).run cursor := by
  cases y <;> rfl

end

variable {r : Resolver} {cursor : Nat}

/-! ## Entries -/

theorem advance_run (cursor : Nat) : advance.run cursor = .ok ((), cursor + 1) := rfl

theorem entry_some {first : Entry} (hat : r.entries[cursor]? = some first) :
    (entry r).run cursor = .ok (first, cursor) := by
  rw [entry, run_bind_ok rfl, hat]
  rfl

theorem entry_none (hat : r.entries[cursor]? = none) :
    (entry r).run cursor = .error .malformedCaptures := by
  rw [entry, run_bind_ok rfl, hat]
  rfl

theorem atClose_closed {pos : Nat} (hat : r.entries[cursor]? = some (.closed pos)) :
    (atClose r).run cursor = .ok (true, cursor) := by
  rw [atClose, run_bind_ok (entry_some hat)]
  rfl

theorem atClose_open {first : Entry} (hat : r.entries[cursor]? = some first)
    (hopen : ∀ pos, first ≠ .closed pos) : (atClose r).run cursor = .ok (false, cursor) := by
  rw [atClose, run_bind_ok (entry_some hat)]
  cases first with
  | closed pos => exact absurd rfl (hopen pos)
  | opened | full | dynamic => rfl

theorem atClose_none (hat : r.entries[cursor]? = none) :
    (atClose r).run cursor = .error .malformedCaptures := by
  rw [atClose, run_bind_error (entry_none hat)]

theorem closePos_closed {pos : Nat} (hat : r.entries[cursor]? = some (.closed pos)) :
    (closePos r).run cursor = .ok (pos, cursor) := by
  rw [closePos, run_bind_ok (entry_some hat)]
  rfl

theorem skip_run (r : Resolver) (cursor : Nat) :
    (skip r).run cursor = (present (Entry.after? r.entries cursor)).map ((), ·) := by
  rw [skip, run_bind_ok rfl, run_lift_bind]
  cases present (Entry.after? r.entries cursor) <;> rfl

/-! ## Loops -/

theorem walk_none {σ : Type} {visit : σ → Nat → Except Fault (σ × Nat)} {state : σ}
    (hat : r.entries[cursor]? = none) :
    walk r.entries visit cursor state = .error .malformedCaptures := by
  rw [walk, dif_neg (Nat.not_lt.2 (Array.getElem?_eq_none_iff.1 hat))]

theorem walk_open {σ : Type} {visit : σ → Nat → Except Fault (σ × Nat)} {state : σ} {first : Entry}
    (hat : r.entries[cursor]? = some first) (hopen : ∀ pos, first ≠ .closed pos) :
    walk r.entries visit cursor state = match visit state cursor with
      | .error fault => .error fault
      | .ok (state, next) =>
        if cursor < next then walk r.entries visit next state else .error .malformedCaptures := by
  obtain ⟨hlt, hget⟩ := Array.getElem?_eq_some_iff.1 hat
  rw [walk, dif_pos hlt, hget]
  cases first with
  | closed pos => exact absurd rfl (hopen pos)
  | opened | full | dynamic => rfl

section

variable {σ τ : Type}

/-- Two computations end with the same fault, or at the same cursor with results that belong
together. -/
inductive Matches (R : σ → τ → Prop) : Except Fault (σ × Nat) → Except Fault (τ × Nat) → Prop
  | error (fault : Fault) : Matches R (.error fault) (.error fault)
  | ok {s : σ} {t : τ} (h : R s t) (next : Nat) : Matches R (.ok (s, next)) (.ok (t, next))

/-- A walk and a loop end with the same fault, or at the end of the same capture with results that
belong together. -/
inductive LoopMatches (entries : Array Entry) (R : σ → τ → Prop) :
    Except Fault (σ × Nat × Nat) → Except Fault (τ × Nat) → Prop
  | error (fault : Fault) : LoopMatches entries R (.error fault) (.error fault)
  | ok {s : σ} {t : τ} {last stop : Nat} (h : R s t)
      (hclosed : entries[last]? = some (.closed stop)) :
      LoopMatches entries R (.ok (s, stop, last + 1)) (.ok (t, last))

variable {visit : σ → Nat → Except Fault (σ × Nat)} {body : τ → CursorM τ} {R : σ → τ → Prop}
  (hvisit : ∀ s cursor, Ensures (visit s cursor) (EndsAt r.entries cursor ·.2))
  (hbody : ∀ s t cursor, R s t → Matches R (visit s cursor) ((body t).run cursor))

include hvisit hbody

theorem repeatUntilClose_matches (cursor : Nat) (s : σ) {t : τ} (h : R s t) {rounds : Nat}
    (hrounds : r.entries.size < cursor + rounds) :
    LoopMatches r.entries R (walk r.entries visit cursor s)
      ((repeatUntilClose r body rounds t).run cursor) := by
  -- a capture is visited in each round, and ends behind its start
  fun_induction walk r.entries visit cursor s generalizing t rounds with
  | case1 cursor s hlt pos hat =>
    obtain ⟨rounds, rfl⟩ : ∃ k, rounds = k + 1 := ⟨rounds - 1, by omega⟩
    have hat' := Array.getElem?_eq_some_iff.2 ⟨hlt, hat⟩
    rw [repeatUntilClose, run_bind_ok (atClose_closed hat')]
    exact .ok h hat'
  | case2 cursor s hlt fault hfault hopen =>
    obtain ⟨rounds, rfl⟩ : ∃ k, rounds = k + 1 := ⟨rounds - 1, by omega⟩
    have hat' := Array.getElem?_eq_some_iff.2 ⟨hlt, rfl⟩
    have hstep := hbody s t cursor h
    rw [hfault] at hstep
    rw [repeatUntilClose, run_bind_ok (atClose_open hat' hopen)]
    generalize hrun : (body t).run cursor = result at hstep
    cases hstep
    simp only [Bool.false_eq_true, if_false, run_bind_error hrun]
    exact .error fault
  | case3 cursor s hlt s' next hfound hless hopen ih =>
    obtain ⟨rounds, rfl⟩ : ∃ k, rounds = k + 1 := ⟨rounds - 1, by omega⟩
    have hat' := Array.getElem?_eq_some_iff.2 ⟨hlt, rfl⟩
    have hstep := hbody s t cursor h
    rw [hfound] at hstep
    rw [repeatUntilClose, run_bind_ok (atClose_open hat' hopen)]
    generalize hrun : (body t).run cursor = result at hstep
    cases hstep with
    | ok h' =>
      simp only [Bool.false_eq_true, if_false, run_bind_ok hrun]
      exact ih h' (by omega)
  | case4 cursor s hlt s' next hfound hless hopen =>
    exact absurd (Entry.lt_of_after? (hvisit _ _ _ hfound)) hless
  | case5 cursor s hlt =>
    cases rounds with
    | zero => exact .error _
    | succ rounds =>
      have hat : r.entries[cursor]? = none := Array.getElem?_eq_none (Nat.le_of_not_lt hlt)
      rw [repeatUntilClose, run_bind_error (atClose_none hat)]
      exact .error _

/-- **A loop ends as a walk does, if its body does what is done at a visit.** -/
theorem untilClose_matches (cursor : Nat) {s : σ} {t : τ} (h : R s t) :
    LoopMatches r.entries R (walk r.entries visit cursor s) ((untilClose r body t).run cursor) :=
  repeatUntilClose_matches hvisit hbody cursor s h (by omega)

end

/-- What follows a loop starts behind the capture that the walk was in. -/
theorem run_loop_bind {σ τ α : Type} {g : σ → τ} {x : CursorM τ} {f : τ → Nat → CursorM α}
    {outcome : Except Fault (σ × Nat × Nat)}
    (h : LoopMatches r.entries (fun s t => t = g s) outcome (x.run cursor)) :
    (do
      let t ← x
      let stop ← closePos r
      advance
      f t stop : CursorM α).run cursor =
      outcome >>= fun result => (f (g result.1) result.2.1).run result.2.2 := by
  generalize hrun : x.run cursor = result at h
  cases h with
  | error fault =>
    rw [run_bind_error hrun]
    rfl
  | ok h hclosed =>
    subst h
    rw [run_bind_ok hrun, run_bind_ok (closePos_closed hclosed), run_bind_ok (advance_run _)]
    rfl

end PegMachine.Cursor
