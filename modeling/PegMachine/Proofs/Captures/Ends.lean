import PegMachine.Proofs.Captures.Faults
import PegMachine.Proofs.Captures.Siblings

/-!
# Where the resolver ends

What each part of the resolver gives as the cursor after a capture is the index right after it. In
the list, the captures that are resolved from one entry must not have a start and an end; nothing is
assumed about its bracketing or about what it refers to.

* `CaptureKind.isPoint`, `Entry.PointsWhole`: captures that are resolved from one entry, and lists
  in which they take up one.
* `Ensures`: what holds of a computation's result, if it ends without a fault.
* `Resolver.walk_ends`, `Resolver.inside_ends`: walks over the captures nested in one.
* **`Resolver.values_ends`**: the values of a capture, at any depth.
-/

namespace PegMachine

/-- Whether captures of a kind are resolved from a single entry. -/
def CaptureKind.isPoint : CaptureKind → Bool
  | .position | .const | .backref | .argument => true
  | _ => false

/-- An entry that is not the start of a capture of such a kind. -/
def Entry.Whole : Entry → Prop
  | .opened kind _ _ => kind.isPoint = false
  | _ => True

/-- No capture that is resolved from a single entry has a start and an end. -/
def Entry.PointsWhole (entries : Array Entry) : Prop := ∀ entry ∈ entries, entry.Whole

/-- If the computation ends without a fault, its result is as told. -/
def Ensures {α : Type} (x : Except Fault α) (post : α → Prop) : Prop := ∀ a, x = .ok a → post a

section

variable {α β : Type} {x : Except Fault α} {mid : α → Prop} {post : β → Prop}

theorem ensures_ok {b : β} (h : post b) : Ensures (.ok b) post := by
  rintro _ ⟨⟩
  exact h

theorem ensures_error {fault : Fault} : Ensures (.error fault) post := nofun

theorem Ensures.bind {f : α → Except Fault β} (hx : Ensures x mid)
    (hf : ∀ a, mid a → Ensures (f a) post) : Ensures (x >>= f) post := by
  cases x with
  | error fault => exact ensures_error
  | ok a => exact hf a (hx a rfl)

theorem ensures_bind {f : α → Except Fault β} (hf : ∀ a, Ensures (f a) post) :
    Ensures (x >>= f) post :=
  Ensures.bind (fun _ _ => trivial : Ensures x fun _ => True) fun a _ => hf a

end

theorem Ensures.map {α β : Type} {x : Except Fault α} {pre : α → Prop} {post : β → Prop} {f : α → β}
    (hx : Ensures x pre) (hf : ∀ a, pre a → post (f a)) : Ensures (x.map f) post := by
  cases x with
  | error fault => exact ensures_error
  | ok a => exact ensures_ok (hf a (hx a rfl))

theorem ensures_present {α : Type} (a? : Option α) :
    Ensures (Resolver.present a?) fun a => a? = some a := by
  cases a? with
  | none => exact ensures_error
  | some a => exact ensures_ok rfl

namespace Resolver

/-- The cursor after a capture is the index right after it. -/
def EndsAt (entries : Array Entry) (cursor next : Nat) : Prop :=
  Entry.after? entries cursor = some next

variable {r : Resolver} {entries : Array Entry} {cursor : Nat}

theorem endsAt_full {kind : CaptureKind} {index pos length : Nat}
    (hat : entries[cursor]? = some (.full kind index pos length)) :
    EndsAt entries cursor (cursor + 1) := by
  rw [EndsAt, Entry.after?, hat]

theorem endsAt_dynamic {start stop : Nat} {values : List Value}
    (hat : entries[cursor]? = some (.dynamic start stop values)) :
    EndsAt entries cursor (cursor + 1) := by
  rw [EndsAt, Entry.after?, hat]

theorem ensures_after? (entries : Array Entry) (cursor : Nat) :
    Ensures (present (Entry.after? entries cursor)) (EndsAt entries cursor) :=
  ensures_present _

/-! ## Walks -/

section

variable {σ : Type} {visit : σ → Nat → Except Fault (σ × Nat)}

theorem walk_ends
    (hvisit : ∀ state cursor, Ensures (visit state cursor) (EndsAt entries cursor ·.2))
    (cursor : Nat) (state : σ) : Ensures (walk entries visit cursor state) fun result =>
      Entry.afterClose? entries 1 cursor = some result.2.2 := by
  fun_induction walk entries visit cursor state with
  | case1 cursor state hlt pos hat =>
    refine ensures_ok ?_
    rw [Entry.afterClose?, dif_pos hlt, hat]
    rfl
  | case2 => exact ensures_error
  | case3 cursor state hlt state' next hfound hless hopen ih =>
    rw [Entry.afterClose?_capture (hvisit _ _ _ hfound)]
    exact ih
  | case4 | case5 => exact ensures_error

theorem inside_ends
    (hvisit : ∀ state cursor, Ensures (visit state cursor) (EndsAt r.entries cursor ·.2))
    (init : Nat → σ) (cursor : Nat) :
    Ensures (r.inside visit init cursor) (EndsAt r.entries cursor ·.next) := by
  unfold inside
  split
  · next hat => exact ensures_ok (endsAt_full hat)
  · next hat =>
    split
    · exact ensures_error
    · next hwalk =>
      exact ensures_ok ((Entry.after?_opened hat).trans (walk_ends hvisit _ _ _ hwalk))
  · exact ensures_error

end

/-! ## Nested captures -/

section

variable {resolve : Nat → Except Fault Yield}
  (hresolve : ∀ cursor, Ensures (resolve cursor) (EndsAt r.entries cursor ·.next))

include hresolve

theorem collect_ends (cursor : Nat) :
    Ensures (r.collect resolve cursor) (EndsAt r.entries cursor ·.next) :=
  inside_ends (fun _ cursor => (hresolve cursor).bind fun _ hfound => ensures_ok hfound) _ cursor

theorem nestedOrText_ends (cursor : Nat) :
    Ensures (r.nestedOrText resolve cursor) (EndsAt r.entries cursor ·.next) := by
  refine (collect_ends hresolve cursor).bind fun nested hnested => ?_
  split
  · exact ensures_bind fun _ => ensures_ok hnested
  · exact ensures_ok hnested

theorem textAndNested_ends (cursor : Nat) :
    Ensures (r.textAndNested resolve cursor) (EndsAt r.entries cursor ·.next) :=
  (collect_ends hresolve cursor).bind fun _ hnested => ensures_bind fun _ => ensures_ok hnested

theorem combine_ends (f : FoldFunction) (acc : Option Value) (cursor : Nat) :
    Ensures (combine resolve f acc cursor) (EndsAt r.entries cursor ·.2) := by
  refine (hresolve cursor).bind fun found hfound => ?_
  split
  · exact ensures_ok hfound
  · exact ensures_ok hfound
  · exact ensures_error

theorem fold_ends (f : FoldFunction) (cursor : Nat) :
    Ensures (r.fold resolve f cursor) (EndsAt r.entries cursor ·.next) := by
  refine (inside_ends (combine_ends hresolve f) _ cursor).bind fun nested hnested => ?_
  split
  · exact ensures_ok hnested
  · exact ensures_error

theorem replacement_ends (cursor : Nat) :
    Ensures (replacement resolve cursor) (EndsAt r.entries cursor ·.2) := by
  refine (hresolve cursor).bind fun found hfound => ?_
  split
  · exact ensures_ok hfound
  · split
    · exact ensures_ok hfound
    · exact ensures_error

theorem replace_ends (state : Bytes × Nat) (cursor : Nat) :
    Ensures (r.replace resolve state cursor) (EndsAt r.entries cursor ·.2) := by
  refine ensures_bind fun entry => ensures_bind fun stop => ensures_bind fun before => ?_
  refine (replacement_ends hresolve cursor).bind fun ⟨text, next⟩ hfound => ?_
  cases text with
  | some text => exact ensures_ok hfound
  | none => exact ensures_ok hfound

theorem substitute_ends (cursor : Nat) :
    Ensures (r.substitute resolve cursor) (EndsAt r.entries cursor ·.2) :=
  (inside_ends (replace_ends hresolve) _ cursor).bind fun _ hnested =>
    ensures_bind fun _ => ensures_ok hnested

end

/-! ## Templates -/

theorem addPieces_ends {inner : Nat → Nat → Except Fault (Array Piece × Nat)}
    (hinner : ∀ taken cursor, Ensures (inner taken cursor) (EndsAt r.entries cursor ·.2))
    (taken : Nat) (found : Array Piece) (cursor : Nat) :
    Ensures (r.addPieces inner taken found cursor) (EndsAt r.entries cursor ·.2) := by
  have hafter := ensures_after? r.entries cursor
  unfold addPieces
  split
  · exact hafter.bind fun _ hnext => ensures_ok hnext
  · split
    · exact (hinner _ cursor).bind fun _ hmore => ensures_ok hmore
    · exact hafter.bind fun _ hnext => ensures_ok hnext

theorem pieces_ends (depth taken cursor : Nat) :
    Ensures (r.pieces depth taken cursor) (EndsAt r.entries cursor ·.2) := by
  induction depth generalizing taken cursor with
  | zero => exact ensures_error
  | succ depth ih =>
    exact (inside_ends (addPieces_ends ih (taken + 1)) _ cursor).bind fun _ hnested =>
      ensures_ok hnested

theorem fill_ends (resolve : Nat → Except Fault Yield) (format : Bytes) (cursor : Nat) :
    Ensures (r.fill resolve format cursor) (EndsAt r.entries cursor ·.2) :=
  (pieces_ends _ _ cursor).bind fun _ hfound => ensures_bind fun _ => ensures_ok hfound

/-! ## Values -/

/-- What a back reference finds elsewhere does not move the cursor. -/
theorem backref_next (resolve : Nat → Except Fault Yield) (name : String) (cursor : Nat) :
    Ensures (r.backref resolve name cursor) (·.next = cursor + 1) :=
  ensures_bind fun _ => ensures_bind fun _ => ensures_ok rfl

theorem valuesOf_ends {resolve : Nat → Except Fault Yield}
    (hresolve : ∀ cursor, Ensures (resolve cursor) (EndsAt r.entries cursor ·.next))
    (kind : CaptureKind) (index pos cursor : Nat)
    (hpoint : kind.isPoint = true → EndsAt r.entries cursor (cursor + 1)) :
    Ensures (r.valuesOf resolve kind index pos cursor) (EndsAt r.entries cursor ·.next) := by
  have hnested := nestedOrText_ends hresolve cursor
  have hafter := ensures_after? r.entries cursor
  unfold valuesOf
  split
  · exact ensures_ok (hpoint rfl)
  · exact ensures_ok (hpoint rfl)
  · split
    · exact ensures_error
    · split
      · exact ensures_ok (hpoint rfl)
      · exact ensures_error
  · intro found hfound
    rw [backref_next resolve _ cursor found hfound]
    exact hpoint rfl
  · exact textAndNested_ends hresolve cursor
  · exact (collect_ends hresolve cursor).bind fun _ hfound => ensures_ok hfound
  · split
    · exact hnested
    · exact hafter.bind fun _ hnext => ensures_ok hnext
  · exact hnested.bind fun _ hfound => ensures_ok hfound
  · exact hnested.bind fun _ hfound => ensures_ok hfound
  · exact (fill_ends resolve _ cursor).bind fun _ hfound => ensures_ok hfound
  · exact (substitute_ends hresolve cursor).bind fun _ hfound => ensures_ok hfound
  · exact fold_ends hresolve _ cursor
  · exact hafter.bind fun _ hnext => ensures_ok hnext
  · exact ensures_error

/-- **The cursor after a capture is the index right after it, however deep captures are entered and
back references followed.** -/
theorem values_ends (hwhole : Entry.PointsWhole r.entries) (depth cursor : Nat) :
    Ensures (r.values depth cursor) (EndsAt r.entries cursor ·.next) := by
  induction depth generalizing cursor with
  | zero => exact ensures_error
  | succ depth ih =>
    rw [values]
    split
    · next hat =>
      refine valuesOf_ends ih _ _ _ cursor fun hkind => ?_
      have hopened : Entry.Whole _ := hwhole _ (Array.mem_of_getElem? hat)
      rw [hopened] at hkind
      cases hkind
    · next hat => exact valuesOf_ends ih _ _ _ cursor fun _ => endsAt_full hat
    · next hat => exact ensures_ok (endsAt_dynamic hat)
    · exact ensures_error
    · exact ensures_error

end Resolver

end PegMachine
