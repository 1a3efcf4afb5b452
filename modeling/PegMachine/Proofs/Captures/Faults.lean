import PegMachine.Capture.Resolve

/-!
# Faults of captures

* `Fault.ofMachine`: the faults that only an instruction gives rise to.
* `Harmless`: a computation that ends with none of them.
* `Resolver.harmless_resolve`, `Resolver.harmless_nested`: **to resolve captures is harmless.**
-/

namespace PegMachine

/-- The faults of a machine that does not find what it needs on its stack or in its program, or
whose stack is full. -/
def Fault.ofMachine : Fault → Bool
  | .invalidStack _ | .unresolvedCall _ | .stackOverflow => true
  | _ => false

/-- A computation that does not end with a fault of the machine. -/
def Harmless {α : Type} (x : Except Fault α) : Prop :=
  ∀ fault, x = .error fault → fault.ofMachine = false

section

variable {α β : Type}

theorem harmless_ok (a : α) : Harmless (.ok a) := nofun

theorem harmless_error {fault : Fault} (h : fault.ofMachine = false) :
    Harmless (.error fault : Except Fault α) := by
  intro fault' he
  cases he
  exact h

theorem Harmless.bind {x : Except Fault α} {f : α → Except Fault β} (h : Harmless x)
    (hf : ∀ a, Harmless (f a)) : Harmless (x >>= f) := by
  intro fault hfault
  cases x with
  | error fault' =>
    injection hfault with he
    exact h fault (congrArg _ he)
  | ok a => exact hf a fault hfault

theorem harmless_ite {c : Prop} [Decidable c] {x y : Except Fault α} (hx : Harmless x)
    (hy : Harmless y) : Harmless (if c then x else y) := by
  split <;> assumption

end

/-! ## Groups -/

theorem Entry.harmless_groupBelow (program : Program) (name : String) (entries : Array Entry)
    (depth limit : Nat) : Harmless (groupBelow program name entries depth limit) := by
  induction limit generalizing depth with
  | zero =>
    cases depth <;> exact harmless_error rfl
  | succ i ih =>
    rw [groupBelow]
    split
    · exact ih _
    · split
      · exact ih _
      · exact harmless_ite (harmless_ok i) (ih _)
      · exact ih _
    · exact harmless_ite (harmless_ok i) (ih _)
    · exact ih _

namespace Resolver

variable (r : Resolver)

theorem harmless_present {α : Type} (a : Option α) : Harmless (present a) := by
  cases a with
  | none => exact harmless_error rfl
  | some a => exact harmless_ok a

theorem harmless_text (start stop : Nat) : Harmless (r.text start stop) :=
  harmless_ite (harmless_ok _) (harmless_error rfl)

/-! ## Walks -/

section

variable {σ : Type} {visit : σ → Nat → Except Fault (σ × Nat)}
  (hvisit : ∀ state cursor, Harmless (visit state cursor))

include hvisit

theorem harmless_walk (entries : Array Entry) (cursor : Nat) (state : σ) :
    Harmless (walk entries visit cursor state) := by
  fun_induction walk entries visit cursor state with
  | case1 => exact harmless_ok _
  | case2 => next fault hfault _ => exact harmless_error (hvisit _ _ fault hfault)
  | case3 => assumption
  | case4 | case5 => exact harmless_error rfl

theorem harmless_inside (init : Nat → σ) (cursor : Nat) :
    Harmless (r.inside visit init cursor) := by
  unfold inside
  split
  · exact harmless_ok _
  · next pos _ =>
    have hwalk := harmless_walk hvisit r.entries (cursor + 1) (init pos)
    split
    · next fault hfault => exact harmless_error (hwalk fault hfault)
    · exact harmless_ok _
  · exact harmless_error rfl

end

/-! ## Nested captures -/

section

variable {resolve : Nat → Except Fault Yield} (hresolve : ∀ cursor, Harmless (resolve cursor))

include hresolve

theorem harmless_collect (cursor : Nat) : Harmless (r.collect resolve cursor) :=
  r.harmless_inside (fun _ cursor => (hresolve cursor).bind fun _ => harmless_ok _) _ cursor

theorem harmless_nestedOrText (cursor : Nat) : Harmless (r.nestedOrText resolve cursor) := by
  refine (r.harmless_collect hresolve cursor).bind fun nested => harmless_ite ?_ (harmless_ok _)
  exact (r.harmless_text _ _).bind fun _ => harmless_ok _

theorem harmless_textAndNested (cursor : Nat) : Harmless (r.textAndNested resolve cursor) :=
  (r.harmless_collect hresolve cursor).bind fun _ =>
    (r.harmless_text _ _).bind fun _ => harmless_ok _

theorem harmless_backref (name : String) (cursor : Nat) :
    Harmless (r.backref resolve name cursor) :=
  (Entry.harmless_groupBelow _ _ _ _ _).bind fun _ =>
    (r.harmless_nestedOrText hresolve _).bind fun _ => harmless_ok _

theorem harmless_combine (f : FoldFunction) (acc : Option Value) (cursor : Nat) :
    Harmless (combine resolve f acc cursor) := by
  refine (hresolve cursor).bind fun found => ?_
  split
  · exact harmless_ok _
  · exact harmless_ok _
  · exact harmless_error rfl

theorem harmless_fold (f : FoldFunction) (cursor : Nat) : Harmless (r.fold resolve f cursor) := by
  refine (r.harmless_inside (harmless_combine hresolve f) _ cursor).bind fun nested => ?_
  split
  · exact harmless_ok _
  · exact harmless_error rfl

theorem harmless_replacement (cursor : Nat) : Harmless (replacement resolve cursor) := by
  refine (hresolve cursor).bind fun found => ?_
  split
  · exact harmless_ok _
  · split
    · exact harmless_ok _
    · exact harmless_error rfl

theorem harmless_replace (state : Bytes × Nat) (cursor : Nat) :
    Harmless (r.replace resolve state cursor) := by
  refine (harmless_present _).bind fun entry => (harmless_present _).bind fun stop => ?_
  refine (r.harmless_text _ _).bind fun before => ?_
  refine (harmless_replacement hresolve cursor).bind fun ⟨text, next⟩ => ?_
  cases text <;> exact harmless_ok _

theorem harmless_substitute (cursor : Nat) : Harmless (r.substitute resolve cursor) :=
  (r.harmless_inside (r.harmless_replace hresolve) _ cursor).bind fun _ =>
    (r.harmless_text _ _).bind fun _ => harmless_ok _

/-! ## Templates -/

theorem harmless_pieceText (found : Array Piece) (n : Nat) :
    Harmless (r.pieceText resolve found n) := by
  unfold pieceText
  split
  · exact r.harmless_text _ _
  · refine (harmless_replacement hresolve _).bind fun ⟨text, next⟩ => ?_
    cases text with
    | none => exact harmless_error rfl
    | some text => exact harmless_ok text
  · exact harmless_error rfl

end

theorem harmless_addPieces {inner : Nat → Nat → Except Fault (Array Piece × Nat)}
    (hinner : ∀ taken cursor, Harmless (inner taken cursor)) (taken : Nat) (found : Array Piece)
    (cursor : Nat) : Harmless (r.addPieces inner taken found cursor) := by
  unfold addPieces
  refine harmless_ite ?_ (harmless_ite ?_ ?_)
  · exact (harmless_present _).bind fun _ => harmless_ok _
  · exact (hinner _ _).bind fun _ => harmless_ok _
  · exact (harmless_present _).bind fun _ => harmless_ok _

theorem harmless_pieces (depth taken cursor : Nat) : Harmless (r.pieces depth taken cursor) := by
  induction depth generalizing taken cursor with
  | zero => exact harmless_error rfl
  | succ depth ih =>
    exact (r.harmless_inside (r.harmless_addPieces ih _) _ cursor).bind fun _ => harmless_ok _

theorem harmless_expand {piece : Nat → Except Fault Bytes} (hpiece : ∀ n, Harmless (piece n))
    (done : Bytes) (format : List UInt8) : Harmless (expand piece done format) := by
  fun_induction expand piece done format with
  | case1 | case2 => exact harmless_ok _
  | case3 | case5 | case6 => assumption
  | case4 => next fault hfault => exact harmless_error (hpiece _ fault hfault)

theorem harmless_fill {resolve : Nat → Except Fault Yield}
    (hresolve : ∀ cursor, Harmless (resolve cursor)) (format : Bytes) (cursor : Nat) :
    Harmless (r.fill resolve format cursor) :=
  (r.harmless_pieces _ 0 cursor).bind fun _ =>
    (harmless_expand (r.harmless_pieceText hresolve _) _ _).bind fun _ => harmless_ok _

/-! ## Values -/

theorem harmless_valuesOf {resolve : Nat → Except Fault Yield}
    (hresolve : ∀ cursor, Harmless (resolve cursor)) (kind : CaptureKind)
    (index pos cursor : Nat) : Harmless (r.valuesOf resolve kind index pos cursor) := by
  unfold valuesOf
  split
  · exact harmless_ok _
  · exact harmless_ok _
  · split
    · exact harmless_error rfl
    · split
      · exact harmless_ok _
      · exact harmless_error rfl
  · exact r.harmless_backref hresolve _ _
  · exact r.harmless_textAndNested hresolve _
  · exact (r.harmless_collect hresolve _).bind fun _ => harmless_ok _
  · exact harmless_ite (r.harmless_nestedOrText hresolve _)
      ((harmless_present _).bind fun _ => harmless_ok _)
  · exact (r.harmless_nestedOrText hresolve _).bind fun _ => harmless_ok _
  · exact (r.harmless_nestedOrText hresolve _).bind fun _ => harmless_ok _
  · exact (r.harmless_fill hresolve _ _).bind fun _ => harmless_ok _
  · exact (r.harmless_substitute hresolve _).bind fun _ => harmless_ok _
  · exact r.harmless_fold hresolve _ _
  · exact (harmless_present _).bind fun _ => harmless_ok _
  · exact harmless_error rfl

theorem harmless_values (depth cursor : Nat) : Harmless (r.values depth cursor) := by
  induction depth generalizing cursor with
  | zero => exact harmless_error rfl
  | succ depth ih =>
    unfold values
    split
    · exact r.harmless_valuesOf ih _ _ _ _
    · exact r.harmless_valuesOf ih _ _ _ _
    · exact harmless_ok _
    · exact harmless_error rfl
    · exact harmless_error rfl

theorem harmless_resolveFrom (cursor : Nat) (done : Array Value) :
    Harmless (r.resolveFrom cursor done) := by
  fun_induction resolveFrom r cursor done with
  | case1 => next fault hfault => exact harmless_error (r.harmless_values _ _ fault hfault)
  | case2 => assumption
  | case3 => exact harmless_error rfl
  | case4 => exact harmless_ok _

/-- **To resolve the captures of a match is harmless.** -/
theorem harmless_resolve : Harmless r.resolve :=
  (r.harmless_resolveFrom 0 #[]).bind fun _ => harmless_ok _

/-- **To resolve the captures nested in a match-time capture is harmless.** -/
theorem harmless_nested (cursor : Nat) : Harmless (r.nested cursor) :=
  (r.harmless_nestedOrText (r.harmless_values _) cursor).bind fun _ => harmless_ok _

end Resolver

end PegMachine
