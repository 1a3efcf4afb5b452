import PegMachine.Proofs.Captures.Recorded

/-!
# Captures that are not malformed

* `Intact`: a computation that does not find the captures malformed.
* `Reading.Intact`: a reading of which all parts are intact.
* `Capture.intact_read`, `intact_readAll`: **the readings of captures are intact.**
* `Visible.intact`: so are the named groups that back references find.
-/

namespace PegMachine

/-- A computation that does not find the captures malformed. -/
def Intact {α : Type} (x : Except Fault α) : Prop := x ≠ .error .malformedCaptures

/-- A reading in which nothing finds the captures malformed. -/
structure Reading.Intact (reading : Reading) : Prop where
  values : PegMachine.Intact reading.values
  parts : ∀ values ∈ reading.parts, PegMachine.Intact values
  bindings : ∀ binding ∈ reading.bindings, PegMachine.Intact binding.2

section

variable {α β : Type}

theorem intact_ok (a : α) : Intact (.ok a) := nofun

theorem intact_error {fault : Fault} (h : fault ≠ .malformedCaptures) :
    Intact (.error fault : Except Fault α) :=
  fun he => h (Except.error.inj he)

theorem Intact.bind {x : Except Fault α} {f : α → Except Fault β} (h : Intact x)
    (hf : ∀ a, Intact (f a)) : Intact (x >>= f) := by
  cases x with
  | error fault => exact intact_error fun he => h (congrArg _ he)
  | ok a => exact hf a

end

section

variable {subject : Bytes} {arguments : List Value} {bindings : Bindings} {start stop : Nat}
  {readings : List Reading}

/-! ## Nested values -/

theorem intact_nestedValues (h : ∀ reading ∈ readings, reading.Intact) :
    Intact (nestedValues readings) := by
  induction readings with
  | nil => exact intact_ok _
  | cons reading rest ih =>
    rw [List.forall_mem_cons] at h
    exact h.1.values.bind fun _ => (ih h.2).bind fun _ => intact_ok _

theorem intact_nestedOr (text : Bytes) (h : ∀ reading ∈ readings, reading.Intact) :
    Intact (nestedOr text readings) :=
  (intact_nestedValues h).bind fun _ => intact_ok _

/-! ## Folds -/

theorem intact_foldOnto (f : FoldFunction) (value : Value)
    (h : ∀ reading ∈ readings, reading.Intact) : Intact (foldOnto f value readings) := by
  induction readings generalizing value with
  | nil => exact intact_ok _
  | cons reading rest ih =>
    rw [List.forall_mem_cons] at h
    exact h.1.values.bind fun _ => ih _ h.2

theorem intact_folded (f : FoldFunction) (h : ∀ reading ∈ readings, reading.Intact) :
    Intact (folded f readings) := by
  cases readings with
  | nil => exact intact_error nofun
  | cons first rest =>
    rw [List.forall_mem_cons] at h
    refine h.1.values.bind fun values => ?_
    cases values with
    | nil => exact intact_error nofun
    | cons value _ => exact intact_foldOnto f value h.2

/-! ## Replacements -/

theorem intact_firstText (values : List Value) : Intact (firstText values) := by
  cases values with
  | nil => exact intact_ok _
  | cons value rest =>
    rw [firstText]
    cases value.text? with
    | none => exact intact_error nofun
    | some text => exact intact_ok _

theorem intact_replaced (used : Nat) (h : ∀ reading ∈ readings, reading.Intact) :
    Intact (replaced subject used stop readings) := by
  induction readings generalizing used with
  | nil => exact intact_ok _
  | cons reading rest ih =>
    rw [List.forall_mem_cons] at h
    exact h.1.values.bind fun values => (intact_firstText values).bind fun _ =>
      (ih _ h.2).bind fun _ => intact_ok _

/-! ## Templates -/

theorem intact_partText {parts : List Values} (h : ∀ values ∈ parts, Intact values) (n : Nat) :
    Intact (partText parts n) := by
  rw [partText]
  cases hpart : parts[n]? with
  | none => exact intact_error nofun
  | some values =>
    refine (h values (List.mem_of_getElem? hpart)).bind fun found =>
      (intact_firstText found).bind fun text => ?_
    cases text with
    | none => exact intact_error nofun
    | some text => exact intact_ok text

theorem intact_expand {piece : Nat → Except Fault Bytes} (hpiece : ∀ n, Intact (piece n))
    (done : Bytes) (format : List UInt8) : Intact (Resolver.expand piece done format) := by
  fun_induction Resolver.expand piece done format with
  | case1 | case2 => exact intact_ok _
  | case3 | case5 | case6 => assumption
  | case4 =>
    next fault hfault => exact intact_error fun he => hpiece _ (he ▸ hfault)

theorem intact_partsWithin (h : ∀ reading ∈ readings, reading.Intact) :
    ∀ values ∈ partsWithin subject start stop readings, Intact values := by
  rw [partsWithin, List.forall_mem_cons]
  refine ⟨intact_ok _, fun values hvalues => ?_⟩
  obtain ⟨reading, hreading, hpart⟩ := List.mem_flatMap.1 hvalues
  exact (h reading hreading).parts values hpart

/-! ## Captures -/

theorem Content.intact_values (content : Content)
    (hbindings : ∀ binding ∈ bindings, Intact binding.2)
    (h : ∀ reading ∈ readings, reading.Intact) :
    Intact (content.values subject arguments bindings start stop readings) := by
  cases content with
  | position | const | named | dynamic => exact intact_ok _
  | argument n =>
    cases n with
    | zero => exact intact_error nofun
    | succ n =>
      rw [Content.values]
      cases arguments[n]? with
      | none => exact intact_error nofun
      | some value => exact intact_ok _
  | backref name =>
    rw [Content.values]
    cases hlookup : bindings.lookup name with
    | none => exact intact_error nofun
    | some values =>
      obtain ⟨before, behind, rfl, -⟩ := List.lookup_eq_some_iff.1 hlookup
      exact hbindings (name, values) (by simp)
  | simple | table => exact (intact_nestedValues h).bind fun _ => intact_ok _
  | subst => exact (intact_replaced start h).bind fun _ => intact_ok _
  | group => exact intact_nestedOr _ h
  | fold f => exact (intact_folded f h).bind fun _ => intact_ok _
  | function | query => exact (intact_nestedOr _ h).bind fun _ => intact_ok _
  | template format =>
    exact (intact_expand (intact_partText (intact_partsWithin h)) _ _).bind fun _ => intact_ok _

theorem Content.intact_reading (content : Content)
    (hbindings : ∀ binding ∈ bindings, Intact binding.2)
    (h : ∀ reading ∈ readings, reading.Intact) :
    (content.reading subject arguments bindings start stop readings).Intact := by
  have hvalues : Intact (content.values subject arguments bindings start stop readings) :=
    content.intact_values hbindings h
  refine ⟨hvalues, ?_, ?_⟩
  · cases content with
    | simple => exact intact_partsWithin h
    | _ => exact List.forall_mem_singleton.2 hvalues
  · cases content with
    | named name => exact List.forall_mem_singleton.2 (intact_nestedOr _ h)
    | _ => exact nofun

mutual

theorem Capture.intact_read {bindings : Bindings} (capture : Capture)
    (hbindings : ∀ binding ∈ bindings, Intact binding.2) :
    (capture.read subject arguments bindings).Intact := by
  obtain ⟨content, start, stop, nested⟩ := capture
  exact content.intact_reading hbindings (intact_readAll nested hbindings)

theorem intact_readAll {bindings : Bindings} (captures : List Capture)
    (hbindings : ∀ binding ∈ bindings, Intact binding.2) :
    ∀ reading ∈ readAll subject arguments bindings captures, reading.Intact := by
  cases captures with
  | nil => exact nofun
  | cons capture rest =>
    have hread := capture.intact_read hbindings
    refine List.forall_mem_cons.2 ⟨hread, intact_readAll rest ?_⟩
    exact List.forall_mem_append.2 ⟨hread.bindings, hbindings⟩

end

theorem intact_evaluate (captures : List Capture) :
    Intact (evaluate subject arguments captures) :=
  intact_nestedValues (intact_readAll captures nofun)

/-- The named groups that back references find are intact. -/
theorem Visible.intact {r : Resolver} {cursor : Nat} (h : Visible r cursor bindings) :
    ∀ binding ∈ bindings, Intact binding.2 := by
  induction h with
  | start => exact nofun
  | opened _ _ ih => exact ih
  | @capture _ _ _ _ capture _ _ _ _ ih =>
    exact List.forall_mem_append.2 ⟨(capture.intact_read ih).bindings, ih⟩

end

end PegMachine
