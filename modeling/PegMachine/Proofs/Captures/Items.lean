import PegMachine.Proofs.Captures.Standing
import PegMachine.Proofs.Semantics.Formats

/-!
# Pieces of templates

What a template can refer to in the list of captures, with no bound on their number.

* `Entry.Items`, `Entry.Pieces`: the pieces in a capture, its text first, and those in captures one
  after another.
* `Resolver.Encloses.exists_items`: the pieces stand for the parts of the capture.
* `Resolver.Shows`, `Resolver.Lacks`: the text of a numbered piece, and the fault where there is
  none.
* `Resolver.Encloses.template_iff`: **a template is its format with the pieces of its capture, up to
  the first that has no text.**
-/

namespace PegMachine

namespace Entry

variable (entries : Array Entry)

mutual

/-- The pieces that a template finds in the capture at a place, whose end the list has right before
`next`: its text, then the pieces in the captures nested in it. -/
inductive Items : (cursor : Nat) → List Piece → (next : Nat) → Prop where
  | full {cursor index pos length : Nat} {kind : CaptureKind}
      (hat : entries[cursor]? = some (.full kind index pos length)) :
      Items cursor [.text pos (pos + length)] (cursor + 1)
  | nest {cursor last index pos stop : Nat} {kind : CaptureKind} {pieces : List Piece}
      (hat : entries[cursor]? = some (.opened kind index pos))
      (hpieces : Pieces (cursor + 1) pieces last)
      (hclosed : entries[last]? = some (.closed stop)) :
      Items cursor (.text pos stop :: pieces) (last + 1)

/-- The pieces in captures one after another. A simple capture has its text and the pieces in it,
and any other capture is a piece with nothing in it. -/
inductive Pieces : (cursor : Nat) → List Piece → (last : Nat) → Prop where
  | nil {cursor : Nat} : Pieces cursor [] cursor
  | simple {cursor next last : Nat} {entry : Entry} {items rest : List Piece}
      (hat : entries[cursor]? = some entry) (hkind : entry.kind? = some .simple)
      (hitems : Items cursor items next) (hrest : Pieces next rest last) :
      Pieces cursor (items ++ rest) last
  | other {cursor next last : Nat} {entry : Entry} {rest : List Piece}
      (hat : entries[cursor]? = some entry) (hkind : entry.kind? ≠ some .simple)
      (hafter : after? entries cursor = some next) (hrest : Pieces next rest last) :
      Pieces cursor (.capture cursor :: rest) last

end

end Entry

namespace Resolver

variable {r : Resolver} {lo hi cursor next start stop n : Nat} {bindings : Bindings}
  {captures nested : List Capture} {content : Content} {values values' : Values} {next' : Nat}
  {items pieces : List Piece} {parts : List Values} {text : Bytes} {fault : Fault}

theorem ValuesAt.values_eq (h : r.ValuesAt cursor values next) (h' : r.ValuesAt cursor values' next') :
    values = values' := by
  have heq := (h _ (Nat.le_refl _)).symm.trans (h' _ (Nat.le_refl _))
  cases values <;> cases values' <;> cases heq <;> rfl

/-! ## What the pieces stand for -/

/-- A piece stands for a value or for those of the capture at its place. -/
inductive StandsFor (r : Resolver) : Piece → Values → Prop where
  | text {start stop : Nat} :
      StandsFor r (.text start stop) (.ok [.str (r.subject.extract start stop)])
  | capture {cursor next : Nat} {values : Values} (hvalues : r.ValuesAt cursor values next) :
      StandsFor r (.capture cursor) values

/-- Pieces in a part of the list stand for the parts. -/
def Splits (r : Resolver) (cursor : Nat) (parts : List Values) (last : Nat) : Prop :=
  ∃ pieces, Entry.Pieces r.entries cursor pieces last ∧ List.Forall₂ r.StandsFor pieces parts

theorem Splits.other {last : Nat} (h : r.Holds lo cursor [.node content start stop nested] hi next)
    (hv : Visible r cursor bindings) (hne : content ≠ .simple) (hrest : r.Splits next parts last) :
    r.Splits cursor ((r.reading bindings (.node content start stop nested)).parts ++ parts)
      last := by
  obtain ⟨pieces, hpieces, hall⟩ := hrest
  obtain ⟨⟨entry, hat, -⟩, -⟩ := h.1.start_eq
  have hkind : entry.kind? ≠ some .simple := by
    have hiff := kind?_eq_simple h
    rw [hat] at hiff
    exact fun hkind => hne (hiff.1 hkind)
  have hvalues := Reads.valuesAt ⟨hv, lo, hi, h⟩
  rw [parts_of_ne_simple hne]
  exact ⟨_, .other hat hkind h.1.after?_eq hpieces, .cons (.capture hvalues) hall⟩

theorem Splits.simple {last : Nat} (h : r.Holds lo cursor [.node .simple start stop nested] hi next)
    (hitems : Entry.Items r.entries cursor (.text start stop :: pieces) next)
    (hall : List.Forall₂ r.StandsFor pieces ((r.readings bindings nested).flatMap Reading.parts))
    (hrest : r.Splits next parts last) :
    r.Splits cursor ((r.reading bindings (.node .simple start stop nested)).parts ++ parts)
      last := by
  obtain ⟨others, hothers, hallOthers⟩ := hrest
  obtain ⟨⟨entry, hat, -⟩, -⟩ := h.1.start_eq
  have hkind := (kind?_eq_simple h).2 rfl
  rw [hat] at hkind
  exact ⟨_, .simple hat hkind hitems hothers, List.rel_append (.cons .text hall) hallOthers⟩

theorem Holds.splits (h : r.Holds lo cursor captures hi next) (hv : Visible r cursor bindings) :
    r.Splits cursor ((r.readings bindings captures).flatMap Reading.parts) next := by
  obtain ⟨h, hhi⟩ := h
  induction h generalizing bindings with
  | nil => exact ⟨[], .nil, .nil⟩
  | @full lo hi cursor next pos length index kind content others hat hlo hname hrest ih =>
    have hcapture := holds_full hat hname (Nat.le_trans hrest.le_span hhi)
    have hrest' := ih (hcapture.visible hv) hhi
    by_cases hsimple : content = .simple
    · subst hsimple
      exact Splits.simple hcapture (.full hat) .nil hrest'
    · exact hrest'.other hcapture hv hsimple
  | @dynamic lo hi cursor next start stop values others hat hlo hle hrest ih =>
    have hcapture := holds_dynamic hat hle (Nat.le_trans hrest.le_span hhi)
    exact (ih (hcapture.visible hv) hhi).other hcapture hv nofun
  | @nest lo hi cursor last next start stop index kind content nested others hat hlo hname hwraps
      hnested hclosed hrest ihNested ih =>
    have hstop := Nat.le_trans hrest.le_span hhi
    have hcapture := holds_nest hat hname hwraps hnested hclosed hstop
    have hrest' := ih (hcapture.visible hv) hhi
    by_cases hsimple : content = .simple
    · subst hsimple
      obtain ⟨pieces, hpieces, hall⟩ := ihNested (hv.opened hat) hstop
      exact Splits.simple hcapture (.nest hat hpieces hclosed) hall hrest'
    · exact hrest'.other hcapture hv hsimple

/-- The pieces in a capture stand for its parts. -/
theorem Encloses.exists_items (h : r.Encloses cursor start stop nested next)
    (hv : Visible r cursor bindings) :
    ∃ items, Entry.Items r.entries cursor items next ∧
      List.Forall₂ r.StandsFor items
        (partsWithin r.subject start stop (r.readings bindings nested)) := by
  cases h with
  | full hat => exact ⟨_, .full hat, .cons .text .nil⟩
  | nest hat hnested hclosed =>
    obtain ⟨pieces, hpieces, hall⟩ := hnested.splits (hv.opened hat)
    exact ⟨_, .nest hat hpieces hclosed, .cons .text hall⟩

/-! ## Texts of pieces -/

/-- The text of the numbered piece: that of the subject, or of the first value of the capture. -/
inductive Shows (r : Resolver) (items : List Piece) (n : Nat) : Bytes → Prop where
  | text {start stop : Nat} (hat : items[n]? = some (.text start stop)) :
      Shows r items n (r.subject.extract start stop)
  | capture {cursor next : Nat} {values : Values} {text : Bytes}
      (hat : items[n]? = some (.capture cursor)) (hvalues : r.ValuesAt cursor values next)
      (htext : HasText values text) : Shows r items n text

/-- There is no piece of the number, or it is a capture without values, or one whose first value has
no text or that has a fault itself. -/
inductive Lacks (r : Resolver) (items : List Piece) (n : Nat) : Fault → Prop where
  | missing (hlength : items.length ≤ n) : Lacks r items n (.captureIndex n)
  | valueless {cursor next : Nat} (hat : items[n]? = some (.capture cursor))
      (hvalues : r.ValuesAt cursor (.ok []) next) : Lacks r items n (.noCaptureValue n)
  | textless {cursor next : Nat} {values : Values} {fault : Fault}
      (hat : items[n]? = some (.capture cursor)) (hvalues : r.ValuesAt cursor values next)
      (hlacks : LacksText values fault) : Lacks r items n fault

theorem exists_part {piece : Piece} (h : List.Forall₂ r.StandsFor items parts)
    (hat : items[n]? = some piece) : ∃ values, parts[n]? = some values ∧ r.StandsFor piece values := by
  obtain ⟨hlt, rfl⟩ := List.getElem?_eq_some_iff.1 hat
  have hlt' : n < parts.length := h.length_eq ▸ hlt
  exact ⟨parts[n], List.getElem?_eq_getElem hlt', (List.forall₂_iff_get.1 h).2 n hlt hlt'⟩

theorem exists_part_of_capture {cursor : Nat} (h : List.Forall₂ r.StandsFor items parts)
    (hat : items[n]? = some (.capture cursor)) (hvalues : r.ValuesAt cursor values next) :
    parts[n]? = some values := by
  obtain ⟨values', hpart, hstands⟩ := exists_part h hat
  cases hstands with
  | capture hvalues' => rw [hpart, hvalues.values_eq hvalues']

theorem Shows.partText_eq (h : r.Shows items n text) (hall : List.Forall₂ r.StandsFor items parts) :
    partText parts n = .ok text := by
  cases h with
  | text hat =>
    obtain ⟨values, hpart, hstands⟩ := exists_part hall hat
    cases hstands
    rw [partText, hpart]
    rfl
  | capture hat hvalues htext =>
    rw [partText, exists_part_of_capture hall hat hvalues]
    cases htext <;> rfl

theorem Lacks.partText_eq (h : r.Lacks items n fault)
    (hall : List.Forall₂ r.StandsFor items parts) : partText parts n = .error fault := by
  cases h with
  | missing hlength => rw [partText, List.getElem?_eq_none (hall.length_eq ▸ hlength)]
  | valueless hat hvalues =>
    rw [partText, exists_part_of_capture hall hat hvalues]
    rfl
  | textless hat hvalues hlacks =>
    have htext := hlacks.firstText_eq
    rw [partText, exists_part_of_capture hall hat hvalues]
    cases hlacks with
    | fault => rfl
    | textless =>
      simp only [bind, Except.bind] at htext ⊢
      rw [htext]

theorem shows_or_lacks (hall : List.Forall₂ r.StandsFor items parts) (n : Nat) :
    (∃ text, r.Shows items n text) ∨ ∃ fault, r.Lacks items n fault := by
  cases hat : items[n]? with
  | none => exact .inr ⟨_, .missing (List.getElem?_eq_none_iff.1 hat)⟩
  | some piece =>
    obtain ⟨values, -, hstands⟩ := exists_part hall hat
    cases hstands with
    | text => exact .inl ⟨_, .text hat⟩
    | capture hvalues =>
      rcases hasText_or_lacksText values with ⟨text, htext⟩ | rfl | ⟨fault, hlacks⟩
      · exact .inl ⟨text, .capture hat hvalues htext⟩
      · exact .inr ⟨_, .valueless hat hvalues⟩
      · exact .inr ⟨fault, .textless hat hvalues hlacks⟩

/-- **A template is its format with the pieces of its capture, up to the first that has no text.** -/
theorem Encloses.template_iff (h : r.Encloses cursor start stop nested next)
    (hv : Visible r cursor bindings) (format : Bytes) :
    ∃ items, Entry.Items r.entries cursor items next ∧
      (∀ result,
        (r.reading bindings (.node (.template format) start stop nested)).values = .ok result ↔
          ∃ text, Fills (r.Shows items) format.toList text ∧ result = [.str text]) ∧
      ∀ fault,
        (r.reading bindings (.node (.template format) start stop nested)).values = .error fault ↔
          Fails (r.Shows items) (r.Lacks items) format.toList fault := by
  obtain ⟨items, hitems, hall⟩ := h.exists_items hv
  exact ⟨items, hitems, template_values_iff (shows_or_lacks hall)
    (fun _ _ hshows => hshows.partText_eq hall) (fun _ _ hlacks => hlacks.partText_eq hall) format
    r.arguments bindings⟩

end Resolver

end PegMachine
