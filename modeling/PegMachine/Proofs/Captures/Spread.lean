import PegMachine.Proofs.Captures.Evaluated
import PegMachine.Proofs.Captures.Segments

/-!
# Captures without nested ones

A capture that has no others nested in it takes up one entry, or two like any other capture.

* `Spread`: some of the captures that take up one entry take up two.
* `Spells.spread`: the entries are still those of the same captures.
* `Resolver.resolve_spread`: **they resolve to the same values, or the same fault.**
-/

namespace PegMachine

/-- Whether captures of a kind may have others nested in them once they have been resolved. -/
def CaptureKind.wraps : CaptureKind → Bool
  | .simple | .table | .group | .function | .query | .template | .subst | .fold => true
  | .position | .const | .backref | .argument | .matchTime => false

theorem Names.wraps_eq {program : Program} {kind : CaptureKind} {index : Nat} {content : Content}
    (h : Names program kind index content) : content.wraps = kind.wraps := by
  cases h <;> rfl

/-- The second list has two entries, a start and an end right behind it, for some of the captures
that have a single one in the first. -/
inductive Spread : List Entry → List Entry → Prop where
  | nil : Spread [] []
  | keep {entry : Entry} {entries list : List Entry} (h : Spread entries list) :
      Spread (entry :: entries) (entry :: list)
  | split {kind : CaptureKind} {index pos length : Nat} {entries list : List Entry}
      (hkind : kind.wraps = true) (h : Spread entries list) :
      Spread (.full kind index pos length :: entries)
        (.opened kind index pos :: .closed (pos + length) :: list)

section

variable {program : Program} {lo hi : Nat} {captures : List Capture}
  {entries more list : List Entry}

theorem Spread.exists_append (h : Spread (entries ++ more) list) :
    ∃ front behind, list = front ++ behind ∧ Spread entries front ∧ Spread more behind := by
  induction entries generalizing list with
  | nil => exact ⟨[], list, rfl, .nil, h⟩
  | cons entry entries ih =>
    cases h with
    | keep h =>
      obtain ⟨front, behind, rfl, hfront, hbehind⟩ := ih h
      exact ⟨entry :: front, behind, rfl, .keep hfront, hbehind⟩
    | split hkind h =>
      obtain ⟨front, behind, rfl, hfront, hbehind⟩ := ih h
      exact ⟨_ :: _ :: front, behind, rfl, .split hkind hfront, hbehind⟩

/-- Spread entries are those of the same captures. -/
theorem Spells.spread (h : Spells program lo captures hi entries) (hspread : Spread entries list) :
    Spells program lo captures hi list := by
  induction h generalizing list with
  | nil hle =>
    cases hspread
    exact .nil hle
  | full hlo hname _ ih =>
    cases hspread with
    | keep hrest => exact .full hlo hname (ih hrest)
    | split hkind hrest =>
      have hwraps := hname.wraps_eq.trans hkind
      exact .nest hlo hname hwraps (.nil (Nat.le_add_right _ _)) (ih hrest)
  | dynamic hlo hle _ ih =>
    cases hspread with
    | keep hrest => exact .dynamic hlo hle (ih hrest)
  | nest hlo hname hwraps _ _ ihNested ih =>
    cases hspread with
    | keep h =>
      obtain ⟨inner, behind, rfl, hinner, hbehind⟩ := h.exists_append
      cases hbehind with
      | keep hrest => exact .nest hlo hname hwraps (ihNested hinner) (ih hrest)

end

namespace Resolver

/-- The list is one that a match can record: captures one after another and nested in one another,
with spans in the subject and with the constants that their kinds ask for. -/
def Recorded (r : Resolver) : Prop :=
  ∃ lo captures hi, Spells r.program lo captures hi r.entries.toList ∧ hi ≤ r.subject.size

/-- **Whether a capture without nested ones takes up one entry or two cannot be told from the
values.** -/
theorem resolve_spread {r : Resolver} {list : Array Entry} (h : r.Recorded)
    (hspread : Spread r.entries.toList list.toList) :
    { r with entries := list }.resolve = r.resolve := by
  obtain ⟨lo, captures, hi, hspells, hhi⟩ := h
  have hlist : Holds { r with entries := list } lo 0 captures hi list.size :=
    ⟨(hspells.spread hspread).covers_all, hhi⟩
  have hentries : r.Holds lo 0 captures hi r.entries.size := ⟨hspells.covers_all, hhi⟩
  exact (resolve_eq hlist).trans (resolve_eq hentries).symm

/-- A list of a byte, by way of a named group before it, and of the byte behind that one. -/
def echoing : Resolver where
  program := { code := #[], constants := #[.name "k"] }
  subject := #[97, 98]
  arguments := []
  entries := #[.opened .table 0 0, .full .group 1 0 1, .full .simple 0 1 1, .full .backref 1 2 0,
    .closed 2]

/-- The same list with two entries for the group and for the byte. -/
def echoingSpread : Array Entry :=
  #[.opened .table 0 0, .opened .group 1 0, .closed 1, .opened .simple 0 1, .closed 2,
    .full .backref 1 2 0, .closed 2]

theorem echoing_resolve_spread :
    echoing.Recorded ∧ Spread echoing.entries.toList echoingSpread.toList ∧
      { echoing with entries := echoingSpread }.resolve = echoing.resolve := by
  have hinner : Spells echoing.program 0
      [.node (.named "k") 0 (0 + 1) [], .node .simple 1 (1 + 1) [],
        .node (.backref "k") 2 (2 + 0) []] 2
      [.full .group 1 0 1, .full .simple 0 1 1, .full .backref 1 2 0] :=
    .full (by decide) (.named rfl) (.full (by decide) .simple (.full (by decide) (.backref rfl)
      (.nil (by decide))))
  have hrecorded : echoing.Recorded :=
    ⟨0, _, 2, .nest (Nat.le_refl 0) .table rfl hinner (.nil (Nat.le_refl 2)), by decide⟩
  have hspread : Spread echoing.entries.toList echoingSpread.toList :=
    .keep (.split rfl (.split rfl (.keep (.keep .nil))))
  exact ⟨hrecorded, hspread, resolve_spread hrecorded hspread⟩

end Resolver

end PegMachine
