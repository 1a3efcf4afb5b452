import PegMachine.Proofs.Semantics.Readings

/-!
# Captures in a list of entries

* `Names`: the kind and the number by which an entry refers to what its capture stands for.
* `Covers`: captures one after another, with nested spans, take up a part of a list of entries.
* `Covers.after?_eq`, `Covers.stop?_eq`: where a capture ends.
* `Visible`: the named groups before a place of the list.
* `Visible.groupBelow_cases`: **the group that a back reference finds is the latest visible one.**
-/

namespace PegMachine

/-- The kind and the number by which an entry refers to what its capture stands for. -/
inductive Names (program : Program) : CaptureKind → Nat → Content → Prop where
  | position : Names program .position 0 .position
  | const {index : Nat} {value : Value} (h : program.constant? index = some (.value value)) :
      Names program .const index (.const value)
  | argument {n : Nat} : Names program .argument n (.argument n)
  | backref {index : Nat} {name : String} (h : program.constant? index = some (.name name)) :
      Names program .backref index (.backref name)
  | simple : Names program .simple 0 .simple
  | table : Names program .table 0 .table
  | subst : Names program .subst 0 .subst
  | group : Names program .group 0 .group
  | named {index : Nat} {name : String} (h : program.constant? index = some (.name name)) :
      Names program .group index (.named name)
  | fold {index : Nat} {f : FoldFunction} (h : program.constant? index = some (.fold f)) :
      Names program .fold index (.fold f)
  | function {index : Nat} {f : ValueFunction} (h : program.constant? index = some (.function f)) :
      Names program .function index (.function f)
  | query {index : Nat} {table : QueryTable} (h : program.constant? index = some (.query table)) :
      Names program .query index (.query table)
  | template {index : Nat} {format : Bytes}
      (h : program.constant? index = some (.template format)) :
      Names program .template index (.template format)

/-- Whether a capture may have others nested in it. -/
def Content.wraps : Content → Bool
  | .position | .const _ | .argument _ | .backref _ | .dynamic _ => false
  | _ => true

/-- Captures one after another, with spans between `lo` and `hi`, take up the entries from `cursor`
to `next`. -/
inductive Covers (program : Program) (entries : Array Entry) :
    (lo cursor : Nat) → List Capture → (hi next : Nat) → Prop where
  | nil {lo hi cursor : Nat} (hle : lo ≤ hi) : Covers program entries lo cursor [] hi cursor
  | full {lo hi cursor next pos length index : Nat} {kind : CaptureKind} {content : Content}
      {others : List Capture} (hat : entries[cursor]? = some (.full kind index pos length))
      (hlo : lo ≤ pos) (hname : Names program kind index content)
      (hrest : Covers program entries (pos + length) (cursor + 1) others hi next) :
      Covers program entries lo cursor (.node content pos (pos + length) [] :: others) hi next
  | dynamic {lo hi cursor next start stop : Nat} {values : List Value} {others : List Capture}
      (hat : entries[cursor]? = some (.dynamic start stop values)) (hlo : lo ≤ start)
      (hle : start ≤ stop) (hrest : Covers program entries stop (cursor + 1) others hi next) :
      Covers program entries lo cursor (.node (.dynamic values) start stop [] :: others) hi next
  | nest {lo hi cursor last next start stop index : Nat} {kind : CaptureKind} {content : Content}
      {nested others : List Capture} (hat : entries[cursor]? = some (.opened kind index start))
      (hlo : lo ≤ start) (hname : Names program kind index content) (hwraps : content.wraps = true)
      (hnested : Covers program entries start (cursor + 1) nested stop last)
      (hclosed : entries[last]? = some (.closed stop))
      (hrest : Covers program entries stop (last + 1) others hi next) :
      Covers program entries lo cursor (.node content start stop nested :: others) hi next

section

variable {program : Program} {entries : Array Entry} {lo hi cursor next start stop : Nat}
  {captures nested others : List Capture} {capture : Capture} {content : Content}

namespace Covers

theorem le_span (h : Covers program entries lo cursor captures hi next) : lo ≤ hi := by
  induction h with
  | nil hle => exact hle
  | full _ hlo _ _ ih => omega
  | dynamic _ hlo hle _ ih => omega
  | nest _ hlo _ _ _ _ _ ihNested ih => omega

theorem le_next (h : Covers program entries lo cursor captures hi next) : cursor ≤ next := by
  induction h with
  | nil => exact Nat.le_refl _
  | full _ _ _ _ ih => omega
  | dynamic _ _ _ _ ih => omega
  | nest _ _ _ _ _ _ _ ihNested ih => omega

theorem uncons (h : Covers program entries lo cursor (capture :: others) hi next) :
    ∃ mid after, Covers program entries lo cursor [capture] mid after ∧
      Covers program entries mid after others hi next := by
  cases h with
  | full hat hlo hname hrest =>
    exact ⟨_, _, .full hat hlo hname (.nil (Nat.le_refl _)), hrest⟩
  | dynamic hat hlo hle hrest =>
    exact ⟨_, _, .dynamic hat hlo hle (.nil (Nat.le_refl _)), hrest⟩
  | nest hat hlo hname hwraps hnested hclosed hrest =>
    exact ⟨_, _, .nest hat hlo hname hwraps hnested hclosed (.nil (Nat.le_refl _)), hrest⟩

theorem lt_next (h : Covers program entries lo cursor [capture] hi next) : cursor < next := by
  cases h with
  | full _ _ _ hrest | dynamic _ _ _ hrest => exact hrest.le_next
  | nest _ _ _ _ hnested _ hrest =>
    have := hnested.le_next
    have := hrest.le_next
    omega

/-! ## Ends of captures -/

theorem afterClose?_eq (h : Covers program entries lo cursor captures hi next) (depth : Nat) :
    Entry.afterClose? entries (depth + 1) cursor = Entry.afterClose? entries (depth + 1) next := by
  induction h generalizing depth with
  | nil => rfl
  | @full lo hi cursor next pos length index kind content others hat _ _ _ ih =>
    obtain ⟨hlt, hget⟩ := Array.getElem?_eq_some_iff.1 hat
    rw [← ih, Entry.afterClose?, dif_pos hlt, hget]
  | @dynamic lo hi cursor next start stop values others hat _ _ _ ih =>
    obtain ⟨hlt, hget⟩ := Array.getElem?_eq_some_iff.1 hat
    rw [← ih, Entry.afterClose?, dif_pos hlt, hget]
  | @nest lo hi cursor last next start stop index kind content nested others hat _ _ _ _ hclosed _
      ihNested ih =>
    obtain ⟨hlt, hget⟩ := Array.getElem?_eq_some_iff.1 hat
    obtain ⟨hlast, hgetLast⟩ := Array.getElem?_eq_some_iff.1 hclosed
    rw [← ih, Entry.afterClose?, dif_pos hlt, hget]
    simp only
    rw [ihNested (depth + 1), Entry.afterClose?, dif_pos hlast, hgetLast]
    simp

theorem after?_eq (h : Covers program entries lo cursor [.node content start stop nested] hi next) :
    Entry.after? entries cursor = some next := by
  cases h with
  | full hat _ _ hrest | dynamic hat _ _ hrest =>
    cases hrest
    rw [Entry.after?, hat]
  | nest hat _ _ _ hnested hclosed hrest =>
    cases hrest
    obtain ⟨hlt, hget⟩ := Array.getElem?_eq_some_iff.1 hat
    obtain ⟨hlast, hgetLast⟩ := Array.getElem?_eq_some_iff.1 hclosed
    rw [Entry.after?, hat]
    simp only
    rw [Entry.afterClose?, dif_pos hlt, hget]
    simp only
    rw [hnested.afterClose?_eq 0, Entry.afterClose?, dif_pos hlast, hgetLast]
    rfl

theorem stop?_eq (h : Covers program entries lo cursor [.node content start stop nested] hi next) :
    Entry.stop? entries cursor = some stop := by
  have hafter := h.after?_eq
  cases h with
  | full hat | dynamic hat => rw [Entry.stop?, hat]
  | nest hat _ _ _ _ hclosed hrest =>
    cases hrest
    rw [Entry.after?, hat] at hafter
    simp only at hafter
    rw [Entry.stop?, hat]
    simp only
    rw [hafter]
    simp [hclosed, Entry.start]

theorem start_eq
    (h : Covers program entries lo cursor [.node content start stop nested] hi next) :
    (∃ entry, entries[cursor]? = some entry ∧ entry.start = start) ∧
      lo ≤ start ∧ start ≤ stop ∧ stop ≤ hi := by
  cases h with
  | full hat hlo _ hrest => exact ⟨⟨_, hat, rfl⟩, hlo, Nat.le_add_right _ _, hrest.le_span⟩
  | dynamic hat hlo hle hrest => exact ⟨⟨_, hat, rfl⟩, hlo, hle, hrest.le_span⟩
  | nest hat hlo _ _ hnested _ hrest => exact ⟨⟨_, hat, rfl⟩, hlo, hnested.le_span, hrest.le_span⟩

end Covers

/-! ## Groups -/

theorem groupBelow_skip {name : String} {entry : Entry} (hat : entries[cursor]? = some entry)
    (hne : (∃ kind index pos length, entry = .full kind index pos length) ∨
      ∃ start stop values, entry = .dynamic start stop values) (depth : Nat) :
    Entry.groupBelow program name entries (depth + 1) (cursor + 1) =
      Entry.groupBelow program name entries (depth + 1) cursor := by
  rcases hne with ⟨kind, index, pos, length, rfl⟩ | ⟨start, stop, values, rfl⟩
  · simp [Entry.groupBelow, hat]
  · simp [Entry.groupBelow, hat]

/-- Looking for a group, what is nested in a closed capture is passed over. -/
theorem Covers.groupBelow_eq (h : Covers program entries lo cursor captures hi next) (name : String)
    (depth : Nat) : Entry.groupBelow program name entries (depth + 1) next =
      Entry.groupBelow program name entries (depth + 1) cursor := by
  induction h generalizing depth with
  | nil => rfl
  | full hat _ _ _ ih => exact (ih depth).trans (groupBelow_skip hat (.inl ⟨_, _, _, _, rfl⟩) depth)
  | dynamic hat _ _ _ ih => exact (ih depth).trans (groupBelow_skip hat (.inr ⟨_, _, _, rfl⟩) depth)
  | nest hat _ _ _ _ hclosed _ ihNested ih =>
    rw [ih depth, Entry.groupBelow, hclosed]
    simp only
    rw [ihNested (depth + 1), Entry.groupBelow, hat]

/-- Whether a capture is a group of a name. -/
def Content.isNamed (name : String) : Content → Bool
  | .named other => other == name
  | _ => false

theorem Names.isGroup_eq {kind : CaptureKind} {index pos : Nat} {name : String}
    (h : Names program kind index content) :
    Entry.isGroup program name (.opened kind index pos) = content.isNamed name ∧
      ∀ length, Entry.isGroup program name (.full kind index pos length) =
        content.isNamed name := by
  cases h with
  | named h => simp [Entry.isGroup, Content.isNamed, h]
  | group => simp [Entry.isGroup, Content.isNamed, Program.constant?]
  | _ => simp [Entry.isGroup, Content.isNamed]

theorem Covers.groupBelow_one
    (h : Covers program entries lo cursor [.node content start stop nested] hi next)
    (name : String) :
    Entry.groupBelow program name entries 0 next =
      if content.isNamed name then .ok cursor
      else Entry.groupBelow program name entries 0 cursor := by
  cases h with
  | full hat _ hname hrest =>
    cases hrest
    rw [Entry.groupBelow, hat]
    simp only
    rw [hname.isGroup_eq.2 _]
    simp
  | dynamic hat _ _ hrest =>
    cases hrest
    rw [Entry.groupBelow, hat]
    simp [Entry.isGroup, Content.isNamed]
  | nest hat _ hname _ hnested hclosed hrest =>
    cases hrest
    rw [Entry.groupBelow, hclosed]
    simp only
    rw [hnested.groupBelow_eq name 0, Entry.groupBelow, hat]
    simp only
    rw [hname.isGroup_eq.1]

end

/-! ## Visible groups -/

/-- The named groups before a place of the list, those nested in closed captures apart. Captures
that are still open there do not count. -/
inductive Visible (r : Resolver) : (cursor : Nat) → Bindings → Prop where
  | start : Visible r 0 []
  | opened {cursor index pos : Nat} {kind : CaptureKind} {bindings : Bindings}
      (h : Visible r cursor bindings) (hat : r.entries[cursor]? = some (.opened kind index pos)) :
      Visible r (cursor + 1) bindings
  | capture {lo hi cursor next : Nat} {capture : Capture} {bindings : Bindings}
      (h : Visible r cursor bindings)
      (hcapture : Covers r.program r.entries lo cursor [capture] hi next)
      (hhi : hi ≤ r.subject.size) :
      Visible r next ((capture.read r.subject r.arguments bindings).bindings ++ bindings)

/-- **The group that a back reference finds is the latest visible one.** -/
theorem Visible.groupBelow_cases {r : Resolver} {cursor : Nat} {bindings : Bindings}
    (h : Visible r cursor bindings) (name : String) :
    (bindings.lookup name = none ∧
      Entry.groupBelow r.program name r.entries 0 cursor = .error (.backReference name)) ∨
    ∃ lo hi group next start stop nested earlier, next ≤ cursor ∧ hi ≤ r.subject.size ∧
      Entry.groupBelow r.program name r.entries 0 cursor = .ok group ∧
      Visible r group earlier ∧
      Covers r.program r.entries lo group [.node (.named name) start stop nested] hi next ∧
      bindings.lookup name = some (nestedOr (r.subject.extract start stop)
        (readAll r.subject r.arguments earlier nested)) := by
  induction h with
  | start => exact .inl ⟨rfl, rfl⟩
  | @opened cursor index pos kind bindings h hat ih =>
    -- the search passes by the start of a capture that it is in
    have hskip : Entry.groupBelow r.program name r.entries 0 (cursor + 1) =
        Entry.groupBelow r.program name r.entries 0 cursor := by
      rw [Entry.groupBelow, hat]
    rw [hskip]
    rcases ih with hnone | ⟨lo, hi, group, next, start, stop, nested, earlier, hle, hfound⟩
    · exact .inl hnone
    · exact .inr ⟨lo, hi, group, next, start, stop, nested, earlier, Nat.le_succ_of_le hle, hfound⟩
  | @capture lo hi cursor next capture bindings h hcapture hhi ih =>
    obtain ⟨content, start, stop, nested⟩ := capture
    rw [hcapture.groupBelow_one]
    by_cases hnamed : content.isNamed name
    · obtain ⟨rfl⟩ : content = .named name := by
        cases content <;> simp [Content.isNamed] at hnamed
        rw [hnamed]
      refine .inr ⟨lo, hi, cursor, next, start, stop, nested, bindings, Nat.le_refl _, hhi, ?_, h,
        hcapture, ?_⟩
      · rw [if_pos hnamed]
      · simp [Capture.read, Content.reading]
    · have hlookup : ((Capture.node content start stop nested).read r.subject r.arguments
          bindings).bindings.lookup name = none := by
        cases content with
        | named other =>
          have hne : name ≠ other := fun heq => hnamed (by simp [Content.isNamed, heq])
          simp [Capture.read, Content.reading, List.lookup_cons, beq_eq_false_iff_ne.2 hne]
        | _ => simp [Capture.read, Content.reading]
      rw [if_neg hnamed, List.lookup_append, hlookup, Option.none_or]
      have hle := hcapture.le_next
      rcases ih with hnone | ⟨lo', hi', group, next', start', stop', nested', earlier, hle', hfound⟩
      · exact .inl hnone
      · exact .inr ⟨lo', hi', group, next', start', stop', nested', earlier,
          Nat.le_trans hle' hle, hfound⟩

end PegMachine
