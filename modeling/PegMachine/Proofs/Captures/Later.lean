import PegMachine.Proofs.Captures.Spread
import PegMachine.Proofs.Semantics.Later

/-!
# Captures behind a prefix

* `Entry.later`: an entry that has moved along with the subject.
* `Entry.PlaceFree`: the entries that do not stand for a position.
* `Spells.exists_later`: entries that have moved are those of captures that amount to the same.
* `Resolver.resolve_later`: **behind a prefix captures resolve to the same values, or the same
  fault.**
-/

namespace PegMachine

namespace Entry

/-- An entry that has moved by `k` bytes. -/
def later (k : Nat) : Entry → Entry
  | .opened kind index pos => .opened kind index (pos + k)
  | .full kind index pos length => .full kind index (pos + k) length
  | .closed pos => .closed (pos + k)
  | .dynamic start stop values => .dynamic (start + k) (stop + k) values

/-- An entry that is not that of a position. -/
def PlaceFree (entry : Entry) : Prop := entry.kind? ≠ some .position

theorem placeFree_closed (pos : Nat) : (closed pos).PlaceFree := by
  simp [PlaceFree, kind?]

end Entry

theorem Names.ne_position {program : Program} {kind : CaptureKind} {index : Nat}
    {content : Content} (h : Names program kind index content) (hkind : kind ≠ .position) :
    content ≠ .position := by
  rintro rfl
  cases h
  exact hkind rfl

theorem Spells.exists_later {program : Program} {lo hi : Nat} {captures : List Capture}
    {entries : List Entry} (h : Spells program lo captures hi entries) (u subject : Bytes)
    (arguments : List Value) (hplace : ∀ entry ∈ entries, entry.PlaceFree) :
    ∃ moved, Spells program (lo + u.size) moved (hi + u.size) (entries.map (Entry.later u.size)) ∧
      ∀ bindings, readAll (u ++ subject) arguments bindings moved =
        (readAll subject arguments bindings captures).map (Reading.later u.size) := by
  induction h with
  | nil hle => exact ⟨[], .nil (Nat.add_le_add_right hle _), fun _ => rfl⟩
  | @full lo hi pos length index kind content others entries hlo hname _ ih =>
    obtain ⟨hentry, hrest⟩ := List.forall_mem_cons.1 hplace
    obtain ⟨moved, hspells, hread⟩ := ih hrest
    have hcontent : content ≠ .position :=
      hname.ne_position fun hkind => hentry (congrArg some hkind)
    rw [Nat.add_right_comm] at hspells
    refine ⟨_, .full (Nat.add_le_add_right hlo _) hname hspells, fun bindings => ?_⟩
    have hreading := @Content.reading_later subject arguments bindings content pos (pos + length) []
      u hcontent
    rw [Nat.add_right_comm, List.map_nil] at hreading
    simp only [readAll, Capture.read, hreading, List.map_cons]
    rw [← hread]
    rfl
  | @dynamic lo hi start stop values others entries hlo hle _ ih =>
    obtain ⟨moved, hspells, hread⟩ := ih (List.forall_mem_cons.1 hplace).2
    refine ⟨_, .dynamic (Nat.add_le_add_right hlo _) (Nat.add_le_add_right hle _) hspells,
      fun bindings => ?_⟩
    have hreading := @Content.reading_later subject arguments bindings (.dynamic values) start stop
      [] u (by simp)
    rw [List.map_nil] at hreading
    simp only [readAll, Capture.read, hreading, List.map_cons]
    rw [← hread]
    rfl
  | @nest lo hi start stop index kind content nested others inner entries hlo hname hwraps _ _
      ihNested ih =>
    obtain ⟨hentry, hall⟩ := List.forall_mem_cons.1 hplace
    obtain ⟨hinner, hbehind⟩ := List.forall_mem_append.1 hall
    obtain ⟨movedNested, hspellsNested, hreadNested⟩ := ihNested hinner
    obtain ⟨moved, hspells, hread⟩ := ih (List.forall_mem_cons.1 hbehind).2
    have hcontent : content ≠ .position :=
      hname.ne_position fun hkind => hentry (congrArg some hkind)
    refine ⟨.node content (start + u.size) (stop + u.size) movedNested :: moved, ?_,
      fun bindings => ?_⟩
    · rw [List.map_cons, List.map_append, List.map_cons]
      exact .nest (Nat.add_le_add_right hlo _) hname hwraps hspellsNested hspells
    · simp only [readAll, Capture.read, hreadNested, Content.reading_later u hcontent,
        List.map_cons]
      rw [← hread]
      rfl

/-- **Behind a prefix captures resolve to the same values, or the same fault**, unless one of them
stands for its position. -/
theorem Resolver.resolve_later {r : Resolver} (h : r.Recorded)
    (hplace : ∀ entry ∈ r.entries, entry.PlaceFree) (u : Bytes) :
    Resolver.resolve { r with
      subject := u ++ r.subject, entries := r.entries.map (Entry.later u.size) } = r.resolve := by
  obtain ⟨lo, captures, hi, hspells, hhi⟩ := h
  obtain ⟨moved, hmoved, hread⟩ := hspells.exists_later u r.subject r.arguments
    fun entry hmem => hplace entry (Array.mem_toList_iff.1 hmem)
  rw [← Array.toList_map] at hmoved
  have hlater : Holds { r with
      subject := u ++ r.subject, entries := r.entries.map (Entry.later u.size) } (lo + u.size) 0
      moved (hi + u.size) (r.entries.map (Entry.later u.size)).size := by
    refine ⟨hmoved.covers_all, ?_⟩
    rw [Array.size_append]
    omega
  have hentries : r.Holds lo 0 captures hi r.entries.size := ⟨hspells.covers_all, hhi⟩
  rw [resolve_eq hlater, resolve_eq hentries, evaluate, evaluate, hread, nestedValues_later]

end PegMachine
