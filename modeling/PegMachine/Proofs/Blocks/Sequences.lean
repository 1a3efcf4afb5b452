import PegMachine.Proofs.Blocks.Choices

/-!
# Sequences and skips

* `Block.runs_append`: a block behind another one.
* `Block.runs_any`: the code that skips bytes or refuses to.
* `Block.runs_sequence`: **what the code of a sequence answers**, also where skips are merged.
-/

namespace PegMachine

/-- The answer of a sequence, from that of its first part and, where the first part matches, that of
the second one from there. -/
def Answer.andThen : Answer → Answer → Answer
  | .matched _ _, second => second
  | first, _ => first

/-- The position behind `n` bytes or, for a negative `n`, the same position if fewer than `-n` bytes
are left. -/
def Setting.afterAny (m : Setting) (n : Int) (pos : Nat) : Option Nat :=
  if 0 ≤ n then
    if pos + n.natAbs ≤ m.subject.size then some (pos + n.natAbs) else none
  else
    if pos + n.natAbs ≤ m.subject.size then none else some pos

namespace Block

variable {m : Setting} {answers : Answers} {room pos : Nat} {captures : Array Entry}
  {code a b : Block} {ra rb : Answer}

theorem runs_append (ha : Runs m answers room a pos captures ra)
    (hb : ∀ pos' captures', ra = .matched pos' captures' → Runs m answers room b pos' captures' rb)
    (hcontA : Contained a) (hcontB : Contained b) :
    Runs m answers room (a ++ b) pos captures (ra.andThen rb) := by
  refine ha.within ⟨[], b, by simp, rfl⟩ hcontA (Nat.le_refl _) (.refl _) (levelsBelow_nil _)
    (Nat.le_refl _) ?_
  cases ra with
  | matched pos' captures' =>
    obtain ⟨hge, -, hext⟩ := Run.matched_sound ha
    refine (hb pos' captures' rfl).at_end (n := 0 + a.length) ⟨a, [], by simp, by simp⟩ (by simp)
      hcontB hge hext (Nat.le_refl _)
  | failed | crashed => rfl

/-- Where a block does not match, it does not matter what stands behind it. -/
theorem runs_append_of_unmatched (ha : Runs m answers room a pos captures ra)
    (hra : ∀ pos' captures', ra ≠ .matched pos' captures') (hcontA : Contained a)
    (hcontB : Contained b) : Runs m answers room (a ++ b) pos captures ra := by
  have h : Runs m answers room (a ++ b) pos captures (ra.andThen ra) :=
    runs_append ha (fun _ _ he => absurd he (hra _ _)) hcontA hcontB
  cases ra with
  | matched | failed | crashed => exact h

/-! ## Skips -/

theorem any_cases {n : Int} (h : any n = .ok code) :
    (0 ≤ n ∧ code = skip n.natAbs) ∨
      n < 0 ∧ (code = [.any n.natAbs 2, .fail] ∨
        maxSkip < n.natAbs ∧ difference [] (skip n.natAbs) = .ok code) := by
  rw [any, checkedOffset_bind] at h
  obtain ⟨-, h⟩ := h
  split at h
  · next hn =>
    cases h
    exact .inl ⟨hn, rfl⟩
  · next hn =>
    split at h
    · cases h
      exact .inr ⟨by omega, .inl rfl⟩
    · next hcount => exact .inr ⟨by omega, .inr ⟨by omega, h⟩⟩

theorem contained_skip (n : Nat) : Contained (skip n) :=
  contained_of_checks (all_isCheck_of_isSkip (all_isSkip_skip n))

/-- **The answer of the code that skips bytes or refuses to.** To refuse more bytes than one
instruction skips takes a choice. -/
theorem runs_any {n : Int} (hcode : any n = .ok code) (hpos : pos ≤ m.subject.size)
    (hroom : n < 0 → maxSkip < n.natAbs → 1 ≤ room) :
    Runs m answers room code pos captures (.ofPos captures (m.afterAny n pos)) := by
  have hs : Sound m ⟨pos, captures, room⟩ ⟨0, pos, [], captures⟩ := runs_start captures hpos
  rw [Setting.afterAny]
  rcases any_cases hcode with ⟨hn, rfl⟩ | ⟨hn, rfl | ⟨hcount, hdiff⟩⟩
  · rw [if_pos hn]
    exact runs_skip _ hpos
  · rw [if_neg (by omega)]
    have hmove : m.move answers pos captures (.any n.natAbs 2) =
        if pos + n.natAbs ≤ m.subject.size then .advance (pos + n.natAbs) captures
        else .jump 2 := by
      simp [Setting.move, Setting.holds, Move.refuse]
    split
    · next hle =>
      rw [if_pos hle] at hmove
      exact .step_advance rfl hs trivial hmove (.step_fail (i := .fail) rfl
        ⟨Nat.le_add_right _ _, hle, .refl _, levelsBelow_nil _, Nat.zero_le _⟩ trivial rfl .nil)
    · next hgt =>
      rw [if_neg hgt] at hmove
      refine .next rfl hs trivial (by rw [hmove]; rfl) (.exit rfl rfl ?_)
      exact ⟨Nat.le_refl _, hpos, .refl _, levelsBelow_nil _, Nat.zero_le _⟩
  · rw [if_neg (by omega)]
    have hskip : Runs m answers 0 (skip n.natAbs) pos captures _ := runs_skip n.natAbs hpos
    have hnil : Runs m answers room [] pos captures _ := runs_nil hpos
    have hrun := runs_difference hdiff (hroom hn hcount) hskip (fun _ => hnil) contained_nil
      (contained_skip _)
    by_cases hle : pos + n.natAbs ≤ m.subject.size
    · rw [if_pos hle] at hrun ⊢
      exact hrun
    · rw [if_neg hle] at hrun ⊢
      exact hrun

theorem contained_any {n : Int} (hcode : any n = .ok code) : Contained code := by
  rcases any_cases hcode with ⟨-, rfl⟩ | ⟨-, rfl | ⟨-, hdiff⟩⟩
  · exact contained_skip _
  · refine jumpsWithin_cons.2 ⟨fun off hoff => ?_, jumpsWithin_cons.2 ⟨nofun, jumpsWithin_nil⟩⟩
    cases hoff
    simp
  · exact contained_difference hdiff contained_nil (contained_skip _)

/-! ## Sequences -/

/-- The forms of the code of a sequence. -/
inductive SequenceForm (a b : Block) : Block → Prop where
  | first (h : a = [.fail] ∨ b = []) : SequenceForm a b a
  | second (h : b = [.fail] ∨ a = []) : SequenceForm a b b
  | skips (ha : a.all Instr.isSkip = true) (hb : b.all Instr.isSkip = true) :
      SequenceForm a b (skip (width a + width b))
  | append : SequenceForm a b (a ++ b)

theorem anyLength?_eq_some {n : Nat} (h : anyLength? code = some n) :
    code.all Instr.isSkip = true ∧ width code = n := by
  unfold anyLength? at h
  split at h
  · next hskip => exact ⟨hskip, Option.some.inj h⟩
  · cases h

theorem sequence_form (h : sequence a b = .ok code) : SequenceForm a b code := by
  unfold sequence at h
  split at h
  · next hab =>
    cases h
    rw [Bool.or_eq_true, isFail_iff, isEmpty_iff] at hab
    exact .first hab
  · split at h
    · next hab =>
      cases h
      rw [Bool.or_eq_true, isFail_iff, isEmpty_iff] at hab
      exact .second hab
    · split at h
      · next x y hx hy =>
        obtain ⟨ha, rfl⟩ := anyLength?_eq_some hx
        obtain ⟨hb, rfl⟩ := anyLength?_eq_some hy
        rcases any_cases h with ⟨-, rfl⟩ | ⟨hneg, -⟩
        · exact .skips ha hb
        · omega
      · cases h
        exact .append

/-- **The answer of a sequence.** Where the second part is the failing instruction alone the first
one is left out, so that its fault does not show. -/
theorem runs_sequence (hcode : sequence a b = .ok code) (ha : Runs m answers room a pos captures ra)
    (hb : ∀ pos' captures', ra = .matched pos' captures' → Runs m answers room b pos' captures' rb)
    (hcontA : Contained a) (hcontB : Contained b) :
    Runs m answers room code pos captures (ra.andThen rb) ∨
      Runs m answers room code pos captures .failed ∧ ∃ fault, ra = .crashed fault := by
  have hpos := ha.pos_le
  cases sequence_form hcode with
  | first h =>
    left
    rcases h with rfl | rfl
    · have hfailed := ha.eq_failed_fail
      subst hfailed
      exact ha
    · cases ra with
      | matched pos' captures' =>
        have hmatched := (hb pos' captures' rfl).eq_matched_nil
        subst hmatched
        exact ha
      | failed | crashed => exact ha
  | second h =>
    rcases h with rfl | rfl
    · cases ra with
      | matched pos' captures' =>
        have hfailed := (hb pos' captures' rfl).eq_failed_fail
        subst hfailed
        exact .inl (runs_fail hpos)
      | failed => exact .inl (runs_fail hpos)
      | crashed fault => exact .inr ⟨runs_fail hpos, fault, rfl⟩
    · have hmatched := ha.eq_matched_nil
      subst hmatched
      exact .inl (hb pos captures rfl)
  | skips hskipA hskipB =>
    left
    have hrun : Runs m answers room (skip (width a + width b)) pos
      captures _ := runs_skip _ hpos
    have hra := Run.unique ha (runs_checks (all_isCheck_of_isSkip hskipA) hpos)
    rw [afterChecks_skips hskipA hpos] at hra
    split at hra
    · next hle =>
      subst hra
      have hrb := Run.unique (hb _ _ rfl) (runs_checks (all_isCheck_of_isSkip hskipB) hle)
      rw [afterChecks_skips hskipB hle] at hrb
      subst hrb
      simpa [Answer.andThen, Answer.ofPos, Nat.add_assoc] using hrun
    · next hgt =>
      subst hra
      rw [if_neg (by omega)] at hrun
      exact hrun
  | append => exact .inl (runs_append ha hb hcontA hcontB)

theorem contained_sequence (hcode : sequence a b = .ok code) (hcontA : Contained a)
    (hcontB : Contained b) : Contained code := by
  cases sequence_form hcode with
  | first => exact hcontA
  | second => exact hcontB
  | skips => exact contained_skip _
  | append => exact contained_append hcontA hcontB

end Block

end PegMachine
