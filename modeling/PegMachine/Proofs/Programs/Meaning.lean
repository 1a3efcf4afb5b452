import PegMachine.Proofs.Programs.Ends

/-!
# The meaning of compiled patterns

* `Setting.MatchesTo`: a run comes to the end of a match at a position.
* `Setting.matches_iff_derives`: **a compiled pattern matches as the pattern does.**
* `Setting.captures_of_match`: **what is recorded at the end of a match are the captures of the
  pattern, from left to right.**
-/

namespace PegMachine

variable {m : Setting} {p : Pattern} {start : Nat} {r : Answer}

/-! ## Answers -/

section

variable {rules : Rules} {pos stop : Nat} {captures : Array Entry}

theorem Answer.Agrees.matched
    (h : (Answer.matched stop captures).Agrees m (p.matchTimeFree = true) rules p pos)
    (hfree : p.matchTimeFree = true) :
    ∃ forest, Derives m.subject rules p pos (some (stop, forest)) ∧
      Serialises m.program captures.toList forest :=
  h hfree

theorem Answer.Agrees.eq_matched {forest : List Tree}
    (h : r.Agrees m (p.matchTimeFree = true) rules p pos) (hfree : p.matchTimeFree = true)
    (hder : Derives m.subject rules p pos (some (stop, forest))) :
    ∃ captures, r = .matched stop captures := by
  cases r with
  | matched stop' captures =>
    obtain ⟨forest', hder', -⟩ := h.matched hfree
    cases hder.unique hder'
    exact ⟨captures, rfl⟩
  | failed => cases hder.unique (h hfree)
  | crashed fault => exact absurd hfree h

theorem Answer.Agrees.eq_failed
    (h : r.Agrees m (p.matchTimeFree = true) rules p pos) (hfree : p.matchTimeFree = true)
    (hder : Derives m.subject rules p pos none) : r = .failed := by
  cases r with
  | matched stop captures =>
    obtain ⟨forest, hder', -⟩ := h.matched hfree
    cases hder.unique hder'
  | failed => rfl
  | crashed fault => exact absurd hfree h

end

namespace Setting

variable {block code : Block} {stop : Nat} {captures : Array Entry}

/-! ## Matches -/

/-- A run comes to the end of a match at a position. -/
def MatchesTo (m : Setting) (start stop : Nat) : Prop :=
  ∃ s owners, m.Reaches start s owners ∧ m.program.code[s.address]? = some .done ∧ s.pos = stop

theorem matchesTo_of_run (h : p.Compiled m.program block code)
    (hrun : m.ComesTo block code start ⟨0, start, [], #[]⟩ (.matched stop captures))
    (hfull : ¬ m.Ends start (.faulted .stackOverflow)) : m.MatchesTo start stop := by
  obtain ⟨s, owners, hs, hconcludes⟩ := exists_concludes h hrun .start
  cases hconcludes with
  | full hover => exact absurd (hs.ends_of_overflows hover) hfull
  | matched hdone => exact ⟨s, owners, hs, hdone, rfl⟩

theorem ends_unmatched_of_run (h : p.Compiled m.program block code)
    (hrun : m.ComesTo block code start ⟨0, start, [], #[]⟩ .failed)
    (hfull : ¬ m.Ends start (.faulted .stackOverflow)) : m.Ends start .unmatched := by
  obtain ⟨s, owners, hs, hconcludes⟩ := exists_concludes h hrun .start
  cases hconcludes with
  | full hover => exact absurd (hs.ends_of_overflows hover) hfull
  | failed => exact hs.ends (step_gaveUp h) nofun

/-- **A compiled pattern matches as the pattern does.** Where the stack does not get full, a run
comes to the end of a match at exactly the position at which the pattern ends, and it ends without a
match exactly where the pattern fails. -/
theorem matches_iff_derives (hp : p.compile = .ok m.program) (hfree : p.matchTimeFree = true)
    (hstart : start ≤ m.subject.size) (hfull : ¬ m.Ends start (.faulted .stackOverflow)) :
    (∀ stop, m.MatchesTo start stop ↔
      ∃ forest, Derives m.subject [] p start (some (stop, forest))) ∧
    (m.Ends start .unmatched ↔ Derives m.subject [] p start none) := by
  obtain ⟨block, code, hcompiled⟩ := p.compiled_exists hp
  obtain ⟨r, hrun, hagrees⟩ := hcompiled.runs hstart
  refine ⟨fun stop => ⟨?_, ?_⟩, ?_, ?_⟩
  · rintro ⟨s, owners, hs, hdone, rfl⟩
    have hr : r = .matched s.pos s.captures := (hs.tracked hcompiled hrun).eq_matched hcompiled hdone
    subst hr
    obtain ⟨forest, hforest, -⟩ := hagrees.matched hfree
    exact ⟨forest, hforest⟩
  · rintro ⟨forest, hforest⟩
    obtain ⟨captures, rfl⟩ := hagrees.eq_matched hfree hforest
    exact matchesTo_of_run hcompiled hrun hfull
  · intro hends
    cases hends.leadsTo hcompiled hrun
    exact hagrees hfree
  · intro hfails
    obtain rfl := hagrees.eq_failed hfree hfails
    exact ends_unmatched_of_run hcompiled hrun hfull

end Setting

/-- Nothing, or brackets around the same again. -/
def bracketsRule : Pattern :=
  .choice (.seq (.literal #[40]) (.seq (.capture .simple (.rule (.index 0))) (.literal #[41])))
    .succeed

/-- Nested brackets, with the inside of each captured. -/
def brackets : Pattern := .grammar (.index 0) [(.index 0, bracketsRule)]

/-- The program of nested brackets. -/
def bracketsProgram : Program where
  code := #[.call 2, .jump 9, .char 40 7, .choice 6 1, .openCapture .simple 0 0, .call (-3),
    .closeCapture, .char 41 0, .commit 1, .ret, .done, .giveUp]
  constants := #[]

theorem compile_brackets : brackets.compile = .ok bracketsProgram := rfl

theorem brackets_match : (⟨bracketsProgram, ⟨none⟩, #[40, 41], []⟩ : Setting).MatchesTo 0 2 := by
  have hopening : Derives #[40, 41] [(.index 0, bracketsRule)] (.literal #[40]) 0 (some (1, [])) :=
    .literal (by decide)
  have hclosing : Derives #[40, 41] [(.index 0, bracketsRule)] (.literal #[41]) 1 (some (2, [])) :=
    .literal (by decide)
  have hinner : Derives #[40, 41] [(.index 0, bracketsRule)] (.rule (.index 0)) 1 (some (1, [])) :=
    .rule rfl (.choiceSecond (.seqFail (.literalFail (by decide))) .succeed)
  have hsimple : Wrapping.simple.kind ≠ .matchTime := nofun
  have hbody := Derives.choiceFirst (b := .succeed)
    (hopening.seq ((hinner.capture hsimple).seq hclosing))
  have hfull := Setting.not_ends_overflow (m := ⟨bracketsProgram, ⟨none⟩, #[40, 41], []⟩)
    compile_brackets (Nat.zero_le _) rfl
  exact ((Setting.matches_iff_derives compile_brackets rfl (Nat.zero_le _) hfull).1 2).2
    ⟨_, .grammar rfl hbody⟩

/-! ## Captures -/

namespace Setting

/-- **What is recorded at the end of a match are the captures of the pattern.** The pattern comes out
in one way only, with a match up to the same position, and the entries recorded are the captures of
that match from left to right: one entry for a capture without nested captures, and for any other
its start, the nested ones, and its end. -/
theorem captures_of_match (hp : p.compile = .ok m.program) (hfree : p.matchTimeFree = true)
    {s : State} {owners : List (Option Nat)}
    (hs : m.Reaches (min start m.subject.size) s owners)
    (hdone : m.program.code[s.address]? = some .done) :
    ∃ forest, (∀ found, Derives m.subject [] p (min start m.subject.size) found ↔
        found = some (s.pos, forest)) ∧
      s.captures.toList.map (Entry.mark m.program) = forestMarks forest := by
  obtain ⟨block, code, hcompiled⟩ := p.compiled_exists hp
  obtain ⟨r, hrun, hagrees⟩ := hcompiled.runs (Nat.min_le_right start m.subject.size)
  have hr : r = .matched s.pos s.captures := (hs.tracked hcompiled hrun).eq_matched hcompiled hdone
  subst hr
  obtain ⟨forest, hforest, hserial⟩ := hagrees.matched hfree
  refine ⟨forest, fun found => ⟨fun hfound => hfound.unique hforest, ?_⟩, hserial⟩
  rintro rfl
  exact hforest

end Setting

/-- A pattern whose first alternative records a capture before it fails. -/
def overlapping : Pattern :=
  .choice
    (.seq (.capture .simple (.seq (.literal #[97]) (.any 1))) (.literal #[98]))
    (.capture .simple (.literal #[97, 97]))

/-- The program of the overlapping alternatives. -/
def overlappingProgram : Program where
  code := #[.char 97 6, .choice 5 1, .any 1 0, .fullCapture .simple 2 0, .char 98 0, .commit 4,
    .char 97 0, .char 97 0, .fullCapture .simple 2 0, .done, .giveUp]
  constants := #[]

theorem compile_overlapping : overlapping.compile = .ok overlappingProgram := rfl

theorem overlapping_captures : ∃ forest,
    (∀ found, Derives #[97, 97] [] overlapping 0 found ↔ found = some (2, forest)) ∧
      [.full .simple .nothing 0 2] = forestMarks forest := by
  let m : Setting := ⟨overlappingProgram, {}, #[97, 97], []⟩
  have hs : ∃ owners, m.Reaches (min 0 m.subject.size)
      ⟨9, 2, (m.initial 0).stack, #[.full .simple 0 0 2]⟩ owners :=
    ⟨_, .step (.step (.step (.step (.step (.step (.step (.step .start rfl) rfl) rfl) rfl) rfl) rfl)
      rfl) rfl⟩
  obtain ⟨owners, hs⟩ := hs
  exact Setting.captures_of_match compile_overlapping rfl hs rfl

end PegMachine
