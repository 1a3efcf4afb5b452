import PegMachine.Proofs.Captures.Faults
import PegMachine.Proofs.Plain.Runs
import PegMachine.Proofs.Programs.Meaning
import PegMachine.Proofs.Programs.Resolved

/-!
# Compiled programs and plain ones

* `Setting.verdict`: the outcome of a match that has come to its end.
* `Setting.verdict_eq`: it depends on the captures that are recorded, not on how they are.
* `Setting.ends_plain`: the run of a plain program ends as the pattern says, if there is room for what
  the match costs.
* **`Setting.ends_iff_plain`**: where the plain program does not run out of stack, the compiled one
  does not either, and both end with the same outcome.
-/

namespace PegMachine

namespace Setting

variable {m m' : Setting} {p : Pattern} {block code : Block} {start stop n : Nat} {r : Parse}
  {s s' : State} {owners : List (Option Nat)} {captures captures' : Array Entry}

/-- The outcome of a match that has come to its end. -/
def verdict (m : Setting) (stop : Nat) (captures : Array Entry) : Outcome :=
  match (m.resolver captures).resolve with
  | .ok values => .matched ⟨stop, values⟩
  | .error fault => .faulted fault

theorem finish_eq (m : Setting) (s : State) :
    m.finish s = .halt (m.verdict s.pos s.captures) (some (.matchEnded s.pos)) := rfl

theorem verdict_ne_unfinished : m.verdict stop captures ≠ .unfinished := by
  rw [verdict]
  split <;> simp

theorem verdict_ne_overflow : m.verdict stop captures ≠ .faulted .stackOverflow := by
  rw [verdict]
  split
  · simp
  · next fault hfault =>
    rintro he
    cases he
    cases Resolver.harmless_resolve _ _ hfault

theorem Reaches.ends_verdict (h : m.Reaches start s owners)
    (hdone : m.program.code[s.address]? = some .done) :
    m.Ends start (m.verdict s.pos s.captures) :=
  h.ends ((step_done hdone).trans (finish_eq m s)) verdict_ne_unfinished

/-- **The verdict on a match depends on the marks of what is recorded.** -/
theorem verdict_eq {lo : Nat} {trees : List Capture}
    (hspells : Spells m.program lo trees stop captures.toList) (hstop : stop ≤ m.subject.size)
    (hmarks : captures'.toList.map (Entry.mark m'.program) =
      captures.toList.map (Entry.mark m.program))
    (hknown : ∀ entry ∈ captures'.toList, entry.Known m'.program)
    (hsubject : m'.subject = m.subject) (harguments : m'.arguments = m.arguments) :
    m'.verdict stop captures' = m.verdict stop captures := by
  have hcovers := hspells.covers_all
  have hsize : captures'.size = captures.size := by
    simpa using congrArg List.length hmarks
  have hcovers' := hcovers.of_marks hmarks hknown
  rw [← hsize] at hcovers'
  have hresolve : (m.resolver captures).resolve = evaluate m.subject m.arguments trees :=
    Resolver.resolve_eq ⟨hcovers, hstop⟩
  have hresolve' : (m'.resolver captures').resolve = evaluate m'.subject m'.arguments trees :=
    Resolver.resolve_eq ⟨hcovers', by rw [← hsubject] at hstop; exact hstop⟩
  rw [verdict, verdict, hresolve', hresolve, hsubject, harguments]

/-! ## Plain programs -/

theorem GoesTo.reaches (h : m.GoesTo s s') (hs : m.Reaches start s owners) :
    ∃ owners', m.Reaches start s' owners' := by
  induction h with
  | refl => exact ⟨owners, hs⟩
  | tail _ hstep ih =>
    obtain ⟨owners', hs'⟩ := ih
    obtain ⟨event, hnext⟩ := hstep
    exact ⟨_, hs'.step hnext⟩

/-- The run of a plain program ends as the pattern says, if there is room for what the match costs. -/
theorem ends_plain (hfull : ¬ m.Ends start (.faulted .stackOverflow))
    (hplain : PlainCode m.program none p block)
    (hcode : m.program.code = (block ++ [Instr.done, Instr.giveUp]).toArray)
    (hcosts : Costs m.subject [] p start r n) (hstart : start ≤ m.subject.size) :
    (∀ limit, m.limits.maxStack = some limit → 0 < n → n < limit) ∧
      match r with
      | none => m.Ends start .unmatched
      | some (stop, forest) => ∃ captures, Writes m.program captures.toList forest ∧
          m.Ends start (m.verdict stop captures) := by
  have hheld : m.program.Holds none 0 block := by
    intro k instr hk
    rw [hcode, Nat.zero_add, List.getElem?_toArray,
      List.getElem?_append_left (List.getElem?_eq_some_iff.1 hk).1, hk]
    rfl
  have hdone : m.program.code[0 + block.length]? = some .done := by simp [hcode]
  have hgaveUp : ∀ s : State, s.address = m.program.size - 1 →
      m.step s = .halt .unmatched (some .matchFailed) := by
    intro s hs
    exact (step_of_getElem? (by simp [hs, hcode, Program.size]) : m.step s = m.execute s .giveUp)
  have hyields := (hcosts.given hstart).gives hplain (by rintro _ _ _ _ he; cases he) 0
    (m.initial start).stack #[] hheld
  rcases hyields with ⟨s, event, hgoes, hstep⟩ | ⟨hfits, hcomes⟩
  · -- the run stops where the stack is full
    obtain ⟨owners, hs⟩ := GoesTo.reaches hgoes .start
    exact absurd (hs.ends hstep (by simp)) hfull
  · refine ⟨fun limit hlimit hn => ?_, ?_⟩
    · have hroom := hfits limit hlimit hn
      have hsize : (m.initial start).stack.size = 1 := rfl
      omega
    · cases r with
      | none =>
        obtain ⟨owners, hs⟩ := GoesTo.reaches (hcomes _ _ rfl (Nat.le_refl _)) .start
        exact hs.ends (hgaveUp _ rfl) (by simp)
      | some found =>
        obtain ⟨entries, captures, hgoes, hrecords, hwrites⟩ := hcomes
        obtain rfl : captures.toList = entries := hrecords
        obtain ⟨owners, hs⟩ := GoesTo.reaches hgoes .start
        exact ⟨captures, hwrites, hs.ends_verdict hdone⟩

/-! ## Compiled programs -/

theorem not_overflows (hroom : ∀ limit, m.limits.maxStack = some limit → 0 < n → n < limit)
    (step : Step) : ¬ m.Overflows n step := by
  rintro ⟨limit, hlimit, hpos, hle, -⟩
  have := hroom limit hlimit hpos
  omega

/-- **Where the plain program of a pattern does not run out of stack, the compiled one does not
either, and both end with the same outcome.** -/
theorem ends_iff_plain (hp : p.compile = .ok m.program) (hfree : p.matchTimeFree = true)
    (start : Nat) : ∃ plain, p.plain = .ok plain ∧
      (¬ ({ m with program := plain } : Setting).Ends (min start m.subject.size)
          (.faulted .stackOverflow) →
        ∃ outcome, outcome ≠ .faulted .stackOverflow ∧
          (∀ o, m.Ends (min start m.subject.size) o ↔ o = outcome) ∧
          ∀ o, ({ m with program := plain } : Setting).Ends (min start m.subject.size) o ↔
            o = outcome) := by
  have hstart : min start m.subject.size ≤ m.subject.size := Nat.min_le_right _ _
  generalize min start m.subject.size = pos at hstart ⊢
  obtain ⟨block, code, hcompiled⟩ := p.compiled_exists hp
  obtain ⟨plain, hplain, hplainCode⟩ := Pattern.exists_plain hcompiled.lowered
  refine ⟨_, hplain, fun hfull => ?_⟩
  obtain ⟨r, n, hrun, hline⟩ := hcompiled.runs_within hstart
  obtain ⟨s, owners, hs, hconcludes, hwithin⟩ := exists_concludes_within hcompiled hrun .start
  cases r with
  | crashed fault => exact absurd hfree hline
  | failed =>
    obtain ⟨hroom, hends⟩ := ends_plain hfull (hplainCode _ rfl) rfl (hline hfree) hstart
    cases hconcludes with
    -- the plain run had room for what the match costs, and this one needs no more
    | full hover => exact absurd (hwithin _ hover) (not_overflows hroom _)
    | failed =>
      have hends' : m.Ends pos .unmatched := hs.ends (step_gaveUp hcompiled) (by simp)
      exact ⟨_, by simp, fun _ => hends'.iff_eq, fun _ => hends.iff_eq⟩
  | matched stop captures =>
    obtain ⟨-, -, -, entries, hrecords, -, hforest⟩ := hline
    obtain rfl : captures.toList = entries := hrecords
    obtain ⟨forest, hcosts, hserial⟩ := hforest hfree
    obtain ⟨hroom, captures', hwrites, hends⟩ :=
      ends_plain hfull (hplainCode _ rfl) rfl hcosts hstart
    cases hconcludes with
    | full hover => exact absurd (hwithin _ hover) (not_overflows hroom _)
    | matched hdone =>
      obtain ⟨trees, hspells, hstop⟩ := recorded_of_reaches hcompiled hstart hs hdone
      have hmarks := hwrites.serialises.trans hserial.symm
      rw [verdict_eq hspells hstop hmarks hwrites.known rfl rfl] at hends
      exact ⟨_, verdict_ne_overflow, fun _ => (hs.ends_verdict hdone).iff_eq,
        fun _ => hends.iff_eq⟩

end Setting

/-- The plain program of nested brackets. -/
def bracketsPlainProgram : Program where
  code := #[.call 2, .jump 9, .choice 7 0, .char 40 0, .openCapture .simple 0 0, .call (-3),
    .closeCapture, .char 41 0, .commit 1, .ret, .done, .giveUp]
  constants := #[]

theorem plain_brackets : brackets.plain = .ok bracketsPlainProgram := rfl

theorem brackets_ends_iff_plain : ∃ outcome, outcome ≠ .faulted .stackOverflow ∧
    (∀ o, (⟨bracketsProgram, ⟨some 5⟩, #[40, 41], []⟩ : Setting).Ends 0 o ↔ o = outcome) ∧
    ∀ o, (⟨bracketsPlainProgram, ⟨some 5⟩, #[40, 41], []⟩ : Setting).Ends 0 o ↔ o = outcome := by
  let m : Setting := ⟨bracketsPlainProgram, ⟨some 5⟩, #[40, 41], []⟩
  have hs : ∃ owners, m.Reaches 0 ⟨10, 2, (m.initial 0).stack, #[.full .simple 0 1 0]⟩ owners :=
    ⟨_, .step (.step (.step (.step (.step (.step (.step (.step (.step (.step (.step (.step (.step
      .start rfl) rfl) rfl) rfl) rfl) rfl) rfl) rfl) rfl) rfl) rfl) rfl) rfl⟩
  obtain ⟨owners, hs⟩ := hs
  have hfull : ¬ m.Ends 0 (.faulted .stackOverflow) := fun h =>
    Setting.verdict_ne_overflow ((hs.ends_verdict rfl).unique h)
  obtain ⟨plain, hplain, hsame⟩ := Setting.ends_iff_plain
    (m := ⟨bracketsProgram, ⟨some 5⟩, #[40, 41], []⟩) compile_brackets rfl 0
  rw [plain_brackets] at hplain
  cases hplain
  exact hsame hfull

end PegMachine
