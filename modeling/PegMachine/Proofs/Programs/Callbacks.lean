import PegMachine.Proofs.Captures.Recoded
import PegMachine.Proofs.Nesting.Steps
import PegMachine.Proofs.Programs.Outcomes

/-!
# Calls of the functions of a pattern

A pattern may hold functions that are called during the match: matchers, and the functions of
match-time captures.

* `Callback`: the call of such a function, with all that goes into it.
* `Setting.callback?`: the call that the step from a state makes. `Setting.step_of_matcher` and
  `Setting.step_of_matchTime`: **nothing else goes into that step.**
* `Play`: the calls of a run, one after another, and its outcome.
* `Setting.Plays`: the play of the run from a state. `Setting.Plays.unique`: there is one at most.
* `Setting.onCode`: the setting with a program of other code and the same constants.
-/

namespace PegMachine

/-- The call of a function of the pattern. -/
inductive Callback where
  | matcher (f : Matcher) (subject : Bytes) (pos : Nat)
  /-- The function of a match-time capture is given the subject, the position and the nested values.
  The position that it returns must not lie before the one where the capture was opened. -/
  | matchTime (f : MatchTimeFunction) (subject : Bytes) (pos : Nat) (values : List Value)
      (opened : Nat)

/-- The calls of a run, one after another, and its outcome. -/
structure Play where
  calls : List Callback
  outcome : Outcome

namespace Setting

/-- The call at the end of the match-time capture that is open. -/
def matchTimeCall? (m : Setting) (pos : Nat) (captures : Array Entry) : Option Callback :=
  match Entry.innermostOpen? captures with
  | none => none
  | some opened =>
    match captures[opened]? with
    | some (.opened _ index start) =>
      match m.program.constant? index with
      | some (.matchTime f) =>
        match (m.resolver (captures.push (.closed pos))).nested opened with
        | .ok values => some (.matchTime f m.subject pos values start)
        | .error _ => none
      | _ => none
    | _ => none

/-- The call that an instruction makes at a position, with the captures recorded so far. -/
def callbackOf? (m : Setting) (pos : Nat) (captures : Array Entry) : Instr → Option Callback
  | .matcher index =>
    match m.program.constant? index with
    | some (.matcher f) => some (.matcher f m.subject pos)
    | _ => none
  | .closeMatchTime => m.matchTimeCall? pos captures
  | _ => none

/-- The call that the step from a state makes. -/
def callback? (m : Setting) (s : State) : Option Callback :=
  m.program.code[s.address]?.bind (m.callbackOf? s.pos s.captures)

/-- The play of the run from a state. -/
inductive Plays (m : Setting) : State → Play → Prop where
  | halt {s : State} {outcome : Outcome} {event : Option Event}
      (hstep : m.step s = .halt outcome event) (hne : outcome ≠ .unfinished) :
      Plays m s ⟨(m.callback? s).toList, outcome⟩
  | next {s s' : State} {play : Play} {event : Option Event} (hstep : m.step s = .next s' event)
      (h : Plays m s' play) : Plays m s ⟨(m.callback? s).toList ++ play.calls, play.outcome⟩

section

variable {m : Setting} {s : State} {play play' : Play} {f : Matcher} {g : MatchTimeFunction}
  {subject : Bytes} {pos start opened : Nat} {values : List Value} {instr : Instr}
  {owners : List (Option Nat)}

/-! ## What goes into a step -/

/-- The end of a match-time capture calls its function or crashes. -/
theorem closeMatchTime_cases (m : Setting) (s : State) :
    (m.matchTimeCall? s.pos s.captures = none ∧ ∃ fault, m.closeMatchTime s = .crash fault) ∨
      ∃ (g : MatchTimeFunction) (entry start : Nat) (values : List Value),
        m.matchTimeCall? s.pos s.captures = some (.matchTime g m.subject s.pos values start) ∧
          Entry.innermostOpen? s.captures = some entry ∧
            m.closeMatchTime s = m.afterMatchTime s g entry start (.ok values) := by
  rw [matchTimeCall?, closeMatchTime]
  cases hopen : Entry.innermostOpen? s.captures with
  | none => exact .inl ⟨rfl, _, rfl⟩
  | some entry =>
    dsimp only
    cases hentry : s.captures[entry]? with
    | none => exact .inl ⟨rfl, _, rfl⟩
    | some found =>
      cases found with
      | opened kind index start =>
        dsimp only
        cases hconst : m.program.constant? index with
        | none => exact .inl ⟨rfl, _, rfl⟩
        | some constant =>
          cases constant with
          | matchTime g =>
            dsimp only
            cases hnested : (m.resolver (s.captures.push (.closed s.pos))).nested entry with
            | error fault => exact .inl ⟨rfl, _, rfl⟩
            | ok values =>
              refine .inr ⟨g, entry, start, values, rfl, rfl, ?_⟩
              rw [Array.pop_push]
              rfl
          | _ => exact .inl ⟨rfl, _, rfl⟩
      | _ => exact .inl ⟨rfl, _, rfl⟩

/-- **A matcher is called with the subject and the position, and nothing else goes into the
step.** -/
theorem step_of_matcher (h : m.callback? s = some (.matcher f subject pos)) :
    subject = m.subject ∧ pos = s.pos ∧ m.step s = m.runMatcher s f := by
  obtain ⟨instr, hinstr, hcall⟩ := Option.bind_eq_some_iff.1 h
  rw [step_of_getElem? hinstr]
  cases instr with
  | matcher index =>
    rw [callbackOf?] at hcall
    split at hcall
    · next hconst =>
      cases hcall
      exact ⟨rfl, rfl, by rw [execute, hconst]⟩
    · cases hcall
  | closeMatchTime =>
    rcases m.closeMatchTime_cases s with ⟨hnone, -⟩ | ⟨_, _, _, _, hsome, -⟩
    · rw [callbackOf?, hnone] at hcall
      cases hcall
    · rw [callbackOf?, hsome] at hcall
      cases hcall
  | _ => cases hcall

/-- **The function of a match-time capture is called with the subject, the position and the nested
values, and where the capture was opened is all that goes into the step besides.** -/
theorem step_of_matchTime
    (h : m.callback? s = some (.matchTime g subject pos values opened)) :
    subject = m.subject ∧ pos = s.pos ∧ ∃ entry, Entry.innermostOpen? s.captures = some entry ∧
      m.step s = m.afterMatchTime s g entry opened (.ok values) := by
  obtain ⟨instr, hinstr, hcall⟩ := Option.bind_eq_some_iff.1 h
  rw [step_of_getElem? hinstr]
  cases instr with
  | matcher index =>
    rw [callbackOf?] at hcall
    split at hcall <;> cases hcall
  | closeMatchTime =>
    rcases m.closeMatchTime_cases s with ⟨hnone, -⟩ | ⟨_, entry, _, _, hsome, hopen, hstep⟩
    · rw [callbackOf?, hnone] at hcall
      cases hcall
    · rw [callbackOf?, hsome] at hcall
      cases hcall
      exact ⟨rfl, rfl, entry, hopen, hstep⟩
  | _ => cases hcall

/-- Where a function should be called and none is, the step is a crash. -/
theorem step_of_no_callback (h : m.callback? s = none)
    (hinstr : m.program.code[s.address]? = some instr)
    (hcalls : (∃ index, instr = .matcher index) ∨ instr = .closeMatchTime) :
    ∃ fault, m.step s = .crash fault := by
  rw [callback?, hinstr, Option.bind_some] at h
  rw [step_of_getElem? hinstr]
  rcases hcalls with ⟨index, rfl⟩ | rfl
  · rw [callbackOf?] at h
    split at h
    · cases h
    · next hconst =>
      refine ⟨.invalidStack s.address, ?_⟩
      rw [execute]
      split
      · next f hf => exact absurd hf (hconst f)
      · rfl
  · rcases m.closeMatchTime_cases s with ⟨-, hcrash⟩ | ⟨_, _, _, _, hsome, -⟩
    · exact hcrash
    · rw [callbackOf?, hsome] at h
      cases h

/-! ## Plays -/

/-- **A run has one play at most.** -/
theorem Plays.unique (h : m.Plays s play) (h' : m.Plays s play') : play = play' := by
  induction h generalizing play' with
  | halt hstep =>
    cases h' with
    | halt hstep' =>
      rw [hstep] at hstep'
      cases hstep'
      rfl
    | next hstep' =>
      rw [hstep] at hstep'
      cases hstep'
  | next hstep _ ih =>
    cases h' with
    | halt hstep' =>
      rw [hstep] at hstep'
      cases hstep'
    | next hstep' h' =>
      rw [hstep] at hstep'
      cases hstep'
      rw [ih h']

theorem Plays.ends_of_reaches (h : m.Plays s play) (hs : m.Reaches start s owners) :
    m.Ends start play.outcome := by
  induction h generalizing owners with
  | halt hstep hne => exact hs.ends hstep hne
  | next hstep _ ih => exact ih (hs.step hstep)

theorem Plays.ends (h : m.Plays (m.initial start) play) : m.Ends start play.outcome :=
  h.ends_of_reaches .start

end

/-! ## Other code -/

/-- The setting with the given code in front of the instructions that end a match. -/
def onCode (m : Setting) (code : Block) : Setting :=
  { m with program := { m.program with code := (code ++ [Instr.done, Instr.giveUp]).toArray } }

section

variable (m : Setting) (code : Block)

theorem hasCode_onCode : (m.onCode code).program.HasCode code := rfl

theorem resolver_onCode (captures : Array Entry) :
    (m.onCode code).resolver captures =
      (m.resolver captures).recoded (code ++ [Instr.done, Instr.giveUp]).toArray :=
  rfl

theorem move_onCode : (m.onCode code).move = m.move := by
  funext answers pos captures instr
  cases instr with
  | span bytes =>
    have hstop : (m.onCode code).spanStop bytes pos = m.spanStop bytes pos :=
      spanStop_congr (show (m.onCode code).subject = m.subject from rfl) bytes pos
    rw [move, move, hstop]
  | closeMatchTime =>
    simp only [move, closeMatchTimeMove, matchTimeMove, resolver_onCode, Resolver.nested_recoded]
    rfl
  | _ => rfl

theorem callbackOf?_onCode : (m.onCode code).callbackOf? = m.callbackOf? := by
  funext pos captures instr
  cases instr with
  | closeMatchTime =>
    simp only [callbackOf?, matchTimeCall?, resolver_onCode, Resolver.nested_recoded]
    rfl
  | _ => rfl

theorem outcomeOf_onCode : (m.onCode code).outcomeOf = m.outcomeOf := by
  funext r
  cases r with
  | matched pos captures =>
    rw [outcomeOf, outcomeOf, resolver_onCode, Resolver.resolve_recoded]
  | failed | crashed => rfl

end

end Setting

end PegMachine
