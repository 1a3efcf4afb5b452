import PegMachine.Proofs.Blocks.Carried
import PegMachine.Proofs.Machine.Reaches

/-!
# States that follow a run of the code

* `Setting.stateOf`: the state of the machine that a configuration stands for, at the bottom of its
  stack the choice that gives up.
* `Setting.Follows`: what a step has to be where a move makes progress in a given way.
* `Setting.follows_execute`: **the machine follows the moves of its instructions**, up to a stack
  that is full.
* `ownersAfter_perform`: the frames are owned as the configuration says.
-/

namespace PegMachine

/-- The stack with the given frames. -/
def Stack.ofFrames (frames : List Frame) : Stack := ⟨frames, frames.length, rfl⟩

namespace Setting

variable (m : Setting) (start : Nat)

/-- The choice at the bottom of the stack. -/
def lastResort : ChoicePoint := ⟨m.program.size - 1, start, 0⟩

/-- The frames of the machine, from those that are pending. -/
def framesOf (frames : List Pending) : List Frame :=
  frames.map Pending.frame ++ [.choice (m.lastResort start)]

/-- The state of the machine that a configuration stands for. -/
def stateOf (c : Config) : State :=
  ⟨c.address, c.pos, .ofFrames (m.framesOf start c.frames), c.captures⟩

/-- The state in which the machine gives up. -/
def gaveUp : State := ⟨m.program.size - 1, start, .empty, #[]⟩

/-- The stack is full, and `depth` frames above the choice at its bottom, of which there is one at
least, would be too many. -/
def Overflows (depth : Nat) (step : Step) : Prop :=
  ∃ limit, m.limits.maxStack = some limit ∧ 0 < depth ∧ limit ≤ depth ∧
    step = .halt (.faulted .stackOverflow) (some (.stackFull limit))

/-- What a step has to be where a move makes progress in a given way. -/
def Follows : Progress → Step → Prop
  | .next c, step =>
    (∃ event, step = .next (m.stateOf start c) event) ∨ m.Overflows c.frames.length step
  | .failed, step => ∃ event, step = .next (m.gaveUp start) event
  | .crashed fault, step => step = .crash fault
  | .stuck, _ => True

end Setting

/-- Who pushed the pending frames. -/
def ownersOf (frames : List Pending) : List (Option Nat) :=
  frames.map (fun p => some p.owner) ++ [none]

section

variable {m : Setting} {start : Nat} {c : Config}

/-! ## Frames -/

theorem Setting.unwind?_framesOf (frames : List Pending) :
    (Stack.ofFrames (m.framesOf start frames)).unwind? =
      match latestChoice? frames with
      | some (point, rest) => some (point, .ofFrames (m.framesOf start rest))
      | none => some (m.lastResort start, .empty) := by
  induction frames with
  | nil => rfl
  | cons p frames ih =>
    obtain ⟨_ | point, owner⟩ := p
    · exact ih
    · rfl

/-- The machine goes back where the configuration does. -/
theorem Setting.follows_backtrack {frames : List Pending} {address pos : Nat}
    (event : Option Event) (c : Config) :
    m.Follows start (c.backtrackTo frames)
      (State.backtrack ⟨address, pos, .ofFrames (m.framesOf start frames), c.captures⟩ event) := by
  rw [Config.backtrackTo, State.backtrack, Setting.unwind?_framesOf]
  cases latestChoice? frames with
  | some found => exact .inl ⟨event, rfl⟩
  | none => exact ⟨event, by simp [Setting.lastResort, Setting.gaveUp]⟩

theorem Setting.follows_popChoice {use : ChoicePoint → Nat → List Pending → Config}
    {use' : ChoicePoint → State → Step}
    (huse : ∀ point owner rest, ∃ event,
      use' point ⟨c.address, c.pos, .ofFrames (m.framesOf start rest), c.captures⟩ =
        .next (m.stateOf start (use point owner rest)) event) :
    m.Follows start (c.popChoice use) ((m.stateOf start c).popChoice use') := by
  rw [Config.popChoice]
  split
  · next point owner rest hframes =>
    rw [State.popChoice, Setting.stateOf, hframes]
    exact .inl (huse point owner rest)
  · trivial

/-! ## Instructions -/

theorem Setting.follows_pushFrame {frame : Frame} {off : Int} {c' : Config} {owner : Nat}
    (haddr : c'.address = c.target off) (hpos : c'.pos = c.pos)
    (hcaptures : c'.captures = c.captures) (hframes : c'.frames = ⟨frame, owner⟩ :: c.frames) :
    m.Follows start (.next c') (m.pushFrame (m.stateOf start c) frame off) := by
  have hstate : m.stateOf start c' =
      ⟨c.target off, c.pos, (Stack.ofFrames (m.framesOf start c.frames)).push frame,
        c.captures⟩ := by
    rw [Setting.stateOf, haddr, hpos, hcaptures, hframes]
    rfl
  rw [Setting.Follows, hstate, Setting.pushFrame]
  cases hlimit : m.limits.maxStack with
  | none => exact .inl ⟨none, rfl⟩
  | some limit =>
    dsimp only
    by_cases hfull : limit ≤ (m.stateOf start c).stack.size
    · rw [if_pos hfull]
      refine .inr ⟨limit, hlimit, by simp [hframes], ?_, rfl⟩
      simpa [Setting.stateOf, Stack.ofFrames, Setting.framesOf, hframes] using hfull
    · rw [if_neg hfull]
      exact .inl ⟨none, rfl⟩

theorem Setting.follows_test {p q : Prop} [Decidable p] [Decidable q] {pos : Nat} {off : Int}
    (hpq : p ↔ q) :
    m.Follows start
      (c.perform (if p then .advance pos c.captures else .refuse off))
      (if q then .next ((m.stateOf start c).proceedAt pos) none
        else (m.stateOf start c).refuse off) := by
  by_cases hq : q
  · rw [if_pos (hpq.2 hq), if_pos hq]
    exact .inl ⟨none, rfl⟩
  · rw [if_neg (fun hp => hq (hpq.1 hp)), if_neg hq, Move.refuse, State.refuse]
    by_cases hoff : off = 0
    · rw [if_pos hoff, if_pos hoff]
      exact Setting.follows_backtrack none c
    · rw [if_neg hoff, if_neg hoff]
      exact .inl ⟨none, rfl⟩

theorem Setting.follows_matcher (f : Matcher) :
    m.Follows start (c.perform (m.matcherMove c.pos c.captures f))
      (m.runMatcher (m.stateOf start c) f) := by
  have hpos : (m.stateOf start c).pos = c.pos := rfl
  rw [Setting.matcherMove, Setting.runMatcher, hpos]
  cases f m.subject c.pos with
  | none => exact Setting.follows_backtrack none c
  | some next =>
    dsimp only
    by_cases hnext : c.pos ≤ next ∧ next ≤ m.subject.size
    · rw [if_pos hnext, if_pos hnext]
      exact .inl ⟨none, rfl⟩
    · rw [if_neg hnext, if_neg hnext]
      exact Setting.follows_backtrack _ c

theorem Setting.follows_matchTime (f : MatchTimeFunction) (opened begun : Nat) :
    m.Follows start (c.perform (m.matchTimeMove c.pos c.captures f opened begun))
      (match (m.resolver (c.captures.push (.closed c.pos))).nested opened with
      | .error fault => .crash fault
      | .ok values =>
        let s := { m.stateOf start c with captures := (c.captures.push (.closed c.pos)).pop }
        match f m.subject s.pos values with
        | none => s.backtrack none
        | some (next, values) =>
          if begun ≤ next ∧ next ≤ m.subject.size then
            .next (replaceCapture s opened begun next values) none
          else s.backtrack (some (.captureStrayed next begun m.subject.size))) := by
  rw [Setting.matchTimeMove, Array.pop_push]
  cases (m.resolver (c.captures.push (.closed c.pos))).nested opened with
  | error fault => exact rfl
  | ok values =>
    have hpos : (m.stateOf start c).pos = c.pos := rfl
    dsimp only
    rw [hpos]
    cases f m.subject c.pos values with
    | none => exact Setting.follows_backtrack none c
    | some found =>
      dsimp only
      by_cases hnext : begun ≤ found.1 ∧ found.1 ≤ m.subject.size
      · rw [if_pos hnext, if_pos hnext]
        exact .inl ⟨none, rfl⟩
      · rw [if_neg hnext, if_neg hnext]
        exact Setting.follows_backtrack _ c

theorem Setting.follows_closeMatchTime :
    m.Follows start (c.perform (m.closeMatchTimeMove c.pos c.captures))
      (m.closeMatchTime (m.stateOf start c)) := by
  have hcaptures : (m.stateOf start c).captures = c.captures := rfl
  rw [Setting.closeMatchTimeMove, Setting.closeMatchTime, hcaptures]
  cases Entry.innermostOpen? c.captures with
  | none => exact rfl
  | some opened =>
    dsimp only
    cases c.captures[opened]? with
    | none => exact rfl
    | some entry =>
      cases entry with
      | opened kind index begun =>
        dsimp only
        cases m.program.constant? index with
        | none => exact rfl
        | some constant =>
          cases constant with
          | matchTime f => exact Setting.follows_matchTime f opened begun
          | _ => exact rfl
      | _ => exact rfl

/-- **The machine follows the moves of its instructions.** -/
theorem Setting.follows_execute (instr : Instr) :
    m.Follows start (c.perform (m.move (fun _ _ _ => none) c.pos c.captures instr))
      (m.execute (m.stateOf start c) instr) := by
  cases instr with
  | any n off => exact Setting.follows_test decide_eq_true_iff
  | char b off => exact Setting.follows_test decide_eq_true_iff
  | set s off => exact Setting.follows_test Iff.rfl
  | span s => exact .inl ⟨none, rfl⟩
  | ret =>
    rw [Setting.move, Config.perform]
    split
    · next address owner rest hframes =>
      rw [Setting.execute, Setting.stateOf, hframes]
      exact .inl ⟨none, rfl⟩
    · trivial
  | done | giveUp | openCall => trivial
  | choice off back =>
    have htarget : c.address + 1 = c.target 1 := by
      rw [Config.target]
      omega
    exact Setting.follows_pushFrame htarget rfl rfl rfl
  | jump off => exact .inl ⟨none, rfl⟩
  | call off => exact Setting.follows_pushFrame rfl rfl rfl rfl
  | commit off | partialCommit off | backCommit off =>
    rw [Setting.move, Setting.execute, Config.perform]
    exact Setting.follows_popChoice fun _ _ _ => ⟨none, rfl⟩
  | failTwice =>
    rw [Setting.move, Config.perform]
    split
    · next p rest hframes =>
      rw [Setting.execute, Setting.stateOf, hframes]
      exact Setting.follows_backtrack none c
    · trivial
  | fail => exact Setting.follows_backtrack none c
  | matcher index =>
    rw [Setting.move, Setting.execute]
    cases m.program.constant? index with
    | none => trivial
    | some constant =>
      cases constant with
      | matcher f => exact Setting.follows_matcher f
      | _ => trivial
  | fullCapture | emptyCapture | emptyCaptureConst | openCapture => exact .inl ⟨none, rfl⟩
  | closeCapture => exact .inl ⟨none, congrArg (Step.next · none) (Setting.closeCapture_eq _)⟩
  | closeMatchTime => exact Setting.follows_closeMatchTime

/-! ## Owners -/

theorem Config.perform_frames {mv : Move} {c' : Config} (h : c.perform mv = .next c') :
    (∃ frame, c'.frames = ⟨frame, c.address⟩ :: c.frames) ∨ c'.frames <:+ c.frames ∨
      ∃ frame frame' owner rest, c.frames = ⟨frame, owner⟩ :: rest ∧
        c'.frames = ⟨frame', owner⟩ :: rest := by
  have back : ∀ frames, frames <:+ c.frames → c.backtrackTo frames = .next c' →
      c'.frames <:+ c.frames := by
    intro frames hframes hback
    unfold Config.backtrackTo at hback
    split at hback
    · next hlatest =>
      cases hback
      exact (latestChoice?_suffix hlatest).trans hframes
    · cases hback
  cases mv with
  | advance | jump =>
    cases h
    exact .inr (.inl List.suffix_rfl)
  | call | choose =>
    cases h
    exact .inl ⟨_, rfl⟩
  | ret =>
    rw [Config.perform] at h
    split at h
    · next hframes =>
      cases h
      rw [hframes]
      exact .inr (.inl (List.suffix_cons _ _))
    · cases h
  | commit | rewind =>
    obtain ⟨point, owner, rest, hframes, rfl⟩ := Config.popChoice_eq_next h
    rw [hframes]
    exact .inr (.inl (List.suffix_cons _ _))
  | renew =>
    obtain ⟨point, owner, rest, hframes, rfl⟩ := Config.popChoice_eq_next h
    exact .inr (.inr ⟨_, _, owner, rest, hframes, rfl⟩)
  | fail => exact .inr (.inl (back _ List.suffix_rfl h))
  | failTwice =>
    rw [Config.perform] at h
    split at h
    · next p rest hframes => exact .inr (.inl (back rest (hframes ▸ List.suffix_cons _ _) h))
    · cases h
  | crash | halt => cases h

theorem Setting.size_stateOf (c : Config) :
    (m.stateOf start c).stack.size = c.frames.length + 1 := by
  show (m.framesOf start c.frames).length = _
  simp [Setting.framesOf]

theorem length_ownersOf (c : Config) :
    (ownersOf c.frames).length = (m.stateOf start c).stack.size := by
  rw [Setting.size_stateOf]
  simp [ownersOf]

theorem ownersAfter_gaveUp :
    ownersAfter (m.stateOf start c) (m.gaveUp start) (ownersOf c.frames) = [] := by
  have hempty : (m.gaveUp start).stack.size = 0 := rfl
  rw [ownersAfter, hempty, if_neg (Nat.not_lt_zero _)]
  exact List.drop_eq_nil_of_le (Nat.le_of_eq (length_ownersOf c))

/-- **The frames are owned as the configuration says.** -/
theorem ownersAfter_perform {mv : Move} {c' : Config} (h : c.perform mv = .next c') :
    ownersAfter (m.stateOf start c) (m.stateOf start c') (ownersOf c.frames) =
      ownersOf c'.frames := by
  have haddr : (m.stateOf start c).address = c.address := rfl
  rw [ownersAfter, Setting.size_stateOf, Setting.size_stateOf, haddr]
  rcases Config.perform_frames h with ⟨frame, hframes⟩ | ⟨front, hframes⟩ |
    ⟨frame, frame', owner, rest, hframes, hframes'⟩
  · rw [hframes, if_pos (by simp)]
    rfl
  · rw [← hframes, List.length_append, if_neg (by omega)]
    have hfront : front.length + c'.frames.length + 1 - (c'.frames.length + 1) =
        (front.map fun p => some p.owner).length := by
      rw [List.length_map]
      omega
    rw [hfront, ownersOf, List.map_append, List.append_assoc, List.drop_left]
    rfl
  · rw [hframes, hframes', if_neg (by simp), List.length_cons, List.length_cons, Nat.sub_self]
    rfl

end

end PegMachine
