import Mathlib.Data.List.Forall2
import PegMachine.Proofs.Machine.Move

/-!
# Configurations of two codes

* `Progress.Both`: two ways to make progress that lead to configurations that are related.
* `Likeness`: how the addresses and the captures in two runs are related.
* `Likeness.OnConfigs`, `Likeness.OnMoves`: configurations and moves that are alike.
* `Likeness.OnMoves.perform`: **moves that are alike lead from configurations that are alike to such
  configurations.**
* `Setting.SameInput`: matches of the same subject with the same arguments.
* `Likeness.onMoves_silent`, `Likeness.onMoves_matchTime`: instructions that make moves that are
  alike in such matches.
-/

namespace PegMachine

/-! ## Progress -/

/-- Progress to configurations that are related. -/
inductive Progress.Both (related : Config → Config → Prop) : Progress → Progress → Prop where
  | next {c c' : Config} (h : related c c') : Both related (.next c) (.next c')
  | failed : Both related .failed .failed
  | crashed (fault : Fault) : Both related (.crashed fault) (.crashed fault)
  | stuck : Both related .stuck .stuck

namespace Progress.Both

variable {related related' : Config → Config → Prop} {c : Config} {progress progress' : Progress}

theorem eq_next (h : Both related (.next c) progress) :
    ∃ c', progress = .next c' ∧ related c c' := by
  cases h with
  | next h => exact ⟨_, rfl, h⟩

theorem eq_failed (h : Both related .failed progress) : progress = .failed := by
  cases h
  rfl

theorem eq_crashed {fault : Fault} (h : Both related (.crashed fault) progress) :
    progress = .crashed fault := by
  cases h
  rfl

theorem imp (h : Both related progress progress')
    (himp : ∀ c c', progress = .next c → related c c' → related' c c') :
    Both related' progress progress' := by
  cases h with
  | next h => exact .next (himp _ _ rfl h)
  | failed => exact .failed
  | crashed fault => exact .crashed fault
  | stuck => exact .stuck

end Progress.Both

/-! ## Likenesses -/

/-- How two runs are related: the addresses in their codes, the owners of pending frames, and the
captures recorded. The second run may have recorded `lift` entries more, before all others. -/
structure Likeness where
  address : Nat → Nat → Prop
  owner : Nat → Nat → Prop
  captures : Array Entry → Array Entry → Prop
  lift : Nat
  size_eq : ∀ {a b : Array Entry}, captures a b → b.size = a.size + lift
  shrink : ∀ {a b : Array Entry} (n : Nat), captures a b →
    captures (a.shrink n) (b.shrink (n + lift))

namespace Likeness

variable (l : Likeness)

/-- Frames with addresses that are alike. -/
inductive OnFrames : Pending → Pending → Prop where
  | ret {n n' owner owner' : Nat} (h : l.address n n') (howner : l.owner owner owner') :
      OnFrames ⟨.ret n, owner⟩ ⟨.ret n', owner'⟩
  | choice {n n' pos level owner owner' : Nat} (h : l.address n n')
      (howner : l.owner owner owner') :
      OnFrames ⟨.choice ⟨n, pos, level⟩, owner⟩ ⟨.choice ⟨n', pos, level + l.lift⟩, owner'⟩

/-- Configurations that are alike. -/
structure OnConfigs (c c' : Config) : Prop where
  address : l.address c.address c'.address
  pos : c'.pos = c.pos
  captures : l.captures c.captures c'.captures
  frames : List.Forall₂ l.OnFrames c.frames c'.frames

/-- Moves, of instructions at the given addresses, that lead to addresses that are alike. -/
inductive OnMoves (n n' : Nat) : Move → Move → Prop where
  | advance {pos : Nat} {captures captures' : Array Entry} (hnext : l.address (n + 1) (n' + 1))
      (h : l.captures captures captures') :
      OnMoves n n' (.advance pos captures) (.advance pos captures')
  | jump {d d' : Int} (h : l.address (n + d).toNat (n' + d').toNat) :
      OnMoves n n' (.jump d) (.jump d')
  | call {d d' : Int} (hnext : l.address (n + 1) (n' + 1))
      (h : l.address (n + d).toNat (n' + d').toNat) : OnMoves n n' (.call d) (.call d')
  | choose {d d' : Int} {back : Nat} (hnext : l.address (n + 1) (n' + 1))
      (h : l.address (n + d).toNat (n' + d').toNat) :
      OnMoves n n' (.choose d back) (.choose d' back)
  | ret : OnMoves n n' .ret .ret
  | commit {d d' : Int} (h : l.address (n + d).toNat (n' + d').toNat) :
      OnMoves n n' (.commit d) (.commit d')
  | renew {d d' : Int} (h : l.address (n + d).toNat (n' + d').toNat) :
      OnMoves n n' (.renew d) (.renew d')
  | rewind {d d' : Int} (h : l.address (n + d).toNat (n' + d').toNat) :
      OnMoves n n' (.rewind d) (.rewind d')
  | fail : OnMoves n n' .fail .fail
  | failTwice : OnMoves n n' .failTwice .failTwice
  | crash (fault : Fault) : OnMoves n n' (.crash fault) (.crash fault)
  | halt : OnMoves n n' .halt .halt

variable {l} {c c' : Config} {frames frames' : List Pending} {mv mv' : Move}

theorem latestChoice?_alike (h : List.Forall₂ l.OnFrames frames frames') :
    (latestChoice? frames = none ∧ latestChoice? frames' = none) ∨
      ∃ n n' pos level rest rest', latestChoice? frames = some (⟨n, pos, level⟩, rest) ∧
        latestChoice? frames' = some (⟨n', pos, level + l.lift⟩, rest') ∧ l.address n n' ∧
        List.Forall₂ l.OnFrames rest rest' := by
  induction h with
  | nil => exact .inl ⟨rfl, rfl⟩
  | cons hp hrest ih =>
    cases hp with
    | ret => exact ih
    | choice h => exact .inr ⟨_, _, _, _, _, _, rfl, rfl, h, hrest⟩

theorem backtrackTo_alike (hcaptures : l.captures c.captures c'.captures)
    (h : List.Forall₂ l.OnFrames frames frames') :
    Progress.Both l.OnConfigs (c.backtrackTo frames) (c'.backtrackTo frames') := by
  rw [Config.backtrackTo, Config.backtrackTo]
  rcases latestChoice?_alike h with ⟨hnone, hnone'⟩ |
    ⟨n, n', pos, level, rest, rest', hsome, hsome', haddress, hrest⟩
  · rw [hnone, hnone']
    exact .failed
  · rw [hsome, hsome']
    exact .next ⟨haddress, rfl, l.shrink level hcaptures, hrest⟩

theorem popChoice_alike {use use' : ChoicePoint → Nat → List Pending → Config}
    (h : List.Forall₂ l.OnFrames c.frames c'.frames)
    (huse : ∀ n n' pos level owner owner' rest rest', l.address n n' → l.owner owner owner' →
      List.Forall₂ l.OnFrames rest rest' →
      l.OnConfigs (use ⟨n, pos, level⟩ owner rest)
        (use' ⟨n', pos, level + l.lift⟩ owner' rest')) :
    Progress.Both l.OnConfigs (c.popChoice use) (c'.popChoice use') := by
  rw [Config.popChoice, Config.popChoice]
  generalize c.frames = frames at h
  generalize c'.frames = frames' at h
  cases h with
  | nil => exact .stuck
  | cons hp hrest =>
    cases hp with
    | ret => exact .stuck
    | choice haddress howner => exact .next (huse _ _ _ _ _ _ _ _ haddress howner hrest)

/-- **Moves that are alike lead from configurations that are alike to such configurations.** -/
theorem OnMoves.perform (hmv : l.OnMoves c.address c'.address mv mv') (h : l.OnConfigs c c')
    (howner : l.owner c.address c'.address) :
    Progress.Both l.OnConfigs (c.perform mv) (c'.perform mv') := by
  obtain ⟨-, hpos, hcaptures, hframes⟩ := h
  cases hmv with
  | advance hnext hcaptures' => exact .next ⟨hnext, rfl, hcaptures', hframes⟩
  | jump haddress => exact .next ⟨haddress, hpos, hcaptures, hframes⟩
  | call hnext haddress =>
    exact .next ⟨haddress, hpos, hcaptures, .cons (.ret hnext howner) hframes⟩
  | choose hnext haddress =>
    rw [Config.perform, Config.perform, hpos, l.size_eq hcaptures]
    exact .next ⟨hnext, rfl, hcaptures, .cons (.choice haddress howner) hframes⟩
  | ret =>
    rw [Config.perform, Config.perform]
    generalize c.frames = frames at hframes
    generalize c'.frames = frames' at hframes
    cases hframes with
    | nil => exact .stuck
    | cons hp hrest =>
      cases hp with
      | ret haddress => exact .next ⟨haddress, hpos, hcaptures, hrest⟩
      | choice => exact .stuck
  | commit haddress =>
    exact popChoice_alike hframes fun _ _ _ _ _ _ _ _ _ _ hrest =>
      ⟨haddress, hpos, hcaptures, hrest⟩
  | renew haddress =>
    refine popChoice_alike hframes fun _ _ _ _ _ _ _ _ hpoint hown hrest =>
      ⟨haddress, hpos, hcaptures, ?_⟩
    rw [hpos, l.size_eq hcaptures]
    exact .cons (.choice hpoint hown) hrest
  | rewind haddress =>
    exact popChoice_alike hframes fun _ _ _ level _ _ _ _ _ _ hrest =>
      ⟨haddress, rfl, l.shrink level hcaptures, hrest⟩
  | fail => exact backtrackTo_alike hcaptures hframes
  | failTwice =>
    rw [Config.perform, Config.perform]
    generalize c.frames = frames at hframes
    generalize c'.frames = frames' at hframes
    cases hframes with
    | nil => exact .stuck
    | cons hp hrest => exact backtrackTo_alike hcaptures hrest
  | crash fault => exact .crashed fault
  | halt => exact .stuck

end Likeness

/-! ## Matches of the same subject -/

/-- Settings for matches of the same subject with the same arguments. -/
structure Setting.SameInput (m m' : Setting) : Prop where
  subject : m'.subject = m.subject
  arguments : m'.arguments = m.arguments

variable {m m' : Setting}

namespace Setting.SameInput

variable (h : m.SameInput m')

include h

theorem symm : m'.SameInput m :=
  ⟨h.subject.symm, h.arguments.symm⟩

theorem holds_eq (pos : Nat) (instr : Instr) : m'.holds pos instr = m.holds pos instr := by
  cases instr <;> simp only [holds, h.subject]

theorem spanStop_eq (bytes : ByteSet) (pos : Nat) :
    m'.spanStop bytes pos = m.spanStop bytes pos :=
  spanStop_congr h.subject bytes pos

end Setting.SameInput

/-- Whether an instruction refers to no constant and leaves the captures as they are, unless it goes
back. -/
def Instr.isSilent : Instr → Bool
  | .openCall _ | .matcher _ | .fullCapture .. | .emptyCapture .. | .emptyCaptureConst ..
  | .openCapture .. | .closeCapture | .closeMatchTime => false
  | _ => true

namespace Likeness

variable {l : Likeness} {n n' pos : Nat} {captures captures' : Array Entry} {instr : Instr}
  (hinput : m.SameInput m') (hcaptures : l.captures captures captures')
  (hnext : l.address (n + 1) (n' + 1))

include hinput hcaptures hnext

/-- Instructions that depend on the subject only make moves that are alike. -/
theorem onMoves_silent (hsilent : instr.isSilent = true)
    (hjump : ∀ off, instr.offset? = some off → l.address (n + off).toNat (n' + off).toNat) :
    l.OnMoves n n' (m.move (fun _ _ _ => none) pos captures instr)
      (m'.move (fun _ _ _ => none) pos captures' instr) := by
  have refuse : ∀ off : Int, (off ≠ 0 → l.address (n + off).toNat (n' + off).toNat) →
      l.OnMoves n n' (.refuse off) (.refuse off) := by
    intro off hoff
    rw [Move.refuse]
    split
    · exact .fail
    · next hne => exact .jump (hoff hne)
  cases instr with
  | any k off | char k off | set k off =>
    simp only [Setting.move, hinput.holds_eq]
    split
    · exact .advance hnext hcaptures
    · exact refuse off fun hne => hjump off (if_neg hne)
  | span bytes =>
    simp only [Setting.move, hinput.spanStop_eq]
    exact .advance hnext hcaptures
  | ret => exact .ret
  | done | giveUp => exact .halt
  | choice off back => exact .choose hnext (hjump off rfl)
  | jump off => exact .jump (hjump off rfl)
  | call off => exact .call hnext (hjump off rfl)
  | commit off => exact .commit (hjump off rfl)
  | partialCommit off => exact .renew (hjump off rfl)
  | backCommit off => exact .rewind (hjump off rfl)
  | failTwice => exact .failTwice
  | fail => exact .fail
  | openCall | matcher | fullCapture | emptyCapture | emptyCaptureConst | openCapture
  | closeCapture | closeMatchTime => cases hsilent

theorem onMoves_matcher (f : Matcher) :
    l.OnMoves n n' (m.matcherMove pos captures f) (m'.matcherMove pos captures' f) := by
  rw [Setting.matcherMove, Setting.matcherMove, hinput.subject]
  split
  · exact .fail
  · split
    · exact .advance hnext hcaptures
    · exact .fail

theorem onMoves_matchTime {opened start : Nat}
    (hpush : ∀ {a b : Array Entry} {start stop : Nat} {values : List Value}, l.captures a b →
      l.captures (a.push (.dynamic start stop values)) (b.push (.dynamic start stop values)))
    (f : MatchTimeFunction)
    (hnested : (m'.resolver (captures'.push (.closed pos))).nested (opened + l.lift) =
      (m.resolver (captures.push (.closed pos))).nested opened) :
    l.OnMoves n n' (m.matchTimeMove pos captures f opened start)
      (m'.matchTimeMove pos captures' f (opened + l.lift) start) := by
  rw [Setting.matchTimeMove, Setting.matchTimeMove, hnested, hinput.subject]
  split
  · exact .crash _
  · split
    · exact .fail
    · split
      · refine .advance hnext ?_
        split
        · exact l.shrink opened hcaptures
        · exact hpush (l.shrink opened hcaptures)
      · exact .fail

end Likeness

end PegMachine
