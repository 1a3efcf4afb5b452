import PegMachine.Block
import PegMachine.Proofs.Machine.Move

/-!
# Runs of code

A run of a piece of code goes from its first instruction to the address behind its last, or to a
failure that no choice pushed on the way catches.

* `OwnChoice`: the choice that a committing instruction belongs to.
* `Sound`, `Instr.Ready`: what holds of a configuration before an instruction is executed.
* `Run`: from a configuration, every instruction being ready when its turn comes, the run ends with
  the given answer.
* `Run.unique`: a run has one answer.
* `Rises`: how many frames a run has pending at some time. `Run.exists_rises`: the room that it
  takes.
* `Aim`: what a run may come to. `Run.takesBack`: what is taken back along the steps of a run holds
  where it starts.
-/

namespace PegMachine

/-! ## The choice of a committing instruction -/

/-- The choice at `owner` is the innermost one around an address: the nearest before it among those
whose alternative lies behind it. -/
def OwnChoice (code : Block) (address owner : Nat) : Prop :=
  owner < address ∧
  (∃ off back, code[owner]? = some (.choice off back) ∧ (address : Int) < owner + off) ∧
  ∀ k, owner < k → k < address → ∀ off back, code[k]? = some (.choice off back) →
    (k : Int) + off ≤ address

/-- An address has at most one own choice. -/
theorem OwnChoice.unique {code : Block} {address a b : Nat} (ha : OwnChoice code address a)
    (hb : OwnChoice code address b) : a = b := by
  obtain ⟨haddrA, ⟨offA, backA, hcodeA, hbehindA⟩, hinnerA⟩ := ha
  obtain ⟨haddrB, ⟨offB, backB, hcodeB, hbehindB⟩, hinnerB⟩ := hb
  rcases Nat.lt_trichotomy a b with h | h | h
  · have := hinnerA b h haddrB offB backB hcodeB
    omega
  · exact h
  · have := hinnerB a h haddrA offA backA hcodeA
    omega

/-! ## What holds before an instruction -/

/-- Where a run started: the position, the captures recorded by then, and the number of frames that
the run may have pending at a time. -/
structure Origin where
  pos : Nat
  captures : Array Entry
  room : Nat

/-- The captures recorded earlier are still there. -/
def Extends (earlier later : Array Entry) : Prop := earlier.toList <+: later.toList

/-- The pending choices among frames do not reach beyond the captures recorded. -/
def LevelsBelow (frames : List Pending) (level : Nat) : Prop :=
  ∀ point owner, ⟨.choice point, owner⟩ ∈ frames → point.captures ≤ level

/-- The position stays in the subject and does not fall behind the origin, no capture recorded
before the origin is lost, and there is room for the pending frames. -/
structure Sound (m : Setting) (o : Origin) (c : Config) : Prop where
  pos_ge : o.pos ≤ c.pos
  pos_le : c.pos ≤ m.subject.size
  keeps : Extends o.captures c.captures
  levels : LevelsBelow c.frames c.captures.size
  room : c.frames.length ≤ o.room

/-- The instruction finds what it needs: enough bytes behind the origin to go back by, the frame on
top of the stack, its constant, the room for the frames of a call. -/
def Instr.Ready (m : Setting) (answers : Answers) (outline : Block) (o : Origin) (c : Config) :
    Instr → Prop
  | .choice _ back | .openCapture _ back _ => o.pos + back ≤ c.pos
  | .fullCapture _ length _ => o.pos + length ≤ c.pos
  | .ret => ∃ address owner rest, c.frames = ⟨.ret address, owner⟩ :: rest
  | .commit _ | .partialCommit _ | .backCommit _ | .failTwice =>
    ∃ point owner rest, c.frames = ⟨.choice point, owner⟩ :: rest ∧
      OwnChoice outline c.address owner
  | .matcher index => ∃ f, m.program.constant? index = some (.matcher f)
  | .openCall rule => ∀ r n, answers rule c.pos c.captures = some (r, n) →
    c.frames.length + n + 1 ≤ o.room
  | _ => True

/-! ## Runs -/

/-- From a configuration, the run of `code` ends with an answer. The choices that committing
instructions belong to are those of `outline`. -/
inductive Run (m : Setting) (answers : Answers) (outline code : Block) (o : Origin) :
    Config → Answer → Prop where
  | exit {c : Config} (haddr : c.address = code.length) (hframes : c.frames = [])
      (hs : Sound m o c) : Run m answers outline code o c (.matched c.pos c.captures)
  | next {c c' : Config} {instr : Instr} {r : Answer} (hinstr : code[c.address]? = some instr)
      (hs : Sound m o c) (hr : instr.Ready m answers outline o c)
      (hstep : c.perform (m.move answers c.pos c.captures instr) = .next c')
      (hrun : Run m answers outline code o c' r) : Run m answers outline code o c r
  | failed {c : Config} {instr : Instr} (hinstr : code[c.address]? = some instr)
      (hs : Sound m o c) (hr : instr.Ready m answers outline o c)
      (hstep : c.perform (m.move answers c.pos c.captures instr) = .failed) :
      Run m answers outline code o c .failed
  | crashed {c : Config} {instr : Instr} {fault : Fault}
      (hinstr : code[c.address]? = some instr)
      (hs : Sound m o c) (hr : instr.Ready m answers outline o c)
      (hstep : c.perform (m.move answers c.pos c.captures instr) = .crashed fault) :
      Run m answers outline code o c (.crashed fault)

/-- The run of a block on its own, from its first instruction and with nothing pending, in room for
`n` frames. -/
def Block.Runs (m : Setting) (answers : Answers) (n : Nat) (code : Block) (pos : Nat)
    (captures : Array Entry) (r : Answer) : Prop :=
  Run m answers code code ⟨pos, captures, n⟩ ⟨0, pos, [], captures⟩ r

section

variable {m : Setting} {answers : Answers} {outline code : Block} {o : Origin} {c c' : Config}
  {instr : Instr} {r r' : Answer}

theorem Extends.refl (captures : Array Entry) : Extends captures captures :=
  List.prefix_rfl

theorem Extends.trans {a b c : Array Entry} (hab : Extends a b) (hbc : Extends b c) :
    Extends a c :=
  List.IsPrefix.trans hab hbc

theorem Extends.size_le {a b : Array Entry} (h : Extends a b) : a.size ≤ b.size := by
  simpa using h.length_le

theorem Extends.push (a : Array Entry) (entry : Entry) : Extends a (a.push entry) := by
  simp [Extends]

theorem Extends.shrink {a b : Array Entry} {n : Nat} (h : Extends a b) (hn : n ≤ a.size) :
    b.shrink n = a.shrink n := by
  obtain ⟨rest, hrest⟩ := h
  apply Array.toList_inj.1
  rw [Array.toList_shrink, Array.toList_shrink, ← hrest, List.take_append_of_le_length (by simpa)]

theorem shrink_size (a : Array Entry) : a.shrink a.size = a := by
  apply Array.toList_inj.1
  rw [Array.toList_shrink, ← Array.length_toList, List.take_length]

theorem Extends.shrink_self {a b : Array Entry} (h : Extends a b) : b.shrink a.size = a := by
  rw [h.shrink (Nat.le_refl _), shrink_size]

theorem LevelsBelow.mono {frames : List Pending} {a b : Nat} (h : LevelsBelow frames a)
    (hab : a ≤ b) : LevelsBelow frames b :=
  fun point owner hmem => Nat.le_trans (h point owner hmem) hab

theorem levelsBelow_nil (level : Nat) : LevelsBelow [] level := by
  simp [LevelsBelow]

theorem levelsBelow_cons_ret {frames : List Pending} {address owner level : Nat} :
    LevelsBelow (⟨.ret address, owner⟩ :: frames) level ↔ LevelsBelow frames level := by
  simp [LevelsBelow]

theorem levelsBelow_cons_choice {frames : List Pending} {point : ChoicePoint}
    {owner level : Nat} :
    LevelsBelow (⟨.choice point, owner⟩ :: frames) level ↔
      point.captures ≤ level ∧ LevelsBelow frames level := by
  simp only [LevelsBelow, List.mem_cons]
  constructor
  · exact fun h => ⟨h point owner (.inl rfl), fun p w hp => h p w (.inr hp)⟩
  · rintro ⟨hp, h⟩ p w (he | hmem)
    · cases he; exact hp
    · exact h p w hmem

theorem levelsBelow_append {as bs : List Pending} {level : Nat} :
    LevelsBelow (as ++ bs) level ↔ LevelsBelow as level ∧ LevelsBelow bs level := by
  simp only [LevelsBelow, List.mem_append]
  exact ⟨fun h => ⟨fun p w hp => h p w (.inl hp), fun p w hp => h p w (.inr hp)⟩,
    fun h p w hp => hp.elim (h.1 p w) (h.2 p w)⟩

/-! ## Room -/

theorem Sound.roomier {n : Nat} (h : Sound m o c) (hn : o.room ≤ n) :
    Sound m { o with room := n } c :=
  ⟨h.pos_ge, h.pos_le, h.keeps, h.levels, Nat.le_trans h.room hn⟩

theorem Instr.Ready.roomier {n : Nat} (h : instr.Ready m answers outline o c) (hn : o.room ≤ n) :
    instr.Ready m answers outline { o with room := n } c := by
  cases instr with
  | openCall rule => exact fun r k hanswer => Nat.le_trans (h r k hanswer) hn
  | _ => exact h

theorem Run.roomier {n : Nat} (h : Run m answers outline code o c r) (hn : o.room ≤ n) :
    Run m answers outline code { o with room := n } c r := by
  induction h with
  | exit haddr hframes hs => exact .exit haddr hframes (hs.roomier hn)
  | next hinstr hs hr hstep _ ih => exact .next hinstr (hs.roomier hn) (hr.roomier hn) hstep ih
  | failed hinstr hs hr hstep => exact .failed hinstr (hs.roomier hn) (hr.roomier hn) hstep
  | crashed hinstr hs hr hstep => exact .crashed hinstr (hs.roomier hn) (hr.roomier hn) hstep

theorem Block.Runs.roomier {n n' pos : Nat} {captures : Array Entry}
    (h : Block.Runs m answers n code pos captures r) (hn : n ≤ n') :
    Block.Runs m answers n' code pos captures r :=
  Run.roomier h hn

/-! ## Going forward and back along a run -/

theorem Run.sound (h : Run m answers outline code o c r) : Sound m o c := by
  cases h <;> assumption

/-- A run is over, or it has an instruction to execute. -/
theorem Run.address_cases (h : Run m answers outline code o c r) :
    c.address = code.length ∨ ∃ instr, code[c.address]? = some instr := by
  cases h with
  | exit haddr => exact .inl haddr
  | next hinstr | failed hinstr | crashed hinstr => exact .inr ⟨_, hinstr⟩

theorem Run.ready (h : Run m answers outline code o c r) (hinstr : code[c.address]? = some instr) :
    instr.Ready m answers outline o c := by
  cases h with
  | exit haddr => simp [haddr] at hinstr
  | next hinstr' _ hr | failed hinstr' _ hr | crashed hinstr' _ hr =>
    rw [hinstr] at hinstr'
    cases hinstr'
    exact hr

theorem Run.tail (h : Run m answers outline code o c r) (hinstr : code[c.address]? = some instr)
    (hstep : c.perform (m.move answers c.pos c.captures instr) = .next c') :
    Run m answers outline code o c' r := by
  cases h with
  | exit haddr => simp [haddr] at hinstr
  | next hinstr' _ _ hstep' hrun =>
    rw [hinstr] at hinstr'
    cases hinstr'
    rw [hstep] at hstep'
    cases hstep'
    exact hrun
  | failed hinstr' _ _ hstep' | crashed hinstr' _ _ hstep' =>
    rw [hinstr] at hinstr'
    cases hinstr'
    rw [hstep] at hstep'
    cases hstep'

theorem Run.eq_failed (h : Run m answers outline code o c r)
    (hinstr : code[c.address]? = some instr)
    (hstep : c.perform (m.move answers c.pos c.captures instr) = .failed) : r = .failed := by
  cases h with
  | exit haddr => simp [haddr] at hinstr
  | failed => rfl
  | next hinstr' _ _ hstep' | crashed hinstr' _ _ hstep' =>
    rw [hinstr] at hinstr'
    cases hinstr'
    rw [hstep] at hstep'
    cases hstep'

theorem Run.eq_crashed {fault : Fault} (h : Run m answers outline code o c r)
    (hinstr : code[c.address]? = some instr)
    (hstep : c.perform (m.move answers c.pos c.captures instr) = .crashed fault) :
    r = .crashed fault := by
  cases h with
  | exit haddr => simp [haddr] at hinstr
  | next hinstr' _ _ hstep' | failed hinstr' _ _ hstep' =>
    rw [hinstr] at hinstr'
    cases hinstr'
    rw [hstep] at hstep'
    cases hstep'
  | crashed hinstr' _ _ hstep' =>
    rw [hinstr] at hinstr'
    cases hinstr'
    rw [hstep] at hstep'
    cases hstep'
    rfl

theorem Run.eq_matched (h : Run m answers outline code o c r) (haddr : c.address = code.length) :
    r = .matched c.pos c.captures := by
  cases h with
  | exit => rfl
  | next hinstr' | failed hinstr' | crashed hinstr' => simp [haddr] at hinstr'

/-- **A run has one answer.** -/
theorem Run.unique (h : Run m answers outline code o c r) (h' : Run m answers outline code o c r') :
    r = r' := by
  induction h with
  | exit haddr => exact (h'.eq_matched haddr).symm
  | next hinstr _ _ hstep _ ih => exact ih (h'.tail hinstr hstep)
  | failed hinstr _ _ hstep => exact (h'.eq_failed hinstr hstep).symm
  | crashed hinstr _ _ hstep => exact (h'.eq_crashed hinstr hstep).symm

/-- What holds at the end of a run that matches. -/
theorem Run.matched_sound {pos : Nat} {captures : Array Entry}
    (h : Run m answers outline code o c (.matched pos captures)) :
    o.pos ≤ pos ∧ pos ≤ m.subject.size ∧ Extends o.captures captures := by
  generalize hr : Answer.matched pos captures = r at h
  induction h with
  | exit _ _ hs =>
    cases hr
    exact ⟨hs.pos_ge, hs.pos_le, hs.keeps⟩
  | next _ _ _ _ _ ih => exact ih hr
  | failed | crashed => cases hr

/-! ## How high runs rise -/

/-- The run of the code from a configuration has `n` frames pending at some time. -/
inductive Rises (m : Setting) (answers : Answers) (code : Block) : Config → Nat → Prop where
  | here (c : Config) : Rises m answers code c c.frames.length
  | next {c c' : Config} {instr : Instr} {n : Nat} (hinstr : code[c.address]? = some instr)
      (hstep : c.perform (m.move answers c.pos c.captures instr) = .next c')
      (h : Rises m answers code c' n) : Rises m answers code c n

theorem Rises.le_room {n : Nat} (h : Rises m answers code c n)
    (hrun : Run m answers outline code o c r) : n ≤ o.room := by
  induction h with
  | here => exact hrun.sound.room
  | next hinstr hstep _ ih => exact ih (hrun.tail hinstr hstep)

theorem Sound.fits {n : Nat} (h : Sound m o c) (hn : c.frames.length ≤ n) :
    Sound m { o with room := n } c :=
  ⟨h.pos_ge, h.pos_le, h.keeps, h.levels, hn⟩

theorem Instr.Ready.fits {n : Nat} (h : instr.Ready m (fun _ _ _ => none) outline o c) :
    instr.Ready m (fun _ _ _ => none) outline { o with room := n } c := by
  cases instr with
  | openCall rule => intro _ _ hanswer; cases hanswer
  | _ => exact h

/-- **A run takes no more room than for the frames that it has pending at some time.** -/
theorem Run.exists_rises (h : Run m (fun _ _ _ => none) outline code o c r) :
    ∃ n, Rises m (fun _ _ _ => none) code c n ∧
      Run m (fun _ _ _ => none) outline code { o with room := n } c r := by
  induction h with
  | @exit c haddr hframes hs =>
    exact ⟨_, .here c, .exit haddr hframes (hs.fits (Nat.le_refl _))⟩
  | @failed c instr hinstr hs hr hstep =>
    exact ⟨_, .here c, .failed hinstr (hs.fits (Nat.le_refl _)) hr.fits hstep⟩
  | @crashed c instr fault hinstr hs hr hstep =>
    exact ⟨_, .here c, .crashed hinstr (hs.fits (Nat.le_refl _)) hr.fits hstep⟩
  | @next c c' instr r hinstr hs hr hstep _ ih =>
    obtain ⟨n, hrises, hrun⟩ := ih
    rcases Nat.le_total c.frames.length n with hle | hle
    · exact ⟨n, .next hinstr hstep hrises, .next hinstr (hs.fits hle) hr.fits hstep hrun⟩
    · exact ⟨_, .here c, .next hinstr (hs.fits (Nat.le_refl _)) hr.fits hstep (hrun.roomier hle)⟩

end

/-! ## Aims -/

/-- Something that a run may come to: a property of its configurations, and what is left to show of
it where the run fails or crashes. -/
structure Aim where
  holds : Config → Prop
  failed : Prop
  crashed : Fault → Prop

namespace Aim

/-- What is left to show of an aim after a step. -/
def After (aim : Aim) : Progress → Prop
  | .next c => aim.holds c
  | .failed => aim.failed
  | .crashed fault => aim.crashed fault
  | .stuck => False

/-- An aim is taken back along the steps of the code: at a good configuration it holds if it does
after the step. -/
structure TakenBack (aim : Aim) (m : Setting) (answers : Answers) (outline code : Block)
    (o : Origin) (good : Config → Prop) : Prop where
  step : ∀ {c : Config} {instr : Instr}, good c → code[c.address]? = some instr → Sound m o c →
    instr.Ready m answers outline o c →
    aim.After (c.perform (m.move answers c.pos c.captures instr)) → aim.holds c

/-- The aim to end with an answer. -/
def ends (m : Setting) (answers : Answers) (outline code : Block) (o : Origin) (r : Answer) :
    Aim where
  holds c := Run m answers outline code o c r
  failed := r = .failed
  crashed fault := r = .crashed fault

/-- The aim to have `n` frames pending at some time. -/
def rises (m : Setting) (answers : Answers) (code : Block) (n : Nat) : Aim where
  holds c := Rises m answers code c n
  failed := False
  crashed _ := False

end Aim

section

variable {m : Setting} {answers : Answers} {outline code : Block} {o : Origin} {c : Config}
  {good : Config → Prop} {aim : Aim} {r : Answer}

theorem Aim.takenBack_ends : (Aim.ends m answers outline code o r).TakenBack m answers outline code
    o good := by
  refine ⟨fun {c instr} _ hinstr hs hr h => ?_⟩
  cases hstep : c.perform (m.move answers c.pos c.captures instr) with
  | next c' =>
    rw [hstep] at h
    exact .next hinstr hs hr hstep h
  | failed =>
    rw [hstep] at h
    obtain rfl : r = .failed := h
    exact .failed hinstr hs hr hstep
  | crashed fault =>
    rw [hstep] at h
    obtain rfl : r = .crashed fault := h
    exact .crashed hinstr hs hr hstep
  | stuck =>
    rw [hstep] at h
    exact h.elim

theorem Aim.takenBack_rises {n : Nat} : (Aim.rises m answers code n).TakenBack m answers outline
    code o good := by
  refine ⟨fun {c instr} _ hinstr _ _ h => ?_⟩
  cases hstep : c.perform (m.move answers c.pos c.captures instr) with
  | next c' =>
    rw [hstep] at h
    exact .next hinstr hstep h
  | failed | crashed | stuck =>
    rw [hstep] at h
    exact h.elim

/-- **An aim that is taken back along a run holds where the run starts**, if it does at the end. -/
theorem Run.takesBack (h : Run m answers outline code o c r)
    (hback : aim.TakenBack m answers outline code o good)
    (hgood : ∀ {c r}, Run m answers outline code o c r → good c)
    (hexit : ∀ {c}, c.address = code.length → c.frames = [] → Sound m o c →
      r = .matched c.pos c.captures → aim.holds c)
    (hfailed : r = .failed → aim.failed)
    (hcrashed : ∀ {fault}, r = .crashed fault → aim.crashed fault) : aim.holds c := by
  induction h with
  | exit haddr hframes hs => exact hexit haddr hframes hs rfl
  | next hinstr hs hr hstep hrun ih =>
    refine hback.step (hgood (.next hinstr hs hr hstep hrun)) hinstr hs hr ?_
    rw [hstep]
    exact ih hexit hfailed hcrashed
  | failed hinstr hs hr hstep =>
    refine hback.step (hgood (.failed hinstr hs hr hstep)) hinstr hs hr ?_
    rw [hstep]
    exact hfailed rfl
  | crashed hinstr hs hr hstep =>
    refine hback.step (hgood (.crashed hinstr hs hr hstep)) hinstr hs hr ?_
    rw [hstep]
    exact hcrashed rfl

end

end PegMachine
