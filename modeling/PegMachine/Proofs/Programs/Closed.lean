import PegMachine.Proofs.Lowering.Pieces
import PegMachine.Proofs.Programs.Compiled

/-!
# Closed programs

* `Program.Closed`: a program that ends where it should, whose jumps stay in it and whose
  instructions find their constants.
* `Pattern.Compiled.forall_mem`: what holds of the instructions of the block and survives both passes.
* `Pattern.Compiled.proper`: neither pass changes what an instruction refers to.
* `Pattern.closed_of_compile`: **every compiled pattern is a closed program.**
-/

namespace PegMachine

open Block

/-- A program that is closed. Its last two instructions end a match, no other instruction does, and
no call is open. Every jump lands in front of the last instruction and is short enough to be stored,
every constant is there and of the kind that its instruction needs, and captures reach back only so
far. -/
structure Program.Closed (program : Program) : Prop where
  ends : ∃ front : Block, program.code.toList = front ++ [.done, .giveUp] ∧
    ∀ instr ∈ front, instr ≠ .done ∧ instr ≠ .giveUp ∧ ∀ rule, instr ≠ .openCall rule
  lands : ∀ (k : Nat) (instr : Instr) (off : Int), program.code[k]? = some instr →
    instr.offset? = some off → 0 ≤ k + off ∧ k + off ≤ (program.size : Int) - 2
  stored : ∀ instr ∈ program.code, ∀ off, instr.offset? = some off →
    -(maxOffset : Int) ≤ off ∧ off ≤ maxOffset
  matcher : ∀ index, .matcher index ∈ program.code →
    ∃ f, program.constant? index = some (.matcher f)
  empty : ∀ kind index, .emptyCapture kind index ∈ program.code ∨
    .emptyCaptureConst kind index ∈ program.code → kind.Supplied program index
  full : ∀ kind length index, .fullCapture kind length index ∈ program.code →
    length ≤ maxCaptureBack ∧ kind.Supplied program index
  opened : ∀ kind back index, .openCapture kind back index ∈ program.code →
    back ≤ maxCaptureBack ∧ kind.Supplied program index

namespace Pattern

variable {program : Program} {p : Pattern} {block code : Block}

/-- What holds of the instructions of the block holds of those of the program, if it does not depend on
how far an instruction jumps nor on how far a capture reaches back. -/
theorem Compiled.forall_mem (h : p.Compiled program block code) {P : Instr → Prop}
    (hmoved : ∀ kind back index, P (.openCapture kind 0 index) → back ≤ maxCaptureBack →
      P (.openCapture kind back index))
    (hjumps : ∀ instr off, P instr → P (instr.withOffset off)) (hblock : ∀ instr ∈ block, P instr) :
    ∀ instr ∈ code, P instr := by
  intro instr hmem
  obtain ⟨k, hk⟩ := List.getElem?_of_mem hmem
  obtain ⟨source, hsource, hthreaded⟩ := h.threaded.getElem? (k := k) (by simpa using hk)
  have hinstr := forall_mem_moveOpens hmoved hblock source (List.mem_of_getElem? hsource)
  cases hthreaded with
  | same => exact hinstr
  | jump => exact hjumps _ _ hinstr

theorem Compiled.proper (h : p.Compiled program block code) :
    ∀ instr ∈ code, instr.Proper program := by
  refine h.forall_mem (fun _ _ _ hproper hle => ⟨hle, hproper.2⟩)
    (fun _ _ => Instr.proper_withOffset.2) fun instr hmem => ?_
  rcases proper_lower h.lowered (.refl _) instr hmem with hproper | ⟨_, _, _, hscope, -⟩
  · exact hproper
  · cases hscope

theorem Compiled.lands (h : p.Compiled program block code) {k : Nat} {instr : Instr} {off : Int}
    (hinstr : program.code[k]? = some instr) (hoff : instr.offset? = some off) :
    0 ≤ k + off ∧ k + off ≤ (program.size : Int) - 2 := by
  have hcont : Contained code := h.threaded.contained (contained_moveOpens (contained_lower h.lowered))
  have hwhole : JumpsWithin 0 code.length 0 (code ++ [.done, .giveUp]) :=
    jumpsWithin_append.2 ⟨hcont, jumpsWithin_cons.2 ⟨nofun, jumpsWithin_cons.2 ⟨nofun, jumpsWithin_nil⟩⟩⟩
  rw [h.getElem?_eq] at hinstr
  have hjump := hwhole k instr off hinstr hoff
  rw [h.size_eq]
  omega

theorem size_le_of_compile (h : p.compile = .ok program) : program.size ≤ maxOffset := by
  obtain ⟨block, constants, -, h⟩ := compile_ok.1 h
  rw [Program.ofBlock, checkedOffset_bind] at h
  obtain ⟨hle, h⟩ := h
  cases h
  exact hle

/-- **Every compiled pattern is a closed program**, code that no match comes by included. -/
theorem closed_of_compile (h : p.compile = .ok program) : program.Closed := by
  obtain ⟨block, code, hcompiled⟩ := compiled_exists h
  have hsize := size_le_of_compile h
  have hproper : ∀ instr ∈ program.code, instr ≠ .done → instr ≠ .giveUp →
      instr.Proper program := by
    intro instr hmem hdone hgiveUp
    rw [← Array.mem_toList_iff, hcompiled.code_eq, List.mem_append] at hmem
    rcases hmem with hmem | hmem
    · exact hcompiled.proper instr hmem
    · simp [hdone, hgiveUp] at hmem
  refine ⟨⟨code, hcompiled.code_eq, fun instr hmem => ?_⟩, fun k instr off => hcompiled.lands,
    fun instr hmem off hoff => ?_, fun index hmem => hproper _ hmem nofun nofun,
    fun kind index hmem => ?_, fun kind length index hmem => hproper _ hmem nofun nofun,
    fun kind back index hmem => hproper _ hmem nofun nofun⟩
  · have hnot := hcompiled.proper instr hmem
    refine ⟨?_, ?_, fun rule => ?_⟩ <;>
      · rintro rfl
        exact hnot
  · obtain ⟨k, hk⟩ := Array.getElem?_of_mem hmem
    have hlands := hcompiled.lands hk hoff
    have hlt : k < program.size := (Array.getElem?_eq_some_iff.1 hk).1
    omega
  · rcases hmem with hmem | hmem <;> exact hproper _ hmem nofun nofun

end Pattern

/-! ## A closed program -/

/-- The matcher that consumes nothing. -/
def stay : Matcher := fun _ pos => some pos

/-- A rule that records a group and calls itself, or runs a matcher and takes the group back. -/
def recording : Pattern :=
  .grammar (.index 0) [(.index 0,
    .choice
      (.seq (.capture (.named "x") (.seq (.literal #[97]) (.rep (.literal #[98]) 0)))
        (.rule (.index 0)))
      (.seq (.matcher stay) (.backref "x")))]

/-- The program of the rule. -/
def recordingProgram : Program where
  code := #[.call 2, .jump 11, .choice 7 0, .char 97 0, .openCapture .group 1 1,
    .span (.ofList [98]), .closeCapture, .call (-5), .commit 3, .matcher 2,
    .emptyCaptureConst .backref 3, .ret, .done, .giveUp]
  constants := #[.name "x", .matcher stay, .name "x"]

theorem compile_recording : recording.compile = .ok recordingProgram := rfl

theorem closed_recording : recording.compile = .ok recordingProgram ∧ recordingProgram.Closed :=
  ⟨compile_recording, Pattern.closed_of_compile compile_recording⟩

end PegMachine
