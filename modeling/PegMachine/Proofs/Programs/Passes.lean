import PegMachine.Proofs.Lowering.Branching
import PegMachine.Proofs.Programs.Aims
import PegMachine.Proofs.Programs.Plays

/-!
# Programs with and without the passes

* `Passes`: which of the passes to make. `Pattern.compileWith`: the program of a pattern, with these
  passes made.
* `Pattern.exists_play`: **whichever passes are made, the code has the same play.**
* `Program.PlaysAs`: matches of two programs come to the same outcomes, with the same calls on the
  way.
* `Pattern.playsAs_of_compileWith`: **the passes make no difference to matches.**
* `Program.KeepsTests`: the instructions of two programs are the same apart from jumps, and the same
  of them are tests.
* `Pattern.keepsTests_of_compileWith`: **threading makes no check of a test**, since in the code of a
  pattern no test jumps to where a chain of jumps leads back to it.
-/

namespace PegMachine

open Block

/-- Which of the passes to make over the code of a program. -/
structure Passes where
  move : Bool
  thread : Bool

/-- The code of a block before its jumps are threaded. -/
def Passes.moved (passes : Passes) (block : Block) : Block :=
  if passes.move then moveOpens block else block

/-- The program of a block, with some passes made. -/
def Program.ofBlockWith (passes : Passes) (block : Block) (constants : Array Constant) :
    Except Fault Program := do
  let whole := (passes.moved block).toArray.push .done
  let threaded := if passes.thread then threadJumps whole else whole
  let code := threaded.push .giveUp
  let _ ← checkedOffset code.size
  return ⟨code, constants⟩

/-- The program of a pattern, with some passes made. -/
def Pattern.compileWith (passes : Passes) (p : Pattern) : Except Fault Program := do
  let (block, constants) ← (p.lower none).run #[]
  Program.ofBlockWith passes block constants

theorem Pattern.compileWith_both (p : Pattern) : p.compileWith ⟨true, true⟩ = p.compile := rfl

/-- The code that some passes make of a block. -/
structure Passes.Make (passes : Passes) (block code : Block) : Prop where
  threaded : AllThreaded (passes.moved block) code.toArray
  unthreaded : passes.thread = false → code = passes.moved block

/-- Matches of both programs come to the same outcome, and call the same functions of the pattern
with the same arguments on the way. -/
def Program.PlaysAs (program other : Program) : Prop :=
  ∀ (limits : Limits) (subject : Bytes) (arguments : List Value) (start : Nat),
    let m : Setting := ⟨program, limits, subject, arguments⟩
    let m' : Setting := ⟨other, limits, subject, arguments⟩
    let pos := min start subject.size
    ∃ play, m.Plays (m.initial pos) play ∧ m'.Plays (m'.initial pos) play ∧
      m.Ends pos play.outcome ∧ m'.Ends pos play.outcome

/-- The instructions of a program are those of another one apart from their jumps, and what is a
check there is one, and nothing else. -/
def Program.KeepsTests (program other : Program) : Prop :=
  program.code.size = other.code.size ∧ ∀ (k : Nat) (instr : Instr), other.code[k]? = some instr →
    ∃ off, program.code[k]? = some (instr.withOffset off) ∧
      (instr.withOffset off).isCheck = instr.isCheck

section

variable {m : Setting} {p : Pattern} {passes : Passes} {block code : Block} {instr : Instr}
  {constants : Array Constant} {pos k : Nat}

/-! ## The first pass -/

theorem Passes.length_moved (passes : Passes) (block : Block) :
    (passes.moved block).length = block.length := by
  rw [moved]
  split
  · exact length_moveOpens block
  · rfl

theorem Passes.contained_moved (passes : Passes) (hcont : Contained block) :
    Contained (passes.moved block) := by
  rw [moved]
  split
  · exact contained_moveOpens hcont
  · exact hcont

theorem Passes.not_leads_moved (passes : Passes) (hbranching : Branching block)
    (hinstr : (passes.moved block)[k]? = some instr) {off : Int} {n : Nat}
    (hoff : instr.testOffset? = some off) (hn : (k : Int) + off = n) :
    ¬ Leads (passes.moved block) n k := by
  have hblock : block[k]? = some instr → ¬ Leads block n k := fun hk hleads => by
    obtain ⟨n', hn', -, hnot⟩ := hbranching.branches k instr off hk hoff
    obtain rfl : n = n' := by omega
    exact hnot hleads
  rw [moved] at hinstr ⊢
  split at hinstr
  · next hmove =>
    rw [if_pos hmove]
    refine fun hleads => hblock ?_ (leads_of_moveOpens hleads)
    rcases moved_getElem? (aligned_moveOpens block) hinstr with hk | hcheck | ⟨_, _, _, rfl⟩
    · exact hk
    · rw [Instr.testOffset?_of_isCheck hcheck] at hoff
      cases hoff
    · cases hoff
  · next hmove =>
    rw [if_neg hmove]
    exact hblock hinstr

/-! ## Plays of the code of a pattern -/

/-- **Whichever passes are made, the code has the same play.** -/
theorem Pattern.exists_play (hlower : p.lower none #[] = .ok (block, m.program.constants))
    (hpos : pos ≤ m.subject.size) :
    ∃ play, ∀ (passes : Passes) (code : Block), passes.Make block code →
      (m.onCode code).Plays ((m.onCode code).initial pos) play := by
  obtain ⟨r, n, hrun, -⟩ := runs_lower (fun _ _ _ => none) #[] hlower (.refl _) id hpos
  have hcont := contained_lower hlower
  have haligned := aligned_moveOpens block
  have hfirst : ∀ source, (threading source).OnConfigs ⟨0, pos, [], #[]⟩ ⟨0, pos, [], #[]⟩ :=
    fun source => ⟨.refl 0, rfl, rfl, .nil⟩
  obtain ⟨play, hplay, hmoved⟩ := hrun.plays_moved hcont haligned pos
  have hplay' := (hmoved nofun).settled haligned
  refine ⟨play, fun passes code hcode => ?_⟩
  have hthreaded := hcode.threaded
  rw [Passes.moved] at hthreaded
  split at hthreaded
  · obtain ⟨play', hsource, hlast⟩ := (hrun.moved hcont).plays_threaded hthreaded pos
    rw [Setting.Plays.unique hplay' hsource]
    exact hlast _ (hfirst _)
  · obtain ⟨play', hsource, hlast⟩ := hrun.plays_threaded hthreaded pos
    rw [Setting.Plays.unique hplay hsource]
    exact hlast _ (hfirst _)

/-! ## Programs -/

theorem Passes.exists_make (passes : Passes) (hcont : Contained block) :
    ∃ code : Block, passes.Make block code ∧
      (if passes.thread then threadJumps ((passes.moved block).toArray.push .done)
        else (passes.moved block).toArray.push .done).push .giveUp =
          (code ++ [Instr.done, Instr.giveUp]).toArray := by
  have hmoved := passes.contained_moved hcont
  split
  · next hthread =>
    obtain ⟨code, hall, hcode⟩ := exists_threaded hmoved
    refine ⟨code, ⟨hall, fun hno => ?_⟩, hcode⟩
    rw [hthread] at hno
    cases hno
  · exact ⟨passes.moved block, ⟨allThreaded_toArray hmoved, fun _ => rfl⟩, by simp⟩

theorem Program.ofBlockWith_eq (passes : Passes) (hcont : Contained block) :
    ∃ code, passes.Make block code ∧ Program.ofBlockWith passes block constants =
      if block.length + 2 ≤ maxOffset then
        .ok ⟨(code ++ [Instr.done, Instr.giveUp]).toArray, constants⟩
      else .error .patternTooBig := by
  obtain ⟨code, hmake, hcode⟩ := passes.exists_make hcont
  refine ⟨code, hmake, ?_⟩
  have hlength : code.length = block.length :=
    Eq.trans hmake.threaded.1 (passes.length_moved block)
  simp only [Program.ofBlockWith]
  rw [hcode]
  exact Program.checked_eq hlength constants

namespace Pattern

/-- Either no program comes of a pattern, or one does whichever passes are made. -/
theorem compileWith_cases (p : Pattern) :
    (∃ fault, ∀ passes, p.compileWith passes = .error fault) ∨
      ∃ block constants, p.lower none #[] = .ok (block, constants) ∧ ∀ passes, ∃ code,
        passes.Make block code ∧ p.compileWith passes =
          .ok ⟨(code ++ [Instr.done, Instr.giveUp]).toArray, constants⟩ := by
  have hcompile : ∀ passes, p.compileWith passes =
      (p.lower none #[] >>= fun found => Program.ofBlockWith passes found.1 found.2) :=
    fun _ => rfl
  cases hlower : p.lower none #[] with
  | error fault => exact .inl ⟨fault, fun passes => by rw [hcompile, hlower]; rfl⟩
  | ok found =>
    obtain ⟨block, constants⟩ := found
    have hblock : ∀ passes, ∃ code, passes.Make block code ∧ p.compileWith passes =
        if block.length + 2 ≤ maxOffset then
          .ok ⟨(code ++ [Instr.done, Instr.giveUp]).toArray, constants⟩
        else .error .patternTooBig := fun passes => by
      rw [hcompile, hlower]
      exact Program.ofBlockWith_eq passes (contained_lower hlower)
    by_cases hfits : block.length + 2 ≤ maxOffset
    · refine .inr ⟨block, constants, rfl, fun passes => ?_⟩
      obtain ⟨code, hcode, heq⟩ := hblock passes
      exact ⟨code, hcode, heq.trans (if_pos hfits)⟩
    · refine .inl ⟨.patternTooBig, fun passes => ?_⟩
      obtain ⟨code, -, heq⟩ := hblock passes
      exact heq.trans (if_neg hfits)

/-- **The passes make no difference to matches**, nor to whether a pattern compiles. -/
theorem playsAs_of_compileWith (p : Pattern) (passes passes' : Passes) :
    (∀ fault, p.compileWith passes = .error fault ↔ p.compileWith passes' = .error fault) ∧
    ∀ program, p.compileWith passes = .ok program →
      ∃ program', p.compileWith passes' = .ok program' ∧ program.PlaysAs program' := by
  rcases p.compileWith_cases with ⟨fault, hfault⟩ | ⟨block, constants, hlower, hok⟩
  · rw [hfault, hfault]
    exact ⟨fun _ => Iff.rfl, nofun⟩
  · obtain ⟨code, hcode, heq⟩ := hok passes
    obtain ⟨code', hcode', heq'⟩ := hok passes'
    rw [heq, heq']
    refine ⟨fun _ => ⟨nofun, nofun⟩, fun program hprogram => ⟨_, rfl, ?_⟩⟩
    cases hprogram
    intro limits subject arguments start
    obtain ⟨play, hplay⟩ := p.exists_play (m := ⟨⟨#[], constants⟩, limits, subject, arguments⟩)
      hlower (Nat.min_le_right start subject.size)
    exact ⟨play, hplay passes code hcode, hplay passes' code' hcode', (hplay passes code hcode).ends,
      (hplay passes' code' hcode').ends⟩

/-- **To move the starts of captures makes no difference to matches.** Without that pass, a pattern
that compiles gives a program whose matches come to the same outcomes, and that calls the functions
of the pattern with the same arguments. -/
theorem playsAs_unmoved (p : Pattern) :
    (∀ fault, p.compile = .error fault ↔ p.compileWith ⟨false, true⟩ = .error fault) ∧
    ∀ program, p.compile = .ok program →
      ∃ plain, p.compileWith ⟨false, true⟩ = .ok plain ∧ program.PlaysAs plain := by
  rw [← p.compileWith_both]
  exact p.playsAs_of_compileWith ⟨true, true⟩ ⟨false, true⟩

end Pattern

/-! ## Tests of a program -/

/-- Threading makes no check of a test of the code of a block. -/
theorem Passes.Make.keepsTests (h : passes.Make block code) (hbranching : Branching block) :
    Program.KeepsTests ⟨(code ++ [Instr.done, Instr.giveUp]).toArray, constants⟩
      ⟨(passes.moved block ++ [Instr.done, Instr.giveUp]).toArray, constants⟩ := by
  have hlength : code.length = (passes.moved block).length := h.threaded.1
  refine ⟨by simp [hlength], fun k instr hinstr => ?_⟩
  rw [List.getElem?_toArray] at hinstr ⊢
  rcases Nat.lt_or_ge k code.length with hlt | hge
  · rw [List.getElem?_append_left (hlength ▸ hlt)] at hinstr
    obtain ⟨instr', hinstr', hthreaded⟩ := h.threaded.2 k instr hinstr
    rw [List.getElem?_toArray] at hinstr'
    obtain ⟨off, rfl, hcheck⟩ := hthreaded.keepsTest fun off n =>
      passes.not_leads_moved hbranching hinstr
    exact ⟨off, by rw [List.getElem?_append_left hlt, hinstr'], hcheck⟩
  · rw [List.getElem?_append_right (hlength ▸ hge), ← hlength,
      ← List.getElem?_append_right hge] at hinstr
    have hnone : instr.offset? = none := by
      rw [List.getElem?_append_right hge] at hinstr
      have hmem := List.mem_of_getElem? hinstr
      rcases List.mem_cons.1 hmem with rfl | hmem
      · rfl
      · cases List.mem_singleton.1 hmem
        rfl
    exact ⟨0, by rw [withOffset_of_none hnone, hinstr], by rw [withOffset_of_none hnone]⟩

namespace Pattern

/-- **Threading makes no check of a test**, in the program of whatever pattern, and whether or not
the starts of captures are moved. -/
theorem keepsTests_of_compileWith {move : Bool} {program plain : Program}
    (hprogram : p.compileWith ⟨move, true⟩ = .ok program)
    (hplain : p.compileWith ⟨move, false⟩ = .ok plain) : program.KeepsTests plain := by
  rcases p.compileWith_cases with ⟨fault, hfault⟩ | ⟨block, constants, hlower, hok⟩
  · rw [hfault] at hprogram
    cases hprogram
  · obtain ⟨code, hcode, heq⟩ := hok ⟨move, true⟩
    obtain ⟨code', hcode', heq'⟩ := hok ⟨move, false⟩
    rw [heq] at hprogram
    rw [heq', hcode'.unthreaded rfl] at hplain
    cases hprogram
    cases hplain
    exact hcode.keepsTests (branching_lower hlower)

/-- **To thread jumps makes no difference to matches.** Without that pass, a pattern that compiles
gives a program whose matches come to the same outcomes, with the same calls on the way, and the
tests of one program are the tests of the other. On any code, of a pattern or not, the pass lets
jumps go further the way that jumps of the code lead, and for each instruction it goes along at most
as many of them as there are instructions: in a circle of jumps it ends as well. -/
theorem playsAs_unthreaded (p : Pattern) :
    (∀ fault, p.compile = .error fault ↔ p.compileWith ⟨true, false⟩ = .error fault) ∧
    (∀ program, p.compile = .ok program →
      ∃ plain, p.compileWith ⟨true, false⟩ = .ok plain ∧ program.PlaysAs plain ∧
        program.KeepsTests plain) ∧
    ∀ code : Array Instr, AllRedirected code (threadJumps code) ∧ ∀ address : Int,
      ∃ count ≤ code.size, JumpsTo code count address (followJumps code code.size address) ∧
        (count < code.size → jumpAt? code (followJumps code code.size address) = none) := by
  rw [← p.compileWith_both]
  obtain ⟨herror, hok⟩ := p.playsAs_of_compileWith ⟨true, true⟩ ⟨true, false⟩
  refine ⟨herror, fun program hprogram => ?_, fun code =>
    ⟨allRedirected_threadJumps code, followJumps_jumpsTo code code.size⟩⟩
  obtain ⟨plain, hplain, hplays⟩ := hok program hprogram
  exact ⟨plain, hplain, hplays, keepsTests_of_compileWith hprogram hplain⟩

end Pattern

end

theorem rewinding_playsAs_unmoved :
    ∃ plain, rewinding.compileWith ⟨false, true⟩ = .ok plain ∧ rewindingProgram.PlaysAs plain :=
  (Pattern.playsAs_unmoved rewinding).2 rewindingProgram compile_rewinding

theorem rewinding_playsAs_unthreaded :
    ∃ plain, rewinding.compileWith ⟨true, false⟩ = .ok plain ∧ rewindingProgram.PlaysAs plain ∧
      rewindingProgram.KeepsTests plain :=
  (Pattern.playsAs_unthreaded rewinding).2.1 rewindingProgram compile_rewinding

end PegMachine
