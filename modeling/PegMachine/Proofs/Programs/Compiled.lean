import PegMachine.Proofs.Lowering.Correct
import PegMachine.Proofs.Passes.MovedRuns
import PegMachine.Proofs.Passes.ThreadedRuns

/-!
# Compiled programs

* `Program.ofBlock_eq`: a block becomes a program unless it gets too long.
* `Pattern.Compiled`: a program, the block that it was made of, and the code of the program in front
  of the instructions that end a match.
* `Pattern.compiled_exists`: every pattern that compiles gives such a program.
* `Pattern.Compiled.runs_within`: **the run of the code comes to an answer in line with the pattern,
  in the room that the match costs.**
* `Pattern.Compiled.runs`: apart from the room, the run agrees with what the pattern means.
-/

namespace PegMachine

open Block

/-- A program is made of the block of a pattern, and holds the code before the instructions that end
a match. -/
structure Pattern.Compiled (p : Pattern) (program : Program) (block code : Block) : Prop where
  lowered : p.lower none #[] = .ok (block, program.constants)
  code_eq : program.code.toList = code ++ [.done, .giveUp]
  threaded : AllThreaded (moveOpens block) code.toArray

/-- The program has the code in front of the instructions that end a match. -/
def Program.HasCode (program : Program) (code : Block) : Prop :=
  program.code.toList = code ++ [.done, .giveUp]

namespace Program.HasCode

variable {program : Program} {code : Block} {instr : Instr} {k : Nat}

theorem size_eq (h : program.HasCode code) : program.size = code.length + 2 := by
  show program.code.size = _
  rw [← Array.length_toList, h, List.length_append]
  rfl

theorem getElem?_eq (h : program.HasCode code) (k : Nat) :
    program.code[k]? = (code ++ [.done, .giveUp])[k]? := by
  rw [← Array.getElem?_toList, h]

theorem getElem?_of_code (h : program.HasCode code) (hinstr : code[k]? = some instr) :
    program.code[k]? = some instr := by
  rw [h.getElem?_eq, List.getElem?_append_left (List.getElem?_eq_some_iff.1 hinstr).1]
  exact hinstr

theorem getElem?_done (h : program.HasCode code) : program.code[code.length]? = some .done := by
  rw [h.getElem?_eq]
  simp

theorem getElem?_giveUp (h : program.HasCode code) :
    program.code[program.size - 1]? = some .giveUp := by
  rw [h.getElem?_eq, h.size_eq]
  simp

end Program.HasCode

/-! ## Answers -/

/-- An answer agrees with what a pattern means, where nothing has been recorded before. Where `free`
holds there are no match-time captures. -/
def Answer.Agrees (m : Setting) (free : Prop) (rules : Rules) (p : Pattern) (pos : Nat) :
    Answer → Prop
  | .matched stop captures => free → ∃ forest, Derives m.subject rules p pos (some (stop, forest)) ∧
      Serialises m.program captures.toList forest
  | .failed => free → Derives m.subject rules p pos none
  | .crashed _ => ¬ free

theorem Answer.InLine.agrees {m : Setting} {free : Prop} {rules : Rules} {known : List RuleKey}
    {p : Pattern} {pos n : Nat} {r : Answer} (h : r.InLine m free rules known p pos #[] n) :
    r.Agrees m free rules p pos := by
  cases r with
  | matched stop captures =>
    obtain ⟨-, -, -, entries, hrecords, -, hforest⟩ := h
    obtain rfl : captures.toList = entries := hrecords
    intro hfree
    obtain ⟨forest, hcosts, hserial⟩ := hforest hfree
    exact ⟨forest, hcosts.derives, hserial⟩
  | failed => exact fun hfree => (h hfree).derives
  | crashed fault => exact h

/-- From a configuration the code of a program comes to an answer, in some room. -/
def Setting.ComesTo (m : Setting) (block code : Block) (start : Nat) (c : Config) (r : Answer) :
    Prop :=
  ∃ room, Run m (fun _ _ _ => none) block code ⟨start, #[], room⟩ c r

/-! ## Assembly -/

/-- The jumps of a block are threaded with the instruction behind it that ends a match, which stays
where it is. -/
theorem exists_threaded {source : Block} (hcont : Contained source) :
    ∃ code : Block, AllThreaded source code.toArray ∧
      (threadJumps (source.toArray.push .done)).push .giveUp =
        (code ++ [Instr.done, Instr.giveUp]).toArray := by
  have hdone : Contained [.done] := contained_of_offset?_eq_none (by simp [Instr.offset?])
  obtain ⟨code, hcode, hall⟩ := (threadedAs_threadJumps (contained_append hcont hdone)).split_done
  refine ⟨code, hall, Array.toList_inj.1 ?_⟩
  rw [Array.toList_push, List.push_toArray, hcode, List.append_assoc]
  rfl

theorem Program.checked_eq {code : Block} {n : Nat} (hlength : code.length = n)
    (constants : Array Constant) :
    (checkedOffset (code ++ [Instr.done, Instr.giveUp]).toArray.size >>= fun _ =>
        .ok ⟨(code ++ [Instr.done, Instr.giveUp]).toArray, constants⟩) =
      if n + 2 ≤ maxOffset then
        Except.ok (Program.mk (code ++ [Instr.done, Instr.giveUp]).toArray constants)
      else .error .patternTooBig := by
  rw [List.size_toArray, List.length_append, hlength]
  exact checkedOffset_bind_ok _ _

theorem Program.ofBlock_eq {block : Block} (constants : Array Constant)
    (hcont : Contained block) :
    ∃ code : Block, AllThreaded (moveOpens block) code.toArray ∧
      Program.ofBlock block constants =
        if block.length + 2 ≤ maxOffset then
          .ok ⟨(code ++ [Instr.done, Instr.giveUp]).toArray, constants⟩
        else .error .patternTooBig := by
  obtain ⟨code, hall, hcode⟩ := exists_threaded (contained_moveOpens hcont)
  have hlength : code.length = block.length := Eq.trans hall.1 (length_moveOpens block)
  refine ⟨code, hall, ?_⟩
  rw [Program.ofBlock, hcode]
  exact Program.checked_eq hlength constants

theorem Program.exists_ofBlock {block : Block} {constants : Array Constant}
    (hcont : Contained block) :
    (∃ program, Program.ofBlock block constants = .ok program) ↔ block.length + 2 ≤ maxOffset := by
  obtain ⟨code, -, heq⟩ := Program.ofBlock_eq constants hcont
  rw [heq]
  split
  · next hfits => exact ⟨fun _ => hfits, fun _ => ⟨_, rfl⟩⟩
  · next hfits => exact ⟨nofun, fun h => absurd h hfits⟩

/-- The program of a block without jumps in which no capture starts is the block itself. -/
theorem Program.ofBlock_straight {block : Block} {constants : Array Constant}
    (hstart : ∀ instr ∈ block, instr.start? = none)
    (hoffset : ∀ instr ∈ block, instr.offset? = none) :
    Program.ofBlock block constants =
      if block.length + 2 ≤ maxOffset then
        .ok ⟨(block ++ [Instr.done, Instr.giveUp]).toArray, constants⟩
      else .error .patternTooBig := by
  obtain ⟨code, hall, heq⟩ :=
    Program.ofBlock_eq constants (contained_of_offset?_eq_none hoffset)
  rw [moveOpens_eq_self hstart] at hall
  obtain rfl : code = block := List.toArray_inj (hall.eq_of_straight hoffset)
  exact heq

theorem Program.ofBlock_ok {block : Block} {constants : Array Constant} {program : Program}
    (h : Program.ofBlock block constants = .ok program) (hcont : Contained block) :
    program.constants = constants ∧ ∃ code, program.code.toList = code ++ [.done, .giveUp] ∧
      AllThreaded (moveOpens block) code.toArray := by
  obtain ⟨code, hall, heq⟩ := Program.ofBlock_eq constants hcont
  rw [heq] at h
  split at h
  · cases h
    exact ⟨rfl, code, rfl, hall⟩
  · cases h

namespace Pattern

theorem compiled_exists {p : Pattern} {program : Program} (h : p.compile = .ok program) :
    ∃ block code, p.Compiled program block code := by
  obtain ⟨block, constants, hlower, h⟩ := compile_ok.1 h
  obtain ⟨hconstants, code, hcode, hthreaded⟩ := Program.ofBlock_ok h (contained_lower hlower)
  exact ⟨block, code, by rw [hlower, hconstants], hcode, hthreaded⟩

namespace Compiled

variable {p : Pattern} {program : Program} {block code : Block} {instr : Instr} {k : Nat}

theorem hasCode (h : p.Compiled program block code) : program.HasCode code := h.code_eq

theorem size_eq (h : p.Compiled program block code) : program.size = code.length + 2 :=
  h.hasCode.size_eq

theorem getElem?_eq (h : p.Compiled program block code) (k : Nat) :
    program.code[k]? = (code ++ [.done, .giveUp])[k]? :=
  h.hasCode.getElem?_eq k

theorem getElem?_of_code (h : p.Compiled program block code) (hinstr : code[k]? = some instr) :
    program.code[k]? = some instr :=
  h.hasCode.getElem?_of_code hinstr

theorem getElem?_done (h : p.Compiled program block code) :
    program.code[code.length]? = some .done :=
  h.hasCode.getElem?_done

theorem getElem?_giveUp (h : p.Compiled program block code) :
    program.code[program.size - 1]? = some .giveUp :=
  h.hasCode.getElem?_giveUp

theorem code_call (h : p.Compiled program block code) {off : Int}
    (hinstr : program.code[k]? = some (.call off)) : code[k]? = some (.call off) := by
  rw [h.getElem?_eq] at hinstr
  rcases Nat.lt_or_ge k code.length with hlt | hge
  · rwa [List.getElem?_append_left hlt] at hinstr
  · rw [List.getElem?_append_right hge] at hinstr
    match k - code.length, hinstr with
    | 0, hinstr | 1, hinstr => cases hinstr
    | _ + 2, hinstr => cases hinstr

/-- A call of the program is one of the block, and goes on to where a chain of jumps leads from the
end of that one. -/
theorem block_call (h : p.Compiled program block code) {off : Int}
    (hinstr : program.code[k]? = some (.call off)) : ∃ (off' : Int) (n n' : Nat),
    block[k]? = some (.call off') ∧ (k : Int) + off' = n ∧ (k : Int) + off = n' ∧
      Leads (moveOpens block) n n' := by
  have hcode := h.code_call hinstr
  obtain ⟨source, hsource, hthreaded⟩ := h.threaded.getElem? (k := k) (by simpa using hcode)
  generalize hcall : Instr.call off = instr at hthreaded
  cases hthreaded with
  | same hnone =>
    rw [← hcall] at hnone
    cases hnone
  | jump hoff hn hn' hleads =>
    cases source with
    | call =>
      cases hcall
      cases hoff
      rcases moved_getElem? (aligned_moveOpens block) hsource with hblock | hcheck | ⟨_, _, _, he⟩
      · exact ⟨_, _, _, hblock, hn, hn', hleads⟩
      · cases hcheck
      · cases he
    | _ => cases hcall

theorem run_of_block {m : Setting} (h : p.Compiled m.program block code) {pos n : Nat} {r : Answer}
    (hrun : Runs m (fun _ _ _ => none) n block pos #[] r) :
    Run m (fun _ _ _ => none) block code ⟨pos, #[], n⟩ ⟨0, pos, [], #[]⟩ r :=
  (hrun.moved (contained_lower h.lowered)).threaded h.threaded ⟨.refl 0, rfl, rfl, .nil⟩

theorem rises_of_block {m : Setting} (h : p.Compiled m.program block code) {pos n k : Nat}
    {r : Answer} (hrun : Runs m (fun _ _ _ => none) n block pos #[] r)
    (hrises : Rises m (fun _ _ _ => none) block ⟨0, pos, [], #[]⟩ k) :
    Rises m (fun _ _ _ => none) code ⟨0, pos, [], #[]⟩ k := by
  have hcont := contained_lower h.lowered
  have haligned := aligned_moveOpens block
  have hmoved := (hrises.moved hrun hcont haligned nofun).settled haligned
  exact hmoved.threaded (hrun.moved hcont) h.threaded ⟨.refl 0, rfl, rfl, .nil⟩

/-- **The run of the code comes to an answer in line with the pattern**, in the room that the match
costs. -/
theorem runs_within {m : Setting} (h : p.Compiled m.program block code) {pos : Nat}
    (hpos : pos ≤ m.subject.size) :
    ∃ r n, Run m (fun _ _ _ => none) block code ⟨pos, #[], n⟩ ⟨0, pos, [], #[]⟩ r ∧
      r.InLine m (p.matchTimeFree = true) [] [] p pos #[] n := by
  obtain ⟨r, n, hrun, hline⟩ := runs_lower (fun _ _ _ => none) #[] h.lowered (.refl _) id hpos
  exact ⟨r, n, h.run_of_block hrun, hline⟩

theorem runs {m : Setting} (h : p.Compiled m.program block code) {pos : Nat}
    (hpos : pos ≤ m.subject.size) :
    ∃ r, m.ComesTo block code pos ⟨0, pos, [], #[]⟩ r ∧
      r.Agrees m (p.matchTimeFree = true) [] p pos := by
  obtain ⟨r, n, hrun, hline⟩ := h.runs_within hpos
  exact ⟨r, ⟨n, hrun⟩, hline.agrees⟩

end Compiled

end Pattern

end PegMachine
