import PegMachine.Proofs.Blocks.Linking

/-!
# Blocks with other numbers

* `Instr.rename`: an instruction with other numbers for the constants and rules that it refers to.
* `Block.choice_rename` and so on: **how blocks are put together does not depend on these numbers.**
-/

namespace PegMachine

/-- What a capture refers to, with other numbers for the constants. The number of an argument is
none of them. -/
def CaptureKind.renumber (constant : Nat → Nat) (kind : CaptureKind) (index : Nat) : Nat :=
  if kind = .argument then index else constant index

theorem CaptureKind.renumber_of_ne {constant : Nat → Nat} {kind : CaptureKind}
    (h : kind ≠ .argument) (index : Nat) : kind.renumber constant index = constant index :=
  if_neg h

namespace Instr

/-- The instruction with other numbers for the constants and the rules that it refers to. -/
def rename (constant rule : Nat → Nat) : Instr → Instr
  | .openCall place => .openCall (rule place)
  | .matcher index => .matcher (constant index)
  | .fullCapture kind length index => .fullCapture kind length (kind.renumber constant index)
  | .emptyCapture kind index => .emptyCapture kind (kind.renumber constant index)
  | .emptyCaptureConst kind index => .emptyCaptureConst kind (kind.renumber constant index)
  | .openCapture kind back index => .openCapture kind back (kind.renumber constant index)
  | instr => instr

/-- The number of the constant that an instruction refers to; zero if there is none. -/
def constantIndex : Instr → Nat
  | .matcher index => index
  | .fullCapture kind _ index | .emptyCapture kind index | .emptyCaptureConst kind index
  | .openCapture kind _ index =>
    if kind = .argument then 0 else index
  | _ => 0

end Instr

section

variable (σ ρ : Nat → Nat) (instr : Instr)

/-! ## Instructions -/

namespace Instr

@[simp]
theorem isCheck_rename : (instr.rename σ ρ).isCheck = instr.isCheck := by
  cases instr <;> rfl

@[simp]
theorem step_rename : (instr.rename σ ρ).step = instr.step := by
  cases instr <;> rfl

@[simp]
theorem isSkip_rename : (instr.rename σ ρ).isSkip = instr.isSkip := by
  cases instr <;> rfl

@[simp]
theorem firstSet?_rename : (instr.rename σ ρ).firstSet? = instr.firstSet? := by
  cases instr <;> rfl

@[simp]
theorem cannotFail_rename : (instr.rename σ ρ).cannotFail = instr.cannotFail := by
  cases instr <;> rfl

@[simp]
theorem offset?_rename : (instr.rename σ ρ).offset? = instr.offset? := by
  cases instr <;> rfl

@[simp]
theorem withTest_rename (off : Int) :
    (instr.rename σ ρ).withTest off = (instr.withTest off).rename σ ρ := by
  cases instr <;> rfl

theorem rename_ne_openCall {instr : Instr} (h : ∀ place, instr ≠ .openCall place) :
    ∀ place, instr.rename σ ρ ≠ .openCall place := by
  cases instr with
  | openCall place => exact absurd rfl (h place)
  | _ => exact fun _ => nofun

theorem constantIndex_rename (hσ : σ 0 = 0) :
    (instr.rename σ ρ).constantIndex = σ instr.constantIndex := by
  cases instr with
  | fullCapture kind | emptyCapture kind | emptyCaptureConst kind | openCapture kind =>
    by_cases h : kind = .argument <;>
      simp [rename, constantIndex, CaptureKind.renumber, h, hσ]
  | matcher => rfl
  | _ => exact hσ.symm

end Instr

end

namespace Block

variable (σ ρ : Nat → Nat) (a b code : Block)

/-! ## Properties of blocks -/

@[simp]
theorem isFail_rename : isFail (code.map (Instr.rename σ ρ)) = isFail code := by
  cases code with
  | nil => rfl
  | cons head rest =>
    cases rest with
    | nil => cases head <;> rfl
    | cons => cases head <;> rfl

@[simp]
theorem charset?_rename : charset? (code.map (Instr.rename σ ρ)) = charset? code := by
  cases code with
  | nil => rfl
  | cons head rest => cases rest <;> simp [charset?]

@[simp]
theorem width_rename : width (code.map (Instr.rename σ ρ)) = width code := by
  simp [width, List.foldr_map]

@[simp]
theorem fixedLength?_rename : fixedLength? (code.map (Instr.rename σ ρ)) = fixedLength? code := by
  simp [fixedLength?, Function.comp_def]

@[simp]
theorem anyLength?_rename : anyLength? (code.map (Instr.rename σ ρ)) = anyLength? code := by
  simp [anyLength?, Function.comp_def]

@[simp]
theorem landsOn_rename (target : Int) (start : Nat) :
    landsOn target start (code.map (Instr.rename σ ρ)) = landsOn target start code := by
  induction code generalizing start with
  | nil => rfl
  | cons head rest ih => simp [landsOn, ih]

@[simp]
theorem failsAtHead_rename : failsAtHead (code.map (Instr.rename σ ρ)) = failsAtHead code := by
  cases code with
  | nil => rfl
  | cons head rest => simp [failsAtHead, landsOn, Function.comp_def]

@[simp]
theorem withHeadTest_rename (off : Int) :
    withHeadTest off (code.map (Instr.rename σ ρ)) =
      (withHeadTest off code).map (Instr.rename σ ρ) := by
  cases code <;> simp [withHeadTest]

/-! ## Choices -/

@[simp]
theorem hoistCheck_rename : hoistCheck (code.map (Instr.rename σ ρ)) =
    (hoistCheck code).map (Instr.rename σ ρ) := by
  cases code with
  | nil => rfl
  | cons head rest =>
    cases rest with
    | nil => cases head <;> rfl
    | cons check rest =>
      cases head with
      | choice off back =>
        have hlands := landsOn_rename σ ρ (.choice off back :: check :: rest) 1 0
        change landsOn 1 0 (.choice off back :: check.rename σ ρ :: rest.map (Instr.rename σ ρ)) =
          _ at hlands
        change hoistCheck (.choice off back :: check.rename σ ρ :: rest.map (Instr.rename σ ρ)) = _
        rw [hoistCheck, hoistCheck, hlands, Instr.isCheck_rename, Instr.withTest_rename,
          Instr.step_rename]
        split <;> rfl
      | _ => rfl

@[simp]
theorem areExclusive_rename :
    areExclusive (a.map (Instr.rename σ ρ)) (b.map (Instr.rename σ ρ)) = areExclusive a b := by
  cases a with
  | nil => rfl
  | cons x rest => cases b <;> simp [areExclusive, landsOn]

theorem ofSet_rename (bytes : ByteSet) : (ofSet bytes).map (Instr.rename σ ρ) = ofSet bytes := by
  rw [ofSet]
  split
  · rfl
  · split <;> rfl

theorem map_ok {α β : Type} (f : α → β) (x : α) :
    f <$> (Except.ok x : Except Fault α) = .ok (f x) := rfl

theorem choice_rename : choice (a.map (Instr.rename σ ρ)) (b.map (Instr.rename σ ρ)) =
    List.map (Instr.rename σ ρ) <$> choice a b := by
  simp only [choice, isFail_rename, List.isEmpty_map, charset?_rename, areExclusive_rename,
    failsAtHead_rename, List.length_map]
  split
  · rfl
  · split
    · rfl
    · split
      · rw [map_ok, ofSet_rename]
      · split
        · simp [Instr.rename]
        · simp [Instr.rename, ← hoistCheck_rename]

theorem difference_rename :
    difference (a.map (Instr.rename σ ρ)) (b.map (Instr.rename σ ρ)) =
    List.map (Instr.rename σ ρ) <$> difference a b := by
  simp only [difference, isFail_rename, List.isEmpty_map, charset?_rename,
    failsAtHead_rename, List.length_map]
  split
  · rfl
  · split
    · rfl
    · split
      · rw [map_ok, ofSet_rename]
      · split
        · simp [Instr.rename]
        · simp [Instr.rename, ← hoistCheck_rename]

theorem lookahead_rename : lookahead (a.map (Instr.rename σ ρ)) =
    List.map (Instr.rename σ ρ) <$> lookahead a := by
  simp only [lookahead, isFail_rename, List.isEmpty_map, List.length_map]
  split
  · rfl
  · simp [Instr.rename]

theorem skip_rename (count : Nat) : (skip count).map (Instr.rename σ ρ) = skip count := by
  rw [skip]
  split <;> simp [Instr.rename]

theorem any_rename (n : Int) : List.map (Instr.rename σ ρ) <$> any n = any n := by
  simp only [any, map_bind]
  congr 1
  funext _
  split
  · rw [map_ok, skip_rename]
  · split
    · rfl
    · rw [← difference_rename, skip_rename]
      rfl

theorem sequence_rename : sequence (a.map (Instr.rename σ ρ)) (b.map (Instr.rename σ ρ)) =
    List.map (Instr.rename σ ρ) <$> sequence a b := by
  simp only [sequence, isFail_rename, List.isEmpty_map, anyLength?_rename]
  split
  · rfl
  · split
    · rfl
    · split
      · rw [any_rename]
      · rw [map_ok, List.map_append]

theorem copies_rename (count : Nat) : copies count (code.map (Instr.rename σ ρ)) =
    (copies count code).map (Instr.rename σ ρ) := by
  simp [copies, List.map_flatten]

theorem loop_rename : loop (code.map (Instr.rename σ ρ)) =
    (loop code).map (Instr.rename σ ρ) := by
  simp only [loop, charset?_rename, failsAtHead_rename, List.length_map]
  split
  · rfl
  · split <;> simp [Instr.rename]

theorem testedCopies_rename (count : Nat) : testedCopies count (code.map (Instr.rename σ ρ)) =
    (testedCopies count code).map (Instr.rename σ ρ) := by
  simp [testedCopies, List.map_flatMap]

theorem committedCopies_rename (count : Nat) : committedCopies count (code.map (Instr.rename σ ρ)) =
    (committedCopies count code).map (Instr.rename σ ρ) := by
  simp [committedCopies, copies, Instr.rename]

theorem optional_rename (count : Nat) : optional count (code.map (Instr.rename σ ρ)) =
    (optional count code).map (Instr.rename σ ρ) := by
  simp only [optional, failsAtHead_rename, testedCopies_rename, committedCopies_rename,
    List.length_map]
  split
  · rfl
  · simp [Instr.rename, ← hoistCheck_rename]

theorem repetition_rename (n : Int) : repetition (code.map (Instr.rename σ ρ)) n =
    List.map (Instr.rename σ ρ) <$> repetition code n := by
  simp only [repetition, List.length_map, copies_rename, loop_rename, optional_rename]
  simp [apply_ite (List.map _)]

theorem enclose_rename {kind : CaptureKind} (hkind : kind ≠ .argument) (index : Nat) :
    enclose kind (σ index) (code.map (Instr.rename σ ρ)) =
      (enclose kind index code).map (Instr.rename σ ρ) := by
  simp only [enclose, fixedLength?_rename]
  split
  · simp [Instr.rename, CaptureKind.renumber_of_ne hkind]
  · split <;> simp [Instr.rename, CaptureKind.renumber_of_ne hkind]

end Block

/-! ## Linking -/

section

variable (σ ρ : Nat → Nat) (bodies : List Block)

theorem startsFrom_rename (start : Nat) :
    startsFrom start (bodies.map (List.map (Instr.rename σ ρ))) = startsFrom start bodies := by
  induction bodies generalizing start with
  | nil => rfl
  | cons body rest ih => simp [startsFrom, ih]

theorem ruleBlocks_rename : ruleBlocks (bodies.map (List.map (Instr.rename σ ρ))) =
    (ruleBlocks bodies).map (Instr.rename σ ρ) := by
  simp [ruleBlocks, List.map_flatMap, List.flatMap_map, Instr.rename]

theorem returnsAt_rename (code : Array Instr) (n : Nat) (address : Int) :
    returnsAt (code.map (Instr.rename σ ρ)) n address = returnsAt code n address := by
  induction n generalizing address with
  | zero => rfl
  | succ n ih =>
    rw [returnsAt, returnsAt, Array.getElem?_map]
    cases code[address.toNat]? with
    | none => rfl
    | some instr => cases instr <;> simp [Instr.rename, ih]

theorem linkCall_rename (addresses : Array Nat) (code : Array Instr) (address : Nat) :
    linkCall addresses (code.map (Instr.rename σ id)) address =
      (linkCall addresses code address).map (Instr.rename σ id) := by
  rw [linkCall, linkCall, Array.getElem?_map, returnsAt_rename, Array.size_map]
  cases code[address]? with
  | none => rfl
  | some instr =>
    cases instr with
    | openCall rule =>
      simp only [Option.map_some, Instr.rename, id]
      rw [Array.map_setIfInBounds]
      split <;> rfl
    | _ => rfl

/-- Where no call is open, the numbers of the rules make no difference. -/
theorem rename_of_not_mem {code : Block} (h : ∀ rule, .openCall rule ∉ code) :
    code.map (Instr.rename σ id) = code.map (Instr.rename σ ρ) := by
  refine List.map_congr_left fun instr hinstr => ?_
  cases instr with
  | openCall rule => exact absurd hinstr (h rule)
  | _ => rfl

/-- **A grammar is linked in the same way whatever the constants.** -/
theorem link_rename {startRule : Nat} {code : Block} (h : link startRule bodies = .ok code) :
    link startRule (bodies.map (List.map (Instr.rename σ id))) =
      .ok (code.map (Instr.rename σ id)) := by
  have hfold : ∀ (addresses : Array Nat) (places : List Nat) (code : Array Instr),
      places.foldl (linkCall addresses) (code.map (Instr.rename σ id)) =
        (places.foldl (linkCall addresses) code).map (Instr.rename σ id) := by
    intro addresses places
    induction places with
    | nil => exact fun _ => rfl
    | cons place rest ih => exact fun code => by rw [List.foldl_cons, linkCall_rename, ih]; rfl
  obtain ⟨hstart, hend, rfl⟩ := link_ok.1 h
  rw [link_ok, startsFrom_rename, ruleBlocks_rename, List.length_map]
  refine ⟨hstart, hend, ?_⟩
  rw [← Array.toList_map, ← hfold, List.map_toArray, unlinked, unlinked, ruleBlocks_rename]
  rfl

end

end PegMachine
