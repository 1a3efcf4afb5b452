import PegMachine.Proofs.Blocks.Checks

/-!
# Choices, differences and lookaheads

* `Block.Runs.entered`: a block behind a choice, which may have been moved behind the check at the
  head of the block.
* `ChoiceForm`, `DifferenceForm`, `lookahead_cases`: the forms that the code of a combination takes.
* `Block.runs_choice`, `Block.runs_difference`, `Block.runs_lookahead`: **what that code answers,
  from the answers of its parts.**
-/

namespace PegMachine

/-! ## Answers of combinations -/

namespace Answer

/-- The answer of an ordered choice. -/
def orElse : Answer → Answer → Answer
  | .failed, second => second
  | first, _ => first

/-- The answer of a difference, from that of the pattern that must not match. -/
def diff : Answer → Answer → Answer
  | .matched _ _, _ => .failed
  | .failed, first => first
  | .crashed fault, _ => .crashed fault

/-- The answer of a positive lookahead. -/
def lookahead (pos : Nat) (captures : Array Entry) : Answer → Answer
  | .matched _ _ => .matched pos captures
  | r => r

end Answer

namespace Block

section

variable {m : Setting} {answers : Answers} {room k pos : Nat} {captures : Array Entry}
  {code part tail a b : Block} {r R ra rb : Answer} {off : Nat}

theorem isFail_iff : isFail code = true ↔ code = [.fail] := by
  unfold isFail
  split <;> simp_all

theorem isEmpty_iff : code.isEmpty = true ↔ code = [] := List.isEmpty_iff

theorem Runs.eq_matched_nil (h : Runs m answers room [] pos captures r) :
    r = .matched pos captures :=
  Run.eq_matched h rfl

theorem Runs.eq_failed_fail (h : Runs m answers room [.fail] pos captures r) : r = .failed :=
  Run.unique h (runs_fail h.pos_le)

theorem runs_nil (hpos : pos ≤ m.subject.size) :
    Runs m answers room [] pos captures (.matched pos captures) :=
  .exit rfl rfl (runs_start _ hpos)

theorem length_withHeadTest (off : Int) (code : Block) :
    (withHeadTest off code).length = code.length := by
  cases code <;> rfl

theorem Runs.sound_behind {o : Origin} {address pos' : Nat} {captures' : Array Entry}
    {frames : List Pending} (h : Runs m answers room part pos captures (.matched pos' captures'))
    (ho : o.pos ≤ pos) (hx : Extends o.captures captures)
    (hlevels : LevelsBelow frames captures.size) (hroom : frames.length ≤ o.room) :
    Sound m o ⟨address, pos', frames, captures'⟩ := by
  obtain ⟨hge, hle, hext⟩ := Run.matched_sound h
  exact ⟨Nat.le_trans ho hge, hle, hx.trans hext, hlevels.mono hext.size_le, hroom⟩

theorem Runs.at_end {o : Origin} {n : Nat} (h : Runs m answers room part pos captures r)
    (hat : StandsAt code n part) (hend : n + part.length = code.length) (hcont : Contained part)
    (ho : o.pos ≤ pos) (hx : Extends o.captures captures) (hroom : room ≤ o.room) :
    Run m answers code code o ⟨n, pos, [], captures⟩ r := by
  refine h.within hat hcont ho hx (levelsBelow_nil _) hroom ?_
  cases r with
  | matched pos' captures' =>
    exact .exit hend rfl (h.sound_behind ho hx (levelsBelow_nil _) (Nat.zero_le _))
  | failed | crashed => rfl

/-! ## Entering a block behind a choice -/

/-- What becomes of a choice in front of a block: nothing, or it moves behind the check at the head
of the block, which becomes a test. -/
theorem hoistCheck_cases (off : Int) (back : Nat) (code : Block) :
    hoistCheck (.choice off back :: code) = .choice off back :: code ∨
      ∃ check rest, code = check :: rest ∧ check.isCheck = true ∧ 1 < off ∧
        landsOn 1 0 (.choice off back :: code) = false ∧
        hoistCheck (.choice off back :: code) =
          check.withTest off :: .choice (off - 1) check.step :: rest := by
  cases code with
  | nil => exact .inl rfl
  | cons check rest =>
    rw [hoistCheck]
    split
    · next h =>
      simp only [Bool.and_eq_true, decide_eq_true_eq, Bool.not_eq_true'] at h
      exact .inr ⟨check, rest, rfl, h.1.1, h.1.2, h.2, rfl⟩
    · exact .inl rfl

/-- The choice at `owner` is the innermost one around the addresses behind `part` up to its
alternative, where only code contained before them lies between. -/
def Guards (code : Block) (off : Nat) (part tail : Block) (owner : Nat) : Prop :=
  ∀ (between behind : Block) (address : Nat) (lo : Int), part ++ tail = part ++ between ++ behind →
    address = 1 + (part ++ between).length → address < off →
    JumpsWithin lo address 1 (part ++ between) → OwnChoice code address owner

theorem isCheck_head_of_nil {check : Instr} {rest : Block} (h : part ++ tail = check :: rest)
    (hcheck : check.isCheck = true) (htail : ∀ instr, tail.head? = some instr →
      instr.isCheck = false) : ∃ rest', part = check :: rest' ∧ rest = rest' ++ tail := by
  cases part with
  | nil =>
    have := htail check (by rw [List.nil_append] at h; rw [h]; rfl)
    rw [this] at hcheck
    cases hcheck
  | cons first rest' =>
    rw [List.cons_append, List.cons.injEq] at h
    obtain ⟨rfl, rfl⟩ := h
    exact ⟨rest', rfl, rfl⟩

/-- A block behind a choice does what it does on its own, the choice being pending, wherever the
choice was moved. -/
theorem Runs.entered (h : Runs m answers room part pos captures r) (hcont : Contained part)
    (htail : ∀ instr, tail.head? = some instr → instr.isCheck = false)
    (hend : ∀ owner,
      StandsAt (hoistCheck (.choice off 0 :: (part ++ tail))) (1 + part.length) tail →
      Guards (hoistCheck (.choice off 0 :: (part ++ tail))) off part tail owner →
      Continues m answers (hoistCheck (.choice off 0 :: (part ++ tail))) ⟨pos, captures, room + 1⟩
        (1 + part.length) [⟨.choice ⟨off, pos, captures.size⟩, owner⟩] captures R r) :
    Runs m answers (room + 1) (hoistCheck (.choice off 0 :: (part ++ tail))) pos captures R := by
  have hstart : Sound m ⟨pos, captures, room + 1⟩ ⟨0, pos, [], captures⟩ :=
    runs_start captures h.pos_le
  have hlevels : ∀ owner, LevelsBelow [⟨.choice ⟨off, pos, captures.size⟩, owner⟩]
      captures.size := fun owner =>
    levelsBelow_cons_choice.2 ⟨Nat.le_refl _, levelsBelow_nil _⟩
  rcases hoistCheck_cases off 0 (part ++ tail) with hsame | ⟨check, rest, hsplit, hcheck, hoff,
    hlands, hhoist⟩
  · -- the choice stays at the head
    rw [hsame] at hend ⊢
    refine .step_choice rfl hstart (Nat.le_refl _) (Int.zero_add _) ?_
    refine h.within ⟨[.choice off 0], tail, by simp, rfl⟩ hcont (Nat.le_refl _) (.refl _)
      (hlevels 0) (Nat.le_refl _) ?_
    refine hend 0 ⟨.choice off 0 :: part, [], by simp, by simp; omega⟩ ?_
    intro between behind address lo hbody haddr hlt hjumps
    rw [hbody]
    exact OwnChoice.of_jumpsWithin [] (by simp [haddr]) (by simpa using hlt)
      (by simpa using hjumps)
  · -- the choice moves behind the check
    obtain ⟨rest', rfl, rfl⟩ := isCheck_head_of_nil hsplit hcheck htail
    rw [hhoist] at hend ⊢
    have hend' := hend 1
      ⟨check.withTest off :: .choice (off - 1) check.step :: rest', [], by simp, by simp; omega⟩ (by
        intro between behind address lo hbody haddr hlt hjumps
        have hrest : rest' ++ tail = (rest' ++ between) ++ behind := by simpa using hbody
        rw [hrest]
        refine OwnChoice.of_jumpsWithin [check.withTest off] (l := lo) ?_ ?_ ?_
        · simp at haddr ⊢
          omega
        · simp only [List.length_singleton]
          omega
        · exact (jumpsWithin_cons.1 hjumps).2)
    have hpart : landsOn 0 0 (check :: rest') = false := by
      refine landsOn_eq_false_iff.2 fun k instr off' hk hjump => ?_
      have hlt := (List.getElem?_eq_some_iff.1 hk).1
      have hne := landsOn_eq_false_iff.1 hlands (k + 1) instr off'
        (by rw [List.getElem?_cons_succ, List.getElem?_append_left hlt, hk]) hjump
      push_cast at hne ⊢
      omega
    refine .step_test rfl hcheck (by omega) hstart (Int.zero_add _) (fun hholds => ?_)
      (fun hmiss => ?_)
    · refine .step_choice (n := off) rfl
        ⟨Nat.le_add_right _ _, Setting.holds_le hholds, .refl _, levelsBelow_nil _, Nat.zero_le _⟩
        (Nat.le_refl _) (by push_cast; omega) ?_
      rw [Nat.add_sub_cancel]
      exact h.past_head (n := 1)
        ⟨[check.withTest off, .choice (off - 1) check.step], tail, by simp, rfl⟩ hcheck hholds hcont
        hpart (Nat.le_refl _) (.refl _) (hlevels 1) (Nat.le_refl _) hend'
    · have hfailed := h.eq_failed hcheck hmiss
      subst hfailed
      have hback : Run m answers _ _ ⟨pos, captures, room + 1⟩
          ⟨off, pos, [], captures.shrink captures.size⟩ R := hend'
      rwa [shrink_size] at hback

/-! ## Where the jumps of a hoisted choice land -/

theorem isCheck_withTest {check : Instr} (h : check.isCheck = true) (off off' : Int)
    (hoff : (check.withTest off).offset? = some off') : off' = off := by
  rcases Instr.isCheck_iff.1 h with ⟨n, rfl⟩ | ⟨b, rfl⟩ | ⟨s, rfl⟩ <;>
  · simp only [Instr.withTest, Instr.offset?] at hoff
    split at hoff
    · cases hoff
    · exact (Option.some.inj hoff).symm

theorem length_hoistCheck (code : Block) : (hoistCheck code).length = code.length := by
  unfold hoistCheck
  split
  · split <;> rfl
  · rfl

theorem contained_hoistCheck (h : Contained (.choice off 0 :: code)) :
    Contained (hoistCheck (.choice off 0 :: code)) := by
  rcases hoistCheck_cases off 0 code with hsame | ⟨check, rest, rfl, hcheck, hoff, -, hhoist⟩
  · rwa [hsame]
  · rw [hhoist]
    obtain ⟨hchoice, htail⟩ := jumpsWithin_cons.1 h
    obtain ⟨-, hrest⟩ := jumpsWithin_cons.1 htail
    have hend := hchoice off rfl
    refine jumpsWithin_cons.2 ⟨fun off' hjump => ?_, jumpsWithin_cons.2 ⟨fun off' hjump => ?_, ?_⟩⟩
    · rw [isCheck_withTest hcheck _ _ hjump]
      exact hend
    · cases hjump
      simp only [List.length_cons] at hend ⊢
      push_cast at hend ⊢
      omega
    · exact hrest

theorem jumpsWithin_withTest {lo hi : Int} {start : Nat} {head : Instr} {rest : Block}
    {target : Int} (h : JumpsWithin lo hi start (head :: rest)) (hcheck : head.isCheck = true)
    (hlo : lo ≤ start + target) (hhi : start + target ≤ hi) :
    JumpsWithin lo hi start (head.withTest target :: rest) := by
  refine jumpsWithin_cons.2 ⟨fun off hjump => ?_, (jumpsWithin_cons.1 h).2⟩
  rw [isCheck_withTest hcheck _ _ hjump]
  exact ⟨hlo, hhi⟩

/-! ## Ordered choices -/

/-- The forms of the code of an ordered choice. -/
inductive ChoiceForm (a b : Block) : Block → Prop where
  | second (h : a = [.fail]) : ChoiceForm a b b
  | first (h : b = [.fail] ∨ a = []) : ChoiceForm a b a
  | union {s t : ByteSet} (hs : charset? a = some s) (ht : charset? b = some t) :
      ChoiceForm a b (ofSet (s.union t))
  | tested (h : areExclusive a b = true ∨ failsAtHead a = true) :
      ChoiceForm a b (withHeadTest (a.length + 1 : Nat) a ++ .jump (b.length + 1 : Nat) :: b)
  | chosen : ChoiceForm a b
      (hoistCheck (.choice (a.length + 2 : Nat) 0 :: (a ++ .commit (b.length + 1 : Nat) :: b)))

theorem choice_form (h : choice a b = .ok code) : ChoiceForm a b code := by
  unfold choice at h
  split at h
  · next ha =>
    cases h
    exact .second (isFail_iff.1 ha)
  · split at h
    · next hab =>
      cases h
      rw [Bool.or_eq_true, isFail_iff, isEmpty_iff] at hab
      exact .first hab
    · split at h
      · next s t hs ht =>
        cases h
        exact .union hs ht
      · split at h
        · next hdecides =>
          rw [Bool.or_eq_true] at hdecides
          rw [checkedOffset_bind, checkedOffset_bind] at h
          obtain ⟨-, -, h⟩ := h
          cases h
          exact .tested hdecides
        · rw [checkedOffset_bind, checkedOffset_bind] at h
          obtain ⟨-, -, h⟩ := h
          cases h
          exact .chosen

/-- Where a head decides about a choice: behind a head that holds, the first block fails only if the
second one does, too. -/
theorem head_decides (h : areExclusive a b = true ∨ failsAtHead a = true) :
    ∃ head rest, a = head :: rest ∧ head.isCheck = true ∧ landsOn 0 0 a = false ∧
      ∀ {m : Setting} {answers : Answers} {room pos : Nat} {captures : Array Entry} {rb : Answer},
        m.holds pos head = true → Runs m answers room a pos captures .failed →
          Runs m answers room b pos captures rb → rb = .failed := by
  rcases h with h | h
  · obtain ⟨x, as, y, bs, s, t, rfl, rfl, hs, ht, hx, hlands, hy, hdisjoint⟩ := areExclusive_iff.1 h
    exact ⟨x, as, rfl, hx, hlands, fun hholds _ hb =>
      hb.eq_failed hy (holds_exclusive hs ht hdisjoint hholds)⟩
  · obtain ⟨head, rest, rfl, hcheck, hrest, hlands⟩ := failsAtHead_iff.1 h
    refine ⟨head, rest, rfl, hcheck, hlands, fun hholds ha _ => ?_⟩
    obtain ⟨_, _, hmatched⟩ := ha.matched_of_holds hcheck hrest hholds
    cases hmatched

theorem hasByte_union (s t : ByteSet) :
    m.hasByte (s.union t) pos = (m.hasByte s pos || m.hasByte t pos) := by
  simp only [Setting.hasByte]
  cases m.subject[pos]? <;> simp

theorem runs_union {s t : ByteSet} (hs : charset? a = some s) (ht : charset? b = some t)
    (ha : Runs m answers room a pos captures ra)
    (hb : ra = .failed → Runs m answers room b pos captures rb) :
    Runs m answers room (ofSet (s.union t)) pos captures (ra.orElse rb) := by
  have hpos := ha.pos_le
  have hofSet : Runs m answers room (ofSet (s.union t)) pos captures _ :=
    runs_ofSet (s.union t) hpos
  have hra := Run.unique ha (runs_charset hs hpos)
  rw [hasByte_union] at hofSet
  cases hbyte : m.hasByte s pos with
  | true =>
    rw [hbyte] at hra hofSet
    subst hra
    exact hofSet
  | false =>
    rw [hbyte] at hra hofSet
    obtain rfl : ra = .failed := hra
    rw [Run.unique (hb rfl) (runs_charset ht hpos)]
    exact hofSet

theorem runs_testedChoice (h : areExclusive a b = true ∨ failsAtHead a = true)
    (ha : Runs m answers room a pos captures ra)
    (hb : ra = .failed → Runs m answers room b pos captures rb) (hcontA : Contained a)
    (hcontB : Contained b) :
    Runs m answers room (withHeadTest (a.length + 1 : Nat) a ++ .jump (b.length + 1 : Nat) :: b) pos
      captures (ra.orElse rb) := by
  obtain ⟨head, rest, rfl, hcheck, hlands, hdecides⟩ := head_decides h
  have hat : StandsAt (withHeadTest ((head :: rest).length + 1 : Nat) (head :: rest) ++
      .jump (b.length + 1 : Nat) :: b) ((head :: rest).length + 1) b :=
    ⟨withHeadTest ((head :: rest).length + 1 : Nat) (head :: rest) ++
      [.jump (b.length + 1 : Nat)], [], by simp [withHeadTest], by simp [withHeadTest]⟩
  have hlength : (withHeadTest ((head :: rest).length + 1 : Nat) (head :: rest) ++
      .jump (b.length + 1 : Nat) :: b).length = (head :: rest).length + 1 + b.length := by
    simp [withHeadTest]
    omega
  refine ha.tested ((head :: rest).length + 1) ⟨[], .jump (b.length + 1 : Nat) :: b, rfl, rfl⟩
    hcheck (by simp) hcontA hlands (Nat.le_refl _) (.refl _) (Nat.le_refl _) (fun hholds => ?_)
    (fun hmiss => ?_)
  · cases ra with
    | matched pos' captures' =>
      have hs' : ∀ address, Sound m ⟨pos, captures, room⟩ ⟨address, pos', [], captures'⟩ := fun _ =>
        ha.sound_behind (Nat.le_refl _) (.refl _) (levelsBelow_nil _) (Nat.zero_le _)
      refine .step_jump (d := (b.length + 1 : Nat)) (n := (head :: rest).length + 1 + b.length)
        (by simp [withHeadTest]) (hs' _) (by simp; omega) (.exit hlength.symm rfl (hs' _))
    | failed => exact hdecides hholds ha (hb rfl)
    | crashed => rfl
  · have hfailed := ha.eq_failed hcheck hmiss
    subst hfailed
    exact (hb rfl).at_end hat hlength.symm hcontB (Nat.le_refl _) (.refl _) (Nat.le_refl _)

theorem runs_chosenChoice (ha : Runs m answers room a pos captures ra)
    (hb : ra = .failed → Runs m answers (room + 1) b pos captures rb) (hcontA : Contained a)
    (hcontB : Contained b) :
    Runs m answers (room + 1)
      (hoistCheck (.choice (a.length + 2 : Nat) 0 :: (a ++ .commit (b.length + 1 : Nat) :: b))) pos
      captures (ra.orElse rb) := by
  refine ha.entered hcontA (by simp [Instr.isCheck]) fun owner hat hguards => ?_
  have hlength := length_hoistCheck
    (.choice (a.length + 2 : Nat) 0 :: (a ++ .commit (b.length + 1 : Nat) :: b))
  cases ra with
  | matched pos' captures' =>
    have hs' : ∀ address frames, LevelsBelow frames captures.size → frames.length ≤ room + 1 →
        Sound m ⟨pos, captures, room + 1⟩ ⟨address, pos', frames, captures'⟩ :=
      fun _ _ hlevels hroom => ha.sound_behind (Nat.le_refl _) (.refl _) hlevels hroom
    have hown := hguards [] (.commit (b.length + 1 : Nat) :: b) (1 + a.length) 0 (by simp)
      (by simp) (by omega) (by simpa using hcontA.within (by simp) (by simp))
    refine .step_commit (n := 1 + a.length + (b.length + 1)) hat.head (hs' _ _ ?_ (by simp)) hown
      (by simp) (.exit ?_ rfl (hs' _ _ (levelsBelow_nil _) (by simp)))
    · exact levelsBelow_cons_choice.2 ⟨Nat.le_refl _, levelsBelow_nil _⟩
    · rw [hlength]
      simp
      omega
  | failed =>
    refine Backtracks.here owner ?_
    have hsecond := hat.tail
    rw [show 1 + a.length + 1 = a.length + 2 by omega] at hsecond
    refine (hb rfl).at_end hsecond ?_ hcontB (Nat.le_refl _) (.refl _) (Nat.le_refl _)
    rw [hlength]
    simp
    omega
  | crashed => rfl

/-- **The answer of an ordered choice.** The second block runs where the first one fails. -/
theorem runs_choice (hcode : choice a b = .ok code) (hk : k < room)
    (ha : Runs m answers k a pos captures ra)
    (hb : ra = .failed → Runs m answers room b pos captures rb) (hcontA : Contained a)
    (hcontB : Contained b) : Runs m answers room code pos captures (ra.orElse rb) := by
  have ha' : Runs m answers room a pos captures ra := ha.roomier (Nat.le_of_lt hk)
  cases choice_form hcode with
  | second h =>
    subst h
    have hfailed := ha.eq_failed_fail
    subst hfailed
    exact hb rfl
  | first h =>
    rcases h with rfl | rfl
    · cases ra with
      | failed =>
        have hfailed := (hb rfl).eq_failed_fail
        subst hfailed
        exact ha'
      | matched | crashed => exact ha'
    · have hmatched := ha.eq_matched_nil
      subst hmatched
      exact ha'
  | union hs ht => exact runs_union hs ht ha' hb
  | tested h => exact runs_testedChoice h ha' hb hcontA hcontB
  | chosen =>
    obtain ⟨n, rfl⟩ := Nat.exists_eq_add_of_le' (Nat.zero_lt_of_lt hk)
    exact runs_chosenChoice (ha.roomier (Nat.le_of_lt_succ hk)) hb hcontA hcontB

theorem contained_choice (hcode : choice a b = .ok code) (hcontA : Contained a)
    (hcontB : Contained b) : Contained code := by
  cases choice_form hcode with
  | second => exact hcontB
  | first => exact hcontA
  | union => exact contained_ofSet _
  | tested h =>
    obtain ⟨head, rest, rfl, hcheck, -, -⟩ := head_decides h
    refine jumpsWithin_append.2 ⟨?_, jumpsWithin_cons.2 ⟨fun off hoff => ?_, ?_⟩⟩
    · refine jumpsWithin_withTest (hcontA.within (by simp) ?_) hcheck ?_ ?_ <;>
        simp [withHeadTest] <;> omega
    · cases hoff
      simp [withHeadTest]
      omega
    · refine hcontB.within ?_ ?_ <;> simp [withHeadTest] <;> omega
  | chosen =>
    refine contained_hoistCheck (jumpsWithin_cons.2 ⟨fun off hoff => ?_,
      jumpsWithin_append.2 ⟨hcontA.within ?_ ?_, jumpsWithin_cons.2 ⟨fun off hoff => ?_,
        hcontB.within ?_ ?_⟩⟩⟩)
    · cases hoff
      simp
      omega
    · simp
    · simp
      omega
    · cases hoff
      simp
      omega
    · simp
      omega
    · simp
      omega

/-! ## Differences -/

/-- The forms of the code of a difference. -/
inductive DifferenceForm (a b : Block) : Block → Prop where
  | first (h : b = [.fail]) : DifferenceForm a b a
  | none (h : b = []) : DifferenceForm a b [.fail]
  | diff {s t : ByteSet} (hs : charset? a = some s) (ht : charset? b = some t) :
      DifferenceForm a b (ofSet (s.diff t))
  | tested (h : failsAtHead b = true) :
      DifferenceForm a b (withHeadTest (b.length + 1 : Nat) b ++ .fail :: a)
  | chosen : DifferenceForm a b
      (hoistCheck (.choice (b.length + 2 : Nat) 0 :: (b ++ .failTwice :: a)))

theorem difference_form (h : difference a b = .ok code) : DifferenceForm a b code := by
  unfold difference at h
  split at h
  · next hb =>
    cases h
    exact .first (isFail_iff.1 hb)
  · split at h
    · next hb =>
      cases h
      exact .none (isEmpty_iff.1 hb)
    · split at h
      · next s t hs ht =>
        cases h
        exact .diff hs ht
      · split at h
        · next hhead =>
          rw [checkedOffset_bind] at h
          obtain ⟨-, h⟩ := h
          cases h
          exact .tested hhead
        · rw [checkedOffset_bind] at h
          obtain ⟨-, h⟩ := h
          cases h
          exact .chosen

theorem hasByte_diff (s t : ByteSet) :
    m.hasByte (s.diff t) pos = (m.hasByte s pos && !m.hasByte t pos) := by
  simp only [Setting.hasByte]
  cases m.subject[pos]? <;> simp

theorem runs_diff {s t : ByteSet} (hs : charset? a = some s) (ht : charset? b = some t)
    (hb : Runs m answers room b pos captures rb)
    (ha : rb = .failed → Runs m answers room a pos captures ra) :
    Runs m answers room (ofSet (s.diff t)) pos captures (rb.diff ra) := by
  have hpos := hb.pos_le
  have hofSet : Runs m answers room (ofSet (s.diff t)) pos captures _ := runs_ofSet (s.diff t) hpos
  have hrb := Run.unique hb (runs_charset ht hpos)
  rw [hasByte_diff] at hofSet
  cases hbyte : m.hasByte t pos with
  | true =>
    rw [hbyte, Bool.not_true, Bool.and_false] at hofSet
    rw [hbyte] at hrb
    subst hrb
    exact hofSet
  | false =>
    rw [hbyte, Bool.not_false, Bool.and_true] at hofSet
    rw [hbyte] at hrb
    obtain rfl : rb = .failed := hrb
    rw [Run.unique (ha rfl) (runs_charset hs hpos)]
    exact hofSet

theorem runs_testedDifference (h : failsAtHead b = true)
    (hb : Runs m answers room b pos captures rb)
    (ha : rb = .failed → Runs m answers room a pos captures ra) (hcontA : Contained a)
    (hcontB : Contained b) :
    Runs m answers room (withHeadTest (b.length + 1 : Nat) b ++ .fail :: a) pos captures
      (rb.diff ra) := by
  obtain ⟨head, rest, rfl, hcheck, hrest, hlands⟩ := failsAtHead_iff.1 h
  have hat : StandsAt (withHeadTest ((head :: rest).length + 1 : Nat) (head :: rest) ++
      .fail :: a) ((head :: rest).length + 1) a :=
    ⟨withHeadTest ((head :: rest).length + 1 : Nat) (head :: rest) ++ [.fail], [],
      by simp [withHeadTest], by simp [withHeadTest]⟩
  refine hb.tested ((head :: rest).length + 1) ⟨[], .fail :: a, rfl, rfl⟩ hcheck (by simp)
    hcontB hlands (Nat.le_refl _) (.refl _) (Nat.le_refl _) (fun hholds => ?_) (fun hmiss => ?_)
  · obtain ⟨pos', captures', rfl⟩ := hb.matched_of_holds hcheck hrest hholds
    exact .step_fail (i := .fail) (by simp [withHeadTest])
      (hb.sound_behind (Nat.le_refl _) (.refl _) (levelsBelow_nil _) (Nat.zero_le _)) trivial rfl
      .nil
  · have hfailed := hb.eq_failed hcheck hmiss
    subst hfailed
    exact (ha rfl).at_end hat (by simp [withHeadTest]; omega) hcontA (Nat.le_refl _) (.refl _)
      (Nat.le_refl _)

theorem runs_chosenDifference (hb : Runs m answers room b pos captures rb)
    (ha : rb = .failed → Runs m answers (room + 1) a pos captures ra) (hcontA : Contained a)
    (hcontB : Contained b) :
    Runs m answers (room + 1)
      (hoistCheck (.choice (b.length + 2 : Nat) 0 :: (b ++ .failTwice :: a))) pos captures
      (rb.diff ra) := by
  refine hb.entered hcontB (by simp [Instr.isCheck]) fun owner hat hguards => ?_
  have hlength := length_hoistCheck (.choice (b.length + 2 : Nat) 0 :: (b ++ .failTwice :: a))
  cases rb with
  | matched pos' captures' =>
    have hown := hguards [] (.failTwice :: a) (1 + b.length) 0 (by simp) (by simp) (by omega)
      (by simpa using hcontB.within (by simp) (by simp))
    exact .step_failTwice hat.head (hb.sound_behind (Nat.le_refl _) (.refl _)
      (levelsBelow_cons_choice.2 ⟨Nat.le_refl _, levelsBelow_nil _⟩) (by simp)) hown .nil
  | failed =>
    refine Backtracks.here owner ?_
    have hfirst := hat.tail
    rw [show 1 + b.length + 1 = b.length + 2 by omega] at hfirst
    refine (ha rfl).at_end hfirst ?_ hcontA (Nat.le_refl _) (.refl _) (Nat.le_refl _)
    rw [hlength]
    simp
    omega
  | crashed => rfl

/-- **The answer of a difference.** The first block runs where the second one fails. -/
theorem runs_difference (hcode : difference a b = .ok code) (hk : k < room)
    (hb : Runs m answers k b pos captures rb)
    (ha : rb = .failed → Runs m answers room a pos captures ra) (hcontA : Contained a)
    (hcontB : Contained b) : Runs m answers room code pos captures (rb.diff ra) := by
  have hb' : Runs m answers room b pos captures rb := hb.roomier (Nat.le_of_lt hk)
  cases difference_form hcode with
  | first h =>
    subst h
    have hfailed := hb.eq_failed_fail
    subst hfailed
    exact ha rfl
  | none h =>
    subst h
    have hmatched := hb.eq_matched_nil
    subst hmatched
    exact runs_fail hb.pos_le
  | diff hs ht => exact runs_diff hs ht hb' ha
  | tested h => exact runs_testedDifference h hb' ha hcontA hcontB
  | chosen =>
    obtain ⟨n, rfl⟩ := Nat.exists_eq_add_of_le' (Nat.zero_lt_of_lt hk)
    exact runs_chosenDifference (hb.roomier (Nat.le_of_lt_succ hk)) ha hcontA hcontB

theorem contained_difference (hcode : difference a b = .ok code) (hcontA : Contained a)
    (hcontB : Contained b) : Contained code := by
  cases difference_form hcode with
  | first => exact hcontA
  | none => exact contained_fail
  | diff => exact contained_ofSet _
  | tested h =>
    obtain ⟨head, rest, rfl, hcheck, -, -⟩ := failsAtHead_iff.1 h
    refine jumpsWithin_append.2 ⟨?_, jumpsWithin_cons.2 ⟨fun off hoff => ?_, hcontA.within ?_ ?_⟩⟩
    · refine jumpsWithin_withTest (hcontB.within (by simp) ?_) hcheck ?_ ?_ <;>
        simp [withHeadTest] <;> omega
    · cases hoff
    · simp
      omega
    · simp [withHeadTest]
      omega
  | chosen =>
    refine contained_hoistCheck (jumpsWithin_cons.2 ⟨fun off hoff => ?_,
      jumpsWithin_append.2 ⟨hcontB.within ?_ ?_,
        jumpsWithin_cons.2 ⟨fun off hoff => ?_, hcontA.within ?_ ?_⟩⟩⟩)
    · cases hoff
      simp
      omega
    · simp
    · simp
      omega
    · cases hoff
    · simp
      omega
    · simp
      omega

/-! ## Positive lookaheads -/

theorem lookahead_cases (h : lookahead a = .ok code) :
    ((a = [] ∨ a = [.fail]) ∧ code = a) ∨
      code = .choice (a.length + 2 : Nat) 0 :: (a ++ [.backCommit 2, .fail]) := by
  unfold lookahead at h
  split at h
  · next ha =>
    cases h
    rw [Bool.or_eq_true, isEmpty_iff, isFail_iff] at ha
    exact .inl ⟨ha, rfl⟩
  · rw [checkedOffset_bind] at h
    obtain ⟨-, h⟩ := h
    cases h
    exact .inr rfl

/-- **The answer of a positive lookahead.** -/
theorem runs_lookahead (hcode : lookahead a = .ok code) (ha : Runs m answers room a pos captures ra)
    (hcontA : Contained a) :
    Runs m answers (room + 1) code pos captures (ra.lookahead pos captures) := by
  have hpos := ha.pos_le
  have hlevels : ∀ owner, LevelsBelow [⟨.choice ⟨a.length + 2, pos, captures.size⟩, owner⟩]
      captures.size := fun owner =>
    levelsBelow_cons_choice.2 ⟨Nat.le_refl _, levelsBelow_nil _⟩
  rcases lookahead_cases hcode with ⟨rfl | rfl, rfl⟩ | rfl
  · have hmatched := ha.eq_matched_nil
    subst hmatched
    exact ha.roomier (Nat.le_succ _)
  · have hfailed := ha.eq_failed_fail
    subst hfailed
    exact ha.roomier (Nat.le_succ _)
  · have hat : StandsAt (.choice (a.length + 2 : Nat) 0 :: (a ++ [.backCommit 2, .fail])) 1 a :=
      ⟨[.choice (a.length + 2 : Nat) 0], [.backCommit 2, .fail], by simp, rfl⟩
    refine .step_choice (n := a.length + 2) rfl (runs_start _ hpos) (Nat.le_refl _) (Int.zero_add _)
      ?_
    refine ha.within hat hcontA (Nat.le_refl _) (.refl _) (hlevels 0) (Nat.le_refl _) ?_
    cases ra with
    | matched pos' captures' =>
      have hext := (Run.matched_sound ha).2.2
      have hown : OwnChoice (.choice (a.length + 2 : Nat) 0 :: (a ++ [.backCommit 2, .fail]))
          (1 + a.length) 0 :=
        OwnChoice.of_jumpsWithin [] (l := 0) (by simp) (by push_cast; omega)
          (hcontA.within (by simp) (by simp))
      refine .step_backCommit (d := 2) (n := a.length + 3) (by simp [Nat.add_comm 1])
        (ha.sound_behind (Nat.le_refl _) (.refl _) (hlevels 0) (by simp)) hown
        (by push_cast; omega) ?_
      rw [hext.shrink_self]
      exact .exit (by simp) rfl ⟨Nat.le_refl _, hpos, .refl _, levelsBelow_nil _, Nat.zero_le _⟩
    | failed =>
      refine Backtracks.here 0 ?_
      exact .step_fail (i := .fail) (by simp)
        ⟨Nat.le_refl _, hpos, .refl _, levelsBelow_nil _, Nat.zero_le _⟩ trivial rfl .nil
    | crashed => rfl

theorem contained_lookahead (hcode : lookahead a = .ok code) (hcontA : Contained a) :
    Contained code := by
  rcases lookahead_cases hcode with ⟨-, rfl⟩ | rfl
  · exact hcontA
  · refine jumpsWithin_cons.2 ⟨fun off hoff => ?_, jumpsWithin_append.2 ⟨hcontA.within ?_ ?_,
      jumpsWithin_cons.2 ⟨fun off hoff => ?_, jumpsWithin_cons.2 ⟨nofun, jumpsWithin_nil⟩⟩⟩⟩
    · cases hoff
      simp
      omega
    · simp
    · simp
      omega
    · cases hoff
      simp
      omega

end

end Block

end PegMachine
