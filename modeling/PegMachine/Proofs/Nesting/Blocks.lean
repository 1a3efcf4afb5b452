import PegMachine.Proofs.Blocks.Captures
import PegMachine.Proofs.Blocks.Repetitions
import PegMachine.Proofs.Nesting.Places

/-!
# Nested blocks

* `Block.nested_of_flat`: blocks without choices and starts of captures.
* `Block.Placing.withHeadTest`, `Block.Placing.hoistCheck`: a check that becomes a test, and a choice
  that moves behind one.
* `Block.nested_choice`, `Block.nested_difference`, `Block.nested_lookahead`, `Block.nested_sequence`,
  `Block.nested_repetition`, `Block.nested_enclose`: **the code of a pattern is nested if the code of
  its parts is.**
-/

namespace PegMachine

namespace Block

variable {program : Program} {rules : Nat} {place : Nat → Place} {a b body code rest : Block}
  {instr head mid : Instr} {p q : Place} {off : Int}

/-! ## Flat blocks -/

theorem nested_nil : Nested program rules [] := ⟨_, 0, .nil _⟩

theorem nested_of_flat
    (h : ∀ instr ∈ code, ∀ k, instr.Fits program rules (fun _ => .past 0) k) :
    Nested program rules code :=
  ⟨fun _ => .past 0, 0, rfl, rfl, fun _ instr hk => h instr (List.mem_of_getElem? hk) _⟩

theorem nested_single (h : ∀ k, instr.Fits program rules (fun _ => .past 0) k) :
    Nested program rules [instr] :=
  nested_of_flat (List.forall_mem_singleton.2 h)

theorem fits_flat_check (hcheck : instr.isCheck = true) (k : Nat) :
    instr.Fits program rules (fun _ => .past 0) k := by
  have hkeeps := Place.Below.rfl (p := .past 0)
  rcases Instr.isCheck_iff.1 hcheck with ⟨n, rfl⟩ | ⟨b, rfl⟩ | ⟨s, rfl⟩ <;>
    exact ⟨hkeeps.toKeeps, Nat.zero_le _, fun h => absurd rfl h⟩

theorem nested_of_checks (h : code.all Instr.isCheck = true) : Nested program rules code := by
  rw [List.all_eq_true] at h
  exact nested_of_flat fun instr hmem => fits_flat_check (h instr hmem)

theorem nested_fail : Nested program rules [.fail] :=
  nested_single fun _ => Place.Below.rfl.toBeside

theorem nested_ofSet (bytes : ByteSet) : Nested program rules (ofSet bytes) := by
  rw [ofSet]
  split
  · exact nested_fail
  · split <;> exact nested_of_checks rfl

theorem nested_skip (n : Nat) : Nested program rules (skip n) :=
  nested_of_checks (all_isCheck_of_isSkip (all_isSkip_skip n))

/-! ## Tests and hoisted choices -/

/-- The check at the head of a block may become a test that jumps where the same is open. -/
theorem Placing.withHeadTest (h : Placing program rules (head :: rest) place p q)
    (hcheck : head.isCheck = true) (hland : Place.LandsIn place off p.nest) :
    Placing program rules (head.withTest off :: rest) place p q := by
  obtain ⟨hhead, hrest⟩ := fitsFrom_cons.1 h.fits
  refine ⟨h.entry, h.exit, fitsFrom_cons.2 ⟨?_, hrest⟩⟩
  rw [← h.entry] at hland
  rcases Instr.isCheck_iff.1 hcheck with ⟨n, rfl⟩ | ⟨b, rfl⟩ | ⟨s, rfl⟩ <;>
    exact ⟨hhead.1, hhead.2.1, fun _ => by simpa using hland⟩

/-- A choice may move behind the check after it. -/
theorem Placing.hoistCheck (h : Placing program rules (.choice off 0 :: code) place p q) :
    ∃ place', Placing program rules (Block.hoistCheck (.choice off 0 :: code)) place' p q := by
  rcases hoistCheck_cases off 0 code with hsame | ⟨check, rest, rfl, hcheck, hoff, hlands, hhoist⟩
  · rw [hsame]
    exact ⟨place, h⟩
  rw [hhoist]
  obtain ⟨hchoice, htail⟩ := fitsFrom_cons.1 h.fits
  obtain ⟨hfirst, hrest⟩ := fitsFrom_cons.1 htail
  obtain ⟨-, hchosen, hlag, hbeside, hland⟩ := hchoice
  obtain ⟨hkeeps, hbytes⟩ : (place 1).Keeps (place 2) ∧ (place 2).lag ≤ (place 1).lag + check.step := by
    rcases Instr.isCheck_iff.1 hcheck with ⟨n, rfl⟩ | ⟨b, rfl⟩ | ⟨s, rfl⟩ <;>
      exact ⟨hfirst.1, hfirst.2.1⟩
  -- Only the address between the test and the choice has another place.
  let place' : Nat → Place := fun k => if k = 1 then { place 0 with lag := check.step } else place k
  have hother : ∀ k, k ≠ 1 → place' k = place k := fun k hk => if_neg hk
  have hone : place' 1 = { place 0 with lag := check.step } := rfl
  have hjump : Place.LandsIn place' off (place' 0).nest := by
    rw [hother 0 (by omega)]
    have htarget := hother off.toNat (by omega)
    rw [show ((0 : Nat) : Int) + off = off by omega] at hland
    exact ⟨by rw [htarget]; exact hland.nest, by rw [htarget]; exact hland.lag⟩
  have htest : (check.withTest off).Fits program rules place' 0 := by
    have hkeep : (place' 0).Keeps (place' 1) := by
      rw [hother 0 (by omega), hone]
      exact ⟨⟨rfl, rfl⟩, rfl⟩
    have hstep : (place' 1).lag ≤ (place' 0).lag + check.step := by
      rw [hone]
      exact Nat.le_add_left _ _
    rcases Instr.isCheck_iff.1 hcheck with ⟨n, rfl⟩ | ⟨b, rfl⟩ | ⟨s, rfl⟩ <;>
      exact ⟨hkeep, hstep, fun _ => by simpa using hjump⟩
  have hmoved : (Instr.choice (off - 1) check.step).Fits program rules place' 1 := by
    refine ⟨Nat.le_of_eq (by rw [hone]), ?_, ?_, ?_, ?_⟩
    · rw [hother 2 (by omega), hkeeps.nest, hchosen, hone]
    · rw [hother 2 (by omega)]
      exact Nat.le_trans hbytes (Nat.le_trans (Nat.add_le_add_right hlag _) (by omega))
    · rw [hother 2 (by omega), hone]
      exact ⟨hkeeps.starts.trans hbeside.starts, hkeeps.unclosed.trans hbeside.unclosed⟩
    · rw [show ((1 : Nat) : Int) + (off - 1) = off by omega]
      exact hjump
  refine ⟨place', ?_, ?_, fitsFrom_cons.2 ⟨htest, fitsFrom_cons.2 ⟨hmoved, fun k instr hk => ?_⟩⟩⟩
  · rw [hother 0 (by omega)]
    exact h.entry
  · rw [hother _ (by simp)]
    exact h.exit
  · refine (hrest k instr hk).transfer (.past 0) ?_ (.of_eq ?_) fun off' hoff' => .of_eq ?_
    · rw [Place.within_past_zero, hother _ (by omega)]
    · rw [Place.within_past_zero, hother _ (by omega)]
    · have := landsOn_eq_false_iff.1 hlands (k + 2) instr off' (by simpa using hk) hoff'
      rw [Place.within_past_zero, hother _ (by omega)]

/-! ## Choices and differences -/

theorem nested_over (hb : Nested program rules b) (hcont : Contained b) (starts : Nat)
    (hmid : mid = .jump (b.length + 1 : Nat) ∨ mid = .fail) :
    ∃ place starts', Placing program rules (mid :: b) place (.past starts) (.past starts') ∧
      place 1 = .past starts := by
  obtain ⟨place, startsB, h⟩ := hb
  have h' := h.within hcont (.past starts)
  rw [Place.entry_within rfl] at h'
  have hbeside : Place.Beside (.past starts) ((place 0).within (.past starts)) := by
    rw [h'.entry]
    exact ⟨rfl, rfl⟩
  refine ⟨_, _, h'.cons _ hcont ?_, h'.entry⟩
  rcases hmid with rfl | rfl
  · exact ⟨hbeside, .of_eq (n := b.length + 1) (by simp) h'.exit rfl rfl⟩
  · exact hbeside

theorem contained_over (hcont : Contained b)
    (hmid : ∀ off, mid.offset? = some off → off = (b.length + 1 : Nat)) : Contained (mid :: b) := by
  refine jumpsWithin_cons.2 ⟨fun off hoff => ?_, hcont.within (by simp) (by simp; omega)⟩
  rw [hmid off hoff]
  simp
  omega

theorem nested_tested (ha : Nested program rules (head :: rest)) (hb : Nested program rules b)
    (hcheck : head.isCheck = true) (hmid : mid = .jump (b.length + 1 : Nat) ∨ mid = .fail)
    (hcontA : Contained (head :: rest)) (hcontB : Contained b) :
    Nested program rules
      (Block.withHeadTest ((head :: rest).length + 1 : Nat) (head :: rest) ++ mid :: b) := by
  obtain ⟨placeA, startsA, ha⟩ := ha
  obtain ⟨placeB, startsB, hb, hone⟩ := nested_over hb hcontB startsA hmid
  have hcont : Contained (mid :: b) := contained_over hcontB fun off hoff => by
    rcases hmid with rfl | rfl <;> cases hoff
    rfl
  have hland : Place.LandsIn (Place.join (head :: rest).length placeA placeB)
      ((head :: rest).length + 1 : Nat) (Place.past startsA).nest :=
    .of_eq rfl (Place.join_behind.trans hone) rfl rfl
  exact ⟨_, _, (ha.append hb hcontA hcont).withHeadTest hcheck hland⟩

/-- The place right behind a choice. -/
def chosenPlace : Place := ⟨.chosen .hole, 0, 0, []⟩

theorem Placing.behindChoice (h : Placing program rules code place chosenPlace q)
    (hcont : Contained code) (n : Nat) (hplace : place n = p) (hnest : p.nest = .hole)
    (hlag : p.lag = 0) :
    Placing program rules (.choice (n + 1 : Nat) 0 :: code) (Place.cons (.past 0) place) (.past 0)
      q := by
  refine h.cons _ hcont ⟨Nat.le_refl _, ?_, ?_, ?_, .of_eq (n := n + 1) (by omega) hplace hnest hlag⟩
  · exact congrArg Place.nest h.entry
  · exact Nat.le_of_eq (congrArg Place.lag h.entry)
  · exact ⟨(congrArg Place.starts h.entry).trans rfl, (congrArg Place.unclosed h.entry).trans rfl⟩

/-- A block behind a choice, and another one behind the instruction that drops it. -/
theorem nested_chosen (ha : Nested program rules a) (hb : Nested program rules b)
    (hmid : mid = .commit (b.length + 1 : Nat) ∨ mid = .backCommit (b.length + 1 : Nat) ∨
      mid = .failTwice)
    (hcontA : Contained a) (hcontB : Contained b) :
    Nested program rules (.choice (a.length + 2 : Nat) 0 :: (a ++ mid :: b)) := by
  obtain ⟨placeA, startsA, ha⟩ := ha
  obtain ⟨placeB, startsB, hb⟩ := hb
  have ha' := ha.within hcontA chosenPlace
  have hb' := hb.within hcontB (.past startsA)
  rw [Place.entry_within rfl] at ha' hb'
  have hbeside : Place.Beside ((Place.past startsA).within chosenPlace)
      ((placeB 0).within (.past startsA)) := by
    rw [hb'.entry]
    exact ⟨rfl, rfl⟩
  have hend : Place.LandsIn (Place.cons ((Place.past startsA).within chosenPlace)
      fun k => (placeB k).within (.past startsA)) ((0 : Nat) + (b.length + 1 : Nat)) .hole :=
    .of_eq (n := b.length + 1) (by omega) hb'.exit rfl rfl
  have hsecond := hb'.cons mid (p := (Place.past startsA).within chosenPlace) hcontB (by
    rcases hmid with rfl | rfl | rfl
    · exact ⟨hbeside, .hole, rfl, hend⟩
    · exact ⟨hbeside, .hole, rfl, hend⟩
    · exact ⟨hbeside, .hole, rfl⟩)
  have hcont : Contained (mid :: b) := contained_over hcontB fun off hoff => by
    rcases hmid with rfl | rfl | rfl <;> cases hoff <;> rfl
  have hwhole := ha'.append hsecond hcontA hcont
  exact ⟨_, _, hwhole.behindChoice (contained_append hcontA hcont) (a.length + 1)
    (Place.join_behind.trans hb'.entry) rfl rfl⟩

theorem nested_hoistCheck (h : Nested program rules (.choice off 0 :: code)) :
    Nested program rules (hoistCheck (.choice off 0 :: code)) := by
  obtain ⟨place, starts, h⟩ := h
  obtain ⟨place', h'⟩ := h.hoistCheck
  exact ⟨place', starts, h'⟩

theorem nested_choice (hcode : choice a b = .ok code) (ha : Nested program rules a)
    (hb : Nested program rules b) (hcontA : Contained a) (hcontB : Contained b) :
    Nested program rules code := by
  cases choice_form hcode with
  | second => exact hb
  | first => exact ha
  | union => exact nested_ofSet _
  | tested h =>
    obtain ⟨head, rest, rfl, hcheck, -, -⟩ := head_decides h
    exact nested_tested ha hb hcheck (.inl rfl) hcontA hcontB
  | chosen => exact nested_hoistCheck (nested_chosen ha hb (.inl rfl) hcontA hcontB)

theorem nested_difference (hcode : difference a b = .ok code) (ha : Nested program rules a)
    (hb : Nested program rules b) (hcontA : Contained a) (hcontB : Contained b) :
    Nested program rules code := by
  cases difference_form hcode with
  | first => exact ha
  | none => exact nested_fail
  | diff => exact nested_ofSet _
  | tested h =>
    obtain ⟨head, rest, rfl, hcheck, -, -⟩ := failsAtHead_iff.1 h
    exact nested_tested hb ha hcheck (.inr rfl) hcontB hcontA
  | chosen => exact nested_hoistCheck (nested_chosen hb ha (.inr (.inr rfl)) hcontB hcontA)

theorem nested_lookahead (hcode : lookahead a = .ok code) (ha : Nested program rules a)
    (hcontA : Contained a) : Nested program rules code := by
  rcases lookahead_cases hcode with ⟨-, rfl⟩ | rfl
  · exact ha
  · exact nested_chosen ha nested_fail (.inr (.inl rfl)) hcontA contained_fail

/-! ## Sequences -/

theorem nested_append (ha : Nested program rules a) (hb : Nested program rules b)
    (hcontA : Contained a) (hcontB : Contained b) : Nested program rules (a ++ b) := by
  obtain ⟨placeA, startsA, ha⟩ := ha
  obtain ⟨placeB, startsB, hb⟩ := hb
  have hb' := hb.within hcontB (.past startsA)
  rw [Place.entry_within rfl] at hb'
  exact ⟨_, _, ha.append hb' hcontA hcontB⟩

theorem nested_any {n : Int} (hcode : any n = .ok code) : Nested program rules code := by
  rcases any_cases hcode with ⟨-, rfl⟩ | ⟨-, rfl | ⟨-, hdiff⟩⟩
  · exact nested_skip _
  · have hkeeps := Place.Below.rfl (p := .past 0)
    refine nested_of_flat fun instr hmem k => ?_
    rw [List.mem_cons, List.mem_singleton] at hmem
    rcases hmem with rfl | rfl
    · exact ⟨hkeeps.toKeeps, Nat.zero_le _, fun _ => ⟨rfl, rfl⟩⟩
    · exact hkeeps.toBeside
  · exact nested_difference hdiff nested_nil (nested_skip _) contained_nil (contained_skip _)

theorem nested_sequence (hcode : sequence a b = .ok code) (ha : Nested program rules a)
    (hb : Nested program rules b) (hcontA : Contained a) (hcontB : Contained b) :
    Nested program rules code := by
  cases sequence_form hcode with
  | first => exact ha
  | second => exact hb
  | skips => exact nested_skip _
  | append => exact nested_append ha hb hcontA hcontB

/-! ## Repetitions -/

theorem nested_loop (hbody : Nested program rules body) (hcont : Contained body) :
    Nested program rules (loop body) := by
  generalize hcode : loop body = code
  cases loop_form hcode with
  | span => exact nested_single fun _ => ⟨Place.Below.rfl.toKeeps, rfl⟩
  | tested h =>
    obtain ⟨head, rest, rfl, hcheck, -, -⟩ := failsAtHead_iff.1 h
    obtain ⟨place, starts, h⟩ := hbody
    have hloop := h.snoc (.jump (-(head :: rest).length)) (r := .past starts) hcont
      fun place' hentry hend hexit => by
        refine ⟨?_, .of_eq (n := 0) (by omega) hentry ?_ rfl⟩
        · rw [hend, hexit]
          exact ⟨rfl, rfl⟩
        · rw [hend]
          rfl
    exact ⟨_, _, hloop.withHeadTest hcheck (.of_eq rfl Place.join_behind rfl rfl)⟩
  | chosen =>
    obtain ⟨place, starts, h⟩ := hbody
    have h' := h.within hcont chosenPlace
    rw [Place.entry_within rfl] at h'
    have hloop := h'.snoc (.partialCommit (-body.length)) (r := .past starts) hcont
      fun place' hentry hend hexit => by
        rw [Instr.Fits, hend, hexit]
        exact ⟨⟨rfl, rfl⟩, ⟨.hole, rfl⟩, .of_eq (n := 0) (by omega) hentry rfl rfl⟩
    have hcontLoop : Contained (body ++ [.partialCommit (-body.length)]) := by
      refine jumpsWithin_append.2 ⟨hcont.within (by simp)
        (by simp only [List.length_append, List.length_singleton]; omega),
        jumpsWithin_cons.2 ⟨fun off hoff => ?_, jumpsWithin_nil⟩⟩
      cases hoff
      simp
      omega
    exact ⟨_, _, hloop.behindChoice hcontLoop (body.length + 1) Place.join_behind rfl rfl⟩

theorem nested_copies (n : Nat) (hbody : Nested program rules body) (hcont : Contained body) :
    Nested program rules (copies n body) := by
  induction n with
  | zero => exact nested_nil
  | succ n ih =>
    rw [copies_succ]
    exact nested_append hbody ih hcont (contained_copies n hcont)

theorem nested_testedCopies (n : Nat) (hbody : Nested program rules (head :: rest))
    (hcheck : head.isCheck = true) (hcont : Contained (head :: rest)) :
    Nested program rules (testedCopies n (head :: rest)) := by
  induction n with
  | zero => exact nested_nil
  | succ n ih =>
    obtain ⟨place, starts, h⟩ :=
      nested_append hbody ih hcont (contained_testedCopies n hcheck hcont)
    rw [testedCopies_succ]
    have hlength : ((head :: rest) ++ testedCopies n (head :: rest)).length =
        (n + 1) * (head :: rest).length := by
      rw [List.length_append, length_testedCopies, Nat.add_mul, Nat.one_mul, Nat.add_comm]
    exact ⟨place, starts, h.withHeadTest hcheck (.of_eq (by rw [hlength]) h.exit rfl rfl)⟩

theorem nested_behindCopy (n starts : Nat) (hbody : Nested program rules body)
    (hcont : Contained body) :
    ∃ place starts', Placing program rules (behindCopy body n) place
      ((Place.past starts).within chosenPlace) (.past starts') := by
  induction n generalizing starts with
  | zero =>
    refine ⟨_, starts, (Placing.nil (.past starts)).cons _ contained_nil ?_⟩
    exact ⟨⟨rfl, rfl⟩, .hole, rfl, rfl, rfl⟩
  | succ n ih =>
    obtain ⟨place, startsBody, h⟩ := hbody
    have h' := h.within hcont ((Place.past starts).within chosenPlace)
    rw [Place.entry_within rfl] at h'
    obtain ⟨placeRest, starts', hrest⟩ := ih (startsBody + starts)
    have hcopy := h'.cons (.partialCommit 1) (p := (Place.past starts).within chosenPlace)
      hcont (by
        have hone : Place.cons ((Place.past starts).within chosenPlace)
            (fun k => (place k).within ((Place.past starts).within chosenPlace)) (0 + 1) =
              (Place.past starts).within chosenPlace := h'.entry
        refine ⟨?_, ⟨.hole, rfl⟩, .of_eq (n := 1) (by omega) hone rfl rfl⟩
        rw [hone]
        exact ⟨rfl, rfl⟩)
    exact ⟨_, _, hcopy.append hrest (contained_partialCommit hcont) (contained_behindCopy n hcont)⟩

theorem nested_optional (n : Nat) (hbody : Nested program rules body) (hcont : Contained body) :
    Nested program rules (optional (n + 1) body) := by
  generalize hcode : optional (n + 1) body = code
  cases optional_form hcode with
  | tested h =>
    obtain ⟨head, rest, rfl, hcheck, -, -⟩ := failsAtHead_iff.1 h
    exact nested_testedCopies (n + 1) hbody hcheck hcont
  | chosen =>
    obtain ⟨place, starts, h⟩ := id hbody
    have h' := h.within hcont chosenPlace
    rw [Place.entry_within rfl] at h'
    obtain ⟨placeRest, starts', hrest⟩ := nested_behindCopy n starts hbody hcont
    have hwhole := h'.append hrest hcont (contained_behindCopy n hcont)
    have hlength : 1 + (n + 1) * (body.length + 1) = (body ++ behindCopy body n).length + 1 := by
      rw [List.length_append, length_behindCopy, Nat.add_mul]
      omega
    refine nested_hoistCheck ?_
    rw [hlength]
    exact ⟨_, _, hwhole.behindChoice (contained_append hcont (contained_behindCopy n hcont)) _
      hwhole.exit rfl rfl⟩

theorem nested_repetition {count : Int} (hcode : repetition body count = .ok code)
    (hbody : Nested program rules body) (hcont : Contained body) :
    Nested program rules code := by
  rw [repetition_eq hcode]
  split
  · exact nested_append (nested_copies _ hbody hcont) (nested_loop hbody hcont)
      (contained_copies _ hcont) (contained_loop hcont)
  · next hn =>
    obtain ⟨n, hn⟩ := Nat.exists_eq_add_one_of_ne_zero (n := count.natAbs) (by omega)
    rw [hn]
    exact nested_optional n hbody hcont

/-! ## Captures -/

/-- The places of a block of checks, each as many bytes behind the start as the checks before it
consume. -/
theorem placing_checks (h : body.all Instr.isCheck = true) (bytes : Nat) :
    ∃ place, Placing program rules body place ⟨.hole, bytes, 0, []⟩
      ⟨.hole, bytes + width body, 0, []⟩ := by
  induction body generalizing bytes with
  | nil => exact ⟨_, .nil _⟩
  | cons check rest ih =>
    rw [List.all_cons, Bool.and_eq_true] at h
    obtain ⟨place, hrest⟩ := ih h.2 (bytes + check.step)
    have hfits : check.Fits program rules (Place.cons ⟨.hole, bytes, 0, []⟩ place) 0 := by
      have hone : Place.cons ⟨.hole, bytes, 0, []⟩ place (0 + 1) =
          ⟨.hole, bytes + check.step, 0, []⟩ := hrest.entry
      have hkeeps : Place.Keeps ⟨.hole, bytes, 0, []⟩ ⟨.hole, bytes + check.step, 0, []⟩ :=
        ⟨⟨rfl, rfl⟩, rfl⟩
      rcases Instr.isCheck_iff.1 h.1 with ⟨n, rfl⟩ | ⟨b, rfl⟩ | ⟨s, rfl⟩ <;>
      · rw [Instr.Fits, hone]
        exact ⟨hkeeps, Nat.le_refl _, fun h => absurd rfl h⟩
    have hwhole := hrest.cons _ (contained_of_checks h.2) hfits
    rw [Nat.add_assoc] at hwhole
    exact ⟨_, hwhole⟩

theorem nested_enclose {kind : CaptureKind} {index : Nat} (hbody : Nested program rules body)
    (hcont : Contained body) (hstarts : Starts program kind index) :
    Nested program rules (enclose kind index body) := by
  generalize hcode : enclose kind index body = code
  -- The instruction that ends the capture is the only difference between the forms with a start.
  have hopened : ∀ last : Instr, (kind ≠ .matchTime ∧ last = .closeCapture ∨
      kind = .matchTime ∧ last = .closeMatchTime) →
      Nested program rules (.openCapture kind 0 index :: (body ++ [last])) := by
    intro last hlast
    obtain ⟨place, starts, h⟩ := hbody
    have h' := h.within hcont ⟨.opened 0 kind index .hole, 0, 1, [0]⟩
    rw [Place.entry_within rfl] at h'
    have hend := h'.snoc last (r := .past (starts + 1)) hcont
      fun place' _ hend hexit => by
        rcases hlast with ⟨hkind, rfl⟩ | ⟨hkind, rfl⟩ <;>
        · rw [Instr.Fits, hend, hexit]
          exact ⟨rfl, rfl, 0, kind, index, rfl, hkind, rfl⟩
    have hcontEnd : Contained (body ++ [last]) := by
      refine contained_append hcont (contained_of_offset?_eq_none ?_)
      rcases hlast with ⟨-, rfl⟩ | ⟨-, rfl⟩ <;> simp [Instr.offset?]
    refine ⟨_, _, hend.cons _ (p := .past 0) hcontEnd ⟨Nat.le_refl _, hstarts, ?_, ?_, ?_, ?_⟩⟩
    · exact congrArg Place.nest hend.entry
    · exact Nat.le_of_eq (congrArg Place.lag hend.entry)
    · exact congrArg Place.starts hend.entry
    · exact congrArg Place.unclosed hend.entry
  cases enclose_form hcode with
  | matchTime h => exact hopened _ (.inr ⟨h, rfl⟩)
  | fixed h hchecks =>
    obtain ⟨place, hplace⟩ : ∃ place, Placing program rules _ place _ _ := placing_checks hchecks 0
    obtain ⟨content, hname⟩ : ∃ content, Names program kind index content := by
      cases hstarts with
      | wraps _ hname => exact ⟨_, hname⟩
      | matchTime hkind => exact absurd hkind h
    refine ⟨_, 0, hplace.snoc _ (r := .past 0) hcont fun place' _ hend hexit => ?_⟩
    rw [Instr.Fits, hend, hexit]
    exact ⟨⟨⟨rfl, rfl⟩, rfl⟩, rfl, Nat.le_of_eq (Nat.zero_add _).symm, content, hname⟩
  | opened h => exact hopened _ (.inl ⟨h, rfl⟩)

end Block

end PegMachine
