import PegMachine.Proofs.Blocks.Onward

/-!
# Tests that branch

A test jumps where it does not hold. If a chain of jumps led from there back to the test, threading
it would make a check of the test, which fails instead of jumping.

* `Instr.testOffset?`: the jump of a test.
* `Branching`: tests jump forward, and no chain of jumps leads from there back to them.
* `branching_append`, `branching_choice` and so on: **the tests in the code of a pattern branch if
  those in its parts do.**
* `ThreadedAs.keepsTest`: a test stays one when its jump is threaded, if no chain leads back to it.
-/

namespace PegMachine

namespace Instr

/-- The jump of an instruction that is a test. -/
def testOffset? : Instr → Option Int
  | .any _ off | .char _ off | .set _ off => if off = 0 then none else some off
  | _ => none

theorem offset?_of_testOffset? {instr : Instr} {off : Int} (h : instr.testOffset? = some off) :
    instr.offset? = some off := by
  cases instr with
  | any | char | set => exact h
  | _ => cases h

theorem testOffset?_of_isCheck {instr : Instr} (h : instr.isCheck = true) :
    instr.testOffset? = none := by
  cases instr with
  | any _ off | char _ off | set _ off => exact if_pos (beq_iff_eq.1 h)
  | _ => rfl

theorem testOffset?_of_cannotFail {instr : Instr} (h : instr.cannotFail = true) :
    instr.testOffset? = none := by
  cases instr with
  | any | char | set => cases h
  | _ => rfl

theorem testOffset?_of_firstSet? {instr : Instr} (h : instr.firstSet? = none) :
    instr.testOffset? = none := by
  cases instr with
  | any | char | set => cases h
  | _ => rfl

theorem testOffset?_withTest {instr : Instr} {off off' : Int}
    (h : (instr.withTest off).testOffset? = some off') :
    off' = off ∨ instr.testOffset? = some off' := by
  cases instr with
  | any | char | set =>
    rw [withTest, testOffset?] at h
    split at h
    · cases h
    · exact .inl (Option.some.inj h).symm
  | _ => exact .inr h

theorem eq_jump_of_withTest {instr : Instr} {off off' : Int} (h : instr.withTest off = .jump off') :
    instr = .jump off' := by
  cases instr with
  | any | char | set => cases h
  | _ => exact h

theorem eq_any_of_withTest {instr : Instr} {n : Nat} {off off' : Int}
    (h : instr.withTest off = .any n off') : ∃ off'', instr = .any n off'' := by
  cases instr with
  | any =>
    cases h
    exact ⟨_, rfl⟩
  | char | set => cases h
  | _ => exact ⟨_, h⟩

end Instr

namespace Block

/-- Tests jump forward, and no chain of jumps leads from there back to them. No instruction skips
zero bytes. -/
structure Branching (code : Block) : Prop extends Onward code where
  any_pos : ∀ (n : Nat) (off : Int), .any n off ∈ code → 0 < n
  branches : ∀ (k : Nat) (instr : Instr) (off : Int), code[k]? = some instr →
    instr.testOffset? = some off → ∃ n : Nat, (k : Int) + off = n ∧ k < n ∧ ¬ Leads code n k

variable {code a b body : Block} {instr : Instr} {n k stop : Nat} {off : Int}

/-! ## Parts -/

theorem branching_of_onward (h : Onward code)
    (hany : ∀ (n : Nat) (off : Int), .any n off ∈ code → 0 < n)
    (htests : ∀ instr ∈ code, instr.testOffset? = none) : Branching code :=
  { h with
    any_pos := hany
    branches := fun k instr off hk hoff => by
      rw [htests _ (List.mem_of_getElem? hk)] at hoff
      cases hoff }

theorem branching_nil : Branching [] := branching_of_onward onward_nil (by simp) (by simp)

theorem Branching.behind (hb : Branching b) (hge : a.length ≤ k) (hk : (a ++ b)[k]? = some instr)
    (hoff : instr.testOffset? = some off) :
    ∃ n : Nat, (k : Int) + off = n ∧ k < n ∧ ¬ Leads (a ++ b) n k := by
  rw [List.getElem?_append_right hge] at hk
  obtain ⟨n, hn, hkn, hnot⟩ := hb.branches _ instr off hk hoff
  refine ⟨a.length + n, by omega, by omega, fun hleads => hnot ?_⟩
  have hback := (leads_append_right hb.toOnward hleads (by omega)).2
  rwa [Nat.add_sub_cancel_left] at hback

theorem branching_append (ha : Branching a) (hb : Branching b) : Branching (a ++ b) where
  toOnward := onward_append ha.toOnward hb.toOnward
  any_pos := fun n off hmem => (List.mem_append.1 hmem).elim (ha.any_pos n off) (hb.any_pos n off)
  branches := fun k instr off hk hoff => by
    rcases Nat.lt_or_ge k a.length with hlt | hge
    · rw [List.getElem?_append_left hlt] at hk
      obtain ⟨n, hn, hkn, hnot⟩ := ha.branches k instr off hk hoff
      refine ⟨n, hn, hkn, fun hleads => ?_⟩
      rcases Nat.lt_or_ge n a.length with hin | hout
      · rcases leads_append_left ha.toOnward hb.toOnward hleads hin with hle | hback
        · omega
        · exact hnot hback
      · have := (leads_append_right hb.toOnward hleads hout).1
        omega
    · exact hb.behind hge hk hoff

theorem branching_single (hlink : instr.isLink = false) (hset : instr.firstSet? = none) :
    Branching [instr] := by
  refine branching_of_onward (onward_single hlink) (fun n off hmem => ?_) ?_
  · cases List.mem_singleton.1 hmem
    cases hset
  · simpa using Instr.testOffset?_of_firstSet? hset

theorem branching_openCall (rule : Nat) : Branching [.openCall rule] :=
  branching_of_onward (onward_openCall rule) (by simp) (by simp [Instr.testOffset?])

theorem Branching.cons (hcode : Branching code) (hlink : instr.isLink = false)
    (hset : instr.firstSet? = none) : Branching (instr :: code) :=
  branching_append (a := [instr]) (branching_single hlink hset) hcode

theorem Branching.jump_cons (hcode : Branching code) :
    Branching (.jump (code.length + 1 : Nat) :: code) where
  toOnward := hcode.toOnward.jump_cons
  any_pos := fun n off hmem => hcode.any_pos n off (by simpa using hmem)
  branches := fun k instr off hk hoff => by
    cases k with
    | zero =>
      cases hk
      cases hoff
    | succ k => exact hcode.behind (a := [.jump (code.length + 1 : Nat)]) (by simp) hk hoff

theorem branching_flatten {blocks : List Block} (h : ∀ block ∈ blocks, Branching block) :
    Branching blocks.flatten := by
  induction blocks with
  | nil => exact branching_nil
  | cons block rest ih =>
    rw [List.forall_mem_cons] at h
    exact branching_append h.1 (ih h.2)

theorem branching_of_checks (h : code.all Instr.isCheck = true)
    (hany : ∀ (n : Nat) (off : Int), .any n off ∈ code → 0 < n) : Branching code :=
  branching_of_onward (onward_of_checks h) hany fun instr hinstr =>
    Instr.testOffset?_of_isCheck (List.all_eq_true.1 h instr hinstr)

/-! ## Tests -/

theorem Branching.withHeadTest (h : Branching code) {d : Nat} (hd : code.length ≤ d) :
    Branching (withHeadTest d code) := by
  cases code with
  | nil => exact h
  | cons head rest =>
    have hjumps : ∀ (k : Nat) (off : Int), (Block.withHeadTest d (head :: rest))[k]? =
        some (.jump off) → (head :: rest)[k]? = some (.jump off) := fun k off hk => by
      cases k with
      | zero =>
        rw [Instr.eq_jump_of_withTest (Option.some.inj hk)]
        rfl
      | succ k => exact hk
    refine ⟨h.toOnward.withHeadTest d, fun n off hmem => ?_, fun k instr off hk hoff => ?_⟩
    · rcases List.mem_cons.1 hmem with he | hmem
      · obtain ⟨off', rfl⟩ := Instr.eq_any_of_withTest he.symm
        exact h.any_pos n off' List.mem_cons_self
      · exact h.any_pos n off (List.mem_cons_of_mem _ hmem)
    · cases k with
      | zero =>
        cases hk
        rcases Instr.testOffset?_withTest hoff with rfl | hoff
        · rw [List.length_cons] at hd
          refine ⟨d, by simp, by omega, fun hleads => ?_⟩
          have := hleads.eq_of_length_le hd
          omega
        · obtain ⟨n, hn, hkn, hnot⟩ := h.branches 0 head off rfl hoff
          exact ⟨n, hn, hkn, fun hleads => hnot (hleads.mono hjumps)⟩
      | succ k =>
        obtain ⟨n, hn, hkn, hnot⟩ := h.branches (k + 1) instr off hk hoff
        exact ⟨n, hn, hkn, fun hleads => hnot (hleads.mono hjumps)⟩

/-- A test in front of a choice. Jumps behind the choice do not lead to it. -/
theorem Branching.hoistCheck {off : Int} {back : Nat} (h : Branching code) :
    Branching (hoistCheck (.choice off back :: code)) := by
  have honward : Onward (Block.hoistCheck (.choice off back :: code)) := h.toOnward.hoistCheck
  rcases hoistCheck_cases off back code with hsame | ⟨check, rest, rfl, hcheck, hoff, -, hhoist⟩
  · rw [hsame]
    exact h.cons rfl rfl
  · rw [hhoist] at honward ⊢
    have hjumps : ∀ (k : Nat) (d : Int),
        (check.withTest off :: .choice (off - 1) check.step :: rest)[k]? = some (.jump d) →
          ([Instr.choice off back] ++ check :: rest)[k]? = some (.jump d) := fun k d hk => by
      match k, hk with
      | 0, hk =>
        rw [Instr.eq_jump_of_withTest (Option.some.inj hk)] at hcheck
        cases hcheck
      | 1, hk => cases hk
      | _ + 2, hk => exact hk
    refine ⟨honward, fun n d hmem => ?_, fun k instr d hk hd => ?_⟩
    · rcases List.mem_cons.1 hmem with he | hmem
      · obtain ⟨d', rfl⟩ := Instr.eq_any_of_withTest he.symm
        exact h.any_pos n d' List.mem_cons_self
      · rcases List.mem_cons.1 hmem with he | hmem
        · cases he
        · exact h.any_pos n d (List.mem_cons_of_mem _ hmem)
    · match k, hk with
      | 0, hk =>
        cases hk
        rcases Instr.testOffset?_withTest hd with rfl | hd
        · refine ⟨d.toNat, by omega, by omega, fun hleads => ?_⟩
          have hback := leads_append_right h.toOnward (hleads.mono hjumps)
            (by simp only [List.length_singleton]; omega)
          exact absurd hback.1 (by simp)
        · rw [Instr.testOffset?_of_isCheck hcheck] at hd
          cases hd
      | 1, hk =>
        cases hk
        cases hd
      | k + 2, hk =>
        obtain ⟨n, hn, hkn, hnot⟩ := h.behind (a := [.choice off back]) (k := k + 2) (by simp) hk hd
        exact ⟨n, hn, hkn, fun hleads => hnot (hleads.mono hjumps)⟩

/-! ## Patterns and their parts -/

theorem branching_ofSet (bytes : ByteSet) : Branching (ofSet bytes) := by
  rw [ofSet]
  split
  · exact branching_single rfl rfl
  · split <;> exact branching_of_checks rfl (by simp)

theorem branching_ofBytes (bytes : List UInt8) : Branching (ofBytes bytes) :=
  branching_of_checks (all_isCheck_ofBytes bytes) (by simp [ofBytes])

theorem branching_skip (count : Nat) : Branching (skip count) := by
  refine branching_of_checks (all_isCheck_of_isSkip (all_isSkip_skip count)) fun n off hmem => ?_
  rcases List.mem_append.1 hmem with hmem | hmem
  · cases List.eq_of_mem_replicate hmem
    decide
  · split at hmem
    · cases hmem
    · next hrest =>
      cases List.mem_singleton.1 hmem
      exact Nat.pos_of_ne_zero hrest

theorem branching_choice (hcode : choice a b = .ok code) (ha : Branching a) (hb : Branching b) :
    Branching code := by
  cases choice_form hcode with
  | second => exact hb
  | first => exact ha
  | union => exact branching_ofSet _
  | tested => exact branching_append (ha.withHeadTest (Nat.le_succ _)) hb.jump_cons
  | chosen => exact (branching_append ha (hb.cons rfl rfl)).hoistCheck

theorem branching_difference (hcode : difference a b = .ok code) (ha : Branching a)
    (hb : Branching b) : Branching code := by
  cases difference_form hcode with
  | first => exact ha
  | none => exact branching_single rfl rfl
  | diff => exact branching_ofSet _
  | tested => exact branching_append (hb.withHeadTest (Nat.le_succ _)) (ha.cons rfl rfl)
  | chosen => exact (branching_append hb (ha.cons rfl rfl)).hoistCheck

theorem branching_lookahead (hcode : lookahead a = .ok code) (ha : Branching a) :
    Branching code := by
  rcases lookahead_cases hcode with ⟨-, rfl⟩ | rfl
  · exact ha
  · exact (branching_append ha ((branching_single rfl rfl).cons rfl rfl)).cons rfl rfl

theorem branching_any {count : Int} (hcode : any count = .ok code) : Branching code := by
  rcases any_cases hcode with ⟨-, rfl⟩ | ⟨hneg, rfl | ⟨-, hdiff⟩⟩
  · exact branching_skip _
  · have htest : Branching [.any count.natAbs 2] := by
      have hcheck : Branching [.any count.natAbs 0] :=
        branching_of_checks rfl fun n off hmem => by
          cases List.mem_singleton.1 hmem
          omega
      exact hcheck.withHeadTest (d := 2) (by simp)
    exact branching_append htest (branching_single rfl rfl)
  · exact branching_difference hdiff branching_nil (branching_skip _)

theorem branching_sequence (hcode : sequence a b = .ok code) (ha : Branching a)
    (hb : Branching b) : Branching code := by
  cases sequence_form hcode with
  | first => exact ha
  | second => exact hb
  | skips => exact branching_skip _
  | append => exact branching_append ha hb

/-- A loop whose body fails at its head has a test there only, which leaves the loop. -/
theorem branching_testedLoop (hhead : failsAtHead body = true) (hbody : Branching body)
    (honward : Onward (withHeadTest (body.length + 1 : Nat) body ++ [.jump (-body.length)])) :
    Branching (withHeadTest (body.length + 1 : Nat) body ++ [.jump (-body.length)]) := by
  have htested := hbody.withHeadTest (Nat.le_succ body.length)
  refine ⟨honward, fun n off hmem => ?_, fun k instr off hk hoff => ?_⟩
  · rcases List.mem_append.1 hmem with hmem | hmem
    · exact htested.any_pos n off hmem
    · cases List.mem_singleton.1 hmem
  · obtain ⟨head, rest, rfl, hcheck, hrest, -⟩ := failsAtHead_iff.1 hhead
    cases k with
    | zero =>
      cases hk
      rcases Instr.testOffset?_withTest hoff with rfl | hoff
      · refine ⟨_, Int.zero_add _, Nat.succ_pos _, fun hleads => ?_⟩
        have := hleads.eq_of_length_le (by simp [withHeadTest])
        omega
      · rw [Instr.testOffset?_of_isCheck hcheck] at hoff
        cases hoff
    | succ k =>
      rcases List.mem_append.1 (List.mem_of_getElem? (show (rest ++ [.jump _])[k]? = _ from hk)) with
        hmem | hmem
      · rw [Instr.testOffset?_of_cannotFail (hrest instr hmem)] at hoff
        cases hoff
      · cases List.mem_singleton.1 hmem
        cases hoff

theorem branching_loop (hbody : Branching body) (hcont : Contained body) : Branching (loop body) := by
  have honward := onward_loop hbody.toOnward hcont
  generalize hcode : loop body = code at honward
  cases loop_form hcode with
  | span => exact branching_single rfl rfl
  | tested hhead => exact branching_testedLoop hhead hbody honward
  | chosen => exact (branching_append hbody (branching_single rfl rfl)).cons rfl rfl

theorem branching_behindCopy (count : Nat) (hbody : Branching body) :
    Branching (behindCopy body count) := by
  induction count with
  | zero => exact branching_single rfl rfl
  | succ count ih => exact branching_append (hbody.cons rfl rfl) ih

theorem branching_optional (count : Nat) (hbody : Branching body) :
    Branching (optional count body) := by
  generalize hcode : optional count body = code
  cases optional_form hcode with
  | tested hhead =>
    rw [testedCopies, List.flatMap_def]
    refine branching_flatten fun block hblock => ?_
    obtain ⟨later, -, rfl⟩ := List.mem_map.1 hblock
    exact hbody.withHeadTest (Nat.le_mul_of_pos_left _ (Nat.succ_pos later))
  | chosen => exact (branching_append hbody (branching_behindCopy _ hbody)).hoistCheck

theorem branching_repetition {count : Int} (hcode : repetition body count = .ok code)
    (hbody : Branching body) (hcont : Contained body) : Branching code := by
  rw [repetition_eq hcode]
  split
  · refine branching_append (branching_flatten fun block hblock => ?_) (branching_loop hbody hcont)
    rwa [List.eq_of_mem_replicate hblock]
  · exact branching_optional _ hbody

theorem branching_enclose (kind : CaptureKind) (index : Nat) (hbody : Branching body) :
    Branching (enclose kind index body) := by
  generalize hcode : enclose kind index body = code
  cases enclose_form hcode with
  | matchTime | opened => exact (branching_append hbody (branching_single rfl rfl)).cons rfl rfl
  | fixed => exact branching_append hbody (branching_single rfl rfl)

end Block

/-! ## Tests of threaded code -/

section

variable {code : Block} {instr instr' : Instr} {k : Nat}

theorem isCheck_withOffset {off off' : Int} (h : instr.offset? = some off)
    (htest : instr.testOffset? = some off → off' ≠ 0) :
    (instr.withOffset off').isCheck = instr.isCheck := by
  cases instr with
  | any _ d | char _ d | set _ d =>
    have hne := htest h
    rw [Instr.offset?] at h
    split at h
    · cases h
    · next hzero =>
      rw [Instr.withOffset, if_neg hzero, Instr.isCheck, Instr.isCheck, beq_false_of_ne hne,
        beq_false_of_ne hzero]
  | _ => rfl

/-- A test stays one if no chain of jumps leads back to it. -/
theorem ThreadedAs.keepsTest (h : ThreadedAs code k instr instr')
    (hnot : ∀ (off : Int) (n : Nat), instr.testOffset? = some off → (k : Int) + off = n →
      ¬ Leads code n k) :
    ∃ off, instr' = instr.withOffset off ∧ (instr.withOffset off).isCheck = instr.isCheck := by
  cases h with
  | same hnone => exact ⟨0, (withOffset_of_none hnone 0).symm, by rw [withOffset_of_none hnone]⟩
  | jump hoff hn hn' hleads =>
    refine ⟨_, rfl, isCheck_withOffset hoff fun htest hzero => hnot _ _ htest hn ?_⟩
    rw [hzero, Int.add_zero, Int.ofNat_inj] at hn'
    rwa [hn']

end

end PegMachine
