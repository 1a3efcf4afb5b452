import PegMachine.Proofs.Blocks.Steps

/-!
# Blocks of checks

* `Setting.afterChecks`: the position behind a block of checks, if they all hold.
* `Block.runs_checks`: the run of such a block; `runs_skip`, `runs_charset`, `runs_ofSet` are cases.
* `Block.Runs.tested`: a block whose head has become a test.
-/

namespace PegMachine

namespace Instr

theorem isCheck_iff {instr : Instr} : instr.isCheck = true ↔
    (∃ n, instr = .any n 0) ∨ (∃ b, instr = .char b 0) ∨ ∃ s, instr = .set s 0 := by
  cases instr <;> simp [isCheck]

theorem offset?_of_isCheck {instr : Instr} (h : instr.isCheck = true) : instr.offset? = none := by
  rcases isCheck_iff.1 h with ⟨n, rfl⟩ | ⟨b, rfl⟩ | ⟨s, rfl⟩ <;> rfl

theorem isCheck_of_isSkip {instr : Instr} (h : instr.isSkip = true) : instr.isCheck = true := by
  cases instr <;> simp_all [isSkip, isCheck]

end Instr

section

variable {m : Setting} {answers : Answers} {code : Block} {o : Origin} {address n pos : Nat}
  {frames : List Pending} {captures : Array Entry} {check : Instr} {d : Int} {r R : Answer}

theorem Setting.holds_le (h : m.holds pos check = true) : pos + check.step ≤ m.subject.size := by
  have inside : ∀ p : UInt8 → Bool, m.subject[pos]?.any p = true → pos + 1 ≤ m.subject.size := by
    intro p hp
    rcases Nat.lt_or_ge pos m.subject.size with hlt | hge
    · exact hlt
    · simp [Array.getElem?_eq_none hge] at hp
  cases check with
  | any n off => simpa [Setting.holds, Instr.step] using h
  | char b off =>
    refine inside (· == b) ?_
    simp only [Setting.holds, decide_eq_true_eq] at h
    simp [h]
  | set s off => exact inside _ h
  | _ => cases h

theorem Setting.move_check (h : check.isCheck = true) :
    m.move answers pos captures check =
      if m.holds pos check then .advance (pos + check.step) captures else .fail := by
  rcases Instr.isCheck_iff.1 h with ⟨n, rfl⟩ | ⟨b, rfl⟩ | ⟨s, rfl⟩ <;> rfl

theorem Setting.move_withTest (h : check.isCheck = true) (hd : d ≠ 0) :
    m.move answers pos captures (check.withTest d) =
      if m.holds pos check then .advance (pos + check.step) captures else .jump d := by
  have hrefuse : Move.refuse d = .jump d := if_neg hd
  rcases Instr.isCheck_iff.1 h with ⟨n, rfl⟩ | ⟨b, rfl⟩ | ⟨s, rfl⟩ <;>
    simp only [Instr.withTest, Setting.move, hrefuse] <;> rfl

theorem Instr.ready_of_isCheck {outline : Block} {c : Config} (h : check.isCheck = true) (d : Int) :
    check.Ready m answers outline o c ∧ (check.withTest d).Ready m answers outline o c := by
  rcases Instr.isCheck_iff.1 h with ⟨n, rfl⟩ | ⟨b, rfl⟩ | ⟨s, rfl⟩ <;> exact ⟨trivial, trivial⟩

/-! ## Steps at checks and tests -/

theorem Run.step_check (hinstr : code[address]? = some check) (hcheck : check.isCheck = true)
    (hs : Sound m o ⟨address, pos, frames, captures⟩)
    (hholds : m.holds pos check = true →
      Run m answers code code o ⟨address + 1, pos + check.step, frames, captures⟩ R)
    (hmiss : m.holds pos check = false → Backtracks m answers code o frames captures R) :
    Run m answers code code o ⟨address, pos, frames, captures⟩ R := by
  have hready : check.Ready m answers code o ⟨address, pos, frames, captures⟩ :=
    (Instr.ready_of_isCheck hcheck 0).1
  cases htest : m.holds pos check with
  | true =>
    refine .step_advance hinstr hs hready ?_ (hholds htest)
    rw [Setting.move_check hcheck, if_pos htest]
  | false =>
    refine .step_fail hinstr hs hready ?_ (hmiss htest)
    rw [Setting.move_check hcheck, if_neg (by simp [htest])]

theorem Run.step_test (hinstr : code[address]? = some (check.withTest d))
    (hcheck : check.isCheck = true) (hd : d ≠ 0)
    (hs : Sound m o ⟨address, pos, frames, captures⟩) (hn : (address : Int) + d = n)
    (hholds : m.holds pos check = true →
      Run m answers code code o ⟨address + 1, pos + check.step, frames, captures⟩ R)
    (hmiss : m.holds pos check = false →
      Run m answers code code o ⟨n, pos, frames, captures⟩ R) :
    Run m answers code code o ⟨address, pos, frames, captures⟩ R := by
  have hready : (check.withTest d).Ready m answers code o ⟨address, pos, frames, captures⟩ :=
    (Instr.ready_of_isCheck hcheck d).2
  cases htest : m.holds pos check with
  | true =>
    refine .step_advance hinstr hs hready ?_ (hholds htest)
    rw [Setting.move_withTest hcheck hd, if_pos htest]
  | false =>
    have hmove : m.move answers pos captures (check.withTest d) = .jump d := by
      rw [Setting.move_withTest hcheck hd, if_neg (by simp [htest])]
    refine .next hinstr hs hready (by rw [hmove]; rfl) ?_
    simpa [Config.target, hn] using hmiss htest

theorem Run.past_check (h : Run m answers code code o ⟨address, pos, frames, captures⟩ r)
    (hinstr : code[address]? = some check) (hcheck : check.isCheck = true)
    (hholds : m.holds pos check = true) :
    Run m answers code code o ⟨address + 1, pos + check.step, frames, captures⟩ r := by
  refine h.tail hinstr ?_
  rw [Setting.move_check hcheck, if_pos hholds]
  rfl

end

/-! ## Runs of checks -/

/-- The position behind checks that all hold. -/
def Setting.afterChecks (m : Setting) (pos : Nat) : Block → Option Nat
  | [] => some pos
  | check :: rest => if m.holds pos check then m.afterChecks (pos + check.step) rest else none

/-- Whether a byte of a set stands at a position. -/
def Setting.hasByte (m : Setting) (bytes : ByteSet) (pos : Nat) : Bool :=
  m.subject[pos]?.any bytes.contains

/-- The answer of code that records nothing. -/
def Answer.ofPos (captures : Array Entry) : Option Nat → Answer
  | some pos => .matched pos captures
  | none => .failed

namespace Block

variable {m : Setting} {answers : Answers} {room pos : Nat} {captures : Array Entry} {code : Block}

@[simp]
theorem width_nil : width [] = 0 := rfl

@[simp]
theorem width_cons (instr : Instr) (rest : Block) :
    width (instr :: rest) = instr.step + width rest := rfl

theorem width_append (a b : Block) : width (a ++ b) = width a + width b := by
  induction a with
  | nil => rw [List.nil_append, width_nil, Nat.zero_add]
  | cons instr rest ih => rw [List.cons_append, width_cons, ih, width_cons, Nat.add_assoc]

theorem width_replicate (count : Nat) (instr : Instr) :
    width (List.replicate count instr) = count * instr.step := by
  induction count with
  | zero => rw [List.replicate_zero, width_nil, Nat.zero_mul]
  | succ count ih => rw [List.replicate_succ, width_cons, ih, Nat.succ_mul, Nat.add_comm]

theorem afterChecks_eq_some {stop : Nat} (h : m.afterChecks pos code = some stop) :
    stop = pos + width code := by
  induction code generalizing pos with
  | nil =>
    cases h
    rfl
  | cons check rest ih =>
    rw [Setting.afterChecks] at h
    split at h
    · rw [ih h, width_cons, Nat.add_assoc]
    · cases h

/-- **The run of a block of checks.** -/
theorem runs_checks (hcode : code.all Instr.isCheck = true) (hpos : pos ≤ m.subject.size) :
    Runs m answers room code pos captures (.ofPos captures (m.afterChecks pos code)) := by
  suffices key : ∀ (rest done : Block) (q : Nat), code = done ++ rest → pos ≤ q →
      q ≤ m.subject.size →
        Run m answers code code ⟨pos, captures, room⟩ ⟨done.length, q, [], captures⟩
          (.ofPos captures (m.afterChecks q rest)) from
    key code [] pos rfl (Nat.le_refl _) hpos
  intro rest
  induction rest with
  | nil =>
    intro done q hc hle hsize
    exact .exit (by simp [hc]) rfl ⟨hle, hsize, .refl _, levelsBelow_nil _, Nat.zero_le _⟩
  | cons check rest ih =>
    intro done q hc hle hsize
    have hinstr : code[done.length]? = some check := by simp [hc]
    have hcheck : check.isCheck = true := by
      rw [List.all_eq_true] at hcode
      exact hcode check (by simp [hc])
    have hs : Sound m ⟨pos, captures, room⟩ ⟨done.length, q, [], captures⟩ :=
      ⟨hle, hsize, .refl _, levelsBelow_nil _, Nat.zero_le _⟩
    rw [Setting.afterChecks]
    refine .step_check hinstr hcheck hs (fun hholds => ?_) (fun hmiss => ?_)
    · rw [if_pos hholds]
      have hrest := ih (done ++ [check]) (q + check.step) (by simp [hc]) (by omega)
        (Setting.holds_le hholds)
      rwa [List.length_append] at hrest
    · rw [if_neg (by simp [hmiss])]
      exact .nil

theorem contained_of_checks (hcode : code.all Instr.isCheck = true) : Contained code := by
  rw [List.all_eq_true] at hcode
  exact contained_of_offset?_eq_none fun instr hmem => Instr.offset?_of_isCheck (hcode instr hmem)

/-! ## Skips -/

theorem afterChecks_skips (hcode : code.all Instr.isSkip = true) (hpos : pos ≤ m.subject.size) :
    m.afterChecks pos code =
      if pos + width code ≤ m.subject.size then some (pos + width code) else none := by
  induction code generalizing pos with
  | nil => simp [Setting.afterChecks, hpos]
  | cons check rest ih =>
    rw [List.all_cons, Bool.and_eq_true] at hcode
    obtain ⟨n, rfl⟩ : ∃ n, check = .any n 0 := by
      cases check <;> simp_all [Instr.isSkip]
    rw [Setting.afterChecks, width_cons, ← Nat.add_assoc]
    by_cases hholds : pos + n ≤ m.subject.size
    · rw [if_pos (by simpa [Setting.holds] using hholds)]
      exact ih hcode.2 hholds
    · rw [if_neg (by simpa [Setting.holds] using hholds), if_neg]
      simp only [Instr.step]
      omega

theorem all_isCheck_of_isSkip (hcode : code.all Instr.isSkip = true) :
    code.all Instr.isCheck = true := by
  rw [List.all_eq_true] at hcode ⊢
  exact fun instr hmem => Instr.isCheck_of_isSkip (hcode instr hmem)

theorem all_isSkip_skip (n : Nat) : (skip n).all Instr.isSkip = true := by
  rw [List.all_eq_true]
  intro instr hmem
  rw [skip, List.mem_append] at hmem
  rcases hmem with h | h
  · rw [(List.mem_replicate.1 h).2]
    rfl
  · split at h
    · cases h
    · rw [List.mem_singleton.1 h]
      rfl

theorem width_skip (n : Nat) : width (skip n) = n := by
  rw [skip, width_append, width_replicate]
  have hdiv := Nat.div_add_mod n maxSkip
  split
  · next h =>
    rw [h] at hdiv
    simp only [Instr.step, width_nil]
    rw [Nat.mul_comm]
    exact hdiv
  · simp only [Instr.step, width_cons, width_nil]
    rw [Nat.mul_comm]
    exact hdiv

theorem runs_skip (n : Nat) (hpos : pos ≤ m.subject.size) :
    Runs m answers room (skip n) pos captures
      (.ofPos captures (if pos + n ≤ m.subject.size then some (pos + n) else none)) := by
  rw [← width_skip n, ← afterChecks_skips (all_isSkip_skip n) hpos, width_skip]
  exact runs_checks (all_isCheck_of_isSkip (all_isSkip_skip n)) hpos

/-! ## Sets -/

theorem hasByte_iff {bytes : ByteSet} : m.hasByte bytes pos = true ↔
    ∃ b, m.subject[pos]? = some b ∧ bytes.contains b = true := by
  rw [Setting.hasByte]
  cases m.subject[pos]? <;> simp

theorem holds_eq_hasByte {check : Instr} {bytes : ByteSet} (hstep : check.step = 1)
    (hset : check.firstSet? = some bytes) : m.holds pos check = m.hasByte bytes pos := by
  cases check with
  | any n off =>
    cases hset
    simp only [Instr.step] at hstep
    subst hstep
    rcases Nat.lt_or_ge pos m.subject.size with hlt | hge
    · have : pos + 1 ≤ m.subject.size := hlt
      simp [Setting.holds, Setting.hasByte, Array.getElem?_eq_getElem hlt, this]
    · have : ¬ pos + 1 ≤ m.subject.size := by omega
      simp [Setting.holds, Setting.hasByte, Array.getElem?_eq_none hge, this]
  | char b off =>
    cases hset
    cases hbyte : m.subject[pos]? <;> simp [Setting.holds, Setting.hasByte, hbyte]
  | set s off =>
    cases hset
    rfl
  | _ => cases hset

theorem charset?_eq_some {bytes : ByteSet} (h : charset? code = some bytes) :
    ∃ check, code = [check] ∧ check.isCheck = true ∧ check.step = 1 ∧
      check.firstSet? = some bytes := by
  unfold charset? at h
  split at h
  · next check =>
    split at h
    · next hcheck =>
      rw [Bool.and_eq_true, beq_iff_eq] at hcheck
      exact ⟨check, rfl, hcheck.1, hcheck.2, h⟩
    · cases h
  · cases h

theorem afterChecks_charset {bytes : ByteSet} (h : charset? code = some bytes) :
    code.all Instr.isCheck = true ∧
      m.afterChecks pos code = if m.hasByte bytes pos then some (pos + 1) else none := by
  obtain ⟨check, rfl, hcheck, hstep, hset⟩ := charset?_eq_some h
  refine ⟨by simp [hcheck], ?_⟩
  rw [Setting.afterChecks, Setting.afterChecks, holds_eq_hasByte hstep hset, hstep]

theorem runs_charset {bytes : ByteSet} (h : charset? code = some bytes)
    (hpos : pos ≤ m.subject.size) :
    Runs m answers room code pos captures
      (.ofPos captures (if m.hasByte bytes pos then some (pos + 1) else none)) := by
  have hafter : _ ∧ m.afterChecks pos code = _ := afterChecks_charset h
  rw [← hafter.2]
  exact runs_checks hafter.1 hpos

theorem runs_fail (hpos : pos ≤ m.subject.size) :
    Runs m answers room [.fail] pos captures .failed :=
  .step_fail rfl ⟨Nat.le_refl _, hpos, .refl _, levelsBelow_nil _, Nat.zero_le _⟩ trivial rfl .nil

theorem contained_fail : Contained [.fail] :=
  contained_of_offset?_eq_none (by simp [Instr.offset?])

/-- A set without bytes never matches, and any other one is a check. -/
theorem ofSet_cases (bytes : ByteSet) :
    (ofSet bytes = [.fail] ∧ ∀ (m : Setting) (pos : Nat), m.hasByte bytes pos = false) ∨
      charset? (ofSet bytes) = some bytes := by
  rw [ofSet]
  split
  · next hempty =>
    refine .inl ⟨rfl, fun m pos => ?_⟩
    rw [ByteSet.isEmpty_iff.1 hempty, Setting.hasByte]
    cases m.subject[pos]? <;> simp
  · right
    split
    · next b hsingle =>
      have hlist : bytes.toList = [b] := by
        unfold ByteSet.single? at hsingle
        split at hsingle
        · next b' hlist => rw [hlist, Option.some.inj hsingle]
        · cases hsingle
      have hbytes : ByteSet.ofList [b] = bytes := by
        ext c
        rw [ByteSet.contains_ofList, ← hlist, Bool.eq_iff_iff, decide_eq_true_iff,
          ByteSet.mem_toList]
      rw [← hbytes]
      rfl
    · rfl

theorem runs_ofSet (bytes : ByteSet) (hpos : pos ≤ m.subject.size) :
    Runs m answers room (ofSet bytes) pos captures
      (.ofPos captures (if m.hasByte bytes pos then some (pos + 1) else none)) := by
  rcases ofSet_cases bytes with ⟨hcode, hnone⟩ | hcode
  · rw [hcode, hnone]
    exact runs_fail hpos
  · exact runs_charset hcode hpos

theorem contained_ofSet (bytes : ByteSet) : Contained (ofSet bytes) := by
  rw [ofSet]
  split
  · exact contained_fail
  · split <;> exact contained_of_checks rfl

/-! ## Literals -/

theorem afterChecks_ofBytes (bytes : List UInt8) :
    m.afterChecks pos (ofBytes bytes) =
      if bytes <+: m.subject.toList.drop pos then some (pos + bytes.length) else none := by
  induction bytes generalizing pos with
  | nil => simp [ofBytes, Setting.afterChecks]
  | cons b bytes ih =>
    have hdrop : (b :: bytes <+: m.subject.toList.drop pos) ↔
        m.subject[pos]? = some b ∧ bytes <+: m.subject.toList.drop (pos + 1) := by
      rcases Nat.lt_or_ge pos m.subject.size with hlt | hge
      · rw [List.drop_eq_getElem_cons (by simpa using hlt), List.cons_prefix_cons,
          Array.getElem?_eq_getElem hlt, Option.some.injEq, Array.getElem_toList, eq_comm]
      · simp [List.drop_eq_nil_of_le, hge]
    rw [ofBytes, List.map_cons, Setting.afterChecks]
    by_cases hb : m.subject[pos]? = some b
    · rw [if_pos (by simp [Setting.holds, hb])]
      refine ih.trans ?_
      simp only [hdrop, hb, true_and, List.length_cons, Instr.step]
      have hlength : pos + 1 + bytes.length = pos + (bytes.length + 1) := by omega
      rw [hlength]
      congr
    · rw [if_neg (by simp [Setting.holds, hb]), if_neg (by simp [hdrop, hb])]

theorem all_isCheck_ofBytes (bytes : List UInt8) :
    (ofBytes bytes).all Instr.isCheck = true := by
  simp [ofBytes, Instr.isCheck]

/-! ## Tests at the head -/

section

variable {code part rest : Block} {head : Instr} {n target : Nat} {off : Int} {o : Origin}
  {below : List Pending} {r R : Answer}

theorem runs_start (captures : Array Entry) (hpos : pos ≤ m.subject.size) :
    Sound m ⟨pos, captures, room⟩ ⟨0, pos, [], captures⟩ :=
  ⟨Nat.le_refl _, hpos, .refl _, levelsBelow_nil _, Nat.zero_le _⟩

theorem Runs.pos_le (h : Runs m answers room code pos captures r) : pos ≤ m.subject.size :=
  (Run.sound h).pos_le

theorem Runs.eq_failed (h : Runs m answers room (head :: rest) pos captures r)
    (hcheck : head.isCheck = true) (hmiss : m.holds pos head = false) : r = .failed := by
  refine Run.eq_failed h (show (head :: rest)[0]? = some head from rfl) ?_
  rw [Setting.move_check hcheck, hmiss]
  rfl

theorem StandsAt.getElem?_behind {k : Nat} {instr : Instr} (hat : StandsAt code (n + 1) rest)
    (hk : 1 ≤ k) (hpart : (head :: rest)[k]? = some instr) : code[n + k]? = some instr := by
  obtain ⟨k, rfl⟩ := Nat.exists_eq_add_of_le' hk
  rw [show n + (k + 1) = n + 1 + k by omega]
  exact hat.getElem?_eq_some (by simpa using hpart)

theorem carries_tail (hat : StandsAt code (n + 1) rest) (hcheck : head.isCheck = true)
    (hcont : Contained (head :: rest)) (hlands : landsOn 0 0 (head :: rest) = false) :
    Carries code n 1 (head :: rest) where
  getElem? k instr hk hpart _ := hat.getElem?_behind hk hpart
  choice k off back hk hlt hcode := by
    obtain ⟨k, rfl⟩ := Nat.exists_eq_add_of_le' hk
    rw [show n + (k + 1) = n + 1 + k by omega, hat.getElem? (by simpa using hlt)] at hcode
    simpa using hcode
  first_le k off back hpart := by
    cases k with
    | zero =>
      cases hpart
      cases hcheck
    | succ k => omega
  lands k instr off hpart hjump := by
    have hge := (hcont k instr off hpart hjump).1
    have hne := landsOn_eq_false_iff.1 hlands k instr off hpart hjump
    omega

/-- Behind the check at its head, a block does what it does on its own, whatever stands in the place
of the check. -/
theorem Runs.past_head (h : Runs m answers room (head :: rest) pos captures r)
    (hat : StandsAt code (n + 1) rest) (hcheck : head.isCheck = true)
    (hholds : m.holds pos head = true) (hcont : Contained (head :: rest))
    (hlands : landsOn 0 0 (head :: rest) = false) (ho : o.pos ≤ pos)
    (hx : Extends o.captures captures) (hbelow : LevelsBelow below captures.size)
    (hroom : room + below.length ≤ o.room)
    (hend : Continues m answers code o (n + (rest.length + 1)) below captures R r) :
    Run m answers code code o ⟨n + 1, pos + head.step, below, captures⟩ R := by
  refine Run.carried (o := ⟨pos, captures, room⟩) (carries_tail hat hcheck hcont hlands) ho hx
    hbelow hroom ?_ (Run.past_check h rfl hcheck hholds) (Nat.le_refl _) (by simp [FramesLead]) hend
  exact fun k rule hk hpart => .openCall (hat.getElem?_behind hk hpart)

theorem Runs.tested (h : Runs m answers room (head :: rest) pos captures r) (target : Nat)
    (hat : StandsAt code 0 (head.withTest target :: rest)) (hcheck : head.isCheck = true)
    (htarget : target ≠ 0) (hcont : Contained (head :: rest))
    (hlands : landsOn 0 0 (head :: rest) = false) (ho : o.pos ≤ pos)
    (hx : Extends o.captures captures) (hroom : room ≤ o.room)
    (hholds : m.holds pos head = true →
      Continues m answers code o (rest.length + 1) [] captures R r)
    (hmiss : m.holds pos head = false →
      Run m answers code code o ⟨target, pos, [], captures⟩ R) :
    Run m answers code code o ⟨0, pos, [], captures⟩ R := by
  refine .step_test hat.head hcheck (by omega) ⟨ho, h.pos_le, hx, levelsBelow_nil _, Nat.zero_le _⟩
    (Int.zero_add _) (fun htest => ?_) hmiss
  refine h.past_head hat.tail hcheck htest hcont hlands ho hx (levelsBelow_nil _) hroom ?_
  rw [Nat.zero_add]
  exact hholds htest

theorem move_of_cannotFail (m : Setting) (answers : Answers) (pos : Nat)
    (captures : Array Entry) {instr : Instr} (h : instr.cannotFail = true) :
    ∃ pos' captures', m.move answers pos captures instr = .advance pos' captures' := by
  cases instr with
  | span | fullCapture | emptyCapture | emptyCaptureConst | openCapture | closeCapture =>
    exact ⟨_, _, rfl⟩
  | _ => cases h

theorem failsAtHead_iff : failsAtHead code = true ↔
    ∃ head rest, code = head :: rest ∧ head.isCheck = true ∧
      (∀ instr ∈ rest, instr.cannotFail = true) ∧ landsOn 0 0 code = false := by
  cases code with
  | nil => simp [failsAtHead]
  | cons head rest => simp [failsAtHead, and_assoc]

/-- Behind the head of a block that fails at most there, the run matches. -/
theorem Runs.matched_of_holds (h : Runs m answers room (head :: rest) pos captures r)
    (hcheck : head.isCheck = true) (hrest : ∀ instr ∈ rest, instr.cannotFail = true)
    (hholds : m.holds pos head = true) :
    ∃ pos' captures', r = .matched pos' captures' := by
  suffices key : ∀ {o : Origin} {c : Config} {r : Answer},
      Run m answers (head :: rest) (head :: rest) o c r → 1 ≤ c.address →
        ∃ pos' captures', r = .matched pos' captures' by
    exact key (Run.past_check h rfl hcheck hholds) (Nat.le_refl _)
  intro o c r h
  have hmove : ∀ {c : Config} {instr : Instr}, (head :: rest)[c.address]? = some instr →
      1 ≤ c.address →
      ∃ c', c.perform (m.move answers c.pos c.captures instr) = .next c' ∧ 1 ≤ c'.address := by
    intro c instr hinstr haddr
    obtain ⟨k, hk⟩ := Nat.exists_eq_add_of_le' haddr
    rw [hk, List.getElem?_cons_succ] at hinstr
    obtain ⟨pos', captures', hmove⟩ := move_of_cannotFail m answers c.pos c.captures
      (hrest instr (List.mem_of_getElem? hinstr))
    exact ⟨_, by rw [hmove]; rfl, Nat.le_add_left 1 _⟩
  induction h with
  | exit => exact fun _ => ⟨_, _, rfl⟩
  | next hinstr _ _ hstep _ ih =>
    intro haddr
    obtain ⟨c', hstep', haddr'⟩ := hmove hinstr haddr
    rw [hstep] at hstep'
    cases hstep'
    exact ih haddr'
  | failed hinstr _ _ hstep | crashed hinstr _ _ hstep =>
    intro haddr
    obtain ⟨c', hstep', -⟩ := hmove hinstr haddr
    rw [hstep] at hstep'
    cases hstep'

/-! ## Exclusive heads -/

theorem firstSet?_of_holds {check : Instr} {bytes : ByteSet} (h : m.holds pos check = true)
    (hset : check.firstSet? = some bytes) : m.hasByte bytes pos = true ∨
      m.subject[pos]? = none ∧ bytes = .full := by
  cases check with
  | any n off =>
    cases hset
    cases hbyte : m.subject[pos]? <;> simp [Setting.hasByte, hbyte]
  | char b off =>
    cases hset
    simp only [Setting.holds, decide_eq_true_eq] at h
    simp [Setting.hasByte, h]
  | set s off =>
    cases hset
    exact .inl h
  | _ => cases hset

/-- At most one of the checks at the heads of exclusive blocks holds. -/
theorem areExclusive_iff {a b : Block} : areExclusive a b = true ↔
    ∃ x as y bs s t, a = x :: as ∧ b = y :: bs ∧ x.firstSet? = some s ∧ y.firstSet? = some t ∧
      x.isCheck = true ∧ landsOn 0 0 a = false ∧ y.isCheck = true ∧ s.isDisjoint t = true := by
  cases a with
  | nil => simp [areExclusive]
  | cons x as =>
    cases b with
    | nil => simp [areExclusive]
    | cons y bs =>
      cases hx : x.firstSet? <;> cases hy : y.firstSet? <;>
        simp [areExclusive, hx, hy, and_assoc]

theorem holds_exclusive {x y : Instr} {s t : ByteSet} (hs : x.firstSet? = some s)
    (ht : y.firstSet? = some t) (hdisjoint : s.isDisjoint t = true)
    (hx : m.holds pos x = true) : m.holds pos y = false := by
  rw [Bool.eq_false_iff]
  intro hy
  rw [ByteSet.isDisjoint_iff] at hdisjoint
  rcases firstSet?_of_holds hx hs with hx | ⟨hnone, rfl⟩ <;>
    rcases firstSet?_of_holds hy ht with hy | ⟨hnone', rfl⟩
  · obtain ⟨b, hb, hmem⟩ := hasByte_iff.1 hx
    obtain ⟨b', hb', hmem'⟩ := hasByte_iff.1 hy
    rw [hb] at hb'
    cases hb'
    simp [hdisjoint b hmem] at hmem'
  · obtain ⟨b, hb, -⟩ := hasByte_iff.1 hx
    simp [hnone'] at hb
  · obtain ⟨b, hb, -⟩ := hasByte_iff.1 hy
    simp [hnone] at hb
  · simpa using hdisjoint 0

end

end Block

end PegMachine
