import PegMachine.Proofs.Blocks.Sequences

/-!
# Repetitions

* `AtLeast`, `AtMost`: the rounds of a repetition, from the runs of its body.
* `Block.runs_loop`: the code of as many rounds as possible.
* `Block.runs_optional`: the code of a bounded number of rounds.
* `Block.runs_repetition`: **what the code of a repetition answers.**
-/

namespace PegMachine

/-- As many rounds as possible, at least `n` of them, in room for `room` frames. Behind the rounds that
are asked for there is a choice pending during each round. -/
inductive AtLeast (m : Setting) (answers : Answers) (room : Nat) (body : Block) :
    Nat → Nat → Array Entry → Answer → Prop where
  | fails {n pos : Nat} {captures : Array Entry}
      (h : Block.Runs m answers room body pos captures .failed) :
      AtLeast m answers room body (n + 1) pos captures .failed
  | stops {k pos : Nat} {captures : Array Entry} (hk : k < room)
      (h : Block.Runs m answers k body pos captures .failed) :
      AtLeast m answers room body 0 pos captures (.matched pos captures)
  | crashes {n k pos : Nat} {captures : Array Entry} {fault : Fault} (hk : k < room)
      (h : Block.Runs m answers k body pos captures (.crashed fault)) :
      AtLeast m answers room body n pos captures (.crashed fault)
  | again {n pos pos' : Nat} {captures captures' : Array Entry} {r : Answer}
      (h : Block.Runs m answers room body pos captures (.matched pos' captures'))
      (hrest : AtLeast m answers room body n pos' captures' r) :
      AtLeast m answers room body (n + 1) pos captures r
  | more {k pos pos' : Nat} {captures captures' : Array Entry} {r : Answer} (hk : k < room)
      (h : Block.Runs m answers k body pos captures (.matched pos' captures'))
      (hrest : AtLeast m answers room body 0 pos' captures' r) :
      AtLeast m answers room body 0 pos captures r

/-- As many rounds as possible, at most `n` of them, each of them in room for `room` frames. -/
inductive AtMost (m : Setting) (answers : Answers) (room : Nat) (body : Block) :
    Nat → Nat → Array Entry → Answer → Prop where
  | spent {pos : Nat} {captures : Array Entry} :
      AtMost m answers room body 0 pos captures (.matched pos captures)
  | stops {n pos : Nat} {captures : Array Entry}
      (h : Block.Runs m answers room body pos captures .failed) :
      AtMost m answers room body (n + 1) pos captures (.matched pos captures)
  | crashes {n pos : Nat} {captures : Array Entry} {fault : Fault}
      (h : Block.Runs m answers room body pos captures (.crashed fault)) :
      AtMost m answers room body (n + 1) pos captures (.crashed fault)
  | again {n pos pos' : Nat} {captures captures' : Array Entry} {r : Answer}
      (h : Block.Runs m answers room body pos captures (.matched pos' captures'))
      (hrest : AtMost m answers room body n pos' captures' r) :
      AtMost m answers room body (n + 1) pos captures r

section

variable {m : Setting} {answers : Answers} {body : Block} {room room' n pos : Nat}
  {captures : Array Entry} {r : Answer}

theorem AtLeast.roomier (h : AtLeast m answers room body n pos captures r) (hle : room ≤ room') :
    AtLeast m answers room' body n pos captures r := by
  induction h with
  | fails h => exact .fails (h.roomier hle)
  | stops hk h => exact .stops (Nat.lt_of_lt_of_le hk hle) h
  | crashes hk h => exact .crashes (Nat.lt_of_lt_of_le hk hle) h
  | again h _ ih => exact .again (h.roomier hle) ih
  | more hk h _ ih => exact .more (Nat.lt_of_lt_of_le hk hle) h ih

theorem AtMost.roomier (h : AtMost m answers room body n pos captures r) (hle : room ≤ room') :
    AtMost m answers room' body n pos captures r := by
  induction h with
  | spent => exact .spent
  | stops h => exact .stops (h.roomier hle)
  | crashes h => exact .crashes (h.roomier hle)
  | again h _ ih => exact .again (h.roomier hle) ih

theorem AtLeast.pos_le (h : AtLeast m answers room body n pos captures r) :
    pos ≤ m.subject.size := by
  cases h with
  | fails h | stops _ h | crashes _ h | again h | more _ h => exact h.pos_le

end

namespace Block

section

variable {m : Setting} {answers : Answers} {room pos : Nat} {captures : Array Entry}
  {body code : Block} {r : Answer} {n : Nat}

/-! ## Loops -/

theorem spanStop_of_hasByte {bytes : ByteSet} (h : m.hasByte bytes pos = true) :
    m.spanStop bytes pos = m.spanStop bytes (pos + 1) := by
  obtain ⟨b, hb, hmem⟩ := hasByte_iff.1 h
  obtain ⟨hlt, rfl⟩ := Array.getElem?_eq_some_iff.1 hb
  rw [Setting.spanStop.eq_def m bytes pos, dif_pos hlt, if_pos hmem]

theorem spanStop_of_not_hasByte {bytes : ByteSet} (h : m.hasByte bytes pos = false) :
    m.spanStop bytes pos = pos := by
  rw [Setting.spanStop]
  split
  · next hlt =>
    rw [if_neg]
    simpa [Setting.hasByte, Array.getElem?_eq_getElem hlt] using h
  · rfl

/-- A loop over the bytes of a set stops behind the run of them. -/
theorem atLeast_charset {bytes : ByteSet} (h : AtLeast m answers room body 0 pos captures r)
    (hset : charset? body = some bytes) :
    pos ≤ m.spanStop bytes pos ∧ m.spanStop bytes pos ≤ m.subject.size ∧
      r = .matched (m.spanStop bytes pos) captures := by
  generalize hn : 0 = n at h
  induction h with
  | fails | again => omega
  | stops _ h =>
    have hrun := Run.unique h (runs_charset hset h.pos_le)
    split at hrun
    · cases hrun
    · next hmiss =>
      rw [spanStop_of_not_hasByte (by simpa using hmiss)]
      exact ⟨Nat.le_refl _, h.pos_le, rfl⟩
  | crashes _ h =>
    have hrun := Run.unique h (runs_charset hset h.pos_le)
    split at hrun <;> cases hrun
  | more _ h hrest ih =>
    have hrun := Run.unique h (runs_charset hset h.pos_le)
    split at hrun
    · next hholds =>
      cases hrun
      obtain ⟨hge, hle, rfl⟩ := ih (by omega)
      rw [spanStop_of_hasByte hholds]
      exact ⟨by omega, hle, rfl⟩
    · cases hrun

/-- The forms of the code of a loop. -/
inductive LoopForm (body : Block) : Block → Prop where
  | span {bytes : ByteSet} (hset : charset? body = some bytes) : LoopForm body [.span bytes]
  | tested (h : failsAtHead body = true) :
      LoopForm body (withHeadTest (body.length + 1 : Nat) body ++ [.jump (-body.length)])
  | chosen : LoopForm body
      (.choice (body.length + 2 : Nat) 0 :: (body ++ [.partialCommit (-body.length)]))

theorem loop_form (hcode : loop body = code) : LoopForm body code := by
  rw [← hcode, loop]
  split
  · next hset => exact .span hset
  · split
    · next h => exact .tested h
    · exact .chosen

theorem run_testedLoop {head : Instr} {rest : Block} {o : Origin}
    (h : AtLeast m answers room (head :: rest) n pos captures r) (hn : n = 0)
    (hcheck : head.isCheck = true)
    (hrest : ∀ instr ∈ rest, instr.cannotFail = true)
    (hlands : landsOn 0 0 (head :: rest) = false) (hcont : Contained (head :: rest))
    (hcode : code = withHeadTest ((head :: rest).length + 1 : Nat) (head :: rest) ++
      [.jump (-(head :: rest).length)])
    (ho : o.pos ≤ pos) (hx : Extends o.captures captures) (hroom : room ≤ o.room) :
    Run m answers code code o ⟨0, pos, [], captures⟩ r := by
  have hat : StandsAt code 0 (head.withTest ((head :: rest).length + 1 : Nat) :: rest) :=
    ⟨[], [.jump (-(head :: rest).length)], hcode, rfl⟩
  have hlength : (head :: rest).length + 1 = code.length := by
    rw [hcode]
    simp [withHeadTest]
  have hjump : code[(head :: rest).length]? = some (.jump (-(head :: rest).length)) := by
    rw [hcode]
    simp [withHeadTest]
  induction h with
  | fails | again => omega
  | stops hk h =>
    refine h.tested ((head :: rest).length + 1) hat hcheck (by simp) hcont hlands ho hx (by omega)
      (fun hholds => ?_) (fun _ => ?_)
    · obtain ⟨_, _, hmatched⟩ := h.matched_of_holds hcheck hrest hholds
      cases hmatched
    · exact .exit hlength rfl ⟨ho, h.pos_le, hx, levelsBelow_nil _, Nat.zero_le _⟩
  | crashes hk h =>
    refine h.tested ((head :: rest).length + 1) hat hcheck (by simp) hcont hlands ho hx (by omega)
      (fun _ => rfl) (fun hmiss => ?_)
    cases h.eq_failed hcheck hmiss
  | more hk h hrest' ih =>
    refine h.tested ((head :: rest).length + 1) hat hcheck (by simp) hcont hlands ho hx (by omega)
      (fun _ => ?_) (fun hmiss => ?_)
    · obtain ⟨hge, -, hext⟩ := Run.matched_sound h
      refine .step_jump (n := 0) (by simpa using hjump) (h.sound_behind ho hx (levelsBelow_nil _)
        (Nat.zero_le _)) (by omega) (ih (by omega) (Nat.le_trans ho hge) (hx.trans hext))
    · cases h.eq_failed hcheck hmiss

theorem run_chosenLoop {o : Origin} (h : AtLeast m answers room body n pos captures r) (hn : n = 0)
    (hcont : Contained body)
    (hcode : code = .choice (body.length + 2 : Nat) 0 :: (body ++ [.partialCommit (-body.length)]))
    (ho : o.pos ≤ pos) (hx : Extends o.captures captures) (hroom : room ≤ o.room) :
    Run m answers code code o
      ⟨1, pos, [⟨.choice ⟨body.length + 2, pos, captures.size⟩, 0⟩], captures⟩ r := by
  have hat : StandsAt code 1 body :=
    ⟨[.choice (body.length + 2 : Nat) 0], [.partialCommit (-body.length)], by rw [hcode]; simp, rfl⟩
  have hlevels : ∀ {pos : Nat} {captures : Array Entry},
      LevelsBelow [⟨.choice ⟨body.length + 2, pos, captures.size⟩, 0⟩] captures.size :=
    levelsBelow_cons_choice.2 ⟨Nat.le_refl _, levelsBelow_nil _⟩
  have hown : OwnChoice code (1 + body.length) 0 := by
    rw [hcode]
    exact OwnChoice.of_jumpsWithin [] (l := 0) (by simp) (by push_cast; omega)
      (hcont.within (by simp) (by simp))
  induction h with
  | fails | again => omega
  | stops hk h =>
    refine h.within hat hcont ho hx hlevels (Nat.le_trans hk hroom) (Backtracks.here 0 ?_)
    exact .exit (by rw [hcode]; simp) rfl ⟨ho, h.pos_le, hx, levelsBelow_nil _, Nat.zero_le _⟩
  | crashes hk h => exact h.within hat hcont ho hx hlevels (Nat.le_trans hk hroom) rfl
  | more hk h hrest ih =>
    obtain ⟨hge, -, hext⟩ := Run.matched_sound h
    refine h.within hat hcont ho hx hlevels (Nat.le_trans hk hroom) ?_
    refine .step_partialCommit (n := 1) (d := -body.length) (by rw [hcode]; simp [Nat.add_comm 1])
      (h.sound_behind ho hx hlevels (Nat.le_trans (Nat.succ_le_of_lt (Nat.zero_lt_of_lt hk)) hroom))
      hown (by push_cast; omega) ?_
    exact ih (by omega) (Nat.le_trans ho hge) (hx.trans hext)

/-- **The answer of a loop.** -/
theorem runs_loop (h : AtLeast m answers room body 0 pos captures r) (hcont : Contained body) :
    Runs m answers room (loop body) pos captures r := by
  have hs : Sound m ⟨pos, captures, room⟩ ⟨0, pos, [], captures⟩ := runs_start captures h.pos_le
  generalize hcode : loop body = code
  cases loop_form hcode with
  | @span bytes hset =>
    obtain ⟨hge, hle, rfl⟩ := atLeast_charset h hset
    exact .step_advance (i := .span bytes) rfl hs trivial rfl
      (.exit rfl rfl ⟨hge, hle, .refl _, levelsBelow_nil _, Nat.zero_le _⟩)
  | tested hhead =>
    obtain ⟨head, rest, rfl, hcheck, hrest, hlands⟩ := failsAtHead_iff.1 hhead
    exact run_testedLoop h rfl hcheck hrest hlands hcont rfl (Nat.le_refl _) (.refl _)
      (Nat.le_refl _)
  | chosen =>
    exact .step_choice rfl hs (Nat.le_refl _) (Int.zero_add _)
      (run_chosenLoop h rfl hcont rfl (Nat.le_refl _) (.refl _) (Nat.le_refl _))

theorem contained_loop (hcont : Contained body) : Contained (loop body) := by
  generalize hcode : loop body = code
  cases loop_form hcode with
  | span => exact contained_of_offset?_eq_none (by simp [Instr.offset?])
  | tested hhead =>
    obtain ⟨head, rest, rfl, hcheck, -, -⟩ := failsAtHead_iff.1 hhead
    refine jumpsWithin_append.2 ⟨?_, jumpsWithin_cons.2 ⟨fun off hoff => ?_, jumpsWithin_nil⟩⟩
    · refine jumpsWithin_withTest (hcont.within (by simp) ?_) hcheck ?_ ?_
      all_goals simp [withHeadTest]
      all_goals omega
    · cases hoff
      simp [withHeadTest]
      omega
  | chosen =>
    refine jumpsWithin_cons.2 ⟨fun off hoff => ?_, jumpsWithin_append.2 ⟨hcont.within ?_ ?_,
      jumpsWithin_cons.2 ⟨fun off hoff => ?_, jumpsWithin_nil⟩⟩⟩
    · cases hoff
      simp
      omega
    · simp
    · simp
      omega
    · cases hoff
      simp
      omega

/-! ## Copies -/

theorem copies_succ (n : Nat) (body : Block) : copies (n + 1) body = body ++ copies n body := by
  rw [copies, List.replicate_succ, List.flatten_cons]
  rfl

theorem contained_copies (n : Nat) (hcont : Contained body) : Contained (copies n body) := by
  refine contained_flatten fun b hb => ?_
  rw [List.eq_of_mem_replicate hb]
  exact hcont

/-- **The answer of copies of the body with a loop behind them.** -/
theorem runs_copies (h : AtLeast m answers room body n pos captures r) (hcont : Contained body) :
    Runs m answers room (copies n body ++ loop body) pos captures r := by
  induction n generalizing pos captures with
  | zero => exact runs_loop h hcont
  | succ n ih =>
    rw [copies_succ, List.append_assoc]
    have hcontRest := contained_append (contained_copies n hcont) (contained_loop hcont)
    cases h with
    | fails h =>
      have hrun : Runs m answers room (body ++ _) pos captures (Answer.andThen .failed .failed) :=
        runs_append h nofun hcont hcontRest
      exact hrun
    | crashes hk h =>
      have hrun : Runs m answers room (body ++ _) pos captures
          (Answer.andThen (.crashed _) .failed) :=
        runs_append (h.roomier (Nat.le_of_lt hk)) nofun hcont hcontRest
      exact hrun
    | again h hrest =>
      refine runs_append h (fun pos' captures' he => ?_) hcont hcontRest
      cases he
      exact ih hrest

/-! ## Bounded repetitions -/

theorem testedCopies_succ (n : Nat) (body : Block) :
    testedCopies (n + 1) body =
      withHeadTest ((n + 1) * body.length : Nat) body ++ testedCopies n body := by
  simp [testedCopies, List.range_succ]

theorem length_testedCopies (n : Nat) (body : Block) :
    (testedCopies n body).length = n * body.length := by
  induction n with
  | zero => simp [testedCopies]
  | succ n ih =>
    rw [testedCopies_succ, List.length_append, length_withHeadTest, ih, Nat.add_mul]
    omega

theorem contained_testedCopies {head : Instr} {rest : Block} (n : Nat)
    (hcheck : head.isCheck = true) (hcont : Contained (head :: rest)) :
    Contained (testedCopies n (head :: rest)) := by
  induction n with
  | zero => exact contained_nil
  | succ n ih =>
    have hlength := length_testedCopies (n + 1) (head :: rest)
    rw [testedCopies_succ] at hlength ⊢
    have hle : (head :: rest).length ≤ (n + 1) * (head :: rest).length :=
      Nat.le_mul_of_pos_left _ (by omega)
    generalize (n + 1) * (head :: rest).length = total at hlength hle ⊢
    refine jumpsWithin_append.2 ⟨?_, ih.within (by simp) ?_⟩
    · rw [hlength]
      exact jumpsWithin_withTest (hcont.within (by simp) (by push_cast; omega)) hcheck (by simp)
        (by simp)
    · rw [List.length_append]
      push_cast
      omega

theorem runs_testedCopies {head : Instr} {rest : Block}
    (h : AtMost m answers room (head :: rest) n pos captures r) (hpos : pos ≤ m.subject.size)
    (hcheck : head.isCheck = true) (hrest : ∀ instr ∈ rest, instr.cannotFail = true)
    (hlands : landsOn 0 0 (head :: rest) = false) (hcont : Contained (head :: rest)) :
    Runs m answers room (testedCopies n (head :: rest)) pos captures r := by
  induction h with
  | spent => exact runs_nil hpos
  | @stops n pos captures h =>
    have hlength := length_testedCopies (n + 1) (head :: rest)
    rw [testedCopies_succ] at hlength ⊢
    refine h.tested _ ⟨[], testedCopies n (head :: rest), rfl, rfl⟩ hcheck (by simp) hcont hlands
      (Nat.le_refl _) (.refl _) (Nat.le_refl _) (fun hholds => ?_)
      (fun _ => .exit hlength.symm rfl ⟨Nat.le_refl _, hpos, .refl _, levelsBelow_nil _, Nat.zero_le _⟩)
    obtain ⟨_, _, hmatched⟩ := h.matched_of_holds hcheck hrest hholds
    cases hmatched
  | @crashes n pos captures fault h =>
    rw [testedCopies_succ]
    refine h.tested _ ⟨[], testedCopies n (head :: rest), rfl, rfl⟩ hcheck (by simp) hcont hlands
      (Nat.le_refl _) (.refl _) (Nat.le_refl _) (fun _ => rfl) (fun hmiss => ?_)
    cases h.eq_failed hcheck hmiss
  | @again n pos pos' captures captures' r h hrest' ih =>
    obtain ⟨hge, hle, hext⟩ := Run.matched_sound h
    have hlength := length_testedCopies n (head :: rest)
    rw [testedCopies_succ]
    refine h.tested _ ⟨[], testedCopies n (head :: rest), rfl, rfl⟩ hcheck (by simp) hcont hlands
      (Nat.le_refl _) (.refl _) (Nat.le_refl _) (fun _ => ?_) (fun hmiss => ?_)
    · refine (ih hle).at_end ⟨withHeadTest ((n + 1) * (head :: rest).length : Nat) (head :: rest),
        [], by simp, by simp [withHeadTest]⟩ (by simp [withHeadTest]; omega)
        (contained_testedCopies n hcheck hcont) hge hext (Nat.le_refl _)
    · cases h.eq_failed hcheck hmiss

/-- What follows a copy of the body when `n` more may follow. -/
def behindCopy (body : Block) : Nat → Block
  | 0 => [.commit 1]
  | n + 1 => .partialCommit 1 :: body ++ behindCopy body n

theorem committedCopies_eq (n : Nat) (body : Block) :
    committedCopies n body = body ++ behindCopy body n := by
  rw [committedCopies, List.append_assoc]
  induction n with
  | zero => rfl
  | succ n ih =>
    rw [copies_succ, List.append_assoc, ih]
    simp [behindCopy]

theorem length_behindCopy (n : Nat) (body : Block) :
    (behindCopy body n).length = n * (body.length + 1) + 1 := by
  induction n with
  | zero => simp [behindCopy]
  | succ n ih =>
    simp only [behindCopy, List.cons_append, List.length_cons, List.length_append, ih]
    rw [Nat.add_mul]
    omega

theorem contained_next {instr : Instr} (hinstr : instr.offset? = some 1) : Contained [instr] := by
  refine jumpsWithin_cons.2 ⟨fun off hoff => ?_, jumpsWithin_nil⟩
  rw [hinstr] at hoff
  cases hoff
  simp

theorem contained_partialCommit (hcont : Contained body) :
    Contained (.partialCommit 1 :: body) :=
  contained_append (a := [.partialCommit 1]) (contained_next rfl) hcont

theorem contained_behindCopy (n : Nat) (hcont : Contained body) :
    Contained (behindCopy body n) := by
  induction n with
  | zero => exact contained_next rfl
  | succ n ih => exact contained_append (contained_partialCommit hcont) ih

/-- What follows the first copy of the body stands in code that starts with a choice, and that choice
is the one of the instructions between the copies. -/
structure BehindFirst (code body tail : Block) (off owner : Nat) : Prop where
  stands : StandsAt code (1 + body.length) tail
  guards : Guards code off body tail owner
  off_eq : off = 1 + body.length + tail.length
  length_eq : off = code.length

section

variable {o : Origin} {off owner : Nat} {point : ChoicePoint} {done tail : Block}

theorem BehindFirst.ownChoice (hb : BehindFirst code body tail off owner) (hcont : Contained body)
    (hdone : Contained done) (hbody : tail = done ++ behindCopy body n) :
    OwnChoice code (1 + body.length + done.length) owner := by
  have hlast := length_behindCopy n body
  refine hb.guards done (behindCopy body n) _ 0 (by rw [hbody, List.append_assoc])
    (by simp; omega) (by rw [hb.off_eq, hbody]; simp; omega) ?_
  exact (contained_append hcont hdone).within (by simp) (by simp; omega)

theorem BehindFirst.copy {R : Answer} (hb : BehindFirst code body tail off owner)
    (hcont : Contained body) (hdone : Contained done)
    (hbody : tail = done ++ behindCopy body (n + 1)) (hpoint : point.address = off)
    (hlevel : point.captures ≤ captures.size) (ho : o.pos ≤ pos) (hx : Extends o.captures captures)
    (hroom : room < o.room) (h : Runs m answers room body pos captures r)
    (hend : Continues m answers code o (1 + body.length + (done ++ .partialCommit 1 :: body).length)
      [⟨.choice ⟨off, pos, captures.size⟩, owner⟩] captures R r) :
    Run m answers code code o
      ⟨1 + body.length + done.length, pos, [⟨.choice point, owner⟩], captures⟩ R := by
  have hcommit : StandsAt code (1 + body.length + done.length)
      (.partialCommit 1 :: (body ++ behindCopy body n)) := by
    have hat := hb.stands
    rw [hbody] at hat
    exact hat.right
  have hlevels : ∀ {point : ChoicePoint}, point.captures ≤ captures.size →
      LevelsBelow [⟨.choice point, owner⟩] captures.size := fun h =>
    levelsBelow_cons_choice.2 ⟨h, levelsBelow_nil _⟩
  refine .step_partialCommit hcommit.head
    ⟨ho, h.pos_le, hx, hlevels hlevel, Nat.succ_le_of_lt (Nat.zero_lt_of_lt hroom)⟩
    (hb.ownChoice hcont hdone hbody) (n := 1 + body.length + done.length + 1) (by simp) ?_
  rw [hpoint]
  refine h.within hcommit.tail.left hcont ho hx (hlevels (Nat.le_refl _)) hroom ?_
  have hlength : 1 + body.length + (done ++ .partialCommit 1 :: body).length =
      1 + body.length + done.length + 1 + body.length := by
    rw [List.length_append, List.length_cons]
    omega
  rwa [hlength] at hend

/-- Behind a copy of the body, the choice in front of the first one being pending. -/
theorem BehindFirst.run (hb : BehindFirst code body tail off owner)
    (h : AtMost m answers room body n pos captures r) (hpos : pos ≤ m.subject.size)
    (hcont : Contained body) (hdone : Contained done)
    (hbody : tail = done ++ behindCopy body n) (hpoint : point.address = off)
    (hlevel : point.captures ≤ captures.size) (ho : o.pos ≤ pos)
    (hx : Extends o.captures captures) (hroom : room < o.room) :
    Run m answers code code o
      ⟨1 + body.length + done.length, pos, [⟨.choice point, owner⟩], captures⟩ r := by
  induction h generalizing done point with
  | @spent pos captures =>
    have hs : ∀ {address : Nat} {frames : List Pending}, LevelsBelow frames captures.size →
        frames.length ≤ o.room → Sound m o ⟨address, pos, frames, captures⟩ :=
      fun hlevels hroom => ⟨ho, hpos, hx, hlevels, hroom⟩
    have hinstr : code[1 + body.length + done.length]? = some (.commit 1) := by
      refine hb.stands.getElem?_eq_some ?_
      simp [hbody, behindCopy]
    refine .step_commit hinstr (hs (levelsBelow_cons_choice.2 ⟨hlevel, levelsBelow_nil _⟩)
      (Nat.succ_le_of_lt (Nat.zero_lt_of_lt hroom)))
      (hb.ownChoice hcont hdone hbody) (n := 1 + body.length + done.length + 1) (by simp)
      (.exit ?_ rfl (hs (levelsBelow_nil _) (Nat.zero_le _)))
    rw [← hb.length_eq, hb.off_eq, hbody]
    simp [behindCopy]
    omega
  | @stops n pos captures h =>
    refine hb.copy hcont hdone hbody hpoint hlevel ho hx hroom h (Backtracks.here owner ?_)
    exact .exit hb.length_eq rfl ⟨ho, hpos, hx, levelsBelow_nil _, Nat.zero_le _⟩
  | crashes h => exact hb.copy hcont hdone hbody hpoint hlevel ho hx hroom h rfl
  | @again n pos pos' captures captures' r h hrest ih =>
    obtain ⟨hge, hle, hext⟩ := Run.matched_sound h
    refine hb.copy hcont hdone hbody hpoint hlevel ho hx hroom h ?_
    exact ih hle (contained_append hdone (contained_partialCommit hcont))
      (by rw [hbody]; simp [behindCopy]) rfl hext.size_le (Nat.le_trans ho hge) (hx.trans hext)

end

/-- The forms of the code of a bounded repetition. -/
inductive OptionalForm (n : Nat) (body : Block) : Block → Prop where
  | tested (h : failsAtHead body = true) : OptionalForm n body (testedCopies n body)
  | chosen : OptionalForm n body (hoistCheck
      (.choice (1 + n * (body.length + 1) : Nat) 0 :: (body ++ behindCopy body (n - 1))))

theorem optional_form {n : Nat} (hcode : optional n body = code) : OptionalForm n body code := by
  rw [← hcode, optional]
  split
  · next h => exact .tested h
  · rw [committedCopies_eq]
    exact .chosen

/-- **The answer of a bounded repetition.** -/
theorem runs_optional (h : AtMost m answers room body (n + 1) pos captures r)
    (hcont : Contained body) :
    Runs m answers (room + 1) (optional (n + 1) body) pos captures r := by
  have hpos : pos ≤ m.subject.size := by
    cases h with
    | stops h | crashes h | again h => exact h.pos_le
  generalize hcode : optional (n + 1) body = code
  cases optional_form hcode with
  | tested hhead =>
    obtain ⟨head, rest, rfl, hcheck, hrest, hlands⟩ := failsAtHead_iff.1 hhead
    exact (runs_testedCopies h hpos hcheck hrest hlands hcont).roomier (Nat.le_succ _)
  | chosen =>
    have htail : ∀ instr, (behindCopy body n).head? = some instr → instr.isCheck = false := by
      cases n <;> simp [behindCopy, Instr.isCheck]
    have hlast := length_behindCopy n body
    have hlength := length_hoistCheck
      (.choice (1 + (n + 1) * (body.length + 1) : Nat) 0 :: (body ++ behindCopy body n))
    rw [List.length_cons, List.length_append, hlast] at hlength
    have hoff : 1 + (n + 1) * (body.length + 1) = 1 + body.length + (behindCopy body n).length := by
      rw [hlast, Nat.add_mul]
      omega
    have hexit : 1 + (n + 1) * (body.length + 1) = (hoistCheck
        (.choice (1 + (n + 1) * (body.length + 1) : Nat) 0 ::
          (body ++ behindCopy body n))).length := by
      rw [hlength, hoff, hlast]
      omega
    rw [Nat.add_sub_cancel]
    cases h with
    | stops h =>
      refine h.entered hcont htail fun owner hat _ => Backtracks.here owner ?_
      exact .exit hexit rfl ⟨Nat.le_refl _, hpos, .refl _, levelsBelow_nil _, Nat.zero_le _⟩
    | crashes h => exact h.entered hcont htail fun _ _ _ => rfl
    | again h hrest =>
      obtain ⟨hge, hle, hext⟩ := Run.matched_sound h
      refine h.entered hcont htail fun owner hat hguards => ?_
      have hbehind : BehindFirst _ body (behindCopy body n) _ owner := ⟨hat, hguards, hoff, hexit⟩
      exact hbehind.run hrest hle hcont contained_nil rfl rfl hext.size_le hge hext
        (Nat.lt_succ_self _)

theorem contained_optional (hcont : Contained body) : Contained (optional (n + 1) body) := by
  generalize hcode : optional (n + 1) body = code
  cases optional_form hcode with
  | tested hhead =>
    obtain ⟨head, rest, rfl, hcheck, -, -⟩ := failsAtHead_iff.1 hhead
    exact contained_testedCopies (n + 1) hcheck hcont
  | chosen =>
    have hlast := length_behindCopy n body
    have hcontCopies := contained_append hcont (contained_behindCopy n hcont)
    refine contained_hoistCheck (jumpsWithin_cons.2 ⟨fun off hoff => ?_, hcontCopies.within ?_ ?_⟩)
    · cases hoff
      rw [Nat.add_sub_cancel, List.length_cons, List.length_append, hlast, Nat.add_mul]
      omega
    · simp
    · simp
      omega

/-! ## Repetitions -/

theorem repetition_eq {count : Int} (h : repetition body count = .ok code) :
    code = if 0 ≤ count then copies count.natAbs body ++ loop body
      else optional count.natAbs body := by
  rw [repetition, checkedOffset_bind] at h
  obtain ⟨-, h⟩ := h
  cases h
  rfl

/-- **The answer of a repetition.** -/
theorem runs_repetition {count : Int} (hcode : repetition body count = .ok code)
    (hleast : 0 ≤ count → AtLeast m answers room body count.natAbs pos captures r)
    (hmost : count < 0 → ∃ k < room, AtMost m answers k body count.natAbs pos captures r)
    (hcont : Contained body) : Runs m answers room code pos captures r := by
  rw [repetition_eq hcode]
  split
  · next hn => exact runs_copies (hleast hn) hcont
  · next hn =>
    obtain ⟨k, hk, h⟩ := hmost (by omega)
    obtain ⟨n, hn⟩ := Nat.exists_eq_add_one_of_ne_zero (n := count.natAbs) (by omega)
    rw [hn] at h ⊢
    exact (runs_optional h hcont).roomier hk

theorem contained_repetition {count : Int} (hcode : repetition body count = .ok code)
    (hcont : Contained body) : Contained code := by
  rw [repetition_eq hcode]
  split
  · exact contained_append (contained_copies _ hcont) (contained_loop hcont)
  · next hn =>
    obtain ⟨n, hn⟩ := Nat.exists_eq_add_one_of_ne_zero (n := count.natAbs) (by omega)
    rw [hn]
    exact contained_optional hcont

end

end Block

end PegMachine
