import PegMachine.Proofs.Blocks.Captures
import PegMachine.Proofs.Plain.Steps

/-!
# Where plain blocks lead

* `Block.Gives`: wherever a block stands, the machine comes behind it, or back, within a number of
  frames.
* `Block.Gives.append`, `Block.Gives.plainChoice_first` and so on: **what the plain code of a pattern
  gives, from what its parts give.**
* `Block.Continues`: the same for the rounds of a repetition, once a choice is pending.
-/

namespace PegMachine

namespace Block

/-- Wherever a block stands, the machine comes behind it, or back, within a number of frames. -/
def Gives (m : Setting) (starts : Option (Nat → Nat)) (code : Block) (pos n : Nat) (r : Parse) :
    Prop :=
  ∀ (base : Nat) (stack : Stack) (captures : Array Entry), m.program.Holds starts base code →
    m.Yields ⟨base, pos, stack, captures⟩ (base + code.length) stack captures n r

/-- Wherever the rounds of a repetition stand, the machine comes behind them, or back, within a
number of frames. The choice of the repetition is pending and is one of these frames. -/
def Continues (m : Setting) (starts : Option (Nat → Nat)) (body : Block) (count : Int) (pos n : Nat)
    (r : Parse) : Prop :=
  ∀ (base next : Nat) (stack : Stack) (captures : Array Entry),
    m.program.Holds starts base (plainRounds body count) →
    next = base + (plainRounds body count).length → m.Fits stack 1 →
    m.Yields ⟨base, pos, stack.push (.choice ⟨next, pos, captures.size⟩), captures⟩ next stack
      captures n r

namespace Gives

variable {m : Setting} {starts : Option (Nat → Nat)} {a b body code : Block} {pos mid stop k n : Nat}
  {forest : List Tree} {found : Nat × List Tree} {r : Parse} {instr : Instr}

/-! ## Instructions -/

theorem nil (m : Setting) (starts : Option (Nat → Nat)) (pos : Nat) :
    Gives m starts [] pos 0 (some (pos, [])) :=
  fun _ _ _ _ => Setting.comes_here.yields

theorem advance (hopen : ∀ rule, instr ≠ .openCall rule)
    (hexecute : ∀ s : State, s.pos = pos → m.execute s instr = .next (s.proceedAt stop) none) :
    Gives m starts [instr] pos 0 (some (stop, [])) := by
  intro base stack captures hheld
  exact .of_goesTo (Setting.goesTo_of_execute none (hheld.head hopen) (hexecute _ rfl))
    Setting.comes_here.yields

theorem record {entry : Entry} {tree : Tree} (hopen : ∀ rule, instr ≠ .openCall rule)
    (hexecute : ∀ s : State, s.pos = pos → m.execute s instr = .next (s.record entry) none)
    (hwrites : Writes m.program [entry] [tree]) :
    Gives m starts [instr] pos 0 (some (pos, [tree])) := by
  intro base stack captures hheld
  refine Setting.Comes.yields ⟨[entry], captures.push entry, ?_, records_push _ _, hwrites⟩
  exact Setting.goesTo_of_execute none (hheld.head hopen) (hexecute _ rfl)

theorem backtrack (event : Option Event) (hopen : ∀ rule, instr ≠ .openCall rule)
    (hexecute : ∀ s : State, s.pos = pos → m.execute s instr = s.backtrack event) :
    Gives m starts [instr] pos 0 none := by
  intro base stack captures hheld
  exact Setting.Comes.yields
    (Setting.comes_backtrack event (hheld.head hopen) (hexecute _ rfl) rfl (.refl _))

/-! ## Sequences -/

theorem append (ha : Gives m starts a pos k (some (mid, forest))) (hb : Gives m starts b mid n r) :
    Gives m starts (a ++ b) pos (max k n) (r.after forest) := by
  intro base stack captures hheld
  refine (ha base stack captures hheld.left).after fun captures' => ?_
  rw [List.length_append, ← Nat.add_assoc]
  exact hb _ stack captures' hheld.right

theorem append_fail (ha : Gives m starts a pos k none) : Gives m starts (a ++ b) pos k none :=
  fun base stack captures hheld => ha base stack captures hheld.left

/-! ## Checks -/

theorem check (hcheck : instr.isCheck = true) :
    Gives m starts [instr] pos 0
      (if m.holds pos instr then some (pos + instr.step, []) else none) := by
  have hopen : ∀ rule, instr ≠ .openCall rule := by
    rintro rule rfl
    cases hcheck
  have hexecute : ∀ s : State, s.pos = pos → m.execute s instr =
      if m.holds pos instr then .next (s.proceedAt (pos + instr.step)) none
      else s.backtrack none := by
    rintro s rfl
    rcases Instr.isCheck_iff.1 hcheck with ⟨n, rfl⟩ | ⟨byte, rfl⟩ | ⟨bytes, rfl⟩
    · simp [Setting.execute, Setting.holds, State.refuse, Instr.step]
    · simp [Setting.execute, Setting.holds, State.refuse, Instr.step]
    · simp only [Setting.execute, Setting.holds, State.refuse, Instr.step, if_true]
      rfl
  split
  · next hholds => exact advance hopen fun s hs => by rw [hexecute s hs, if_pos hholds]
  · next hmiss => exact backtrack none hopen fun s hs => by rw [hexecute s hs, if_neg hmiss]

theorem checks (hcode : code.all Instr.isCheck = true) :
    Gives m starts code pos 0 ((m.afterChecks pos code).map (·, [])) := by
  induction code generalizing pos with
  | nil => exact nil m starts pos
  | cons instr rest ih =>
    rw [List.all_cons, Bool.and_eq_true] at hcode
    have hhead : Gives m starts [instr] pos 0 _ := check hcode.1
    rw [Setting.afterChecks]
    split
    · next hholds =>
      rw [if_pos hholds] at hhead
      have hrest : Gives m starts rest (pos + instr.step) 0 _ := ih hcode.2
      simpa [Parse.after, Option.map_map, Function.comp_def] using hhead.append hrest
    · next hmiss =>
      rw [if_neg hmiss] at hhead
      exact hhead.append_fail

/-! ## Choices -/

section

variable {base : Nat} {rest : Block}

/-- A block behind a choice. The alternative stands behind the instruction that ends the block. -/
theorem tried (ha : Gives m starts a pos k r)
    (hheld : m.program.Holds starts base (.choice (a.length + 2 : Nat) 0 :: (a ++ rest)))
    (stack : Stack) (captures : Array Entry) :
    m.Within ⟨base, pos, stack, captures⟩ stack (k + 1)
      (m.Comes ⟨base, pos, stack, captures⟩ (base + 1 + a.length)
        (stack.push (.choice ⟨base + 1 + a.length + 1, pos, captures.size⟩)) captures r) :=
  (ha _ _ _ hheld.tail.left).tried (hheld.head (by simp)) (by omega)

theorem tried_fail (ha : Gives m starts a pos k none)
    (hheld : m.program.Holds starts base (.choice (a.length + 2 : Nat) 0 :: (a ++ rest)))
    (stack : Stack) (captures : Array Entry) :
    m.Within ⟨base, pos, stack, captures⟩ stack (k + 1)
      (m.GoesTo ⟨base, pos, stack, captures⟩ ⟨base + 1 + a.length + 1, pos, stack, captures⟩) :=
  (ha.tried hheld stack captures).imp Setting.Comes.taken

end

theorem plainChoice_first (b : Block) (ha : Gives m starts a pos k (some found)) :
    Gives m starts (plainChoice a b) pos (k + 1) (some found) := by
  intro base stack captures hheld
  have hcommit : m.program.code[base + 1 + a.length]? = some (.commit (b.length + 1 : Nat)) :=
    hheld.tail.right.head (by simp)
  have hlength : base + 1 + a.length + (b.length + 1) = base + (plainChoice a b).length := by
    simp only [plainChoice, List.length_cons, List.length_append]
    omega
  refine (ha.tried hheld stack captures).imp fun ⟨entries, captures', hgoes, hcaptured⟩ => ?_
  exact ⟨entries, captures', hgoes.trans (Setting.goesTo_commit hcommit (by omega)), hcaptured⟩

theorem plainChoice_second (ha : Gives m starts a pos k none) (hb : Gives m starts b pos n r) :
    Gives m starts (plainChoice a b) pos (max (k + 1) n) r := by
  intro base stack captures hheld
  have hlength : base + 1 + a.length + 1 + b.length = base + (plainChoice a b).length := by
    simp only [plainChoice, List.length_cons, List.length_append]
    omega
  refine (ha.tried_fail hheld stack captures).bind fun hgoes => Setting.Yields.of_goesTo hgoes ?_
  rw [← hlength]
  exact hb _ stack captures hheld.tail.right.tail

/-! ## Lookaheads -/

theorem plainDifference (hb : Gives m starts b pos k none) (ha : Gives m starts a pos n r) :
    Gives m starts (plainDifference a b) pos (max (k + 1) n) r := by
  intro base stack captures hheld
  have hlength : base + 1 + b.length + 1 + a.length =
      base + (Block.plainDifference a b).length := by
    simp only [Block.plainDifference, List.length_cons, List.length_append]
    omega
  refine (hb.tried_fail hheld stack captures).bind fun hgoes => Setting.Yields.of_goesTo hgoes ?_
  rw [← hlength]
  exact ha _ stack captures hheld.tail.right.tail

theorem plainDifference_fail (a : Block) (hb : Gives m starts b pos k (some found)) :
    Gives m starts (Block.plainDifference a b) pos (k + 1) none := by
  intro base stack captures hheld
  have hfailTwice : m.program.code[base + 1 + b.length]? = some .failTwice :=
    hheld.tail.right.head (by simp)
  refine (hb.tried hheld stack captures).imp fun ⟨entries, captures', hgoes, hrecords, _⟩ =>
    .of_goesTo hgoes ?_
  exact Setting.comes_backtrack none hfailTwice rfl rfl hrecords.extends

theorem plainLookahead (ha : Gives m starts a pos k (some found)) :
    Gives m starts (plainLookahead a) pos (k + 1) (some (pos, [])) := by
  intro base stack captures hheld
  have hback : m.program.code[base + 1 + a.length]? = some (.backCommit 2) :=
    hheld.tail.right.head (by simp)
  have hlength : base + 1 + a.length + 2 = base + (Block.plainLookahead a).length := by
    simp only [Block.plainLookahead, List.length_cons, List.length_append, List.length_nil]
    omega
  refine (ha.tried hheld stack captures).imp fun ⟨entries, captures', hgoes, hrecords, _⟩ => ?_
  have hreturn := hgoes.trans (Setting.goesTo_backCommit hback (Int.natCast_add _ 2).symm)
  rw [hrecords.extends.shrink_self] at hreturn
  rw [← hlength]
  exact Setting.comes_here.of_goesTo hreturn

theorem plainLookahead_fail (ha : Gives m starts a pos k none) :
    Gives m starts (Block.plainLookahead a) pos (k + 1) none := by
  intro base stack captures hheld
  have hfail : m.program.code[base + 1 + a.length + 1]? = some .fail :=
    hheld.tail.right.tail.head (by simp)
  refine (ha.tried_fail hheld stack captures).imp fun hgoes => .of_goesTo hgoes ?_
  exact Setting.comes_backtrack none hfail rfl rfl (.refl _)

/-! ## Bytes -/

theorem skip (count : Nat) (hpos : pos ≤ m.subject.size) :
    Gives m starts (skip count) pos 0
      (if pos + count ≤ m.subject.size then some (pos + count, []) else none) := by
  have hgives : Gives m starts (Block.skip count) pos 0 _ :=
    checks (all_isCheck_of_isSkip (all_isSkip_skip count))
  rw [afterChecks_skips (all_isSkip_skip count) hpos, width_skip] at hgives
  split <;> simpa [*] using hgives

theorem ofSet (bytes : ByteSet) (pos : Nat) :
    Gives m starts (ofSet bytes) pos 0 (if m.hasByte bytes pos then some (pos + 1, []) else none) := by
  rcases ofSet_cases bytes with ⟨hcode, hnone⟩ | hset
  · rw [hcode, if_neg (by simp [hnone])]
    exact backtrack none (by simp) fun s _ => rfl
  · obtain ⟨hchecks, hafter⟩ : _ ∧ m.afterChecks pos (Block.ofSet bytes) = _ :=
      afterChecks_charset hset
    have hgives : Gives m starts (Block.ofSet bytes) pos 0 _ := checks hchecks
    rw [hafter] at hgives
    split <;> simpa [*] using hgives

theorem plainAny (count : Int) (hpos : pos ≤ m.subject.size) :
    Gives m starts (plainAny count) pos (Pattern.skipCost count)
      ((m.afterAny count pos).map (·, [])) := by
  rw [Block.plainAny, Setting.afterAny, Pattern.skipCost]
  have hskip : Gives m starts (Block.skip count.natAbs) pos 0 _ := skip count.natAbs hpos
  by_cases hcount : 0 ≤ count
  · rw [if_pos hcount, if_pos hcount, if_neg (by omega)]
    split <;> simpa [*] using hskip
  · rw [if_neg hcount, if_neg hcount]
    by_cases hmax : count.natAbs ≤ maxSkip
    · rw [if_pos hmax, if_neg (by omega)]
      have hexecute : ∀ s : State, s.pos = pos → m.execute s (.any count.natAbs 2) =
          if pos + count.natAbs ≤ m.subject.size then
            .next (s.proceedAt (pos + count.natAbs)) none
          else .next (s.jump 2) none := by
        rintro s rfl
        rfl
      by_cases hle : pos + count.natAbs ≤ m.subject.size
      · rw [if_pos hle]
        have hadvance : Gives m starts [.any count.natAbs 2] pos 0 (some (pos + count.natAbs, [])) :=
          advance (by simp) fun s hs => by rw [hexecute s hs, if_pos hle]
        have hfail : Gives m starts [.fail] (pos + count.natAbs) 0 none :=
          backtrack none (by simp) fun s _ => rfl
        exact hadvance.append hfail
      · rw [if_neg hle]
        intro base stack captures hheld
        refine .of_goesTo (Setting.goesTo_of_execute none (hheld.head (by simp)) ?_)
          Setting.comes_here.yields
        rw [hexecute _ rfl, if_neg hle]
        rfl
    · rw [if_neg hmax, if_pos (by omega)]
      by_cases hle : pos + count.natAbs ≤ m.subject.size
      · rw [if_pos hle] at hskip ⊢
        exact hskip.plainDifference_fail []
      · rw [if_neg hle] at hskip ⊢
        exact hskip.plainDifference (nil m starts pos)

/-! ## Captures -/

theorem plainEnclose {kind : CaptureKind} {index : Nat} {payload : Payload}
    (h : Gives m starts body pos k (some (stop, forest))) (hkind : kind ≠ .matchTime)
    (hle : pos ≤ stop) (hpayload : m.program.payload kind index = payload)
    (hknown : payload = .nothing → index = 0) :
    Gives m starts (plainEnclose kind index body) pos k
      (some (stop, [.node kind payload pos stop forest])) := by
  intro base stack captures hheld
  rw [Block.plainEnclose, if_neg hkind] at hheld ⊢
  have hopen : m.program.code[base]? = some (.openCapture kind 0 index) := hheld.head (by simp)
  have hclose : m.program.code[base + 1 + body.length]? = some .closeCapture :=
    hheld.tail.right.head (by simp)
  have hopened : m.GoesTo ⟨base, pos, stack, captures⟩
      ⟨base + 1, pos, stack, captures.push (.opened kind index pos)⟩ :=
    Setting.goesTo_of_execute none hopen rfl
  refine Setting.Within.of_goesTo hopened ((h _ _ _ hheld.tail.left).imp ?_)
  intro ⟨entries, captures', hgoes, hrecords, hwrites⟩
  refine ⟨_, _, (hopened.trans hgoes).trans ?_,
    closeEntries_of_records hrecords hwrites.balanced, hwrites.wrap hle hpayload hknown⟩
  refine Setting.goesTo_of_execute none hclose ?_
  rw [Setting.execute, Setting.closeCapture_eq]
  simp [Nat.add_assoc, Nat.add_comm 1]

theorem plainEnclose_fail (kind : CaptureKind) (index : Nat) (h : Gives m starts body pos k none) :
    Gives m starts (Block.plainEnclose kind index body) pos k none := by
  intro base stack captures hheld
  have hopen : m.program.code[base]? = some (.openCapture kind 0 index) := hheld.head (by simp)
  have hopened : m.GoesTo ⟨base, pos, stack, captures⟩
      ⟨base + 1, pos, stack, captures.push (.opened kind index pos)⟩ :=
    Setting.goesTo_of_execute none hopen rfl
  refine Setting.Within.of_goesTo hopened ((h _ _ _ hheld.tail.left).imp fun hcomes => ?_)
  exact Setting.Comes.of_goesTo hopened (hcomes.failed (.push _ _))

end Gives

/-! ## Repetitions -/

theorem plainRounds_zero (body : Block) :
    plainRounds body 0 = body ++ [.partialCommit (-body.length)] := rfl

theorem plainRounds_last (body : Block) : plainRounds body (-1) = body ++ [.commit 1] := rfl

theorem plainRounds_more (body : Block) {count : Int} (hneg : count < 0) (hcount : count ≠ -1) :
    plainRounds body count = body ++ .partialCommit 1 :: plainRounds body (count + 1) := by
  obtain ⟨rounds, hrounds⟩ : ∃ rounds, count.natAbs - 1 = rounds + 1 := ⟨count.natAbs - 2, by omega⟩
  rw [plainRounds, if_neg (by omega), plainRounds, if_neg (by omega), hrounds,
    show (count + 1).natAbs - 1 = rounds by omega, committedCopies, committedCopies, copies_succ]
  simp

theorem plainRounds_eq (body : Block) {count : Int} (hcount : count ≤ 0) :
    ∃ rest, plainRounds body count = body ++ rest := by
  by_cases hzero : count = 0
  · exact ⟨_, hzero ▸ plainRounds_zero body⟩
  · by_cases hlast : count = -1
    · exact ⟨_, hlast ▸ plainRounds_last body⟩
    · exact ⟨_, plainRounds_more body (by omega) hlast⟩

theorem plainRepetition_pos (body : Block) {count : Int} (hcount : 0 < count) :
    plainRepetition body count = body ++ plainRepetition body (count - 1) := by
  obtain ⟨rounds, rfl⟩ : ∃ rounds : Nat, count = rounds + 1 := ⟨count.toNat - 1, by omega⟩
  rw [plainRepetition, plainRepetition, show ((rounds : Int) + 1).toNat = rounds + 1 by omega,
    show ((rounds : Int) + 1 - 1).toNat = rounds by omega, copies_succ, List.append_assoc,
    Int.min_eq_right (by omega), Int.min_eq_right (by omega)]

theorem plainRepetition_nonpos (body : Block) {count : Int} (hcount : count ≤ 0) :
    plainRepetition body count =
      .choice ((plainRounds body count).length + 1 : Nat) 0 :: plainRounds body count := by
  rw [plainRepetition, Int.min_eq_left hcount, show count.toNat = 0 by omega]
  rfl

section

variable {m : Setting} {starts : Option (Nat → Nat)} {body : Block} {pos mid k n : Nat}
  {count : Int} {forest : List Tree} {found : Nat × List Tree} {r : Parse}

theorem Gives.round (h : Gives m starts body pos k r) (hcount : count ≤ 0) {base : Nat}
    (hheld : m.program.Holds starts base (plainRounds body count)) (point : ChoicePoint)
    {stack : Stack} (hone : m.Fits stack 1) (captures : Array Entry) :
    m.Within ⟨base, pos, stack.push (.choice point), captures⟩ stack (k + 1)
      (m.Comes ⟨base, pos, stack.push (.choice point), captures⟩ (base + body.length)
        (stack.push (.choice point)) captures r) := by
  obtain ⟨rest, hrest⟩ := plainRounds_eq body hcount
  rw [hrest] at hheld
  exact .above hone (h _ _ _ hheld.left)

theorem Gives.continues_stop (h : Gives m starts body pos k none) (hcount : count ≤ 0) :
    Continues m starts body count pos (k + 1) (some (pos, [])) := by
  intro base next stack captures hheld hnext hone
  refine (h.round hcount hheld _ hone captures).imp fun hcomes => ?_
  exact Setting.comes_here.of_goesTo hcomes.taken

theorem Gives.continues_last (h : Gives m starts body pos k (some found)) :
    Continues m starts body (-1) pos (k + 1) (some found) := by
  intro base next stack captures hheld hnext hone
  refine (h.round (by omega) hheld _ hone captures).imp ?_
  intro ⟨entries, captures', hgoes, hcaptured⟩
  rw [plainRounds_last] at hheld hnext
  have hcommit : m.program.code[base + body.length]? = some (.commit 1) :=
    hheld.right.head (by simp)
  refine ⟨entries, captures', hgoes.trans (Setting.goesTo_commit hcommit ?_), hcaptured⟩
  rw [hnext, List.length_append, List.length_singleton]
  omega

theorem Gives.continues_more (h : Gives m starts body pos k (some (mid, forest)))
    (hrest : Continues m starts body (Pattern.remaining count) mid n r) (hcount : count ≤ 0)
    (hlast : count ≠ -1) : Continues m starts body count pos (max (k + 1) n) (r.after forest) := by
  intro base next stack captures hheld hnext hone
  refine (h.round hcount hheld _ hone captures).bind ?_
  intro ⟨entries, captures', hgoes, hrecords, hwrites⟩
  have hrounds : ∃ again, m.program.Holds starts again (plainRounds body (Pattern.remaining count)) ∧
      next = again + (plainRounds body (Pattern.remaining count)).length ∧
      ∃ off, m.program.code[base + body.length]? = some (.partialCommit off) ∧
        ((base + body.length : Nat) : Int) + off = again := by
    by_cases hzero : count = 0
    · subst hzero
      have hinstr : m.program.code[base + body.length]? = some (.partialCommit (-body.length)) :=
        hheld.right.head (by simp)
      exact ⟨base, hheld, hnext, _, hinstr, by omega⟩
    · rw [Pattern.remaining, if_neg (by omega), if_neg hzero]
      rw [plainRounds_more body (by omega) hlast] at hheld hnext
      have hinstr : m.program.code[base + body.length]? = some (.partialCommit 1) :=
        hheld.right.head (by simp)
      refine ⟨base + body.length + 1, hheld.right.tail, ?_, _, hinstr, by omega⟩
      rw [hnext, List.length_append, List.length_cons]
      omega
  obtain ⟨again, hheld', hnext', off, hinstr, hoff⟩ := hrounds
  have hgoes' := hgoes.trans (Setting.goesTo_partialCommit hinstr hoff)
  refine Setting.Within.of_goesTo hgoes' ((hrest again next stack captures' hheld' hnext' hone).imp ?_)
  exact fun hcomes => (hcomes.after hrecords hwrites).of_goesTo hgoes'

theorem Continues.gives (h : Continues m starts body count pos n r) (hcount : count ≤ 0) :
    Gives m starts (plainRepetition body count) pos n r := by
  intro base stack captures hheld
  rw [plainRepetition_nonpos body hcount] at hheld ⊢
  rw [List.length_cons]
  rcases Setting.within_choice (hheld.head (by simp)) (Int.natCast_add base _).symm with
    hover | ⟨hone, hgoes⟩
  · exact .inl hover
  · refine .of_goesTo hgoes ?_
    exact h (base + 1) _ stack captures hheld.tail (by omega) hone

end

/-! ## Calls -/

section

variable {m : Setting} {starts : Option (Nat → Nat)} {body : Block} {pos k : Nat} {r : Parse}

/-- The code of a rule, called from somewhere. -/
theorem Gives.called (h : Gives m starts body pos k r) {address next : Nat} {stack : Stack}
    {captures : Array Entry} {off : Int} {base : Nat}
    (hheld : m.program.Holds starts base (body ++ [.ret]))
    (hinstr : m.program.code[address]? = some (.call off)) (hbase : (address : Int) + off = base)
    (hnext : next = address + 1) :
    m.Yields ⟨address, pos, stack, captures⟩ next stack captures (k + 1) r := by
  subst hnext
  rcases Setting.within_call hinstr hbase with hover | ⟨hone, hgoes⟩
  · exact .inl hover
  · refine .of_goesTo hgoes (.above hone ((h _ _ _ hheld.left).imp fun hcomes => ?_))
    have hret : m.program.code[base + body.length]? = some .ret := hheld.right.head (by simp)
    cases r with
    | none => exact hcomes
    | some found =>
      obtain ⟨entries, captures', hgoes', hcaptured⟩ := hcomes
      exact ⟨entries, captures', hgoes'.trans (Setting.goesTo_ret hret), hcaptured⟩

end

end Block

end PegMachine
