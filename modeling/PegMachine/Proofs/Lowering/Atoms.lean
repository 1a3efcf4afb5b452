import PegMachine.Proofs.Lowering.Agreement
import PegMachine.Proofs.Lowering.Shape

/-!
# The code of patterns without parts

* `Pattern.Implemented`: from every position, the code of a pattern comes to an answer that is in
  line with the pattern.
* `Pattern.implemented_any` and so on: **the code of a pattern without parts does.**
-/

namespace PegMachine

open Block

/-- From every position, the code of a pattern comes to an answer in line with the pattern. -/
def Pattern.Implemented (m : Setting) (free : Prop) (p : Pattern) : Prop :=
  ∀ {scope : Option Scope} {rules : Rules} {answers : Answers} {s s' : Array Constant}
    {code : Block} {pos : Nat} (captures : Array Entry),
    p.lower scope s = .ok (code, s') → ConstantsGrow s' m.program.constants →
    (free → p.matchTimeFree = true) → pos ≤ m.subject.size →
    Served m free answers rules scope (firstCalls (Scope.nullableRules scope) p) pos →
    ∃ r k, Runs m answers k code pos captures r ∧
      r.InLine m free rules (Scope.nullableRules scope) p pos captures k

namespace Pattern

variable {m : Setting} {free : Prop}

/-! ## Bytes -/

theorem implemented_any (n : Int) : (any n).Implemented m free := by
  intro scope rules answers s s' code pos captures hcode _ _ hpos _
  refine ⟨_, skipCost n, runs_any (lower_any.1 hcode).1 hpos (fun hn hcount => ?_), ?_⟩
  · simp [skipCost, hn, hcount]
  rw [Setting.afterAny]
  by_cases hn : 0 ≤ n
  · rw [if_pos hn]
    split
    · next h =>
      refine Answer.inLine_plain _ (by omega) h (fun he => ?_) (.any hn h)
      simp only [nullable, decide_eq_true_eq]
      omega
    · next h => exact fun _ => .anyFail hn (by omega)
  · rw [if_neg hn]
    split
    · next h => exact fun _ => .fewerFail (by omega) h
    · next h =>
      refine Answer.inLine_plain _ (Nat.le_refl _) hpos (fun _ => ?_)
        (.fewer (by omega) (by omega))
      simp only [nullable, decide_eq_true_eq]
      omega

theorem implemented_literal (bytes : Bytes) : (literal bytes).Implemented m free := by
  intro scope rules answers s s' code pos captures hcode _ _ hpos _
  obtain ⟨rfl, -⟩ := lower_literal.1 hcode
  refine ⟨_, 0, runs_checks (all_isCheck_ofBytes _) hpos, ?_⟩
  rw [afterChecks_ofBytes]
  split
  · next h =>
    have hlength := h.length_le
    rw [List.length_drop, Array.length_toList, Array.length_toList] at hlength
    refine Answer.inLine_plain _ (by omega) (by rw [Array.length_toList]; omega) (fun he => ?_)
      (.literal h)
    rw [Array.length_toList] at he
    have hempty : bytes.size = 0 := by omega
    simp [nullable, Array.eq_empty_of_size_eq_zero hempty]
  · next h => exact fun _ => .literalFail h

theorem implemented_set (bytes : ByteSet) : (set bytes).Implemented m free := by
  intro scope rules answers s s' code pos captures hcode _ _ hpos _
  obtain ⟨rfl, -⟩ := lower_set.1 hcode
  refine ⟨_, 0, runs_ofSet bytes hpos, ?_⟩
  split
  · next h =>
    obtain ⟨b, hb, hmem⟩ := hasByte_iff.1 h
    have hlt : pos < m.subject.size := (Array.getElem?_eq_some_iff.1 hb).1
    exact Answer.inLine_plain _ (by omega) hlt (by omega) (.set hb hmem)
  · next h =>
    refine fun _ => .setFail fun b hb => ?_
    rw [← Bool.not_eq_true]
    intro hmem
    exact h (hasByte_iff.2 ⟨b, hb, hmem⟩)

theorem implemented_fail : fail.Implemented m free := by
  intro scope rules answers s s' code pos captures hcode _ _ hpos _
  obtain ⟨rfl, -⟩ := lower_fail.1 hcode
  exact ⟨_, 0, runs_fail hpos, fun _ => .fail⟩

theorem implemented_succeed : succeed.Implemented m free := by
  intro scope rules answers s s' code pos captures hcode _ _ hpos _
  obtain ⟨rfl, -⟩ := lower_succeed.1 hcode
  exact ⟨_, 0, runs_nil hpos, Answer.inLine_plain _ (Nat.le_refl _) hpos (fun _ => rfl) .succeed⟩

/-! ## Captures -/

theorem runs_advance {answers : Answers} {instr : Instr} {room pos pos' : Nat}
    {captures captures' : Array Entry} (hpos : pos ≤ m.subject.size)
    (hr : instr.Ready m answers [instr] ⟨pos, captures, room⟩ ⟨0, pos, [], captures⟩)
    (hmove : m.move answers pos captures instr = .advance pos' captures') (hle : pos ≤ pos')
    (hsize : pos' ≤ m.subject.size) (hx : Extends captures captures') :
    Runs m answers room [instr] pos captures (.matched pos' captures') :=
  .step_advance rfl (runs_start captures hpos) hr hmove
    (.exit rfl rfl ⟨hle, hsize, hx, levelsBelow_nil _, Nat.zero_le _⟩)

theorem runs_record {answers : Answers} {instr : Instr} {room pos : Nat} (captures : Array Entry)
    (entry : Entry) (hpos : pos ≤ m.subject.size)
    (hr : instr.Ready m answers [instr] ⟨pos, captures, room⟩ ⟨0, pos, [], captures⟩)
    (hmove : m.move answers pos captures instr = .advance pos (captures.push entry)) :
    Runs m answers room [instr] pos captures (.matched pos (captures.push entry)) :=
  runs_advance hpos hr hmove (Nat.le_refl _) hpos (.push _ _)

theorem implemented_position : position.Implemented m free := by
  intro scope rules answers s s' code pos captures hcode hgrow _ hpos _
  obtain ⟨rfl, -⟩ := lower_position.1 hcode
  exact ⟨_, 0, runs_record captures _ hpos trivial rfl,
    Answer.inLine_entry _ hpos rfl (.full .nil) rfl .position⟩

theorem implemented_argument (n : Nat) : (argument n).Implemented m free := by
  intro scope rules answers s s' code pos captures hcode hgrow _ hpos _
  obtain ⟨rfl, -⟩ := lower_argument.1 hcode
  exact ⟨_, 0, runs_record captures _ hpos trivial rfl,
    Answer.inLine_entry _ hpos rfl (.full .nil) rfl .argument⟩

theorem payload_of_constantsGrow {s : Array Constant} {constant : Constant} {kind : CaptureKind}
    (hkind : kind ≠ .argument) (h : ConstantsGrow (s.push constant) m.program.constants) :
    m.program.payload kind (s.size + 1) = .constant constant :=
  (Program.payload_eq_constant hkind).2 (Program.constant?_of_constantsGrow h)

theorem implemented_backref (name : String) : (backref name).Implemented m free := by
  intro scope rules answers s s' code pos captures hcode hgrow _ hpos _
  obtain ⟨rfl, rfl⟩ := lower_backref.1 hcode
  refine ⟨_, 0, runs_record captures _ hpos trivial rfl,
    Answer.inLine_entry _ hpos rfl (.full .nil) ?_ .backref⟩
  rw [Entry.mark, payload_of_constantsGrow (by simp) hgrow]
  rfl

theorem runs_constCaptures {answers : Answers} {values : List Value} {s s' : Array Constant}
    {code : Block} {room pos : Nat} (captures : Array Entry)
    (hcode : (values.mapM Lowering.constCapture : Lowering Block) s = .ok (code, s'))
    (hgrow : ConstantsGrow s' m.program.constants) (hpos : pos ≤ m.subject.size) :
    ∃ entries captures', Runs m answers room code pos captures (.matched pos captures') ∧
      Records captures entries captures' ∧ Balanced entries ∧
      Serialises m.program entries
        (values.map fun v => .node .const (.constant (.value v)) pos pos []) := by
  induction values generalizing s code captures with
  | nil =>
    obtain ⟨rfl, -⟩ := Lowering.constCaptures_nil.1 hcode
    exact ⟨[], captures, runs_nil hpos, records_nil captures, .nil, serialises_nil⟩
  | cons value rest ih =>
    obtain ⟨more, hmore, rfl⟩ := Lowering.constCaptures_cons.1 hcode
    obtain ⟨entries, captures', hrun, hrecords, hbalanced, hserial⟩ :=
      ih (captures.push (.full .const (s.size + 1) pos 0)) hmore
    have hfirst : Runs m answers room [.emptyCaptureConst .const (s.size + 1)] pos captures
        (.matched pos (captures.push (.full .const (s.size + 1) pos 0))) :=
      runs_record captures _ hpos trivial rfl
    refine ⟨_, captures', ?_, (records_push captures _).trans hrecords,
      (Balanced.full .nil).append hbalanced, ?_⟩
    · refine runs_append hfirst (fun pos' captures'' he => ?_) (contained_single rfl)
        (compositional_contained.constCaptures hmore)
      cases he
      exact hrun
    · have hgrow' := (constantsGrow_constCaptures hmore).trans hgrow
      have hserial' : Serialises m.program [.full .const (s.size + 1) pos 0]
          [.node .const (.constant (.value value)) pos pos []] := by
        rw [Serialises, List.map_singleton, Entry.mark, payload_of_constantsGrow (by simp) hgrow']
        rfl
      exact hserial'.append hserial

theorem implemented_const (values : List Value) : (const values).Implemented m free := by
  intro scope rules answers s s' code pos captures hcode hgrow _ hpos _
  obtain ⟨entries, captures', hrun, hrecords, hbalanced, hserial⟩ :=
    runs_constCaptures captures (lower_const.1 hcode) hgrow hpos
  exact ⟨_, 0, hrun, Nat.le_refl _, hpos, fun _ => rfl, entries, hrecords, hbalanced,
    fun _ => ⟨_, .const, hserial⟩⟩

/-! ## Matchers and calls -/

theorem implemented_matcher (f : Matcher) : (matcher f).Implemented m free := by
  intro scope rules answers s s' code pos captures hcode hgrow _ hpos _
  obtain ⟨rfl, rfl⟩ := lower_matcher.1 hcode
  have hconstant := Program.constant?_of_constantsGrow hgrow
  have hready : (Instr.matcher (s.size + 1)).Ready m answers [.matcher (s.size + 1)] ⟨pos, captures, 0⟩
      ⟨0, pos, [], captures⟩ := ⟨f, hconstant⟩
  have hmove : m.move answers pos captures (.matcher (s.size + 1)) =
      m.matcherMove pos captures f := by
    simp only [Setting.move, hconstant]
  rw [Setting.matcherMove] at hmove
  cases hf : f m.subject pos with
  | none =>
    rw [hf] at hmove
    exact ⟨.failed, 0, .step_fail rfl (runs_start captures hpos) hready hmove .nil,
      fun _ => .matcherFail (by simp [hf])⟩
  | some stop =>
    simp only [hf] at hmove
    by_cases hstop : pos ≤ stop ∧ stop ≤ m.subject.size
    · rw [if_pos hstop] at hmove
      exact ⟨_, 0, runs_advance hpos hready hmove hstop.1 hstop.2 (.refl _),
        Answer.inLine_plain _ hstop.1 hstop.2 (fun _ => rfl) (.matcher hf hstop.1 hstop.2)⟩
    · rw [if_neg hstop] at hmove
      refine ⟨.failed, 0, .step_fail rfl (runs_start captures hpos) hready hmove .nil,
        fun _ => .matcherFail fun stop' hf' => ?_⟩
      rw [hf] at hf'
      cases hf'
      exact hstop

theorem implemented_rule (key : RuleKey) : (rule key).Implemented m free := by
  intro scope rules answers s s' code pos captures hcode _ _ hpos hserved
  obtain ⟨around, place, rfl, hplace, rfl, -⟩ := lower_rule.1 hcode
  obtain ⟨r, k, hanswer, hagrees⟩ :=
    hserved.first key (by simp [firstCalls]) captures around place rfl hplace
  have hmove : m.move answers pos captures (.openCall place) = .ofAnswer (some (r, k)) := by
    rw [Setting.move, hanswer]
  have hready : (Instr.openCall place).Ready m answers [.openCall place] ⟨pos, captures, k + 1⟩
      ⟨0, pos, [], captures⟩ := by
    intro r' k' hanswer'
    rw [hanswer] at hanswer'
    cases hanswer'
    exact Nat.le_of_eq (Nat.zero_add _ ▸ rfl)
  refine ⟨r, k + 1, ?_, hagrees⟩
  cases r with
  | matched stop captures' =>
    obtain ⟨hle, hsize, -, entries, hrecords, -⟩ := hagrees
    exact runs_advance hpos hready hmove hle hsize hrecords.extends
  | failed => exact .step_fail rfl (runs_start captures hpos) hready hmove .nil
  | crashed fault =>
    refine .crashed rfl (runs_start captures hpos) hready ?_
    rw [hmove]
    rfl

end Pattern

end PegMachine
