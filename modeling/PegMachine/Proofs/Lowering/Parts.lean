import PegMachine.Proofs.Lowering.Atoms

/-!
# The code of patterns with parts

* `Pattern.implemented_seq` and so on: **the code of a pattern is in line with the pattern if the
  code of its parts is.**
* `Pattern.atLeast_exists`, `Pattern.atMost_exists`: the repetitions of a body come to an end, the
  unbounded ones because the body consumes something each time.
-/

namespace PegMachine

open Block

namespace Pattern

variable {m : Setting} {free : Prop} {a b : Pattern}

theorem matchTimeFree_both (h : free → (a.matchTimeFree && b.matchTimeFree) = true) :
    (free → a.matchTimeFree = true) ∧ (free → b.matchTimeFree = true) := by
  simp only [Bool.and_eq_true] at h
  exact ⟨fun hf => (h hf).1, fun hf => (h hf).2⟩

/-! ## Sequences and alternatives -/

theorem implemented_seq (ha : a.Implemented m free) (hb : b.Implemented m free) :
    (seq a b).Implemented m free := by
  intro scope rules answers s s' code pos captures hcode hgrow hfree hpos hserved
  obtain ⟨codeA, mid, codeB, hlowA, hlowB, hcode⟩ := lower_seq.1 hcode
  obtain ⟨hfreeA, hfreeB⟩ := matchTimeFree_both hfree
  have hcontA := contained_lower hlowA
  have hcontB := contained_lower hlowB
  obtain ⟨ra, k, hrunA, hlineA⟩ := ha captures hlowA ((constants_lower hlowB).trans hgrow) hfreeA
    hpos (hserved.mono (Nat.le_refl _) hpos fun _ key hkey => by
      rw [firstCalls, List.mem_append]
      exact .inl hkey)
  cases ra with
  | matched stop captures' =>
    obtain ⟨hle, hsize, hsame, -⟩ := id hlineA
    obtain ⟨rb, n, hrunB, hlineB⟩ := hb captures' hlowB hgrow hfreeB hsize
      (hserved.mono hle hsize fun he key hkey => by
        rw [firstCalls, List.mem_append, if_pos (hsame he)]
        exact .inr hkey)
    have hrun := runs_sequence hcode (hrunA.roomier (Nat.le_max_left k n))
      (fun pos' captures'' he => by cases he; exact hrunB.roomier (Nat.le_max_right k n))
      hcontA hcontB
    rcases hrun with hrun | ⟨-, fault, hcrashed⟩
    · refine ⟨rb, max k n, hrun, hlineA.after hlineB (fun ha hb => ?_) fun forest found => .seq⟩
      rw [nullable, ha, hb]
      rfl
    · cases hcrashed
  | failed =>
    have hrun : Runs m answers k code pos captures (Answer.andThen .failed .failed) ∨ _ :=
      runs_sequence hcode hrunA (fun _ _ he => by cases he) hcontA hcontB
    rcases hrun with hrun | ⟨-, fault, hcrashed⟩
    · exact ⟨.failed, k, hrun, fun hf => .seqFail (hlineA hf)⟩
    · cases hcrashed
  | crashed fault =>
    have hrun : Runs m answers k code pos captures (Answer.andThen (.crashed fault) .failed) ∨ _ :=
      runs_sequence hcode hrunA (fun _ _ he => by cases he) hcontA hcontB
    rcases hrun with hrun | ⟨hrun, -⟩
    · exact ⟨.crashed fault, k, hrun, hlineA⟩
    · exact ⟨.failed, k, hrun, fun hf => absurd hf hlineA⟩

theorem implemented_choice (ha : a.Implemented m free) (hb : b.Implemented m free) :
    (choice a b).Implemented m free := by
  intro scope rules answers s s' code pos captures hcode hgrow hfree hpos hserved
  obtain ⟨codeA, mid, codeB, hlowA, hlowB, hcode⟩ := lower_choice.1 hcode
  obtain ⟨hfreeA, hfreeB⟩ := matchTimeFree_both hfree
  have hcontA := contained_lower hlowA
  have hcontB := contained_lower hlowB
  have hcalls : firstCalls (Scope.nullableRules scope) (choice a b) =
      firstCalls (Scope.nullableRules scope) a ++ firstCalls (Scope.nullableRules scope) b := rfl
  obtain ⟨ra, k, hrunA, hlineA⟩ := ha captures hlowA ((constants_lower hlowB).trans hgrow) hfreeA
    hpos (hserved.mono (Nat.le_refl _) hpos fun _ key hkey => by
      rw [hcalls, List.mem_append]
      exact .inl hkey)
  cases ra with
  | matched stop captures' =>
    have hrun : Runs m answers (k + 1) code pos captures
        (Answer.orElse (.matched stop captures') .failed) :=
      runs_choice hcode (Nat.lt_succ_self k) hrunA (fun he => by cases he) hcontA hcontB
    refine ⟨_, k + 1, hrun, hlineA.imp_matched (fun hnull => ?_) fun found => .choiceFirst⟩
    rw [nullable, hnull, Bool.true_or]
  | failed =>
    obtain ⟨rb, n, hrunB, hlineB⟩ := hb captures hlowB hgrow hfreeB hpos
      (hserved.mono (Nat.le_refl _) hpos fun _ key hkey => by
        rw [hcalls, List.mem_append]
        exact .inr hkey)
    refine ⟨rb, max (k + 1) n, runs_choice hcode (Nat.le_max_left _ _) hrunA
      (fun _ => hrunB.roomier (Nat.le_max_right _ _)) hcontA hcontB,
      hlineB.imp (fun hnull => ?_) fun hf found => .choiceSecond (hlineA hf)⟩
    rw [nullable, hnull, Bool.or_true]
  | crashed fault =>
    have hrun : Runs m answers (k + 1) code pos captures
        (Answer.orElse (.crashed fault) .failed) :=
      runs_choice hcode (Nat.lt_succ_self k) hrunA (fun he => by cases he) hcontA hcontB
    exact ⟨_, k + 1, hrun, hlineA⟩

/-! ## Lookaheads and differences -/

theorem implemented_not (ha : a.Implemented m free) : (not a).Implemented m free := by
  intro scope rules answers s s' code pos captures hcode hgrow hfree hpos hserved
  obtain ⟨codeA, hlowA, hcode⟩ := lower_not.1 hcode
  obtain ⟨ra, k, hrunA, hlineA⟩ := ha captures hlowA hgrow hfree hpos
    (hserved.mono (Nat.le_refl _) hpos fun _ key hkey => hkey)
  refine ⟨ra.diff (.matched pos captures), k + 1, runs_difference hcode (Nat.lt_succ_self k) hrunA
    (fun _ => runs_nil hpos) contained_nil (contained_lower hlowA), ?_⟩
  cases ra with
  | matched stop captures' =>
    intro hf
    obtain ⟨found, hfound⟩ := hlineA.costs hf
    exact .notFail hfound
  | failed =>
    exact ⟨Nat.le_refl _, hpos, fun _ => rfl, [], records_nil captures, .nil,
      fun hf => ⟨[], .not (hlineA hf), serialises_nil⟩⟩
  | crashed fault => exact hlineA

theorem implemented_and (ha : a.Implemented m free) : (and a).Implemented m free := by
  intro scope rules answers s s' code pos captures hcode hgrow hfree hpos hserved
  obtain ⟨codeA, hlowA, hcode⟩ := lower_and.1 hcode
  obtain ⟨ra, k, hrunA, hlineA⟩ := ha captures hlowA hgrow hfree hpos
    (hserved.mono (Nat.le_refl _) hpos fun _ key hkey => hkey)
  refine ⟨ra.lookahead pos captures, k + 1, runs_lookahead hcode hrunA (contained_lower hlowA), ?_⟩
  cases ra with
  | matched stop captures' =>
    refine ⟨Nat.le_refl _, hpos, fun _ => rfl, [], records_nil captures, .nil, fun hf => ?_⟩
    obtain ⟨found, hfound⟩ := hlineA.costs hf
    exact ⟨[], .and hfound, serialises_nil⟩
  | failed => exact fun hf => .andFail (hlineA hf)
  | crashed fault => exact hlineA

theorem implemented_diff (ha : a.Implemented m free) (hb : b.Implemented m free) :
    (diff a b).Implemented m free := by
  intro scope rules answers s s' code pos captures hcode hgrow hfree hpos hserved
  obtain ⟨codeA, mid, codeB, hlowA, hlowB, hcode⟩ := lower_diff.1 hcode
  obtain ⟨hfreeA, hfreeB⟩ := matchTimeFree_both hfree
  have hcontA := contained_lower hlowA
  have hcontB := contained_lower hlowB
  have hcalls : firstCalls (Scope.nullableRules scope) (diff a b) =
      firstCalls (Scope.nullableRules scope) a ++ firstCalls (Scope.nullableRules scope) b := rfl
  obtain ⟨rb, k, hrunB, hlineB⟩ := hb captures hlowB hgrow hfreeB hpos
    (hserved.mono (Nat.le_refl _) hpos fun _ key hkey => by
      rw [hcalls, List.mem_append]
      exact .inr hkey)
  cases rb with
  | matched stop captures' =>
    have hrun : Runs m answers (k + 1) code pos captures
        (Answer.diff (.matched stop captures') .failed) :=
      runs_difference hcode (Nat.lt_succ_self k) hrunB (fun he => by cases he) hcontA hcontB
    refine ⟨_, k + 1, hrun, fun hf => ?_⟩
    obtain ⟨found, hfound⟩ := hlineB.costs hf
    exact .diffFail hfound
  | failed =>
    obtain ⟨ra, n, hrunA, hlineA⟩ := ha captures hlowA ((constants_lower hlowB).trans hgrow) hfreeA
      hpos (hserved.mono (Nat.le_refl _) hpos fun _ key hkey => by
        rw [hcalls, List.mem_append]
        exact .inl hkey)
    exact ⟨ra, max (k + 1) n, runs_difference hcode (Nat.le_max_left _ _) hrunB
      (fun _ => hrunA.roomier (Nat.le_max_right _ _)) hcontA hcontB,
      hlineA.imp id fun hf found => .diff (hlineB hf)⟩
  | crashed fault =>
    have hrun : Runs m answers (k + 1) code pos captures
        (Answer.diff (.crashed fault) .failed) :=
      runs_difference hcode (Nat.lt_succ_self k) hrunB (fun he => by cases he) hcontA hcontB
    exact ⟨_, k + 1, hrun, hlineB⟩

/-! ## Repetitions -/

theorem remaining_natCast (n : Nat) : remaining n = (n - 1 : Nat) := by
  rw [remaining]
  split
  · omega
  · split <;> omega

theorem remaining_neg (n : Nat) : remaining (-(n + 1 : Nat)) = -(n : Nat) := by
  rw [remaining, if_neg (by omega), if_neg (by omega)]
  omega

section

variable {answers : Answers} {rules : Rules} {scope : Option Scope} {body : Block} {pos : Nat}
  (hbody : ∀ {pos : Nat} (captures : Array Entry), pos ≤ m.subject.size →
    Served m free answers rules scope (firstCalls (Scope.nullableRules scope) a) pos →
    ∃ r k, Runs m answers k body pos captures r ∧
      r.InLine m free rules (Scope.nullableRules scope) a pos captures k)

include hbody

/-- The unbounded repetitions of a body that consumes something come to an end. -/
theorem atLeast_exists (hnull : nullable (Scope.nullableRules scope) a = false) (n : Nat)
    (captures : Array Entry) (hpos : pos ≤ m.subject.size)
    (hserved : Served m free answers rules scope (firstCalls (Scope.nullableRules scope) a) pos) :
    ∃ r k, AtLeast m answers k body n pos captures r ∧
      r.InLine m free rules (Scope.nullableRules scope) (.rep a n) pos captures k := by
  induction hleft : m.subject.size - pos using Nat.strongRecOn generalizing n pos captures with
  | ind left ih =>
    subst hleft
    obtain ⟨r, k, hrun, hline⟩ := hbody captures hpos hserved
    cases r with
    | matched stop captures' =>
      obtain ⟨hle, hsize, hsame, -⟩ := id hline
      have hne : stop ≠ pos := fun he => by simp [hsame he] at hnull
      obtain ⟨r, l, hrest, hline'⟩ := ih (m.subject.size - stop) (by omega) (n - 1) captures' hsize
        (hserved.mono hle hsize fun he => absurd he hne) rfl
      refine ⟨r, max (roundCost n k) l, ?_, hline.after hline' (fun hnull' => ?_)
        fun forest found h h' => .repMore (by omega) h ?_⟩
      · have hrest' := hrest.roomier (Nat.le_max_right (roundCost n k) l)
        have hround := Nat.le_max_left (roundCost n k) l
        cases n with
        | zero => exact .more hround hrun hrest'
        | succ n =>
          rw [roundCost, if_pos (by omega)] at hround hrest' ⊢
          exact .again (hrun.roomier hround) hrest'
      · rw [hnull] at hnull'
        cases hnull'
      · rwa [remaining_natCast]
    | failed =>
      cases n with
      | zero =>
        exact ⟨_, k + 1, .stops (Nat.lt_succ_self k) hrun, Nat.le_refl _, hpos,
          fun _ => by simp [nullable], [], records_nil captures, .nil,
          fun hf => ⟨[], .repStop (Int.le_refl _) (hline hf), serialises_nil⟩⟩
      | succ n => exact ⟨_, k, .fails hrun, fun hf => .repFail (by omega) (hline hf)⟩
    | crashed fault => exact ⟨_, k + 1, .crashes (Nat.lt_succ_self k) hrun, hline⟩

theorem atMost_exists (n : Nat) (captures : Array Entry) (hpos : pos ≤ m.subject.size)
    (hserved : Served m free answers rules scope (firstCalls (Scope.nullableRules scope) a) pos) :
    ∃ r k, AtMost m answers k body (n + 1) pos captures r ∧
      r.InLine m free rules (Scope.nullableRules scope) (.rep a (-(n + 1 : Nat))) pos captures
        (k + 1) := by
  have hnull : ∀ k : Nat, nullable (Scope.nullableRules scope) (.rep a (-(k + 1 : Nat))) = true := by
    intro k
    rw [nullable, decide_eq_true (by omega), Bool.true_or]
  induction n generalizing pos captures with
  | zero =>
    obtain ⟨r, k, hrun, hline⟩ := hbody captures hpos hserved
    cases r with
    | matched stop captures' =>
      exact ⟨_, k, .again hrun .spent, hline.imp_matched (fun _ => hnull 0) fun found => .repLast⟩
    | failed =>
      exact ⟨_, k, .stops hrun, Nat.le_refl _, hpos, fun _ => hnull 0, [], records_nil captures,
        .nil, fun hf => ⟨[], .repStop (by omega) (hline hf), serialises_nil⟩⟩
    | crashed fault => exact ⟨_, k, .crashes hrun, hline⟩
  | succ n ih =>
    obtain ⟨r, k, hrun, hline⟩ := hbody captures hpos hserved
    cases r with
    | matched stop captures' =>
      obtain ⟨hle, hsize, -⟩ := id hline
      obtain ⟨r, l, hrest, hline'⟩ := ih captures' hsize
        (hserved.mono hle hsize fun _ key hkey => hkey)
      refine ⟨r, max k l, .again (hrun.roomier (Nat.le_max_left k l))
        (hrest.roomier (Nat.le_max_right k l)), hline.after hline' (fun _ _ => hnull (n + 1))
        fun forest found h h' => ?_⟩
      have hround : roundCost (-(n + 1 + 1 : Nat)) k = k + 1 := if_neg (by omega)
      rw [← Nat.add_max_add_right, ← hround]
      refine .repMore (by omega) h ?_
      rwa [remaining_neg]
    | failed =>
      exact ⟨_, k, .stops hrun, Nat.le_refl _, hpos, fun _ => hnull (n + 1), [],
        records_nil captures, .nil,
        fun hf => ⟨[], .repStop (by omega) (hline hf), serialises_nil⟩⟩
    | crashed fault => exact ⟨_, k, .crashes hrun, hline⟩

end

theorem implemented_rep (ha : a.Implemented m free) (n : Int) : (rep a n).Implemented m free := by
  intro scope rules answers s s' code pos captures hcode hgrow hfree hpos hserved
  obtain ⟨hnull, codeA, hlowA, hcode⟩ := lower_rep.1 hcode
  have hcontA := contained_lower hlowA
  have hbody : ∀ {pos : Nat} (captures : Array Entry), pos ≤ m.subject.size →
      Served m free answers rules scope (firstCalls (Scope.nullableRules scope) a) pos →
      ∃ r k, Runs m answers k codeA pos captures r ∧
        r.InLine m free rules (Scope.nullableRules scope) a pos captures k :=
    fun captures hpos hserved => ha captures hlowA hgrow hfree hpos hserved
  by_cases hn : 0 ≤ n
  · obtain ⟨count, rfl⟩ := Int.eq_ofNat_of_zero_le hn
    obtain ⟨r, k, hleast, hline⟩ := atLeast_exists hbody (hnull hn) count captures hpos hserved
    exact ⟨r, k, runs_repetition hcode (fun _ => hleast) (fun h => absurd hn (by omega)) hcontA,
      hline⟩
  · obtain ⟨count, rfl⟩ : ∃ k : Nat, n = -(k + 1 : Nat) := ⟨n.natAbs - 1, by omega⟩
    obtain ⟨r, k, hmost, hline⟩ := atMost_exists hbody count captures hpos hserved
    refine ⟨r, k + 1, runs_repetition hcode (fun h => absurd h hn)
      (fun _ => ⟨k, Nat.lt_succ_self k, ?_⟩) hcontA, hline⟩
    rwa [Int.natAbs_neg, Int.natAbs_natCast]

/-! ## Captures -/

theorem mark_wrapEntries {program : Program} {kind : CaptureKind} {index start stop : Nat}
    (entries : List Entry) (h : start ≤ stop) :
    (wrapEntries kind index start stop entries).map (Entry.mark program) =
      wrapMarks kind (program.payload kind index) start stop
        (entries.map (Entry.mark program)) := by
  cases entries with
  | nil => simp [wrapEntries, wrapMarks, Entry.mark, Nat.add_sub_cancel' h]
  | cons entry rest => simp [wrapEntries, wrapMarks, Entry.mark]

theorem payload_of_constant? {program : Program} {wrapping : Wrapping} {index : Nat}
    (h : program.constant? index = wrapping.constant?) :
    program.payload wrapping.kind index = wrapping.payload := by
  have hkind : wrapping.kind ≠ .argument := by cases wrapping <;> simp [Wrapping.kind]
  rw [Program.payload, if_neg hkind, h]
  rfl

section

variable {rules : Rules} {known : List RuleKey} {wrapping : Wrapping} {pos stop index k : Nat}
  {start captures captures' captures'' : Array Entry}

theorem nullable_capture (hw : wrapping.kind ≠ .matchTime) :
    nullable known (.capture wrapping a) = nullable known a := by
  cases wrapping with
  | matchTime f => exact absurd rfl hw
  | _ => rfl

theorem inLine_enclosed
    (h : (Answer.matched stop captures').InLine m free rules known a pos start k)
    (hw : wrapping.kind ≠ .matchTime)
    (hpayload : m.program.payload wrapping.kind index = wrapping.payload)
    (hrecords : ∀ entries, Records start entries captures' → Balanced entries →
      Records captures (wrapEntries wrapping.kind index pos stop entries) captures'') :
    (Answer.matched stop captures'').InLine m free rules known (.capture wrapping a) pos
      captures k := by
  obtain ⟨hle, hsize, hsame, entries, hstart, hbalanced, hder⟩ := h
  refine ⟨hle, hsize, fun he => ?_, _, hrecords entries hstart hbalanced,
    balanced_wrapEntries hbalanced, fun hf => ?_⟩
  · rw [nullable_capture hw]
    exact hsame he
  · obtain ⟨forest, hforest, hserial⟩ := hder hf
    refine ⟨_, .capture hw hforest, ?_⟩
    rw [Serialises] at hserial ⊢
    rw [mark_wrapEntries entries hle, hpayload, hserial, forestMarks, forestMarks,
      List.append_nil, Tree.marks]

variable {answers : Answers} {body : Block} {r : Answer} {kind : CaptureKind} {p : Pattern}

theorem exists_matchTime
    (hrun : Runs m answers k body pos (captures.push (.opened kind index pos)) r)
    (h : r.InLine m free rules known a pos (captures.push (.opened kind index pos)) k)
    (hcont : Contained body) (hbound : ¬ free) (hnull : nullable known p = true) :
    ∃ r', Runs m answers k (.openCapture kind 0 index :: (body ++ [.closeMatchTime])) pos captures r' ∧
      r'.InLine m free rules known p pos captures k := by
  cases r with
  | matched stop captures' =>
    obtain ⟨-, -, -, entries, hrecords, hbalanced, -⟩ := h
    obtain ⟨r, hrun', hleft⟩ := runs_closeMatchTime hrun hrecords hbalanced hcont
    refine ⟨r, hrun', ?_⟩
    cases r with
    | matched next captures'' =>
      obtain ⟨hle, hsize, -⟩ := Run.matched_sound hrun'
      obtain ⟨recorded, hrecorded, hbalanced'⟩ := hleft _ _ rfl
      exact ⟨hle, hsize, fun _ => hnull, recorded, hrecorded, hbalanced',
        fun hf => absurd hf hbound⟩
    | failed => exact fun hf => absurd hf hbound
    | crashed fault => exact hbound
  | failed => exact ⟨_, runs_opened hrun hcont id nofun nofun, fun hf => absurd hf hbound⟩
  | crashed fault => exact ⟨_, runs_opened hrun hcont nofun (fun _ => id) nofun, hbound⟩

theorem exists_fullCapture (hrun : Runs m answers k body pos captures r)
    (h : r.InLine m free rules known a pos captures k) (hcont : Contained body)
    (hchecks : body.all Instr.isCheck = true) (hw : wrapping.kind ≠ .matchTime)
    (hpayload : m.program.payload wrapping.kind index = wrapping.payload) :
    ∃ r', Runs m answers k (body ++ [.fullCapture wrapping.kind (width body) index]) pos
        captures r' ∧ r'.InLine m free rules known (.capture wrapping a) pos captures k := by
  have hlast : Contained [.fullCapture wrapping.kind (width body) index] :=
    contained_single rfl
  cases r with
  | matched stop captures' =>
    obtain ⟨rfl, hrun'⟩ := runs_fullCapture hrun hchecks
    refine ⟨_, hrun', inLine_enclosed h hw hpayload fun entries hrecords _ => ?_⟩
    cases hrecords.unique (records_nil _)
    exact records_push _ _
  | failed =>
    have hrun' : Runs m answers k _ pos captures (Answer.andThen .failed .failed) :=
      runs_append hrun nofun hcont hlast
    exact ⟨_, hrun', fun hf => .captureFail hw (h hf)⟩
  | crashed fault =>
    have hrun' : Runs m answers k _ pos captures (Answer.andThen (.crashed fault) .failed) :=
      runs_append hrun nofun hcont hlast
    exact ⟨_, hrun', h⟩

theorem exists_closeCapture
    (hrun : Runs m answers k body pos (captures.push (.opened wrapping.kind index pos)) r)
    (h : r.InLine m free rules known a pos (captures.push (.opened wrapping.kind index pos)) k)
    (hcont : Contained body) (hw : wrapping.kind ≠ .matchTime)
    (hpayload : m.program.payload wrapping.kind index = wrapping.payload) :
    ∃ r', Runs m answers k (.openCapture wrapping.kind 0 index :: (body ++ [.closeCapture])) pos
        captures r' ∧ r'.InLine m free rules known (.capture wrapping a) pos captures k := by
  cases r with
  | matched stop captures' =>
    obtain ⟨-, -, -, entries, hrecords, hbalanced, -⟩ := id h
    exact ⟨_, runs_closeCapture hrun hrecords hbalanced hcont,
      inLine_enclosed h hw hpayload fun _ => closeEntries_of_records⟩
  | failed => exact ⟨_, runs_opened hrun hcont id nofun nofun, fun hf => .captureFail hw (h hf)⟩
  | crashed fault => exact ⟨_, runs_opened hrun hcont nofun (fun _ => id) nofun, h⟩

end

theorem implemented_capture (ha : a.Implemented m free) (wrapping : Wrapping) :
    (capture wrapping a).Implemented m free := by
  intro scope rules answers s s' code pos captures hcode hgrow hfree hpos hserved
  obtain ⟨body, mid, index, hlowA, hindex, hcode⟩ := lower_capture.1 hcode
  have hcont := contained_lower hlowA
  have hpayload := payload_of_constant? (Lowering.constant?_of_addConstant? hindex hgrow).1
  have hgrow' : ConstantsGrow mid m.program.constants :=
    (Lowering.constantsGrow_addConstant? hindex).trans hgrow
  have hfreeA : free → (wrapping.kind != .matchTime) = true ∧ a.matchTimeFree = true :=
    fun hf => Bool.and_eq_true_iff.1 (hfree hf)
  have hbody : ∀ start : Array Entry, ∃ r k, Runs m answers k body pos start r ∧
      r.InLine m free rules (Scope.nullableRules scope) a pos start k :=
    fun start => ha start hlowA hgrow' (fun hf => (hfreeA hf).2) hpos
      (hserved.mono (Nat.le_refl _) hpos fun _ key hkey => hkey)
  cases enclose_form hcode.symm with
  | matchTime hw =>
    obtain ⟨r, k, hrun, hline⟩ := hbody (captures.push (.opened wrapping.kind index pos))
    obtain ⟨f, rfl⟩ : ∃ f, wrapping = .matchTime f := by
      cases wrapping with
      | matchTime f => exact ⟨f, rfl⟩
      | _ => cases hw
    have hbound : ¬ free := fun hf => by simpa [hw] using (hfreeA hf).1
    have hnull : nullable (Scope.nullableRules scope) (.capture (.matchTime f) a) = true := rfl
    obtain ⟨r', hfound⟩ := exists_matchTime hrun hline hcont hbound hnull
    exact ⟨r', k, hfound⟩
  | fixed hw hchecks =>
    obtain ⟨r, k, hrun, hline⟩ := hbody captures
    obtain ⟨r', hfound⟩ := exists_fullCapture hrun hline hcont hchecks hw hpayload
    exact ⟨r', k, hfound⟩
  | opened hw =>
    obtain ⟨r, k, hrun, hline⟩ := hbody (captures.push (.opened wrapping.kind index pos))
    obtain ⟨r', hfound⟩ := exists_closeCapture hrun hline hcont hw hpayload
    exact ⟨r', k, hfound⟩

end Pattern

end PegMachine
