import PegMachine.Proofs.Blocks.Linking
import PegMachine.Proofs.Grammars.Tables
import PegMachine.Proofs.Plain.Blocks
import PegMachine.Proofs.Plain.Lowered

/-!
# Runs of plain code

* `Program.Holds.holdsRules`: the rules of a grammar stand where its calls lead.
* `Pattern.Gives`: the plain code of a pattern gives what the match of the pattern comes to.
* `Pattern.Gives.seq`, `Pattern.Gives.grammar` and so on: it does if the code of the parts does.
* **`Costs.given`**: the plain code of every pattern does, within exactly the frames that the match
  costs.
-/

namespace PegMachine

open Block

/-! ## Rules -/

section

variable {program : Program} {starts : Option (Nat → Nat)} {base n startRule : Nat}
  {code part : Block} {codes : List Block}

theorem plainLink_eq (startRule : Nat) (codes : List Block) :
    plainLink startRule codes =
      (unlinked ((startsFrom 2 codes).toArray.getD startRule 0 : Nat)
          (1 + (ruleBlocks codes).length : Nat) codes).mapIdx
        fun address instr => instr.linkedAt ((startsFrom 2 codes).toArray.getD · 0) address := by
  have hend : 2 + (ruleBlocks codes).length - 1 = 1 + (ruleBlocks codes).length := by omega
  rw [plainLink, layOut_eq, unlinked, ← hend]
  rfl

theorem Program.Holds.of_standsAt (h : program.Holds starts base code)
    (hat : StandsAt code n part) : program.Holds starts (base + n) part := by
  intro k instr hk
  rw [Nat.add_assoc]
  exact h (n + k) instr (hat.getElem?_eq_some hk)

theorem Program.Holds.unlinked (h : program.Holds starts base (plainLink startRule codes)) :
    program.Holds (some fun place => base + (startsFrom 2 codes).toArray.getD place 0) base
      (unlinked ((startsFrom 2 codes).toArray.getD startRule 0 : Nat)
        (1 + (ruleBlocks codes).length : Nat) codes) := by
  intro k instr hk
  have hlinked := h k (instr.linkedAt ((startsFrom 2 codes).toArray.getD · 0) k) (by
    rw [plainLink_eq, List.getElem?_mapIdx, hk]
    rfl)
  rw [hlinked]
  -- What is linked once is not linked again.
  cases instr with
  | openCall rule =>
    have hoff : (((base + (startsFrom 2 codes).toArray.getD rule 0 : Nat) : Int) - (base + k : Nat)) =
        ((startsFrom 2 codes).toArray.getD rule 0 : Nat) - (k : Nat) := by omega
    cases starts <;> simp only [Option.elim, Instr.linkedAt, hoff]
  | _ => cases starts <;> rfl

theorem Program.Holds.rule {place : Nat} {body : Block}
    (h : program.Holds starts base (plainLink startRule codes)) (hbody : codes[place]? = some body) :
    program.Holds (some fun place => base + (startsFrom 2 codes).toArray.getD place 0)
      (base + (startsFrom 2 codes).toArray.getD place 0) (body ++ [.ret]) :=
  h.unlinked.of_standsAt (standsAt_unlinked hbody)

theorem Block.yields_plainLink {m : Setting} {pos k : Nat} {r : Parse} {body : Block} {stack : Stack}
    {captures : Array Entry} (h : m.program.Holds starts base (plainLink startRule codes))
    (hbody : codes[startRule]? = some body)
    (hgives : Gives m (some fun place => base + (startsFrom 2 codes).toArray.getD place 0) body pos
      k r) :
    m.Yields ⟨base, pos, stack, captures⟩ (base + (plainLink startRule codes).length) stack captures
      (k + 1) r := by
  have hcall := h.unlinked.head (by simp)
  have hjump := h.unlinked.tail.head (by simp)
  have hlength : base + (plainLink startRule codes).length =
      base + 1 + (1 + (ruleBlocks codes).length) := by
    rw [plainLink_eq, List.length_mapIdx, PegMachine.unlinked, List.length_cons, List.length_cons]
    omega
  have hyields : m.Yields ⟨base, pos, stack, captures⟩ (base + 1) stack captures (k + 1) r :=
    hgives.called (h.rule hbody) hcall (Int.natCast_add base _).symm rfl
  refine hyields.imp fun hcomes => ?_
  cases r with
  | none => exact hcomes
  | some found =>
    obtain ⟨entries, captures', hgoes, hcaptured⟩ := hcomes
    exact ⟨entries, captures', hgoes.trans (Setting.goesTo_jump hjump (by omega)), hcaptured⟩

end

/-! ## Patterns -/

/-- The rules of a grammar stand in a program, where its calls lead. -/
def Program.HoldsRules (program : Program) (rules : Rules) (table : Option RuleTable)
    (starts : Option (Nat → Nat)) : Prop :=
  ∀ around key place body, table = some around → around.index? key = some place →
    rules.lookup key = some body →
    ∃ starts' code, starts = some starts' ∧ PlainCode program table body code ∧
      program.Holds starts (starts' place) (code ++ [.ret])

/-- The rules of a grammar whose code stands in a program stand there, too. -/
theorem Program.Holds.holdsRules {program : Program} {starts : Option (Nat → Nat)} {base : Nat}
    {start : RuleKey} {rules : Rules} {table : RuleTable} {codes : List Block}
    (h : program.Holds starts base (plainLink table.startIndex codes))
    (haccepts : RuleTable.Accepts start rules table) (hlength : codes.length = rules.length)
    (hcodes : ∀ (place : Nat) (rule : RuleKey × Pattern) (code : Block),
      rules[place]? = some rule → codes[place]? = some code →
      PlainCode program (some table) rule.2 code) :
    program.HoldsRules rules (some table)
      (some fun place => base + (startsFrom 2 codes).toArray.getD place 0) := by
  rintro around key place body hsome hplace hbody
  cases hsome
  obtain ⟨body', hrule, hlookup⟩ := haccepts.index_lookup hplace
  rw [hbody] at hlookup
  cases hlookup
  have hlt : place < codes.length := hlength ▸ (List.getElem?_eq_some_iff.1 hrule).1
  have hcode := List.getElem?_eq_getElem hlt
  exact ⟨_, _, rfl, hcodes place _ _ hrule hcode, h.rule hcode⟩

/-- The plain code of a pattern gives what the match of the pattern comes to. -/
def Pattern.Gives (m : Setting) (rules : Rules) (p : Pattern) (pos n : Nat) (r : Parse) : Prop :=
  ∀ ⦃table : Option RuleTable⦄ ⦃starts : Option (Nat → Nat)⦄ ⦃code : Block⦄,
    PlainCode m.program table p code → m.program.HoldsRules rules table starts →
    Block.Gives m starts code pos n r

/-- The rounds of a repetition give what is left of the match, once a choice is pending. -/
def Pattern.Continues (m : Setting) (rules : Rules) (p : Pattern) (pos n : Nat) (r : Parse) : Prop :=
  ∀ (a : Pattern) (count : Int), p = .rep a count → count ≤ 0 →
    ∀ ⦃table : Option RuleTable⦄ ⦃starts : Option (Nat → Nat)⦄ ⦃body : Block⦄,
      PlainCode m.program table a body → m.program.HoldsRules rules table starts →
      Block.Continues m starts body count pos n r

namespace Pattern

variable {m : Setting} {rules : Rules} {a b : Pattern} {pos mid stop k n : Nat} {count : Int}
  {forest : List Tree} {found : Nat × List Tree} {r : Parse}

/-! ### Patterns without parts -/

theorem gives_any (hpos : pos ≤ m.subject.size) (hr : (m.afterAny count pos).map (·, []) = r) :
    (any count).Gives m rules pos (skipCost count) r := by
  intro table starts code hcode _
  cases hcode
  rw [← hr]
  exact .plainAny count hpos

theorem gives_literal {bytes : Bytes} (hr : (if bytes.toList <+: m.subject.toList.drop pos then
      some (pos + bytes.size, []) else none) = r) : (literal bytes).Gives m rules pos 0 r := by
  intro table starts code hcode _
  cases hcode
  have hgives : Block.Gives m starts (ofBytes bytes.toList) pos 0 _ := .checks (all_isCheck_ofBytes _)
  rw [afterChecks_ofBytes] at hgives
  rw [← hr]
  split <;> simpa [*] using hgives

theorem gives_set {bytes : ByteSet}
    (hr : (if m.hasByte bytes pos then some (pos + 1, []) else none) = r) :
    (set bytes).Gives m rules pos 0 r := by
  intro table starts code hcode _
  cases hcode
  rw [← hr]
  exact .ofSet bytes pos

theorem gives_fail : fail.Gives m rules pos 0 none := by
  intro table starts code hcode _
  cases hcode
  exact .backtrack none (by simp) fun _ _ => rfl

theorem gives_succeed : succeed.Gives m rules pos 0 (some (pos, [])) := by
  intro table starts code hcode _
  cases hcode
  exact .nil m starts pos

theorem gives_position :
    position.Gives m rules pos 0 (some (pos, [.node .position .nothing pos pos []])) := by
  intro table starts code hcode _
  cases hcode
  exact .record (by simp) (fun s hs => by rw [← hs]; rfl) (.single pos rfl fun _ => rfl)

theorem gives_argument (i : Nat) :
    (argument i).Gives m rules pos 0
      (some (pos, [.node .argument (.argument i) pos pos []])) := by
  intro table starts code hcode _
  cases hcode
  exact .record (by simp) (fun s hs => by rw [← hs]; rfl) (.single pos rfl (by simp))

theorem gives_backref (name : String) :
    (backref name).Gives m rules pos 0
      (some (pos, [.node .backref (.constant (.name name)) pos pos []])) := by
  intro table starts code hcode _
  cases hcode with
  | backref hindex =>
    refine .record (by simp) (fun s hs => by rw [← hs]; rfl) (.single pos ?_ (by simp))
    exact (Program.payload_eq_constant (by simp)).2 hindex

theorem gives_const (values : List Value) :
    (const values).Gives m rules pos 0
      (some (pos, values.map fun v => .node .const (.constant (.value v)) pos pos [])) := by
  intro table starts code hcode _
  induction values generalizing code with
  | nil =>
    cases hcode
    exact .nil m starts pos
  | cons value rest ih =>
    cases hcode with
    | @constCons _ _ _ code index hindex hrest =>
      have hpayload : m.program.payload .const index = .constant (.value value) :=
        (Program.payload_eq_constant (by simp)).2 hindex
      have hfirst : Block.Gives m starts [.emptyCaptureConst .const index] pos 0
          (some (pos, [.node .const (.constant (.value value)) pos pos []])) :=
        .record (by simp) (fun s hs => by rw [← hs]; rfl) (.single pos hpayload (by simp))
      exact hfirst.append (ih hrest)

theorem gives_matcher {f : Matcher}
    (hr : (match f m.subject pos with
      | some stop => if pos ≤ stop ∧ stop ≤ m.subject.size then some (stop, []) else none
      | none => none) = r) : (matcher f).Gives m rules pos 0 r := by
  intro table starts code hcode _
  cases hcode with
  | @matcher _ _ index hindex =>
    have hexecute : ∀ s : State, m.execute s (.matcher index) = m.runMatcher s f := by
      intro s
      simp only [Setting.execute, hindex]
    subst hr
    cases hfound : f m.subject pos with
    | none =>
      refine .backtrack none (by simp) fun s hs => ?_
      rw [hexecute, Setting.runMatcher, hs, hfound]
    | some stop =>
      dsimp only
      split
      · next hstop =>
        refine .advance (by simp) fun s hs => ?_
        rw [hexecute, Setting.runMatcher, hs, hfound]
        exact if_pos hstop
      · next hstop =>
        refine .backtrack (some (.matcherStrayed stop pos m.subject.size)) (by simp) fun s hs => ?_
        rw [hexecute, Setting.runMatcher, hs, hfound]
        exact if_neg hstop

/-! ### Patterns with parts -/

namespace Gives

theorem seq (ha : a.Gives m rules pos k (some (mid, forest))) (hb : b.Gives m rules mid n r) :
    (Pattern.seq a b).Gives m rules pos (max k n) (r.after forest) := by
  intro table starts code hcode hrules
  cases hcode with
  | seq hcodeA hcodeB => exact (ha hcodeA hrules).append (hb hcodeB hrules)

theorem seq_fail (ha : a.Gives m rules pos k none) :
    (Pattern.seq a b).Gives m rules pos k none := by
  intro table starts code hcode hrules
  cases hcode with
  | seq hcodeA => exact (ha hcodeA hrules).append_fail

theorem choice_first (ha : a.Gives m rules pos k (some found)) :
    (Pattern.choice a b).Gives m rules pos (k + 1) (some found) := by
  intro table starts code hcode hrules
  cases hcode with
  | choice hcodeA => exact (ha hcodeA hrules).plainChoice_first _

theorem choice_second (ha : a.Gives m rules pos k none) (hb : b.Gives m rules pos n r) :
    (Pattern.choice a b).Gives m rules pos (max (k + 1) n) r := by
  intro table starts code hcode hrules
  cases hcode with
  | choice hcodeA hcodeB => exact (ha hcodeA hrules).plainChoice_second (hb hcodeB hrules)

theorem diff (hb : b.Gives m rules pos k none) (ha : a.Gives m rules pos n r) :
    (Pattern.diff a b).Gives m rules pos (max (k + 1) n) r := by
  intro table starts code hcode hrules
  cases hcode with
  | diff hcodeA hcodeB => exact (hb hcodeB hrules).plainDifference (ha hcodeA hrules)

theorem diff_fail (hb : b.Gives m rules pos k (some found)) :
    (Pattern.diff a b).Gives m rules pos (k + 1) none := by
  intro table starts code hcode hrules
  cases hcode with
  | diff _ hcodeB => exact (hb hcodeB hrules).plainDifference_fail _

theorem not (ha : a.Gives m rules pos k none) :
    (Pattern.not a).Gives m rules pos (k + 1) (some (pos, [])) := by
  intro table starts code hcode hrules
  cases hcode with
  | not hcodeA =>
    have hgives := (ha hcodeA hrules).plainDifference (.nil m starts pos)
    rwa [Nat.max_eq_left (Nat.zero_le _)] at hgives

theorem not_fail (ha : a.Gives m rules pos k (some found)) :
    (Pattern.not a).Gives m rules pos (k + 1) none := by
  intro table starts code hcode hrules
  cases hcode with
  | not hcodeA => exact (ha hcodeA hrules).plainDifference_fail []

theorem and (ha : a.Gives m rules pos k (some found)) :
    (Pattern.and a).Gives m rules pos (k + 1) (some (pos, [])) := by
  intro table starts code hcode hrules
  cases hcode with
  | and hcodeA => exact (ha hcodeA hrules).plainLookahead

theorem and_fail (ha : a.Gives m rules pos k none) :
    (Pattern.and a).Gives m rules pos (k + 1) none := by
  intro table starts code hcode hrules
  cases hcode with
  | and hcodeA => exact (ha hcodeA hrules).plainLookahead_fail

theorem capture {wrapping : Wrapping} (ha : a.Gives m rules pos k (some (stop, forest)))
    (hw : wrapping.kind ≠ .matchTime) (hle : pos ≤ stop) :
    (Pattern.capture wrapping a).Gives m rules pos k
      (some (stop, [.node wrapping.kind wrapping.payload pos stop forest])) := by
  intro table starts code hcode hrules
  cases hcode with
  | capture hcodeA hindex hnone =>
    refine (ha hcodeA hrules).plainEnclose hw hle (payload_of_constant? hindex) fun hnothing =>
      hnone ?_
    rw [Wrapping.payload] at hnothing
    split at hnothing
    · cases hnothing
    · next hconstant => exact hconstant

theorem capture_fail {wrapping : Wrapping} (ha : a.Gives m rules pos k none) :
    (Pattern.capture wrapping a).Gives m rules pos k none := by
  intro table starts code hcode hrules
  cases hcode with
  | capture hcodeA => exact (ha hcodeA hrules).plainEnclose_fail _ _

theorem rule {key : RuleKey} (ha : a.Gives m rules pos k r) (hkey : rules.lookup key = some a) :
    (Pattern.rule key).Gives m rules pos (k + 1) r := by
  intro table starts code hcode hrules
  cases hcode with
  | rule hplace =>
    obtain ⟨starts, code, rfl, hcode, hheld⟩ := hrules _ _ _ _ rfl hplace hkey
    intro base stack captures hcall
    exact (ha hcode hrules).called hheld (hcall 0 _ rfl) (by omega) rfl

theorem grammar {inner : Rules} {start : RuleKey} (ha : a.Gives m inner pos k r)
    (hkey : inner.lookup start = some a) :
    (Pattern.grammar start inner).Gives m rules pos (k + 1) r := by
  intro table starts code hcode _
  cases hcode with
  | grammar htable hlength hcodes =>
    have haccepts := RuleTable.accepts_of_ofRules htable
    obtain ⟨body, hrule, hlookup⟩ := haccepts.index_lookup haccepts.index_start
    rw [hkey] at hlookup
    cases hlookup
    have hcode := List.getElem?_eq_getElem (hlength ▸ (List.getElem?_eq_some_iff.1 hrule).1)
    intro base stack captures hheld
    exact yields_plainLink hheld hcode
      (ha (hcodes _ _ _ hrule hcode) (hheld.holdsRules haccepts hlength hcodes))

/-! ### Repetitions -/

theorem rep_fail (ha : a.Gives m rules pos k none) (hcount : 0 < count) :
    (Pattern.rep a count).Gives m rules pos k none := by
  intro table starts code hcode hrules
  cases hcode with
  | rep _ hcodeA =>
    rw [plainRepetition_pos _ hcount]
    exact (ha hcodeA hrules).append_fail

theorem rep_more (ha : a.Gives m rules pos k (some (mid, forest)))
    (hrest : (Pattern.rep a (count - 1)).Gives m rules mid n r) (hcount : 0 < count) :
    (Pattern.rep a count).Gives m rules pos (max k n) (r.after forest) := by
  intro table starts code hcode hrules
  cases hcode with
  | rep _ hcodeA =>
    rw [plainRepetition_pos _ hcount]
    exact (ha hcodeA hrules).append (hrest (.rep _ hcodeA) hrules)

theorem continues_stop (ha : a.Gives m rules pos k none) :
    (Pattern.rep a count).Continues m rules pos (k + 1) (some (pos, [])) := by
  rintro _ _ he hcount table starts body hcode hrules
  cases he
  exact (ha hcode hrules).continues_stop hcount

theorem continues_last (ha : a.Gives m rules pos k (some found)) :
    (Pattern.rep a (-1)).Continues m rules pos (k + 1) (some found) := by
  rintro _ _ he hcount table starts body hcode hrules
  cases he
  exact (ha hcode hrules).continues_last

theorem continues_more (ha : a.Gives m rules pos k (some (mid, forest)))
    (hrest : (Pattern.rep a (Pattern.remaining count)).Continues m rules mid n r)
    (hlast : count ≠ -1) :
    (Pattern.rep a count).Continues m rules pos (max (k + 1) n) (r.after forest) := by
  rintro _ _ he hcount table starts body hcode hrules
  cases he
  have hremaining : Pattern.remaining count ≤ 0 := by
    rw [Pattern.remaining, if_neg (by omega)]
    split <;> omega
  exact (ha hcode hrules).continues_more (hrest _ _ rfl hremaining hcode hrules) hcount hlast

end Gives

theorem Continues.gives (h : (rep a count).Continues m rules pos n r) (hcount : count ≤ 0) :
    (rep a count).Gives m rules pos n r := by
  intro table starts code hcode hrules
  cases hcode with
  | rep _ ha => exact (h _ _ rfl hcount ha hrules).gives hcount

/-! ## Whole patterns -/

/-- Both the plain code of a pattern and, if it is a repetition, the rounds of it give what the match
comes to. -/
structure Given (m : Setting) (rules : Rules) (p : Pattern) (pos n : Nat) (r : Parse) : Prop where
  gives : p.Gives m rules pos n r
  continues : p.Continues m rules pos n r

theorem Gives.given {p : Pattern} (h : p.Gives m rules pos n r) (hp : ∀ a count, p ≠ .rep a count) :
    p.Given m rules pos n r :=
  ⟨h, fun a count he => absurd he (hp a count)⟩

/-- No choice is pending while rounds are made that are asked for. -/
theorem Gives.given_pos (h : (rep a count).Gives m rules pos n r) (hcount : 0 < count) :
    (rep a count).Given m rules pos n r := by
  refine ⟨h, ?_⟩
  rintro _ _ he hle
  cases he
  omega

theorem Continues.given (h : (rep a count).Continues m rules pos n r) (hcount : count ≤ 0) :
    (rep a count).Given m rules pos n r :=
  ⟨h.gives hcount, h⟩

end Pattern

/-- **The plain code of a pattern gives what the match of the pattern comes to**, within exactly the
frames that it costs. -/
theorem Costs.given {m : Setting} {rules : Rules} {p : Pattern} {pos k : Nat} {r : Parse}
    (h : Costs m.subject rules p pos r k) (hpos : pos ≤ m.subject.size) :
    p.Given m rules pos k r := by
  induction h with
  | any hn hle =>
    exact (Pattern.gives_any hpos (by simp [Setting.afterAny, hn, hle])).given (by simp)
  | anyFail hn hlt =>
    exact (Pattern.gives_any hpos (by simp [Setting.afterAny, hn, Nat.not_le.2 hlt])).given (by simp)
  | fewer hn hlt =>
    exact (Pattern.gives_any hpos
      (by simp [Setting.afterAny, Int.not_le.2 hn, Nat.not_le.2 hlt])).given (by simp)
  | fewerFail hn hle =>
    exact (Pattern.gives_any hpos (by simp [Setting.afterAny, Int.not_le.2 hn, hle])).given (by simp)
  | literal h | literalFail h => exact (Pattern.gives_literal (by simp [h])).given (by simp)
  | set hb h =>
    exact (Pattern.gives_set (by simp [hasByte_iff.2 ⟨_, hb, h⟩])).given (by simp)
  | setFail h =>
    refine (Pattern.gives_set (if_neg fun hbyte => ?_)).given (by simp)
    obtain ⟨b, hb, hmem⟩ := hasByte_iff.1 hbyte
    simp [h b hb] at hmem
  | fail => exact Pattern.gives_fail.given (by simp)
  | succeed => exact Pattern.gives_succeed.given (by simp)
  | seq ha hb iha ihb =>
    have hmid := (ha.derives.span rfl hpos).2
    exact ((iha hpos).gives.seq (ihb hmid).gives).given (by simp)
  | seqFail ha iha => exact (iha hpos).gives.seq_fail.given (by simp)
  | choiceFirst ha iha => exact (iha hpos).gives.choice_first.given (by simp)
  | choiceSecond ha hb iha ihb =>
    exact ((iha hpos).gives.choice_second (ihb hpos).gives).given (by simp)
  | not ha iha => exact (iha hpos).gives.not.given (by simp)
  | notFail ha iha => exact (iha hpos).gives.not_fail.given (by simp)
  | and ha iha => exact (iha hpos).gives.and.given (by simp)
  | andFail ha iha => exact (iha hpos).gives.and_fail.given (by simp)
  | diff hb ha ihb iha => exact ((ihb hpos).gives.diff (iha hpos).gives).given (by simp)
  | diffFail hb ihb => exact (ihb hpos).gives.diff_fail.given (by simp)
  | repStop hn ha iha => exact (iha hpos).gives.continues_stop.given hn
  | repFail hn ha iha => exact ((iha hpos).gives.rep_fail hn).given_pos hn
  | repLast ha iha => exact (iha hpos).gives.continues_last.given (by omega)
  | @repMore rules a n pos mid k l forest r hn ha hrest iha ihrest =>
    have hmid := (ha.derives.span rfl hpos).2
    by_cases hcount : 0 < n
    · rw [Pattern.remaining, if_pos hcount] at ihrest
      rw [Pattern.roundCost, if_pos hcount]
      exact ((iha hpos).gives.rep_more (ihrest hmid).gives hcount).given_pos hcount
    · rw [Pattern.roundCost, if_neg hcount]
      exact ((iha hpos).gives.continues_more (ihrest hmid).continues hn).given (by omega)
  | capture hw ha iha =>
    exact ((iha hpos).gives.capture hw (ha.derives.span rfl hpos).1).given (by simp)
  | captureFail hw ha iha => exact (iha hpos).gives.capture_fail.given (by simp)
  | position => exact Pattern.gives_position.given (by simp)
  | const => exact (Pattern.gives_const _).given (by simp)
  | argument => exact (Pattern.gives_argument _).given (by simp)
  | backref => exact (Pattern.gives_backref _).given (by simp)
  | matcher hf hge hle => exact (Pattern.gives_matcher (by simp [hf, hge, hle])).given (by simp)
  | matcherFail hf =>
    refine (Pattern.gives_matcher ?_).given (by simp)
    split
    · next stop hstop => exact if_neg (hf stop hstop)
    · rfl
  | rule hkey hbody ih => exact ((ih hpos).gives.rule hkey).given (by simp)
  | grammar hkey hbody ih => exact ((ih hpos).gives.grammar hkey).given (by simp)

end PegMachine
