import PegMachine.Proofs.Captures.Brackets
import PegMachine.Proofs.Semantics.Costs
import PegMachine.Proofs.Semantics.Patterns

/-!
# Answers in line with a pattern

* `Answer.InLine`: an answer is what a pattern asks for, at the cost of the match. About the match
  itself this says something only where match-time captures are left out, whose functions see the
  captures recorded.
* `Served`: the calls that a pattern may make are answered in line with the rules. Calls of a rule
  before anything is consumed count as such only if they are among the first calls.
* `Answer.InLine.after`: a match behind another one.
-/

namespace PegMachine

/-- An answer is in line with a pattern, the match of which costs `k` frames. Where `free` holds there
are no match-time captures. -/
def Answer.InLine (m : Setting) (free : Prop) (rules : Rules) (known : List RuleKey) (p : Pattern)
    (pos : Nat) (captures : Array Entry) (k : Nat) : Answer → Prop
  | .matched stop captures' =>
    pos ≤ stop ∧ stop ≤ m.subject.size ∧ (stop = pos → nullable known p = true) ∧
      ∃ entries, Records captures entries captures' ∧ Balanced entries ∧
        (free → ∃ forest, Costs m.subject rules p pos (some (stop, forest)) k ∧
          Serialises m.program entries forest)
  | .failed => free → Costs m.subject rules p pos none k
  | .crashed _ => ¬ free

/-- A call is answered in line with the rules. The call itself costs a frame. -/
def Answered (m : Setting) (free : Prop) (answers : Answers) (rules : Rules)
    (scope : Option Scope) (key : RuleKey) (pos : Nat) (captures : Array Entry) : Prop :=
  ∀ around place, scope = some around → around.table.index? key = some place →
    ∃ r k, answers place pos captures = some (r, k) ∧
      r.InLine m free rules around.table.nullable (.rule key) pos captures (k + 1)

/-- The given calls are answered at a position, and all calls behind it. -/
structure Served (m : Setting) (free : Prop) (answers : Answers) (rules : Rules)
    (scope : Option Scope) (calls : List RuleKey) (pos : Nat) : Prop where
  first : ∀ key ∈ calls, ∀ captures, Answered m free answers rules scope key pos captures
  later : ∀ key pos' captures, pos < pos' → pos' ≤ m.subject.size →
    Answered m free answers rules scope key pos' captures

section

variable {m : Setting} {free : Prop} {answers : Answers} {rules rules' : Rules}
  {scope : Option Scope} {known known' calls calls' : List RuleKey} {p q a : Pattern}
  {pos stop mid k l n : Nat} {captures captures' : Array Entry} {r : Answer}

/-- Further on, where only the calls that were among the first ones are made before anything more is
consumed. -/
theorem Served.mono (h : Served m free answers rules scope calls pos) (hle : pos ≤ mid)
    (hsize : mid ≤ m.subject.size) (hcalls : mid = pos → ∀ key ∈ calls', key ∈ calls) :
    Served m free answers rules scope calls' mid where
  first key hkey captures := by
    by_cases hmid : mid = pos
    · have hmem := hcalls hmid key hkey
      subst hmid
      exact h.first key hmem captures
    · exact h.later key mid captures (by omega) hsize
  later key pos' captures hlt hle' := h.later key pos' captures (by omega) hle'

/-! ## Answers -/

theorem Answer.inLine_plain (captures : Array Entry) (hle : pos ≤ stop)
    (hsize : stop ≤ m.subject.size) (hnull : stop = pos → nullable known p = true)
    (h : Costs m.subject rules p pos (some (stop, [])) k) :
    (Answer.matched stop captures).InLine m free rules known p pos captures k :=
  ⟨hle, hsize, hnull, [], records_nil captures, .nil, fun _ => ⟨[], h, serialises_nil⟩⟩

theorem Answer.inLine_entry {entry : Entry} {tree : Tree} (captures : Array Entry)
    (hsize : pos ≤ m.subject.size) (hnull : nullable known p = true) (hbalanced : Balanced [entry])
    (hmark : [entry.mark m.program] = tree.marks)
    (h : Costs m.subject rules p pos (some (pos, [tree])) k) :
    (Answer.matched pos (captures.push entry)).InLine m free rules known p pos captures k := by
  refine ⟨Nat.le_refl _, hsize, fun _ => hnull, [entry], records_push _ _, hbalanced, fun _ => ?_⟩
  refine ⟨[tree], h, ?_⟩
  rw [Serialises, forestMarks, forestMarks, List.append_nil, ← hmark]
  rfl

theorem Answer.InLine.imp (h : r.InLine m free rules known p pos captures k)
    (hnull : nullable known p = true → nullable known' q = true)
    (hder : free → ∀ found, Costs m.subject rules p pos found k →
      Costs m.subject rules' q pos found n) :
    r.InLine m free rules' known' q pos captures n := by
  cases r with
  | matched stop captures' =>
    obtain ⟨hle, hsize, hsame, entries, hrecords, hbalanced, hfree⟩ := h
    refine ⟨hle, hsize, fun he => hnull (hsame he), entries, hrecords, hbalanced, fun hf => ?_⟩
    obtain ⟨forest, hforest, hserial⟩ := hfree hf
    exact ⟨forest, hder hf _ hforest, hserial⟩
  | failed => exact fun hf => hder hf _ (h hf)
  | crashed fault => exact h

theorem Answer.InLine.imp_matched
    (h : (Answer.matched stop captures').InLine m free rules known p pos captures k)
    (hnull : nullable known p = true → nullable known q = true)
    (hder : ∀ found, Costs m.subject rules p pos (some found) k →
      Costs m.subject rules q pos (some found) n) :
    (Answer.matched stop captures').InLine m free rules known q pos captures n := by
  obtain ⟨hle, hsize, hsame, entries, hrecords, hbalanced, hfree⟩ := h
  refine ⟨hle, hsize, fun he => hnull (hsame he), entries, hrecords, hbalanced, fun hf => ?_⟩
  obtain ⟨forest, hforest, hserial⟩ := hfree hf
  exact ⟨forest, hder _ hforest, hserial⟩

/-- What a match says about the pattern where there are no match-time captures. -/
theorem Answer.InLine.costs
    (h : (Answer.matched stop captures').InLine m free rules known p pos captures k) (hf : free) :
    ∃ found, Costs m.subject rules p pos (some found) k := by
  obtain ⟨-, -, -, entries, -, -, hfree⟩ := h
  obtain ⟨forest, hforest, -⟩ := hfree hf
  exact ⟨_, hforest⟩

/-- **A match behind another one.** -/
theorem Answer.InLine.after
    (ha : (Answer.matched mid captures').InLine m free rules known a pos captures k)
    (hr : r.InLine m free rules known q mid captures' l)
    (hnull : nullable known a = true → nullable known q = true → nullable known p = true)
    (hder : ∀ forest found, Costs m.subject rules a pos (some (mid, forest)) k →
      Costs m.subject rules q mid found l → Costs m.subject rules p pos (found.after forest) n) :
    r.InLine m free rules known p pos captures n := by
  obtain ⟨hle, -, hsame, entries, hrecords, hbalanced, hfree⟩ := ha
  cases r with
  | matched stop captures'' =>
    obtain ⟨hle', hsize', hsame', more, hmore, hbalanced', hfree'⟩ := hr
    refine ⟨by omega, hsize', fun he => ?_, entries ++ more, hrecords.trans hmore,
      hbalanced.append hbalanced', fun hf => ?_⟩
    · exact hnull (hsame (by omega)) (hsame' (by omega))
    · obtain ⟨forest, hforest, hserial⟩ := hfree hf
      obtain ⟨others, hothers, hserial'⟩ := hfree' hf
      exact ⟨forest ++ others, hder _ _ hforest hothers, hserial.append hserial'⟩
  | failed =>
    intro hf
    obtain ⟨forest, hforest, -⟩ := hfree hf
    exact hder _ _ hforest (hr hf)
  | crashed fault => exact hr

end

end PegMachine
