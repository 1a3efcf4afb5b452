import PegMachine.Proofs.Semantics.Forest

/-!
# Parsing expressions

What a pattern means, apart from how it is compiled.

* `Parse`: how the match of a pattern comes out.
* `Derives`: the rules by which it comes out so. A rule reference stands for the rule of the
  innermost grammar around it.
* **`Derives.unique`**: a pattern comes out in one way at most.
* `Derives.span`: a match ends between its start and the end of the subject.
-/

namespace PegMachine

/-- How the match of a pattern comes out: where it ends and what it captured, or a failure. -/
abbrev Parse := Option (Nat × List Tree)

/-- The rules of the innermost grammar around a pattern. -/
abbrev Rules := List (RuleKey × Pattern)

/-- A match behind one that captured a forest. -/
def Parse.after (forest : List Tree) (r : Parse) : Parse :=
  r.map fun found => (found.1, forest ++ found.2)

/-- What an enclosing capture refers to. -/
def Wrapping.payload (wrapping : Wrapping) : Payload :=
  match wrapping.constant? with
  | some constant => .constant constant
  | none => .nothing

/-- The number of repetitions that is asked for after one of them. -/
def Pattern.remaining (n : Int) : Int :=
  if 0 < n then n - 1 else if n = 0 then 0 else n + 1

/-- How the match of a pattern comes out at a position. -/
inductive Derives (subject : Bytes) : Rules → Pattern → Nat → Parse → Prop where
  /-- A number of bytes that is there. -/
  | any {rules : Rules} {n : Int} {pos : Nat} (hn : 0 ≤ n) (h : pos + n.natAbs ≤ subject.size) :
      Derives subject rules (.any n) pos (some (pos + n.natAbs, []))
  | anyFail {rules : Rules} {n : Int} {pos : Nat} (hn : 0 ≤ n)
      (h : subject.size < pos + n.natAbs) : Derives subject rules (.any n) pos none
  /-- Fewer bytes than a number up to the end. -/
  | fewer {rules : Rules} {n : Int} {pos : Nat} (hn : n < 0)
      (h : subject.size < pos + n.natAbs) : Derives subject rules (.any n) pos (some (pos, []))
  | fewerFail {rules : Rules} {n : Int} {pos : Nat} (hn : n < 0)
      (h : pos + n.natAbs ≤ subject.size) : Derives subject rules (.any n) pos none
  | literal {rules : Rules} {bytes : Bytes} {pos : Nat}
      (h : bytes.toList <+: subject.toList.drop pos) :
      Derives subject rules (.literal bytes) pos (some (pos + bytes.size, []))
  | literalFail {rules : Rules} {bytes : Bytes} {pos : Nat}
      (h : ¬ bytes.toList <+: subject.toList.drop pos) :
      Derives subject rules (.literal bytes) pos none
  | set {rules : Rules} {bytes : ByteSet} {pos : Nat} {b : UInt8} (hb : subject[pos]? = some b)
      (h : bytes.contains b = true) : Derives subject rules (.set bytes) pos (some (pos + 1, []))
  | setFail {rules : Rules} {bytes : ByteSet} {pos : Nat}
      (h : ∀ b, subject[pos]? = some b → bytes.contains b = false) :
      Derives subject rules (.set bytes) pos none
  | fail {rules : Rules} {pos : Nat} : Derives subject rules .fail pos none
  | succeed {rules : Rules} {pos : Nat} : Derives subject rules .succeed pos (some (pos, []))
  | seq {rules : Rules} {a b : Pattern} {pos mid : Nat} {forest : List Tree} {r : Parse}
      (ha : Derives subject rules a pos (some (mid, forest))) (hb : Derives subject rules b mid r) :
      Derives subject rules (.seq a b) pos (r.after forest)
  | seqFail {rules : Rules} {a b : Pattern} {pos : Nat} (ha : Derives subject rules a pos none) :
      Derives subject rules (.seq a b) pos none
  /-- The second alternative is out once the first one has matched. -/
  | choiceFirst {rules : Rules} {a b : Pattern} {pos : Nat} {found : Nat × List Tree}
      (ha : Derives subject rules a pos (some found)) :
      Derives subject rules (.choice a b) pos (some found)
  | choiceSecond {rules : Rules} {a b : Pattern} {pos : Nat} {r : Parse}
      (ha : Derives subject rules a pos none) (hb : Derives subject rules b pos r) :
      Derives subject rules (.choice a b) pos r
  | not {rules : Rules} {a : Pattern} {pos : Nat} (ha : Derives subject rules a pos none) :
      Derives subject rules (.not a) pos (some (pos, []))
  | notFail {rules : Rules} {a : Pattern} {pos : Nat} {found : Nat × List Tree}
      (ha : Derives subject rules a pos (some found)) : Derives subject rules (.not a) pos none
  | and {rules : Rules} {a : Pattern} {pos : Nat} {found : Nat × List Tree}
      (ha : Derives subject rules a pos (some found)) :
      Derives subject rules (.and a) pos (some (pos, []))
  | andFail {rules : Rules} {a : Pattern} {pos : Nat} (ha : Derives subject rules a pos none) :
      Derives subject rules (.and a) pos none
  | diff {rules : Rules} {a b : Pattern} {pos : Nat} {r : Parse}
      (hb : Derives subject rules b pos none) (ha : Derives subject rules a pos r) :
      Derives subject rules (.diff a b) pos r
  | diffFail {rules : Rules} {a b : Pattern} {pos : Nat} {found : Nat × List Tree}
      (hb : Derives subject rules b pos (some found)) : Derives subject rules (.diff a b) pos none
  /-- A repetition ends when the body fails and none is missing. -/
  | repStop {rules : Rules} {a : Pattern} {n : Int} {pos : Nat} (hn : n ≤ 0)
      (ha : Derives subject rules a pos none) :
      Derives subject rules (.rep a n) pos (some (pos, []))
  | repFail {rules : Rules} {a : Pattern} {n : Int} {pos : Nat} (hn : 0 < n)
      (ha : Derives subject rules a pos none) : Derives subject rules (.rep a n) pos none
  /-- The last of a bounded number of repetitions. -/
  | repLast {rules : Rules} {a : Pattern} {pos : Nat} {found : Nat × List Tree}
      (ha : Derives subject rules a pos (some found)) :
      Derives subject rules (.rep a (-1)) pos (some found)
  | repMore {rules : Rules} {a : Pattern} {n : Int} {pos mid : Nat} {forest : List Tree}
      {r : Parse} (hn : n ≠ -1) (ha : Derives subject rules a pos (some (mid, forest)))
      (hrest : Derives subject rules (.rep a (Pattern.remaining n)) mid r) :
      Derives subject rules (.rep a n) pos (r.after forest)
  | capture {rules : Rules} {wrapping : Wrapping} {a : Pattern} {pos stop : Nat}
      {forest : List Tree} (hw : wrapping.kind ≠ .matchTime)
      (ha : Derives subject rules a pos (some (stop, forest))) :
      Derives subject rules (.capture wrapping a) pos
        (some (stop, [.node wrapping.kind wrapping.payload pos stop forest]))
  | captureFail {rules : Rules} {wrapping : Wrapping} {a : Pattern} {pos : Nat}
      (hw : wrapping.kind ≠ .matchTime) (ha : Derives subject rules a pos none) :
      Derives subject rules (.capture wrapping a) pos none
  | position {rules : Rules} {pos : Nat} :
      Derives subject rules .position pos (some (pos, [.node .position .nothing pos pos []]))
  | const {rules : Rules} {values : List Value} {pos : Nat} :
      Derives subject rules (.const values) pos
        (some (pos, values.map fun v => .node .const (.constant (.value v)) pos pos []))
  | argument {rules : Rules} {n pos : Nat} :
      Derives subject rules (.argument n) pos
        (some (pos, [.node .argument (.argument n) pos pos []]))
  | backref {rules : Rules} {name : String} {pos : Nat} :
      Derives subject rules (.backref name) pos
        (some (pos, [.node .backref (.constant (.name name)) pos pos []]))
  /-- A matcher may go on from anywhere between the position and the end. -/
  | matcher {rules : Rules} {f : Matcher} {pos stop : Nat} (hf : f subject pos = some stop)
      (hge : pos ≤ stop) (hle : stop ≤ subject.size) :
      Derives subject rules (.matcher f) pos (some (stop, []))
  | matcherFail {rules : Rules} {f : Matcher} {pos : Nat}
      (hf : ∀ stop, f subject pos = some stop → ¬ (pos ≤ stop ∧ stop ≤ subject.size)) :
      Derives subject rules (.matcher f) pos none
  | rule {rules : Rules} {key : RuleKey} {body : Pattern} {pos : Nat} {r : Parse}
      (hkey : rules.lookup key = some body) (hbody : Derives subject rules body pos r) :
      Derives subject rules (.rule key) pos r
  | grammar {rules inner : Rules} {start : RuleKey} {body : Pattern} {pos : Nat} {r : Parse}
      (hkey : inner.lookup start = some body) (hbody : Derives subject inner body pos r) :
      Derives subject rules (.grammar start inner) pos r

/-- **A pattern comes out in one way at most.** -/
theorem Derives.unique {subject : Bytes} {rules : Rules} {p : Pattern} {pos : Nat} {r r' : Parse}
    (h : Derives subject rules p pos r) (h' : Derives subject rules p pos r') : r = r' := by
  induction h generalizing r' with
  | any hn h => cases h' <;> first | rfl | omega
  | anyFail hn h => cases h' <;> first | rfl | omega
  | fewer hn h => cases h' <;> first | rfl | omega
  | fewerFail hn h => cases h' <;> first | rfl | omega
  | literal h | literalFail h => cases h' <;> first | rfl | contradiction
  | set hb h =>
    cases h' with
    | set => rfl
    | setFail hnone => simp [hnone _ hb] at h
  | setFail hnone =>
    cases h' with
    | set hb h => simp [hnone _ hb] at h
    | setFail => rfl
  | fail | succeed | position | const | argument | backref =>
    cases h'
    rfl
  | seq ha hb iha ihb =>
    cases h' with
    | seq ha' hb' =>
      cases iha ha'
      rw [ihb hb']
    | seqFail ha' => cases iha ha'
  | seqFail ha iha =>
    cases h' with
    | seq ha' hb' => cases iha ha'
    | seqFail => rfl
  | choiceFirst ha iha =>
    cases h' with
    | choiceFirst ha' => exact iha ha'
    | choiceSecond ha' => cases iha ha'
  | choiceSecond ha hb iha ihb =>
    cases h' with
    | choiceFirst ha' => cases iha ha'
    | choiceSecond _ hb' => exact ihb hb'
  | not ha iha | notFail ha iha =>
    cases h' with
    | not ha' | notFail ha' => first | rfl | cases iha ha'
  | and ha iha | andFail ha iha =>
    cases h' with
    | and ha' | andFail ha' => first | rfl | cases iha ha'
  | diff hb ha ihb iha =>
    cases h' with
    | diff _ ha' => exact iha ha'
    | diffFail hb' => cases ihb hb'
  | diffFail hb ihb =>
    cases h' with
    | diff hb' => cases ihb hb'
    | diffFail => rfl
  | repStop hn ha iha =>
    cases h' with
    | repStop => rfl
    | repFail hn' => omega
    | repLast ha' | repMore _ ha' => cases iha ha'
  | repFail hn ha iha =>
    cases h' with
    | repStop hn' => omega
    | repFail => rfl
    | repLast ha' | repMore _ ha' => cases iha ha'
  | repLast ha iha =>
    cases h' with
    | repStop _ ha' | repFail _ ha' => cases iha ha'
    | repLast ha' => exact iha ha'
    | repMore hn => exact absurd rfl hn
  | repMore hn ha hrest iha ihrest =>
    cases h' with
    | repStop _ ha' | repFail _ ha' => cases iha ha'
    | repLast => exact absurd rfl hn
    | repMore _ ha' hrest' =>
      cases iha ha'
      rw [ihrest hrest']
  | capture hw ha iha =>
    cases h' with
    | capture _ ha' =>
      cases iha ha'
      rfl
    | captureFail _ ha' => cases iha ha'
  | captureFail hw ha iha =>
    cases h' with
    | capture _ ha' => cases iha ha'
    | captureFail => rfl
  | matcher hf hge hle =>
    cases h' with
    | matcher hf' =>
      rw [hf] at hf'
      cases hf'
      rfl
    | matcherFail hf' => exact absurd ⟨hge, hle⟩ (hf' _ hf)
  | matcherFail hf =>
    cases h' with
    | matcher hf' hge hle => exact absurd ⟨hge, hle⟩ (hf _ hf')
    | matcherFail => rfl
  | rule hkey _ ih =>
    cases h' with
    | rule hkey' hbody' =>
      rw [hkey] at hkey'
      cases hkey'
      exact ih hbody'
  | grammar hkey _ ih =>
    cases h' with
    | grammar hkey' hbody' =>
      rw [hkey] at hkey'
      cases hkey'
      exact ih hbody'

theorem Derives.span {subject : Bytes} {rules : Rules} {p : Pattern} {pos : Nat} {r : Parse}
    {found : Nat × List Tree} (h : Derives subject rules p pos r) (hr : r = some found)
    (hpos : pos ≤ subject.size) : pos ≤ found.1 ∧ found.1 ≤ subject.size := by
  induction h generalizing found with
  | anyFail | fewerFail | literalFail | setFail | fail | seqFail | notFail | andFail | diffFail
  | repFail | captureFail | matcherFail => cases hr
  | fewer | succeed | not | and | repStop | position | const | argument | backref =>
    cases hr
    exact ⟨Nat.le_refl _, hpos⟩
  | any _ h =>
    cases hr
    exact ⟨Nat.le_add_right _ _, h⟩
  | @literal _ bytes pos h =>
    cases hr
    have hlength := h.length_le
    rw [List.length_drop, Array.length_toList, Array.length_toList] at hlength
    show pos ≤ pos + bytes.size ∧ pos + bytes.size ≤ subject.size
    omega
  | set hb =>
    cases hr
    exact ⟨Nat.le_succ _, (Array.getElem?_eq_some_iff.1 hb).1⟩
  | matcher _ hge hle =>
    cases hr
    exact ⟨hge, hle⟩
  | choiceFirst _ ih | choiceSecond _ _ _ ih | diff _ _ _ ih | repLast _ ih | rule _ _ ih
  | grammar _ _ ih => exact ih hr hpos
  | capture _ _ ih =>
    cases hr
    have hspan := ih rfl hpos
    exact hspan
  | seq _ _ iha ihb | repMore _ _ _ iha ihb =>
    obtain ⟨rest, hrest, rfl⟩ := Option.map_eq_some_iff.1 hr
    have hmid := iha rfl hpos
    have hstop := ihb hrest hmid.2
    exact ⟨Nat.le_trans hmid.1 hstop.1, hstop.2⟩

end PegMachine
