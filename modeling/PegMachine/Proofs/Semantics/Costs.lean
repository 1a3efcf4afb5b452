import PegMachine.Block
import PegMachine.Proofs.Semantics.Derives

/-!
# What a match costs

* `Costs`: how the match of a pattern comes out, with the greatest number of frames that it has
  pending at a time. Every alternative, lookahead and repetition makes a choice, and every rule is
  called.
* `Costs.derives`: apart from the cost, this is what the pattern means.
-/

namespace PegMachine

/-- The cost of skipping bytes. More bytes than one instruction skips are refused behind a
choice. -/
def Pattern.skipCost (n : Int) : Nat :=
  if n < 0 ∧ Block.maxSkip < n.natAbs then 1 else 0

/-- The cost of one round of a repetition, from that of its body. A round that is not asked for is
made behind a choice. -/
def Pattern.roundCost (n : Int) (cost : Nat) : Nat :=
  if 0 < n then cost else cost + 1

/-- How the match of a pattern comes out at a position, and the greatest number of frames that it
has pending at a time. -/
inductive Costs (subject : Bytes) : Rules → Pattern → Nat → Parse → Nat → Prop where
  | any {rules : Rules} {n : Int} {pos : Nat} (hn : 0 ≤ n) (h : pos + n.natAbs ≤ subject.size) :
      Costs subject rules (.any n) pos (some (pos + n.natAbs, [])) (Pattern.skipCost n)
  | anyFail {rules : Rules} {n : Int} {pos : Nat} (hn : 0 ≤ n)
      (h : subject.size < pos + n.natAbs) :
      Costs subject rules (.any n) pos none (Pattern.skipCost n)
  | fewer {rules : Rules} {n : Int} {pos : Nat} (hn : n < 0)
      (h : subject.size < pos + n.natAbs) :
      Costs subject rules (.any n) pos (some (pos, [])) (Pattern.skipCost n)
  | fewerFail {rules : Rules} {n : Int} {pos : Nat} (hn : n < 0)
      (h : pos + n.natAbs ≤ subject.size) :
      Costs subject rules (.any n) pos none (Pattern.skipCost n)
  | literal {rules : Rules} {bytes : Bytes} {pos : Nat}
      (h : bytes.toList <+: subject.toList.drop pos) :
      Costs subject rules (.literal bytes) pos (some (pos + bytes.size, [])) 0
  | literalFail {rules : Rules} {bytes : Bytes} {pos : Nat}
      (h : ¬ bytes.toList <+: subject.toList.drop pos) :
      Costs subject rules (.literal bytes) pos none 0
  | set {rules : Rules} {bytes : ByteSet} {pos : Nat} {b : UInt8} (hb : subject[pos]? = some b)
      (h : bytes.contains b = true) : Costs subject rules (.set bytes) pos (some (pos + 1, [])) 0
  | setFail {rules : Rules} {bytes : ByteSet} {pos : Nat}
      (h : ∀ b, subject[pos]? = some b → bytes.contains b = false) :
      Costs subject rules (.set bytes) pos none 0
  | fail {rules : Rules} {pos : Nat} : Costs subject rules .fail pos none 0
  | succeed {rules : Rules} {pos : Nat} : Costs subject rules .succeed pos (some (pos, [])) 0
  | seq {rules : Rules} {a b : Pattern} {pos mid k n : Nat} {forest : List Tree} {r : Parse}
      (ha : Costs subject rules a pos (some (mid, forest)) k) (hb : Costs subject rules b mid r n) :
      Costs subject rules (.seq a b) pos (r.after forest) (max k n)
  | seqFail {rules : Rules} {a b : Pattern} {pos k : Nat} (ha : Costs subject rules a pos none k) :
      Costs subject rules (.seq a b) pos none k
  /-- While the first alternative is tried, the choice is pending. -/
  | choiceFirst {rules : Rules} {a b : Pattern} {pos k : Nat} {found : Nat × List Tree}
      (ha : Costs subject rules a pos (some found) k) :
      Costs subject rules (.choice a b) pos (some found) (k + 1)
  | choiceSecond {rules : Rules} {a b : Pattern} {pos k n : Nat} {r : Parse}
      (ha : Costs subject rules a pos none k) (hb : Costs subject rules b pos r n) :
      Costs subject rules (.choice a b) pos r (max (k + 1) n)
  | not {rules : Rules} {a : Pattern} {pos k : Nat} (ha : Costs subject rules a pos none k) :
      Costs subject rules (.not a) pos (some (pos, [])) (k + 1)
  | notFail {rules : Rules} {a : Pattern} {pos k : Nat} {found : Nat × List Tree}
      (ha : Costs subject rules a pos (some found) k) :
      Costs subject rules (.not a) pos none (k + 1)
  | and {rules : Rules} {a : Pattern} {pos k : Nat} {found : Nat × List Tree}
      (ha : Costs subject rules a pos (some found) k) :
      Costs subject rules (.and a) pos (some (pos, [])) (k + 1)
  | andFail {rules : Rules} {a : Pattern} {pos k : Nat} (ha : Costs subject rules a pos none k) :
      Costs subject rules (.and a) pos none (k + 1)
  | diff {rules : Rules} {a b : Pattern} {pos k n : Nat} {r : Parse}
      (hb : Costs subject rules b pos none k) (ha : Costs subject rules a pos r n) :
      Costs subject rules (.diff a b) pos r (max (k + 1) n)
  | diffFail {rules : Rules} {a b : Pattern} {pos k : Nat} {found : Nat × List Tree}
      (hb : Costs subject rules b pos (some found) k) :
      Costs subject rules (.diff a b) pos none (k + 1)
  | repStop {rules : Rules} {a : Pattern} {n : Int} {pos k : Nat} (hn : n ≤ 0)
      (ha : Costs subject rules a pos none k) :
      Costs subject rules (.rep a n) pos (some (pos, [])) (k + 1)
  | repFail {rules : Rules} {a : Pattern} {n : Int} {pos k : Nat} (hn : 0 < n)
      (ha : Costs subject rules a pos none k) : Costs subject rules (.rep a n) pos none k
  | repLast {rules : Rules} {a : Pattern} {pos k : Nat} {found : Nat × List Tree}
      (ha : Costs subject rules a pos (some found) k) :
      Costs subject rules (.rep a (-1)) pos (some found) (k + 1)
  | repMore {rules : Rules} {a : Pattern} {n : Int} {pos mid k l : Nat} {forest : List Tree}
      {r : Parse} (hn : n ≠ -1) (ha : Costs subject rules a pos (some (mid, forest)) k)
      (hrest : Costs subject rules (.rep a (Pattern.remaining n)) mid r l) :
      Costs subject rules (.rep a n) pos (r.after forest) (max (Pattern.roundCost n k) l)
  | capture {rules : Rules} {wrapping : Wrapping} {a : Pattern} {pos stop k : Nat}
      {forest : List Tree} (hw : wrapping.kind ≠ .matchTime)
      (ha : Costs subject rules a pos (some (stop, forest)) k) :
      Costs subject rules (.capture wrapping a) pos
        (some (stop, [.node wrapping.kind wrapping.payload pos stop forest])) k
  | captureFail {rules : Rules} {wrapping : Wrapping} {a : Pattern} {pos k : Nat}
      (hw : wrapping.kind ≠ .matchTime) (ha : Costs subject rules a pos none k) :
      Costs subject rules (.capture wrapping a) pos none k
  | position {rules : Rules} {pos : Nat} :
      Costs subject rules .position pos (some (pos, [.node .position .nothing pos pos []])) 0
  | const {rules : Rules} {values : List Value} {pos : Nat} :
      Costs subject rules (.const values) pos
        (some (pos, values.map fun v => .node .const (.constant (.value v)) pos pos [])) 0
  | argument {rules : Rules} {n pos : Nat} :
      Costs subject rules (.argument n) pos
        (some (pos, [.node .argument (.argument n) pos pos []])) 0
  | backref {rules : Rules} {name : String} {pos : Nat} :
      Costs subject rules (.backref name) pos
        (some (pos, [.node .backref (.constant (.name name)) pos pos []])) 0
  | matcher {rules : Rules} {f : Matcher} {pos stop : Nat} (hf : f subject pos = some stop)
      (hge : pos ≤ stop) (hle : stop ≤ subject.size) :
      Costs subject rules (.matcher f) pos (some (stop, [])) 0
  | matcherFail {rules : Rules} {f : Matcher} {pos : Nat}
      (hf : ∀ stop, f subject pos = some stop → ¬ (pos ≤ stop ∧ stop ≤ subject.size)) :
      Costs subject rules (.matcher f) pos none 0
  /-- While a rule is tried, the call of it is pending. -/
  | rule {rules : Rules} {key : RuleKey} {body : Pattern} {pos k : Nat} {r : Parse}
      (hkey : rules.lookup key = some body) (hbody : Costs subject rules body pos r k) :
      Costs subject rules (.rule key) pos r (k + 1)
  | grammar {rules inner : Rules} {start : RuleKey} {body : Pattern} {pos k : Nat} {r : Parse}
      (hkey : inner.lookup start = some body) (hbody : Costs subject inner body pos r k) :
      Costs subject rules (.grammar start inner) pos r (k + 1)

/-- Apart from the cost, this is what the pattern means. -/
theorem Costs.derives {subject : Bytes} {rules : Rules} {p : Pattern} {pos k : Nat} {r : Parse}
    (h : Costs subject rules p pos r k) : Derives subject rules p pos r := by
  induction h with
  | any hn h => exact .any hn h
  | anyFail hn h => exact .anyFail hn h
  | fewer hn h => exact .fewer hn h
  | fewerFail hn h => exact .fewerFail hn h
  | literal h => exact .literal h
  | literalFail h => exact .literalFail h
  | set hb h => exact .set hb h
  | setFail h => exact .setFail h
  | fail => exact .fail
  | succeed => exact .succeed
  | seq _ _ iha ihb => exact .seq iha ihb
  | seqFail _ iha => exact .seqFail iha
  | choiceFirst _ iha => exact .choiceFirst iha
  | choiceSecond _ _ iha ihb => exact .choiceSecond iha ihb
  | not _ iha => exact .not iha
  | notFail _ iha => exact .notFail iha
  | and _ iha => exact .and iha
  | andFail _ iha => exact .andFail iha
  | diff _ _ ihb iha => exact .diff ihb iha
  | diffFail _ ihb => exact .diffFail ihb
  | repStop hn _ iha => exact .repStop hn iha
  | repFail hn _ iha => exact .repFail hn iha
  | repLast _ iha => exact .repLast iha
  | repMore hn _ _ iha ihrest => exact .repMore hn iha ihrest
  | capture hw _ iha => exact .capture hw iha
  | captureFail hw _ iha => exact .captureFail hw iha
  | position => exact .position
  | const => exact .const
  | argument => exact .argument
  | backref => exact .backref
  | matcher hf hge hle => exact .matcher hf hge hle
  | matcherFail hf => exact .matcherFail hf
  | rule hkey _ ih => exact .rule hkey ih
  | grammar hkey _ ih => exact .grammar hkey ih

end PegMachine
