import PegMachine.Proofs.Semantics.Readings
import PegMachine.Proofs.Semantics.WellFormed

/-!
# Parsing expressions with match-time captures

What a pattern means if its match-time captures run while it matches. Their functions get the values
of what has been captured inside them, so the captures come with their readings.

* `Parsed`: how the match of a pattern comes out.
* `Parses`: the rules by which it comes out so, with the groups that back references find.
* `Derives.parses`: without match-time captures a pattern comes out as it does without readings.
* `Parses.le_stop`: a match does not end before it starts.
* **`Parses.canBeEmpty`**: a pattern with a match that ends where it starts is one of those that can
  be empty.
-/

namespace PegMachine

/-- How the match of a pattern comes out: where it ends and what it captured, or a failure. -/
abbrev Parsed := Option (Nat × List Capture)

/-- A match behind one that captured something. -/
def Parsed.after (captures : List Capture) (r : Parsed) : Parsed :=
  r.map fun found => (found.1, captures ++ found.2)

/-- What an enclosing capture stands for, but for one that runs a function at match time. -/
def Wrapping.content? : Wrapping → Option Content
  | .simple => some .simple
  | .table => some .table
  | .subst => some .subst
  | .group => some .group
  | .named name => some (.named name)
  | .fold f => some (.fold f)
  | .function f => some (.function f)
  | .query entries => some (.query entries)
  | .template format => some (.template format)
  | .matchTime _ => none

/-- The groups that back references find behind captures. -/
def Bindings.after (subject : Bytes) (arguments : List Value) (bindings : Bindings)
    (captures : List Capture) : Bindings :=
  (readAll subject arguments bindings captures).foldl
    (fun known reading => reading.bindings ++ known) bindings

/-- What is left of a match-time capture: the values that came out of its function. -/
def Capture.ofResults (start stop : Nat) (results : List Value) : List Capture :=
  if results.isEmpty then [] else [.node (.dynamic results) start stop []]

/-- How the match of a pattern comes out at a position, with the groups before it. -/
inductive Parses (subject : Bytes) (arguments : List Value) :
    Rules → Bindings → Pattern → Nat → Parsed → Prop where
  /-- A number of bytes that is there. -/
  | any {rules : Rules} {bindings : Bindings} {n : Int} {pos : Nat} (hn : 0 ≤ n)
      (h : pos + n.natAbs ≤ subject.size) :
      Parses subject arguments rules bindings (.any n) pos (some (pos + n.natAbs, []))
  | anyFail {rules : Rules} {bindings : Bindings} {n : Int} {pos : Nat} (hn : 0 ≤ n)
      (h : subject.size < pos + n.natAbs) :
      Parses subject arguments rules bindings (.any n) pos none
  /-- Fewer bytes than a number up to the end. -/
  | fewer {rules : Rules} {bindings : Bindings} {n : Int} {pos : Nat} (hn : n < 0)
      (h : subject.size < pos + n.natAbs) :
      Parses subject arguments rules bindings (.any n) pos (some (pos, []))
  | fewerFail {rules : Rules} {bindings : Bindings} {n : Int} {pos : Nat} (hn : n < 0)
      (h : pos + n.natAbs ≤ subject.size) :
      Parses subject arguments rules bindings (.any n) pos none
  | literal {rules : Rules} {bindings : Bindings} {bytes : Bytes} {pos : Nat}
      (h : bytes.toList <+: subject.toList.drop pos) :
      Parses subject arguments rules bindings (.literal bytes) pos (some (pos + bytes.size, []))
  | literalFail {rules : Rules} {bindings : Bindings} {bytes : Bytes} {pos : Nat}
      (h : ¬ bytes.toList <+: subject.toList.drop pos) :
      Parses subject arguments rules bindings (.literal bytes) pos none
  | set {rules : Rules} {bindings : Bindings} {bytes : ByteSet} {pos : Nat} {b : UInt8}
      (hb : subject[pos]? = some b) (h : bytes.contains b = true) :
      Parses subject arguments rules bindings (.set bytes) pos (some (pos + 1, []))
  | setFail {rules : Rules} {bindings : Bindings} {bytes : ByteSet} {pos : Nat}
      (h : ∀ b, subject[pos]? = some b → bytes.contains b = false) :
      Parses subject arguments rules bindings (.set bytes) pos none
  | fail {rules : Rules} {bindings : Bindings} {pos : Nat} :
      Parses subject arguments rules bindings .fail pos none
  | succeed {rules : Rules} {bindings : Bindings} {pos : Nat} :
      Parses subject arguments rules bindings .succeed pos (some (pos, []))
  /-- The second pattern finds the groups of the first one. -/
  | seq {rules : Rules} {bindings : Bindings} {a b : Pattern} {pos mid : Nat}
      {captures : List Capture} {r : Parsed}
      (ha : Parses subject arguments rules bindings a pos (some (mid, captures)))
      (hb : Parses subject arguments rules (bindings.after subject arguments captures) b mid r) :
      Parses subject arguments rules bindings (.seq a b) pos (r.after captures)
  | seqFail {rules : Rules} {bindings : Bindings} {a b : Pattern} {pos : Nat}
      (ha : Parses subject arguments rules bindings a pos none) :
      Parses subject arguments rules bindings (.seq a b) pos none
  /-- The second alternative is out once the first one has matched. -/
  | choiceFirst {rules : Rules} {bindings : Bindings} {a b : Pattern} {pos : Nat}
      {found : Nat × List Capture}
      (ha : Parses subject arguments rules bindings a pos (some found)) :
      Parses subject arguments rules bindings (.choice a b) pos (some found)
  | choiceSecond {rules : Rules} {bindings : Bindings} {a b : Pattern} {pos : Nat} {r : Parsed}
      (ha : Parses subject arguments rules bindings a pos none)
      (hb : Parses subject arguments rules bindings b pos r) :
      Parses subject arguments rules bindings (.choice a b) pos r
  | not {rules : Rules} {bindings : Bindings} {a : Pattern} {pos : Nat}
      (ha : Parses subject arguments rules bindings a pos none) :
      Parses subject arguments rules bindings (.not a) pos (some (pos, []))
  | notFail {rules : Rules} {bindings : Bindings} {a : Pattern} {pos : Nat}
      {found : Nat × List Capture}
      (ha : Parses subject arguments rules bindings a pos (some found)) :
      Parses subject arguments rules bindings (.not a) pos none
  | and {rules : Rules} {bindings : Bindings} {a : Pattern} {pos : Nat}
      {found : Nat × List Capture}
      (ha : Parses subject arguments rules bindings a pos (some found)) :
      Parses subject arguments rules bindings (.and a) pos (some (pos, []))
  | andFail {rules : Rules} {bindings : Bindings} {a : Pattern} {pos : Nat}
      (ha : Parses subject arguments rules bindings a pos none) :
      Parses subject arguments rules bindings (.and a) pos none
  | diff {rules : Rules} {bindings : Bindings} {a b : Pattern} {pos : Nat} {r : Parsed}
      (hb : Parses subject arguments rules bindings b pos none)
      (ha : Parses subject arguments rules bindings a pos r) :
      Parses subject arguments rules bindings (.diff a b) pos r
  | diffFail {rules : Rules} {bindings : Bindings} {a b : Pattern} {pos : Nat}
      {found : Nat × List Capture}
      (hb : Parses subject arguments rules bindings b pos (some found)) :
      Parses subject arguments rules bindings (.diff a b) pos none
  /-- A repetition ends when the body fails and none is missing. -/
  | repStop {rules : Rules} {bindings : Bindings} {a : Pattern} {n : Int} {pos : Nat} (hn : n ≤ 0)
      (ha : Parses subject arguments rules bindings a pos none) :
      Parses subject arguments rules bindings (.rep a n) pos (some (pos, []))
  | repFail {rules : Rules} {bindings : Bindings} {a : Pattern} {n : Int} {pos : Nat} (hn : 0 < n)
      (ha : Parses subject arguments rules bindings a pos none) :
      Parses subject arguments rules bindings (.rep a n) pos none
  /-- The last of a bounded number of repetitions. -/
  | repLast {rules : Rules} {bindings : Bindings} {a : Pattern} {pos : Nat}
      {found : Nat × List Capture}
      (ha : Parses subject arguments rules bindings a pos (some found)) :
      Parses subject arguments rules bindings (.rep a (-1)) pos (some found)
  | repMore {rules : Rules} {bindings : Bindings} {a : Pattern} {n : Int} {pos mid : Nat}
      {captures : List Capture} {r : Parsed} (hn : n ≠ -1)
      (ha : Parses subject arguments rules bindings a pos (some (mid, captures)))
      (hrest : Parses subject arguments rules (bindings.after subject arguments captures)
        (.rep a (Pattern.remaining n)) mid r) :
      Parses subject arguments rules bindings (.rep a n) pos (r.after captures)
  | capture {rules : Rules} {bindings : Bindings} {wrapping : Wrapping} {content : Content}
      {a : Pattern} {pos stop : Nat} {captures : List Capture}
      (hw : wrapping.content? = some content)
      (ha : Parses subject arguments rules bindings a pos (some (stop, captures))) :
      Parses subject arguments rules bindings (.capture wrapping a) pos
        (some (stop, [.node content pos stop captures]))
  | captureFail {rules : Rules} {bindings : Bindings} {wrapping : Wrapping} {a : Pattern}
      {pos : Nat} (ha : Parses subject arguments rules bindings a pos none) :
      Parses subject arguments rules bindings (.capture wrapping a) pos none
  /-- The function of a match-time capture may go on from anywhere between the start of the capture
  and the end of the subject. Its values take the place of what the body captured. -/
  | matchTime {rules : Rules} {bindings : Bindings} {f : MatchTimeFunction} {a : Pattern}
      {pos stop next : Nat} {captures : List Capture} {values results : List Value}
      (ha : Parses subject arguments rules bindings a pos (some (stop, captures)))
      (hvalues : nestedOr (subject.extract pos stop)
        (readAll subject arguments bindings captures) = .ok values)
      (hf : f subject stop values = some (next, results)) (hge : pos ≤ next)
      (hle : next ≤ subject.size) :
      Parses subject arguments rules bindings (.capture (.matchTime f) a) pos
        (some (next, Capture.ofResults pos next results))
  | matchTimeFail {rules : Rules} {bindings : Bindings} {f : MatchTimeFunction} {a : Pattern}
      {pos stop : Nat} {captures : List Capture} {values : List Value}
      (ha : Parses subject arguments rules bindings a pos (some (stop, captures)))
      (hvalues : nestedOr (subject.extract pos stop)
        (readAll subject arguments bindings captures) = .ok values)
      (hf : ∀ next results, f subject stop values = some (next, results) →
        ¬ (pos ≤ next ∧ next ≤ subject.size)) :
      Parses subject arguments rules bindings (.capture (.matchTime f) a) pos none
  | position {rules : Rules} {bindings : Bindings} {pos : Nat} :
      Parses subject arguments rules bindings .position pos
        (some (pos, [.node .position pos pos []]))
  | const {rules : Rules} {bindings : Bindings} {values : List Value} {pos : Nat} :
      Parses subject arguments rules bindings (.const values) pos
        (some (pos, values.map fun value => .node (.const value) pos pos []))
  | argument {rules : Rules} {bindings : Bindings} {n pos : Nat} :
      Parses subject arguments rules bindings (.argument n) pos
        (some (pos, [.node (.argument n) pos pos []]))
  | backref {rules : Rules} {bindings : Bindings} {name : String} {pos : Nat} :
      Parses subject arguments rules bindings (.backref name) pos
        (some (pos, [.node (.backref name) pos pos []]))
  /-- A matcher may go on from anywhere between the position and the end. -/
  | matcher {rules : Rules} {bindings : Bindings} {f : Matcher} {pos stop : Nat}
      (hf : f subject pos = some stop) (hge : pos ≤ stop) (hle : stop ≤ subject.size) :
      Parses subject arguments rules bindings (.matcher f) pos (some (stop, []))
  | matcherFail {rules : Rules} {bindings : Bindings} {f : Matcher} {pos : Nat}
      (hf : ∀ stop, f subject pos = some stop → ¬ (pos ≤ stop ∧ stop ≤ subject.size)) :
      Parses subject arguments rules bindings (.matcher f) pos none
  | rule {rules : Rules} {bindings : Bindings} {key : RuleKey} {body : Pattern} {pos : Nat}
      {r : Parsed} (hkey : rules.lookup key = some body)
      (hbody : Parses subject arguments rules bindings body pos r) :
      Parses subject arguments rules bindings (.rule key) pos r
  | grammar {rules inner : Rules} {bindings : Bindings} {start : RuleKey} {body : Pattern}
      {pos : Nat} {r : Parsed} (hkey : inner.lookup start = some body)
      (hbody : Parses subject arguments inner bindings body pos r) :
      Parses subject arguments rules bindings (.grammar start inner) pos r

variable {subject : Bytes} {arguments : List Value} {rules : Rules} {bindings : Bindings}
  {p : Pattern} {pos : Nat}

/-! ## Patterns without match-time captures -/

/-- A parse and a match with readings come out alike if they end in the same place, or both fail. -/
def Parse.Alike (r : Parse) (r' : Parsed) : Prop :=
  r.map Prod.fst = r'.map Prod.fst

theorem Parse.Alike.cases_some {stop : Nat} {forest : List Tree} {r' : Parsed}
    (h : Parse.Alike (some (stop, forest)) r') : ∃ captures, r' = some (stop, captures) := by
  obtain _ | ⟨stop', captures⟩ := r'
  · cases h
  · cases h
    exact ⟨captures, rfl⟩

theorem Parse.Alike.cases_none {r' : Parsed} (h : Parse.Alike none r') : r' = none :=
  Option.map_eq_none_iff.1 h.symm

theorem Parse.Alike.after {r : Parse} {r' : Parsed} (h : r.Alike r') (forest : List Tree)
    (captures : List Capture) : (r.after forest).Alike (r'.after captures) := by
  rw [Alike, Parse.after, Parsed.after, Option.map_map, Option.map_map]
  exact h

theorem Wrapping.exists_content {wrapping : Wrapping} (h : wrapping.kind ≠ .matchTime) :
    ∃ content, wrapping.content? = some content := by
  cases wrapping with
  | matchTime => exact absurd rfl h
  | simple | table | subst | group | named | fold | function | query | template => exact ⟨_, rfl⟩

/-- **Without match-time captures a pattern comes out as it does without readings.** -/
theorem Derives.parses {r : Parse} (h : Derives subject rules p pos r) (arguments : List Value)
    (bindings : Bindings) : ∃ r', Parses subject arguments rules bindings p pos r' ∧ r.Alike r' := by
  induction h generalizing bindings with
  | any hn h => exact ⟨_, .any hn h, rfl⟩
  | anyFail hn h => exact ⟨_, .anyFail hn h, rfl⟩
  | fewer hn h => exact ⟨_, .fewer hn h, rfl⟩
  | fewerFail hn h => exact ⟨_, .fewerFail hn h, rfl⟩
  | literal h => exact ⟨_, .literal h, rfl⟩
  | literalFail h => exact ⟨_, .literalFail h, rfl⟩
  | set hb h => exact ⟨_, .set hb h, rfl⟩
  | setFail h => exact ⟨_, .setFail h, rfl⟩
  | fail => exact ⟨_, .fail, rfl⟩
  | succeed => exact ⟨_, .succeed, rfl⟩
  | seq ha hb iha ihb =>
    obtain ⟨_, ha', halike⟩ := iha bindings
    obtain ⟨captures, rfl⟩ := halike.cases_some
    obtain ⟨_, hb', hrest⟩ := ihb (bindings.after subject arguments captures)
    exact ⟨_, .seq ha' hb', hrest.after _ _⟩
  | seqFail ha iha =>
    obtain ⟨_, ha', halike⟩ := iha bindings
    obtain rfl := halike.cases_none
    exact ⟨_, .seqFail ha', rfl⟩
  | choiceFirst ha iha =>
    obtain ⟨_, ha', halike⟩ := iha bindings
    obtain ⟨captures, rfl⟩ := halike.cases_some
    exact ⟨_, .choiceFirst ha', rfl⟩
  | choiceSecond ha hb iha ihb =>
    obtain ⟨_, ha', halike⟩ := iha bindings
    obtain rfl := halike.cases_none
    obtain ⟨_, hb', hsecond⟩ := ihb bindings
    exact ⟨_, .choiceSecond ha' hb', hsecond⟩
  | not ha iha =>
    obtain ⟨_, ha', halike⟩ := iha bindings
    obtain rfl := halike.cases_none
    exact ⟨_, .not ha', rfl⟩
  | notFail ha iha =>
    obtain ⟨_, ha', halike⟩ := iha bindings
    obtain ⟨captures, rfl⟩ := halike.cases_some
    exact ⟨_, .notFail ha', rfl⟩
  | and ha iha =>
    obtain ⟨_, ha', halike⟩ := iha bindings
    obtain ⟨captures, rfl⟩ := halike.cases_some
    exact ⟨_, .and ha', rfl⟩
  | andFail ha iha =>
    obtain ⟨_, ha', halike⟩ := iha bindings
    obtain rfl := halike.cases_none
    exact ⟨_, .andFail ha', rfl⟩
  | diff hb ha ihb iha =>
    obtain ⟨_, hb', halike⟩ := ihb bindings
    obtain rfl := halike.cases_none
    obtain ⟨_, ha', hfirst⟩ := iha bindings
    exact ⟨_, .diff hb' ha', hfirst⟩
  | diffFail hb ihb =>
    obtain ⟨_, hb', halike⟩ := ihb bindings
    obtain ⟨captures, rfl⟩ := halike.cases_some
    exact ⟨_, .diffFail hb', rfl⟩
  | repStop hn ha iha =>
    obtain ⟨_, ha', halike⟩ := iha bindings
    obtain rfl := halike.cases_none
    exact ⟨_, .repStop hn ha', rfl⟩
  | repFail hn ha iha =>
    obtain ⟨_, ha', halike⟩ := iha bindings
    obtain rfl := halike.cases_none
    exact ⟨_, .repFail hn ha', rfl⟩
  | repLast ha iha =>
    obtain ⟨_, ha', halike⟩ := iha bindings
    obtain ⟨captures, rfl⟩ := halike.cases_some
    exact ⟨_, .repLast ha', rfl⟩
  | repMore hn ha hrest iha ihrest =>
    obtain ⟨_, ha', halike⟩ := iha bindings
    obtain ⟨captures, rfl⟩ := halike.cases_some
    obtain ⟨_, hrest', hmore⟩ := ihrest (bindings.after subject arguments captures)
    exact ⟨_, .repMore hn ha' hrest', hmore.after _ _⟩
  | capture hw ha iha =>
    obtain ⟨_, ha', halike⟩ := iha bindings
    obtain ⟨captures, rfl⟩ := halike.cases_some
    obtain ⟨content, hcontent⟩ := Wrapping.exists_content hw
    exact ⟨_, .capture hcontent ha', rfl⟩
  | captureFail hw ha iha =>
    obtain ⟨_, ha', halike⟩ := iha bindings
    obtain rfl := halike.cases_none
    exact ⟨_, .captureFail ha', rfl⟩
  | position => exact ⟨_, .position, rfl⟩
  | const => exact ⟨_, .const, rfl⟩
  | argument => exact ⟨_, .argument, rfl⟩
  | backref => exact ⟨_, .backref, rfl⟩
  | matcher hf hge hle => exact ⟨_, .matcher hf hge hle, rfl⟩
  | matcherFail hf => exact ⟨_, .matcherFail hf, rfl⟩
  | rule hkey _ ih =>
    obtain ⟨_, hbody, halike⟩ := ih bindings
    exact ⟨_, .rule hkey hbody, halike⟩
  | grammar hkey _ ih =>
    obtain ⟨_, hbody, halike⟩ := ih bindings
    exact ⟨_, .grammar hkey hbody, halike⟩

/-! ## Matches that consume nothing -/

namespace Parses

variable {r : Parsed} {found : Nat × List Capture}

theorem le_stop (h : Parses subject arguments rules bindings p pos r) (hr : r = some found) :
    pos ≤ found.1 := by
  induction h generalizing found with
  | anyFail | fewerFail | literalFail | setFail | fail | seqFail | notFail | andFail | diffFail
  | repFail | captureFail | matchTimeFail | matcherFail => cases hr
  | fewer | succeed | not | and | repStop | position | const | argument | backref =>
    cases hr
    exact Nat.le_refl _
  | any | literal | set =>
    cases hr
    exact Nat.le_add_right _ _
  | matcher _ hge | matchTime _ _ _ hge =>
    cases hr
    exact hge
  | choiceFirst _ ih | choiceSecond _ _ _ ih | diff _ _ _ ih | repLast _ ih | rule _ _ ih
  | grammar _ _ ih => exact ih hr
  | capture _ _ ih =>
    cases hr
    have hstop := ih rfl
    exact hstop
  | seq _ _ iha ihb | repMore _ _ _ iha ihb =>
    obtain ⟨rest, hrest, rfl⟩ := Option.map_eq_some_iff.1 hr
    have hstop := ihb hrest
    exact Nat.le_trans (iha rfl) hstop

/-- Two matches one after the other that consume nothing together do so on their own. -/
theorem stop_eq_of_after {rules' : Rules} {bindings' : Bindings} {a b : Pattern} {mid : Nat}
    {captures : List Capture}
    (ha : Parses subject arguments rules bindings a pos (some (mid, captures)))
    (hb : Parses subject arguments rules' bindings' b mid r)
    (hr : r.after captures = some found) (hempty : found.1 = pos) :
    mid = pos ∧ ∃ rest, r = some rest ∧ rest.1 = mid := by
  obtain ⟨rest, hrest, rfl⟩ := Option.map_eq_some_iff.1 hr
  have hmid := ha.le_stop rfl
  have hstop := hb.le_stop hrest
  exact ⟨by dsimp only at hmid hstop hempty; omega, rest, hrest,
    by dsimp only at hmid hstop hempty; omega⟩

/-- **A pattern with a match that ends where it starts is one of those that can be empty.** The
functions of matchers and match-time captures may be any. -/
theorem canBeEmpty (h : Parses subject arguments rules bindings p pos r) (hr : r = some found)
    (hempty : found.1 = pos) : CanBeEmpty rules p := by
  induction h generalizing found with
  | anyFail | fewerFail | literalFail | setFail | fail | seqFail | notFail | andFail | diffFail
  | repFail | captureFail | matchTimeFail | matcherFail => cases hr
  | any hn h =>
    cases hr
    dsimp only at hempty
    exact .any (by omega)
  | fewer hn => exact .any (by omega)
  | literal h =>
    cases hr
    dsimp only at hempty
    exact .literal (Array.isEmpty_iff_size_eq_zero.2 (by omega))
  | set =>
    cases hr
    dsimp only at hempty
    omega
  | succeed => exact .succeed
  | seq ha hb iha ihb =>
    obtain ⟨hmid, rest, hrest, hstop⟩ := stop_eq_of_after ha hb hr hempty
    exact .seq (iha rfl hmid) (ihb hrest hstop)
  | choiceFirst _ ih => exact .choiceFirst (ih hr hempty)
  | choiceSecond _ _ _ ih => exact .choiceSecond (ih hr hempty)
  | not => exact .not
  | and => exact .and
  | diff _ _ _ ih => exact .diff (ih hr hempty)
  | repStop hn => exact .repNone hn
  | repLast => exact .repNone (by omega)
  | repMore _ ha hrest ih =>
    exact .rep (ih rfl (stop_eq_of_after ha hrest hr hempty).1)
  | capture _ _ ih =>
    cases hr
    exact .capture (ih rfl hempty)
  | matchTime => exact .matchTime
  | position => exact .position
  | const => exact .const
  | argument => exact .argument
  | backref => exact .backref
  | matcher => exact .matcher
  | rule hkey _ ih => exact .rule hkey (ih hr hempty)
  | grammar hkey _ ih => exact .grammar hkey (ih hr hempty)

end Parses

end PegMachine
