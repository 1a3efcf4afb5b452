import PegMachine.Proofs.Nesting.Behind
import PegMachine.Proofs.Programs.Acceptance
import PegMachine.Proofs.Programs.Outcomes

/-!
# Named groups and references to them

* `evaluate_backref`: the values of a named group, by way of a back reference right behind it, are
  those of a group without a name.
* `Setting.outcomeOf_group`: so what the entries of both resolve to is the same.
* `Setting.exists_ends_of_group`: the runs of their programs end alike.
* `Pattern.named_backref_eq_group`: **a named group with a back reference to it right behind it
  matches like the group without a name.**
-/

namespace PegMachine

open Block

theorem evaluate_backref (subject : Bytes) (arguments : List Value) (name : String)
    (start stop : Nat) (nested : List Capture) :
    evaluate subject arguments [.node (.named name) start stop nested,
        .node (.backref name) stop stop []] =
      evaluate subject arguments [.node .group start stop nested] := by
  simp only [evaluate, readAll, Capture.read, Content.reading, Content.values, nestedValues,
    List.lookup_cons, List.append_nil, beq_self_eq_true, Option.getD_some]
  cases nestedOr (subject.extract start stop) (readAll subject arguments [] nested) <;> rfl

namespace Setting

variable {m : Setting} {start stop : Nat} {captures : List Capture} {list : Array Entry}

theorem outcomeOf_matched (h : Spells m.program start captures stop list.toList)
    (hstop : stop ≤ m.subject.size) :
    m.outcomeOf (.matched stop list) =
      match evaluate m.subject m.arguments captures with
      | .ok values => .matched ⟨stop, values⟩
      | .error fault => .faulted fault := by
  have hholds : (m.resolver list).Holds start 0 captures stop list.size := ⟨h.covers_all, hstop⟩
  rw [outcomeOf, Resolver.resolve_eq hholds]
  rfl

end Setting

/-- The code of a capture stays as it is in front of an empty capture. -/
theorem Block.sequence_enclose {kind kind' : CaptureKind} {index index' : Nat} {body code : Block}
    (h : sequence (enclose kind index body) [.emptyCaptureConst kind' index'] = .ok code) :
    code = enclose kind index body ++ [.emptyCaptureConst kind' index'] := by
  generalize henclose : enclose kind index body = first at h
  have hfirst : first ≠ [.fail] ∧ first ≠ [] := by
    cases enclose_form henclose with
    | matchTime | opened => exact ⟨nofun, nofun⟩
    | fixed => exact ⟨fun he => by simpa using congrArg List.getLast? he, by simp⟩
  have hcode := sequence_form h
  clear h
  cases hcode with
  | first h => exact h.elim (absurd · hfirst.1) nofun
  | second h => exact h.elim nofun (absurd · hfirst.2)
  | skips _ h => cases h
  | append => rfl

namespace Pattern

variable {p : Pattern} {name : String} {body code : Block} {s s' : Array Constant}

theorem lower_named_backref (hbody : p.lower none #[] = .ok (body, s))
    (h : (seq (capture (.named name) p) (backref name)).lower none #[] = .ok (code, s')) :
    code = enclose .group (s.size + 1) body ++ [.emptyCaptureConst .backref (s.size + 2)] ∧
      s' = (s.push (.name name)).push (.name name) := by
  obtain ⟨first, mid, second, hfirst, hsecond, hcode⟩ := lower_seq.1 h
  obtain ⟨inner, mid', index, hinner, hindex, rfl⟩ := lower_capture.1 hfirst
  rw [hbody] at hinner
  cases hinner
  obtain ⟨rfl, rfl⟩ := Lowering.addConstant_ok.1 hindex
  obtain ⟨rfl, rfl⟩ := lower_backref.1 hsecond
  rw [Array.size_push] at hcode
  exact ⟨sequence_enclose hcode, rfl⟩

theorem lower_group (hbody : p.lower none #[] = .ok (body, s))
    (h : (capture .group p).lower none #[] = .ok (code, s')) :
    code = enclose .group 0 body ∧ s' = s := by
  obtain ⟨inner, mid, index, hinner, hindex, rfl⟩ := lower_capture.1 h
  rw [hbody] at hinner
  cases hinner
  obtain ⟨rfl, rfl⟩ := Lowering.pure_ok.1 hindex
  exact ⟨rfl, rfl⟩

end Pattern

namespace Setting

variable {m m' : Setting} {p : Pattern} {name : String} {body code code' : Block}
  {s : Array Constant} {start stop : Nat}

/-- The entries of the named group with the back reference behind it, and those of the group without
a name, lead to the same outcome. -/
theorem outcomeOf_group {program : Program} {nested : List Capture} {list : List Entry}
    (hspells : Spells program start nested stop list) (hstop : stop ≤ m.subject.size)
    (hgrow : ConstantsGrow ((program.constants.push (.name name)).push (.name name))
      m.program.constants)
    (hgrow' : ConstantsGrow program.constants m'.program.constants) (hinput : m.SameInput m') :
    m'.outcomeOf (.matched stop (wrapEntries .group 0 start stop list).toArray) =
      m.outcomeOf (.matched stop
        ((wrapEntries .group (program.constants.size + 1) start stop list).toArray.push
          (.full .backref (program.constants.size + 2) stop 0))) := by
  have hfirst : m.program.constant? (program.constants.size + 1) = some (.name name) :=
    Program.constant?_of_constantsGrow ((constantsGrow_push _ _).trans hgrow)
  have hsecond : m.program.constant? (program.constants.size + 2) = some (.name name) := by
    have hsecond := Program.constant?_of_constantsGrow hgrow
    rwa [Array.size_push] at hsecond
  have hbefore := (constantsGrow_push program.constants (.name name)).trans
    ((constantsGrow_push _ _).trans hgrow)
  have hnamed : Spells m.program start [.node (.named name) start stop nested] stop
      (wrapEntries .group (program.constants.size + 1) start stop list) :=
    (hspells.grow hbefore).wrap (Nat.le_refl _) (Nat.le_refl _) (.named hfirst) rfl
  have hbackref : Spells m.program stop [.node (.backref name) stop (stop + 0) []] stop
      [.full .backref (program.constants.size + 2) stop 0] :=
    .full (Nat.le_refl _) (.backref hsecond) (.nil (Nat.le_refl _))
  have hboth : Spells m.program start
      [.node (.named name) start stop nested, .node (.backref name) stop stop []] stop
      ((wrapEntries .group (program.constants.size + 1) start stop list).toArray.push
        (.full .backref (program.constants.size + 2) stop 0)).toList := by
    rw [Array.toList_push]
    exact hnamed.append hbackref
  have hgroup : Spells m'.program start [.node .group start stop nested] stop
      (wrapEntries .group 0 start stop list).toArray.toList :=
    (hspells.grow hgrow').wrap (Nat.le_refl _) (Nat.le_refl _) .group rfl
  rw [outcomeOf_matched hgroup (hinput.subject ▸ hstop), outcomeOf_matched hboth hstop,
    evaluate_backref, hinput.subject, hinput.arguments]

theorem exists_ends_of_group (hbody : p.lower none #[] = .ok (body, s))
    (hp : (Pattern.seq (.capture (.named name) p) (.backref name)).Compiled m.program
      (enclose .group (s.size + 1) body ++ [.emptyCaptureConst .backref (s.size + 2)]) code)
    (hp' : (Pattern.capture .group p).Compiled m'.program (enclose .group 0 body) code')
    (hconstants : m.program.constants = (s.push (.name name)).push (.name name))
    (hconstants' : m'.program.constants = s) (hinput : m.SameInput m')
    (hlimits : m'.limits = m.limits) (hstart : start ≤ m.subject.size) :
    ∃ outcome, m.Ends start outcome ∧ m'.Ends start outcome := by
  -- what is in the group, on its own
  let alone : Setting :=
    ⟨⟨(body ++ [Instr.done, Instr.giveUp]).toArray, s⟩, ⟨none⟩, m.subject, m.arguments⟩
  have halone : alone.Alone p body := ⟨hbody, List.toList_toArray, rfl⟩
  have hstart' : start ≤ alone.subject.size := hstart
  obtain ⟨r, k, hrun, -⟩ :=
    Pattern.runs_lower (m := alone) (fun _ _ _ => none) #[] hbody (.refl _) id hstart'
  obtain ⟨n, hrises, hrun⟩ := Run.exists_rises hrun
  have hgrow : ConstantsGrow ((s.push (.name name)).push (.name name)) m.program.constants :=
    hconstants ▸ .refl _
  have hgrow' : ConstantsGrow s m'.program.constants := hconstants' ▸ .refl _
  have hbefore := (constantsGrow_push s (.name name)).trans ((constantsGrow_push _ _).trans hgrow)
  have hsame : alone.SameInput m := ⟨rfl, rfl⟩
  have hsame' : alone.SameInput m' := ⟨hinput.subject, hinput.arguments⟩
  have hkind : CaptureKind.group ≠ .matchTime := nofun
  obtain ⟨hnamed, hrisesNamed⟩ := halone.runs_enclose hstart hsame hbefore hrun hrises hkind
    (s.size + 1) [.emptyCaptureConst .backref (s.size + 2)]
  obtain ⟨hgroup, hrisesGroup⟩ :=
    halone.runs_enclose hstart hsame' hgrow' hrun hrises hkind 0 []
  rw [List.append_nil] at hrisesGroup
  have hcont : Contained (enclose .group (s.size + 1) body) :=
    contained_enclose .group _ (Pattern.contained_lower hbody)
  have hlast : Contained [.emptyCaptureConst .backref (s.size + 2)] := Pattern.contained_single rfl
  cases r with
  | matched stop list =>
    obtain ⟨nested, hspells⟩ := halone.exists_spells hstart hrun (.initial alone start)
    have hstop : stop ≤ m.subject.size := (Run.matched_sound hrun).2.1
    have hboth := runs_append hnamed (fun pos' list' he => by
      cases he
      exact Pattern.runs_record _ (.full .backref (s.size + 2) stop 0) hstop trivial rfl) hcont hlast
    exact exists_ends_of_outcome hp hp' hlimits hboth hgroup hrisesNamed hrisesGroup
      (outcomeOf_group hspells hstop hgrow hgrow' hinput)
  | failed =>
    have hboth := runs_append_of_unmatched hnamed nofun hcont hlast
    exact exists_ends_of_outcome hp hp' hlimits hboth hgroup hrisesNamed hrisesGroup rfl
  | crashed fault =>
    have hboth := runs_append_of_unmatched hnamed nofun hcont hlast
    exact exists_ends_of_outcome hp hp' hlimits hboth hgroup hrisesNamed hrisesGroup rfl

end Setting

namespace Pattern

variable {p : Pattern}

/-- **A named group with a back reference to it right behind it matches like the group without a
name.** If the pattern in the group compiles, both do unless they are too big, and then both programs
end with the same outcome, whatever the subject, the start, the arguments and the limits are. -/
theorem named_backref_eq_group (name : String) (h : ∃ program, p.compile = .ok program) :
    (((∃ program, (seq (capture (.named name) p) (backref name)).compile = .ok program) ∨
        (seq (capture (.named name) p) (backref name)).compile = .error .patternTooBig) ∧
      ((∃ program, (capture .group p).compile = .ok program) ∨
        (capture .group p).compile = .error .patternTooBig)) ∧
    ∀ program program' : Program,
      (seq (capture (.named name) p) (backref name)).compile = .ok program →
      (capture .group p).compile = .ok program' →
      ∀ (limits : Limits) (subject : Bytes) (arguments : List Value) (pos : Nat), ∃ outcome,
        (⟨program, limits, subject, arguments⟩ : Setting).Ends (min pos subject.size) outcome ∧
        (⟨program', limits, subject, arguments⟩ : Setting).Ends (min pos subject.size) outcome := by
  obtain ⟨program₀, h⟩ := h
  have hwell := wellFormed_of_compile h
  have hnamedWell : (seq (capture (.named name) p) (backref name)).WellFormed := ⟨hwell, trivial⟩
  have hgroupWell : (capture .group p).WellFormed := hwell
  refine ⟨⟨(onlyTooBig_compile hnamedWell).cases, (onlyTooBig_compile hgroupWell).cases⟩, ?_⟩
  intro program program' hnamed hgroup limits subject arguments pos
  obtain ⟨body, constants, hbody, -⟩ := compile_ok.1 h
  obtain ⟨block, code, hcompiled⟩ := compiled_exists hnamed
  obtain ⟨block', code', hcompiled'⟩ := compiled_exists hgroup
  obtain ⟨rfl, hconstants⟩ := lower_named_backref hbody hcompiled.lowered
  obtain ⟨rfl, hconstants'⟩ := lower_group hbody hcompiled'.lowered
  let m : Setting := ⟨program, limits, subject, arguments⟩
  let m' : Setting := ⟨program', limits, subject, arguments⟩
  have hinput : m.SameInput m' := ⟨rfl, rfl⟩
  exact Setting.exists_ends_of_group hbody hcompiled hcompiled' hconstants hconstants' hinput rfl
    (Nat.min_le_right pos subject.size)

end Pattern

/-- A group with a group of the same name in it, a reference to that one in a substitution, and a
match-time capture. -/
def quoting : Pattern :=
  .seq (.capture (.named "x") (.any 1))
    (.seq (.capture .subst (.seq (.backref "x") (.any 1))) (.capture (.matchTime stepBack) (.any 1)))

/-- The program of the named group and a reference to it. -/
def quotingNamedProgram : Program where
  code := #[.any 1 0, .openCapture .group 1 4, .fullCapture .group 1 1, .openCapture .subst 0 0,
    .emptyCaptureConst .backref 2, .any 1 0, .closeCapture, .any 1 0, .openCapture .matchTime 1 3,
    .closeMatchTime, .closeCapture, .emptyCaptureConst .backref 5, .done, .giveUp]
  constants := #[.name "x", .name "x", .matchTime stepBack, .name "x", .name "x"]

/-- The program of the group without a name. -/
def quotingGroupProgram : Program where
  code := #[.any 1 0, .openCapture .group 1 0, .fullCapture .group 1 1, .openCapture .subst 0 0,
    .emptyCaptureConst .backref 2, .any 1 0, .closeCapture, .any 1 0, .openCapture .matchTime 1 3,
    .closeMatchTime, .closeCapture, .done, .giveUp]
  constants := #[.name "x", .name "x", .matchTime stepBack]

theorem quoting_matches_group :
    (∃ program, quoting.compile = .ok program) ∧
    ∃ outcome, (⟨quotingNamedProgram, ⟨some 1⟩, #[97, 98, 99], []⟩ : Setting).Ends 0 outcome ∧
      (⟨quotingGroupProgram, ⟨some 1⟩, #[97, 98, 99], []⟩ : Setting).Ends 0 outcome := by
  have hcompiles : ∃ program, quoting.compile = .ok program := ⟨_, rfl⟩
  exact ⟨hcompiles, (Pattern.named_backref_eq_group "x" hcompiles).2 quotingNamedProgram
    quotingGroupProgram rfl rfl ⟨some 1⟩ #[97, 98, 99] [] 0⟩

end PegMachine
