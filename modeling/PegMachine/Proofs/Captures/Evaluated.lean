import PegMachine.Proofs.Captures.Templates

/-!
# Values of recorded captures

* `Resolver.valuesOf_eq`: the values of a capture, from those of the captures nested in it.
* `Resolver.finds_values`: **with enough depth, the values of every capture are found.**
* `Resolver.resolve_eq`, `Resolver.nested_eq`: **the values of a list of captures, and those nested
  in one of them, are what their readings say.**
-/

namespace PegMachine

namespace Resolver

variable {r : Resolver} {resolve : Nat → Except Fault Yield} {lo hi cursor next start stop : Nat}
  {bindings : Bindings} {captures nested : List Capture} {capture : Capture} {content : Content}
  {kind : CaptureKind} {index : Nat}

theorem Holds.next_eq (h : r.Holds lo cursor [.node content start stop nested] hi next)
    (hwraps : content.wraps = false) : next = cursor + 1 := by
  cases h.1 with
  | full _ _ _ hrest | dynamic _ _ _ hrest =>
    cases hrest
    rfl
  | nest _ _ _ hwraps' =>
    rw [hwraps] at hwraps'
    cases hwraps'

theorem valuesOf_eq (hname : Names r.program kind index content)
    (hnested : r.Finds resolve (cursor + 1) next)
    (hbefore : ∀ limit, limit ≤ cursor → r.Finds resolve 0 limit)
    (h : r.Holds lo cursor [.node content start stop nested] hi next)
    (hv : Visible r cursor bindings) :
    r.valuesOf resolve kind index start cursor =
      (content.values r.subject r.arguments bindings start stop (r.readings bindings nested)).map
        (⟨·, next⟩) := by
  have hencloses : r.Encloses cursor start stop nested next := h.encloses (by
    rintro values rfl
    cases hname)
  rw [valuesOf.eq_def]
  cases hname with
  | position =>
    cases h.next_eq rfl
    rfl
  | const hconst =>
    cases h.next_eq rfl
    rw [hconst]
    rfl
  | argument =>
    cases h.next_eq rfl
    cases index with
    | zero => rfl
    | succ n =>
      simp only [Content.values]
      cases r.arguments[n]? <;> rfl
  | backref hconst =>
    cases h.next_eq rfl
    rw [hconst]
    exact backref_eq hbefore hv _
  | simple =>
    rw [show r.program.constant? 0 = none from rfl]
    simp only
    rw [textAndNested_eq hnested hencloses hv, Content.values]
    cases nestedValues (r.readings bindings nested) <;> rfl
  | table =>
    rw [show r.program.constant? 0 = none from rfl]
    simp only
    rw [collect_eq hnested hencloses hv, Content.values]
    cases nestedValues (r.readings bindings nested) <;> rfl
  | subst =>
    rw [show r.program.constant? 0 = none from rfl]
    simp only
    rw [substitute_eq hnested hencloses hv, Content.values]
    cases replaced r.subject start stop (r.readings bindings nested) <;> rfl
  | group =>
    rw [show r.program.constant? 0 = none from rfl]
    simp only [if_true]
    rw [nestedOrText_eq hnested hencloses hv, Content.values]
  | named hconst =>
    have hindex : index ≠ 0 := by
      rintro rfl
      cases hconst
    rw [hconst]
    simp only [if_neg hindex]
    rw [h.1.after?_eq]
    rfl
  | fold hconst =>
    rw [hconst]
    simp only
    rw [fold_eq hnested _ hencloses hv, Content.values]
    cases folded _ (r.readings bindings nested) <;> rfl
  | function hconst =>
    rw [hconst]
    simp only
    rw [nestedOrText_eq hnested hencloses hv, Content.values]
    cases nestedOr (r.subject.extract start stop) (r.readings bindings nested) <;> rfl
  | query hconst =>
    rw [hconst]
    simp only
    rw [nestedOrText_eq hnested hencloses hv, Content.values]
    cases nestedOr (r.subject.extract start stop) (r.readings bindings nested) <;> rfl
  | template hconst =>
    rw [hconst]
    simp only
    rw [fill_eq hnested _ hencloses hv, Content.values]
    cases expand (partText (partsWithin r.subject start stop (r.readings bindings nested))) #[]
      _ <;> rfl

/-! ## Depth -/

/-- Nested captures and captures before a back reference need less depth. The first number bounds
the captures in reach, which only a back reference lowers; the second one is where they start. -/
theorem depth_lt {size first limit depth first' limit' : Nat}
    (h : limit * (size + 1) + (size - first) < depth + 1) (hfirst : first' ≤ size)
    (hless : limit' < limit ∨ (limit' ≤ limit ∧ first < first')) :
    limit' * (size + 1) + (size - first') < depth := by
  rcases hless with hlt | ⟨hle, hlt⟩
  · have hmul : (limit' + 1) * (size + 1) ≤ limit * (size + 1) := Nat.mul_le_mul_right _ hlt
    rw [Nat.add_mul, Nat.one_mul] at hmul
    omega
  · have hmul : limit' * (size + 1) ≤ limit * (size + 1) := Nat.mul_le_mul_right _ hle
    omega

/-- **With enough depth, the values of every capture are found.** -/
theorem finds_values (r : Resolver) (depth first limit : Nat) (hfirst : first ≤ r.entries.size)
    (hdepth : limit * (r.entries.size + 1) + (r.entries.size - first) < depth) :
    r.Finds (r.values depth) first limit := by
  induction depth generalizing first limit with
  | zero => omega
  | succ depth ih =>
    intro lo cursor hi next bindings capture hcursor hnext hv h
    obtain ⟨content, start, stop, nested⟩ := capture
    obtain ⟨⟨entry, hat, -⟩, -⟩ := h.1.start_eq
    have hsize := (Array.getElem?_eq_some_iff.1 hat).1
    have hlt := h.1.lt_next
    have hnested : r.Finds (r.values depth) (cursor + 1) next :=
      ih (cursor + 1) next hsize (depth_lt hdepth hsize (.inr ⟨hnext, by omega⟩))
    have hbefore : ∀ limit', limit' ≤ cursor → r.Finds (r.values depth) 0 limit' :=
      fun limit' hle => ih 0 limit' (Nat.zero_le _)
        (depth_lt hdepth (Nat.zero_le _) (.inl (by omega)))
    have hvalues : ∀ {kind index pos}, Names r.program kind index content → pos = start →
        r.valuesOf (r.values depth) kind index pos cursor =
          (r.reading bindings (.node content start stop nested)).values.map (⟨·, next⟩) := by
      rintro kind index _ hname rfl
      exact valuesOf_eq hname hnested hbefore h hv
    cases h.1 with
    | full hat _ hname =>
      rw [values, hat]
      exact hvalues hname rfl
    | dynamic hat _ _ hrest =>
      cases hrest
      rw [values, hat]
      rfl
    | nest hat _ hname =>
      rw [values, hat]
      exact hvalues hname rfl

theorem finds_maxDepth (r : Resolver) {limit : Nat} (hlimit : limit ≤ r.entries.size) :
    r.Finds (r.values r.maxDepth) 0 limit := by
  refine r.finds_values _ 0 limit (Nat.zero_le _) ?_
  have hmul : limit * (r.entries.size + 1) ≤ r.entries.size * (r.entries.size + 1) :=
    Nat.mul_le_mul_right _ hlimit
  rw [maxDepth, Nat.add_mul, Nat.one_mul]
  omega

/-! ## Whole lists -/

theorem resolveFrom_eq (h : r.Holds lo cursor captures hi r.entries.size)
    (hv : Visible r cursor bindings) (done : Array Value) :
    r.resolveFrom cursor done = (nestedValues (r.readings bindings captures)).map
      fun values : List Value => done ++ values := by
  induction captures generalizing lo cursor bindings done with
  | nil =>
    obtain ⟨h, -⟩ := h
    cases h
    rw [resolveFrom, if_neg (Nat.lt_irrefl _)]
    simp [readings, readAll, nestedValues, Except.map]
  | cons capture others ih =>
    obtain ⟨mid, after, hhead, hrest⟩ := h.uncons
    have hlt := hhead.1.lt_next
    have hle := hrest.1.le_next
    rw [resolveFrom, if_pos (by omega),
      r.finds_maxDepth (Nat.le_refl _) (Nat.zero_le _) hle hv hhead,
      show r.readings bindings (capture :: others) = r.reading bindings capture ::
        r.readings ((r.reading bindings capture).bindings ++ bindings) others from rfl,
      nestedValues]
    cases (r.reading bindings capture).values with
    | error fault => rfl
    | ok values =>
      simp only [Except.map, if_pos hlt, bind, Except.bind]
      rw [ih hrest (hhead.visible hv)]
      cases nestedValues (r.readings _ others) with
      | error fault => rfl
      | ok more =>
        refine congrArg Except.ok (Array.toList_inj.1 ?_)
        simp

/-- **The values of a list of captures are what their readings say.** -/
theorem resolve_eq (h : r.Holds lo 0 captures hi r.entries.size) :
    r.resolve = evaluate r.subject r.arguments captures := by
  rw [resolve, resolveFrom_eq h .start, evaluate, readings]
  cases nestedValues (readAll r.subject r.arguments [] captures) with
  | error fault => rfl
  | ok values => simp [Except.map, bind, Except.bind, pure, Except.pure]

/-- **The values nested in the last capture of a list are what their readings say.** -/
theorem nested_eq (h : r.Encloses cursor start stop nested next) (hnext : next ≤ r.entries.size)
    (hv : Visible r cursor bindings) :
    r.nested cursor = nestedOr (r.subject.extract start stop) (r.readings bindings nested) := by
  have hfinds : r.Finds (r.values r.maxDepth) (cursor + 1) next := fun _ =>
    r.finds_maxDepth hnext (Nat.zero_le _)
  rw [Resolver.nested, nestedOrText_eq hfinds h hv]
  cases nestedOr (r.subject.extract start stop) (r.readings bindings nested) <;> rfl

end Resolver

end PegMachine
