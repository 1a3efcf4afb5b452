import PegMachine.Proofs.Blocks.Linking
import PegMachine.Proofs.Nesting.Places

/-!
# Nested grammars

* `Block.placing_rules`: the places of rules that are laid out one after another.
* `Block.Placing.linkCall`: linking a call leaves the places as they are. A call becomes a jump only
  where nothing but the call of a rule is open.
* `Block.nested_link`: **the code of a grammar is nested if the code of its rules is.**
-/

namespace PegMachine

namespace Block

variable {program : Program} {rules : Nat} {place : Nat → Place} {code body : Block}
  {bodies : List Block} {instr : Instr} {p q : Place}

/-! ## Rules one after another -/

/-- The places of rules that are laid out one after another, `starts` starts of captures before
them. -/
theorem placing_rules (base starts : Nat) (hnested : ∀ body ∈ bodies, Nested program rules body)
    (hcont : ∀ body ∈ bodies, Contained body) :
    ∃ place entry starts', Placing program rules (ruleBlocks bodies) place entry (.past starts') ∧
      entry.starts = starts ∧ entry.unclosed = [] ∧
      ∀ (rule address : Nat), (startsFrom base bodies)[rule]? = some address →
        ∃ k, address = base + k ∧ k ≤ (ruleBlocks bodies).length ∧ (place k).nest = .rule ∧
          (place k).lag = 0 := by
  induction bodies generalizing base starts with
  | nil => exact ⟨_, _, starts, .nil _, rfl, rfl, by simp [startsFrom]⟩
  | cons body rest ih =>
    rw [List.forall_mem_cons] at hnested hcont
    obtain ⟨placeBody, startsBody, hbody⟩ := hnested.1
    obtain ⟨placeRest, entry, starts', hrest, hstarts, hunclosed, haddresses⟩ :=
      ih (base + body.length + 1) (startsBody + starts) hnested.2 hcont.2
    have hbody' := hbody.within hcont.1 ⟨.rule, 0, starts, []⟩
    rw [Place.entry_within rfl] at hbody'
    have hrule := hbody'.snoc .ret (r := entry) hcont.1 fun place' _ hend hexit => by
      rw [Instr.Fits, hend, hexit]
      exact ⟨rfl, hstarts, hunclosed⟩
    have hcontRule : Contained (body ++ [.ret]) :=
      contained_append hcont.1 (contained_of_offset?_eq_none (by simp [Instr.offset?]))
    have hwhole := hrule.append hrest hcontRule (contained_ruleBlocks hcont.2)
    refine ⟨_, _, starts', hwhole, rfl, rfl, fun rule address haddress => ?_⟩
    cases rule with
    | zero =>
      cases haddress
      exact ⟨0, rfl, Nat.zero_le _, congrArg Place.nest hwhole.entry,
        congrArg Place.lag hwhole.entry⟩
    | succ rule =>
      obtain ⟨k, rfl, hk, hnest, hlag⟩ := haddresses rule address haddress
      have hplace : Place.join (body ++ [Instr.ret]).length
          (Place.join body.length (fun k => (placeBody k).within ⟨.rule, 0, starts, []⟩)
            (Place.cons ((Place.past startsBody).within ⟨.rule, 0, starts, []⟩) fun _ => entry))
          placeRest ((body ++ [Instr.ret]).length + k) = placeRest k := Place.join_behind
      refine ⟨(body ++ [Instr.ret]).length + k, by simp; omega, by simp [ruleBlocks] at hk ⊢; omega,
        ?_, ?_⟩
      · exact (congrArg Place.nest hplace).trans hnest
      · exact (congrArg Place.lag hplace).trans hlag

/-! ## Linking -/

section

variable {addresses : Array Nat} {linked : Array Instr}

/-- Where code returns right away, the call of a rule is what is open. -/
theorem Placing.nest_of_returnsAt (h : Placing program rules linked.toList place p q) (fuel : Nat)
    {target : Int} (hret : PegMachine.returnsAt linked fuel target = true) :
    (place target.toNat).nest = .rule := by
  induction fuel generalizing target with
  | zero => cases hret
  | succ fuel ih =>
    rw [PegMachine.returnsAt] at hret
    split at hret
    · cases hret
    · next hneg =>
      have hfits : ∀ instr, linked[target.toNat]? = some instr →
          instr.Fits program rules place target.toNat := fun instr hinstr => by
        have := h.fits target.toNat instr (by rwa [Array.getElem?_toList])
        rwa [Nat.zero_add] at this
      split at hret
      · next off hinstr =>
        obtain ⟨-, hland⟩ := hfits _ hinstr
        rw [show ((target.toNat : Nat) : Int) + off = target + off by omega] at hland
        rw [← hland.nest]
        exact ih hret
      · next hinstr => exact (hfits _ hinstr).1
      · cases hret

theorem Placing.linkCall (h : Placing program rules linked.toList place p q)
    (hrules : ∀ rule, rule < rules → Place.LandsIn place (addresses.getD rule 0 : Nat) .rule)
    (address : Nat) :
    Placing program rules (PegMachine.linkCall addresses linked address).toList place p q := by
  have hexit : place (PegMachine.linkCall addresses linked address).toList.length = q := by
    rw [Array.length_toList, size_linkCall, ← Array.length_toList]
    exact h.exit
  refine ⟨h.entry, hexit, fun k instr hk => ?_⟩
  have hfits : ∀ instr, linked[k]? = some instr → instr.Fits program rules place k :=
    fun instr hinstr => by
      have := h.fits k instr (by rwa [Array.getElem?_toList])
      rwa [Nat.zero_add] at this
  rw [Nat.zero_add]
  rw [Array.getElem?_toList] at hk
  by_cases hne : k = address
  · subst hne
    rw [PegMachine.linkCall] at hk
    split at hk
    · next rule hcall =>
      obtain ⟨hkeeps, hlag, hlt⟩ := hfits _ hcall
      have hland := hrules rule hlt
      rw [Array.getElem?_setIfInBounds_self, if_pos (Array.getElem?_eq_some_iff.1 hcall).1] at hk
      have htarget : (k : Int) + ((addresses.getD rule 0 : Nat) - (k : Int)) =
          (addresses.getD rule 0 : Nat) := by
        omega
      split at hk
      · next hret =>
        cases hk
        have hnest := h.nest_of_returnsAt _ hret
        rw [show ((k : Int) + 1).toNat = k + 1 by omega, hkeeps.nest] at hnest
        refine ⟨hkeeps.toBeside, ?_⟩
        rw [htarget, hnest]
        exact hland
      · cases hk
        refine ⟨hkeeps, hlag, ?_⟩
        rw [htarget]
        exact hland
    · exact hfits _ hk
  · rw [linkCall_getElem? hne] at hk
    exact hfits _ hk

theorem Placing.closed (h : Placing program rules code place p q)
    (hclosed : ∀ rule, .openCall rule ∉ code) (rules' : Nat) :
    Placing program rules' code place p q := by
  refine ⟨h.entry, h.exit, fun k instr hk => ?_⟩
  have hfits := h.fits k instr hk
  cases instr with
  | openCall rule => exact absurd (List.mem_of_getElem? hk) (hclosed rule)
  | _ => exact hfits

end

/-- **The code of a grammar is nested if the code of its rules is.** -/
theorem nested_link {startRule : Nat} (hcode : link startRule bodies = .ok code)
    (hstart : startRule < bodies.length)
    (hnested : ∀ body ∈ bodies, Nested program bodies.length body)
    (hcont : ∀ body ∈ bodies, Contained body) : Nested program rules code := by
  have hclosed : ∀ rule, .openCall rule ∉ code := fun rule => not_mem_link hcode
  obtain ⟨place, entry, starts, hblocks, hstarts, hunclosed, haddresses⟩ :=
    placing_rules 2 0 hnested hcont
  have hcontBlocks := contained_ruleBlocks hcont
  have hcontJump : Contained (.jump (1 + (ruleBlocks bodies).length : Nat) :: ruleBlocks bodies) := by
    refine jumpsWithin_cons.2 ⟨fun off hoff => ?_, hcontBlocks.within (by simp) (by simp; omega)⟩
    cases hoff
    simp
    omega
  -- The start of a rule, seen from the first instruction of the grammar.
  have hrules : ∀ rule, rule < bodies.length →
      Place.LandsIn (Place.cons (.past 0) (Place.cons (.past 0) place))
        ((startsFrom 2 bodies).toArray.getD rule 0 : Nat) .rule := by
    intro rule hrule
    obtain ⟨address, haddress, -⟩ := standsAt_startsFrom 2 (List.getElem?_eq_getElem hrule)
    obtain ⟨k, rfl, -, hnest, hlag⟩ := haddresses rule address haddress
    refine .of_eq (n := k + 1 + 1) ?_ rfl hnest hlag
    rw [Array.getD_eq_getD_getElem?, List.getElem?_toArray, haddress, Option.getD_some]
    omega
  have hjump := hblocks.cons (.jump (1 + (ruleBlocks bodies).length : Nat)) (p := .past 0)
    hcontBlocks (by
      refine ⟨?_, .of_eq (n := (ruleBlocks bodies).length + 1) (by omega) hblocks.exit rfl rfl⟩
      have hentry : Place.cons (.past 0) place (0 + 1) = entry := hblocks.entry
      rw [hentry]
      exact ⟨hstarts, hunclosed⟩)
  have hcall := hjump.cons (.call ((startsFrom 2 bodies).toArray.getD startRule 0 : Nat))
    (p := .past 0) hcontJump (by
      refine ⟨Place.Below.rfl.toKeeps, rfl, ?_⟩
      rw [Int.natCast_zero, Int.zero_add]
      exact hrules startRule hstart)
  have hfold : ∀ (addresses : List Nat) (linked : Array Instr),
      Placing program bodies.length linked.toList
        (Place.cons (.past 0) (Place.cons (.past 0) place)) (.past 0) (.past starts) →
      Placing program bodies.length
        (addresses.foldl (PegMachine.linkCall (startsFrom 2 bodies).toArray) linked).toList
        (Place.cons (.past 0) (Place.cons (.past 0) place)) (.past 0) (.past starts) := by
    intro addresses
    induction addresses with
    | nil => exact fun linked h => h
    | cons address rest ih => exact fun linked h => ih _ (h.linkCall hrules address)
  obtain ⟨-, -, rfl⟩ := link_ok.1 hcode
  exact ⟨_, starts, (hfold _ _ hcall).closed hclosed rules⟩

end Block

end PegMachine
