import PegMachine.Proofs.Blocks.Onward

/-!
# Linked grammars, rule by rule

What becomes of a call depends on the rule that it stands in only, although calls are linked one
after another and chains of jumps are followed through code that is linked in part.

* `Block.linkCalls_getElem?`: whether a call becomes a jump is decided as in code in which no call
  has been linked.
* `Block.ruleAddress_inj`: no two rules share an address.
* `Block.LinkedCode`, `Block.linkedCode_of_link`: **the linked code of a grammar.**
-/

namespace PegMachine

/-- A call that was linked: a jump where nothing but a return follows. -/
def linkedCall (returns : Bool) (offset : Int) : Instr :=
  if returns then .jump offset else .call offset

/-- An instruction of code in which all calls were linked. -/
def linkedInstr (returns : Bool) (offset : Nat → Int) : Instr → Instr
  | .openCall rule => linkedCall returns (offset rule)
  | instr => instr

theorem linkedInstr_of_ne (returns : Bool) (offset : Nat → Int) {instr : Instr}
    (h : ∀ rule, instr ≠ .openCall rule) : linkedInstr returns offset instr = instr := by
  cases instr with
  | openCall rule => exact absurd rfl (h rule)
  | _ => rfl

namespace Block

variable {raw body : Block} {code : Array Instr} {addresses : Array Nat} {n : Nat}

/-- Only calls before `n` have been linked, and none of them is met on the way. -/
theorem returnsAt_linking (hraw : Onward raw)
    (hsame : ∀ k : Nat, code[k]? = raw[k]? ∨ k < n ∧ ∃ rule, raw[k]? = some (.openCall rule))
    (fuel : Nat) {start : Nat}
    (hleads : ∀ stop rule, Leads raw start stop → raw[stop]? = some (.openCall rule) → n ≤ stop) :
    returnsAt code fuel start = returnsAt raw.toArray fuel start := by
  induction fuel generalizing start with
  | zero => rfl
  | succ fuel ih =>
    have hstart : code[start]? = raw[start]? := by
      rcases hsame start with h | ⟨hlt, rule, hcall⟩
      · exact h
      · exact absurd (hleads start rule (.refl _) hcall) (by omega)
    rw [returnsAt, returnsAt, Int.toNat_natCast, hstart, List.getElem?_toArray]
    cases hinstr : raw[start]? with
    | none => rfl
    | some instr =>
      cases instr with
      | jump off =>
        have hstays := (hraw.stays _ _ hinstr).1
        obtain ⟨mid, hmid⟩ := Int.eq_ofNat_of_zero_le hstays
        dsimp only
        rw [hmid, ih fun stop rule hrest => hleads stop rule (.jump hinstr hmid hrest)]
      | _ => rfl

/-- **Whether a call becomes a jump is decided as in code in which no call has been linked.** -/
theorem linkCalls_getElem? (hraw : Onward raw) (addresses : Array Nat) (n : Nat) :
    let code := (List.range n).foldl (linkCall addresses) raw.toArray
    code.size = raw.length ∧ ∀ k : Nat, code[k]? = raw[k]?.map fun instr =>
      if k < n then linkedInstr (returnsAt raw.toArray raw.length (k + 1 : Nat))
        (fun rule => addresses.getD rule 0 - k) instr
      else instr := by
  induction n with
  | zero => simp
  | succ n ih =>
    obtain ⟨hsize, hlinked⟩ := ih
    rw [List.range_succ, List.foldl_append]
    generalize (List.range n).foldl (linkCall addresses) raw.toArray = code at hsize hlinked
    refine ⟨size_linkCall.trans hsize, fun k => ?_⟩
    by_cases hk : k = n
    · subst hk
      have hcode : code[k]? = raw[k]? := by simpa using hlinked k
      have hsame : ∀ j : Nat, code[j]? = raw[j]? ∨
          j < k ∧ ∃ rule, raw[j]? = some (.openCall rule) := by
        intro j
        rw [hlinked j]
        cases hinstr : raw[j]? with
        | none => exact .inl rfl
        | some instr =>
          by_cases hlt : j < k
          · cases instr with
            | openCall rule => exact .inr ⟨hlt, rule, rfl⟩
            | _ => exact .inl (by simp [linkedInstr])
          · exact .inl (by simp [hlt])
      -- what follows the call leads onward, past all the calls that are linked
      have hreturns : returnsAt code raw.length (k + 1 : Nat) =
          returnsAt raw.toArray raw.length (k + 1 : Nat) :=
        returnsAt_linking hraw hsame raw.length fun stop rule hleads hcall => by
          have := hraw.le_of_leads _ _ rule hleads hcall
          omega
      rw [List.foldl_cons, List.foldl_nil, linkCall, hcode]
      cases hinstr : raw[k]? with
      | none => simp [hcode, hinstr]
      | some instr =>
        cases instr with
        | openCall rule =>
          have hlt : k < code.size := hsize ▸ (List.getElem?_eq_some_iff.1 hinstr).1
          dsimp only
          rw [Array.getElem?_setIfInBounds_self, if_pos hlt, hsize,
            show (k : Int) + 1 = (k + 1 : Nat) from rfl, hreturns, Option.map_some,
            if_pos (Nat.lt_succ_self k)]
          rfl
        | _ => simp [hcode, hinstr, linkedInstr]
    · rw [List.foldl_cons, List.foldl_nil, linkCall_getElem? hk, hlinked]
      have : k < n + 1 ↔ k < n := by omega
      simp only [this]

/-! ## Rules -/

theorem getElem?_startsFrom {bodies : List Block} {rule : Nat} (h : bodies[rule]? = some body) :
    (startsFrom 2 bodies)[rule]? = some (ruleAddress bodies rule) := by
  obtain ⟨address, haddress, -⟩ := standsAt_startsFrom 2 h
  rw [ruleAddress, Array.getD_eq_getD_getElem?, List.getElem?_toArray, haddress]
  rfl

theorem le_startsFrom {bodies : List Block} {start address : Nat}
    (h : address ∈ startsFrom start bodies) : start ≤ address := by
  induction bodies generalizing start with
  | nil => cases h
  | cons first rest ih =>
    rcases List.mem_cons.1 h with rfl | h
    · exact Nat.le_refl _
    · have := ih h
      omega

theorem startsFrom_lt {bodies : List Block} {start a b i j : Nat} (hbody : bodies[i]? = some body)
    (ha : (startsFrom start bodies)[i]? = some a) (hb : (startsFrom start bodies)[j]? = some b)
    (hlt : i < j) : a + body.length < b := by
  induction bodies generalizing start i j with
  | nil => cases hbody
  | cons first rest ih =>
    obtain ⟨j, rfl⟩ := Nat.exists_eq_succ_of_ne_zero (Nat.ne_of_gt (Nat.zero_lt_of_lt hlt))
    cases i with
    | zero =>
      cases hbody
      obtain rfl : start = a := Option.some.inj ha
      have hrest : (startsFrom (start + body.length + 1) rest)[j]? = some b := hb
      have := le_startsFrom (List.mem_of_getElem? hrest)
      omega
    | succ i => exact ih hbody ha hb (Nat.lt_of_succ_lt_succ hlt)

theorem two_le_ruleAddress {bodies : List Block} {rule : Nat} (h : bodies[rule]? = some body) :
    2 ≤ ruleAddress bodies rule :=
  le_startsFrom (List.mem_of_getElem? (getElem?_startsFrom h))

theorem ruleAddress_inj {bodies : List Block} {bodyA bodyB : Block} {a b i j : Nat}
    (ha : bodies[a]? = some bodyA) (hb : bodies[b]? = some bodyB) (hi : i ≤ bodyA.length)
    (hj : j ≤ bodyB.length) (heq : ruleAddress bodies a + i = ruleAddress bodies b + j) :
    a = b ∧ i = j := by
  rcases Nat.lt_trichotomy a b with hlt | rfl | hlt
  · have := startsFrom_lt ha (getElem?_startsFrom ha) (getElem?_startsFrom hb) hlt
    omega
  · exact ⟨rfl, by omega⟩
  · have := startsFrom_lt hb (getElem?_startsFrom hb) (getElem?_startsFrom ha) hlt
    omega

theorem length_link {startRule : Nat} {bodies : List Block} {code : Block}
    (h : link startRule bodies = .ok code) : code.length = 2 + (ruleBlocks bodies).length := by
  obtain ⟨toStart, toEnd, -, -, hlength, -⟩ := link_eq h
  rw [hlength, unlinked, List.length_cons, List.length_cons]
  omega

theorem returnsAt_of_standsAt {address : Nat} (hat : StandsAt raw address (body ++ [.ret]))
    (hbody : Onward body) (fuel : Nat) {k : Nat} (hk : k ≤ body.length) :
    returnsAt raw.toArray fuel (address + k : Nat) =
      returnsAt (body ++ [Instr.ret]).toArray fuel k := by
  induction fuel generalizing k with
  | zero => rfl
  | succ fuel ih =>
    have hinstr : raw[address + k]? = (body ++ [Instr.ret])[k]? :=
      hat.getElem? (by rw [List.length_append, List.length_singleton]; omega)
    rw [returnsAt, returnsAt, if_neg (by omega), if_neg (by omega), Int.toNat_natCast,
      Int.toNat_natCast, List.getElem?_toArray, List.getElem?_toArray, hinstr]
    cases hcode : (body ++ [Instr.ret])[k]? with
    | none => rfl
    | some instr =>
      cases instr with
      | jump off =>
        have hlt : k < body.length := by
          rcases Nat.lt_or_eq_of_le hk with hlt | rfl
          · exact hlt
          · simp at hcode
        rw [List.getElem?_append_left hlt] at hcode
        obtain ⟨hlo, hhi⟩ := hbody.stays k off hcode
        obtain ⟨mid, hmid⟩ := Int.eq_ofNat_of_zero_le hlo
        dsimp only
        rw [show ((address + k : Nat) : Int) + off = (address + mid : Nat) by omega, hmid,
          ih (by omega)]
      | _ => rfl

/-- Before calls are linked, no chain of jumps leads to a call before its start. -/
theorem onward_unlinked {bodies : List Block} (honward : ∀ body ∈ bodies, Onward body)
    (toStart : Int) :
    Onward (unlinked toStart (1 + (ruleBlocks bodies).length : Nat) bodies) := by
  have hblocks : Onward (ruleBlocks bodies) := by
    refine onward_flatten fun block hblock => ?_
    obtain ⟨body, hbody, rfl⟩ := List.mem_map.1 hblock
    exact onward_append (honward body hbody) (onward_single rfl)
  rw [unlinked, Nat.add_comm 1]
  exact hblocks.jump_cons.cons rfl

/-- The instructions of a linked grammar, from those in which no call has been linked. -/
theorem link_getElem? {startRule : Nat} {bodies : List Block} {code : Block}
    (hcode : link startRule bodies = .ok code) (honward : ∀ body ∈ bodies, Onward body)
    (hraw : unlinked (ruleAddress bodies startRule : Nat) (1 + (ruleBlocks bodies).length : Nat)
      bodies = raw) (k : Nat) :
    code[k]? = raw[k]?.map (linkedInstr (returnsAt raw.toArray code.length (k + 1 : Nat))
      fun callee => ruleAddress bodies callee - k) := by
  have hlength : raw.length = 2 + (ruleBlocks bodies).length := by
    rw [← hraw, unlinked, List.length_cons, List.length_cons]
    omega
  obtain ⟨-, hlinked⟩ := linkCalls_getElem? (hraw ▸ onward_unlinked honward _)
    (startsFrom 2 bodies).toArray (2 + (ruleBlocks bodies).length)
  rw [length_link hcode, ← hlength]
  obtain ⟨-, -, rfl⟩ := link_ok.1 hcode
  rw [show (startsFrom 2 bodies).toArray.getD startRule 0 = ruleAddress bodies startRule from rfl,
    hraw, Array.getElem?_toList, hlinked]
  cases hinstr : raw[k]? with
  | none => rfl
  | some instr =>
    have hlt := (List.getElem?_eq_some_iff.1 hinstr).1
    rw [Option.map_some, Option.map_some, if_pos (hlength ▸ hlt)]
    rfl

/-- What is at the addresses of a linked grammar. -/
structure LinkedCode (startRule : Nat) (bodies : List Block) (code : Block) : Prop where
  length_eq : code.length = 2 + (ruleBlocks bodies).length
  entry : code[0]? = some (.call (ruleAddress bodies startRule))
  exit : code[1]? = some (.jump (1 + (ruleBlocks bodies).length : Nat))
  rule : ∀ (rule k : Nat) (body : Block), bodies[rule]? = some body → k ≤ body.length →
    code[ruleAddress bodies rule + k]? = (body ++ [Instr.ret])[k]?.map
      (linkedInstr (returnsAt (body ++ [Instr.ret]).toArray code.length (k + 1 : Nat))
        fun callee => ruleAddress bodies callee - (ruleAddress bodies rule + k : Nat))

/-- **The linked code of a grammar.** Where a call becomes a jump depends on the rule that it stands
in only. -/
theorem linkedCode_of_link {startRule : Nat} {bodies : List Block} {code : Block}
    (hcode : link startRule bodies = .ok code) (honward : ∀ body ∈ bodies, Onward body) :
    LinkedCode startRule bodies code := by
  generalize hraw : unlinked (ruleAddress bodies startRule : Nat)
    (1 + (ruleBlocks bodies).length : Nat) bodies = raw
  have hlinked := link_getElem? hcode honward hraw
  refine ⟨length_link hcode, ?_, ?_, fun rule k body hbody hk => ?_⟩
  · rw [hlinked, ← hraw]
    simp [unlinked, linkedInstr]
  · rw [hlinked, ← hraw]
    simp [unlinked, linkedInstr]
  · have hat : StandsAt raw (ruleAddress bodies rule) (body ++ [Instr.ret]) :=
      hraw ▸ standsAt_unlinked hbody
    rw [hlinked, hat.getElem? (by rw [List.length_append, List.length_singleton]; omega)]
    rcases Nat.lt_or_eq_of_le hk with hk | rfl
    · rw [Nat.add_assoc,
        returnsAt_of_standsAt hat (honward body (List.mem_of_getElem? hbody)) _ hk]
    · rw [List.getElem?_concat_length]
      rfl

theorem exists_startsFrom {bodies : List Block} (start : Nat) {k : Nat}
    (hk : k < (ruleBlocks bodies).length) :
    ∃ (rule address j : Nat) (body : Block), bodies[rule]? = some body ∧
      (startsFrom start bodies)[rule]? = some address ∧ j ≤ body.length ∧
      start + k = address + j := by
  induction bodies generalizing start k with
  | nil => cases hk
  | cons first rest ih =>
    by_cases hfirst : k ≤ first.length
    · exact ⟨0, start, k, first, rfl, rfl, hfirst, rfl⟩
    · have hlength : (ruleBlocks (first :: rest)).length =
          first.length + 1 + (ruleBlocks rest).length := by
        simp [ruleBlocks]
        omega
      obtain ⟨rule, address, j, body, hbody, haddress, hj, heq⟩ :=
        ih (start + first.length + 1) (k := k - (first.length + 1)) (by omega)
      exact ⟨rule + 1, address, j, body, hbody, haddress, hj, by omega⟩

namespace LinkedCode

variable {startRule rule k : Nat} {bodies : List Block} {code : Block}

theorem cases (h : LinkedCode startRule bodies code) (hk : k < code.length) :
    k = 0 ∨ k = 1 ∨ ∃ (rule j : Nat) (body : Block), bodies[rule]? = some body ∧
      j ≤ body.length ∧ k = ruleAddress bodies rule + j := by
  match k, hk with
  | 0, _ => exact .inl rfl
  | 1, _ => exact .inr (.inl rfl)
  | k + 2, hk =>
    rw [h.length_eq] at hk
    obtain ⟨rule, address, j, body, hbody, haddress, hj, heq⟩ :=
      exists_startsFrom 2 (by omega : k < (ruleBlocks bodies).length)
    refine .inr (.inr ⟨rule, j, body, hbody, hj, ?_⟩)
    rw [ruleAddress, Array.getD_eq_getD_getElem?, List.getElem?_toArray, haddress, Option.getD_some]
    omega

theorem lt_length (h : LinkedCode startRule bodies code) (hbody : bodies[rule]? = some body)
    (hk : k ≤ body.length) : ruleAddress bodies rule + k < code.length := by
  have hinstr := h.rule rule k body hbody hk
  have hin : k < (body ++ [Instr.ret]).length := by
    rw [List.length_append, List.length_singleton]
    omega
  rw [List.getElem?_eq_getElem hin] at hinstr
  exact (List.getElem?_eq_some_iff.1 hinstr).1

theorem getElem?_of_lt (h : LinkedCode startRule bodies code) (hbody : bodies[rule]? = some body)
    {instr : Instr} (hinstr : body[k]? = some instr) :
    code[ruleAddress bodies rule + k]? =
      some (linkedInstr (returnsAt (body ++ [Instr.ret]).toArray code.length (k + 1 : Nat))
        (fun callee => ruleAddress bodies callee - (ruleAddress bodies rule + k : Nat)) instr) := by
  have hlt := (List.getElem?_eq_some_iff.1 hinstr).1
  rw [h.rule rule k body hbody (Nat.le_of_lt hlt), List.getElem?_append_left hlt, hinstr]
  rfl

theorem getElem?_ret (h : LinkedCode startRule bodies code) (hbody : bodies[rule]? = some body) :
    code[ruleAddress bodies rule + body.length]? = some .ret := by
  rw [h.rule rule _ body hbody (Nat.le_refl _), List.getElem?_concat_length]
  rfl

end LinkedCode

end Block

end PegMachine
