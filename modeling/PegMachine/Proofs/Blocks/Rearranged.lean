import PegMachine.Proofs.Blocks.LinkedRules
import PegMachine.Proofs.Machine.InStep

/-!
# Grammars with their rules in another order

* `Rearranged`: the blocks of the same rules in another order.
* `Faces`: the addresses of the same instructions in both orders.
* `Rearranged.inStep`: **the linked codes of both orders are in step.**
-/

namespace PegMachine

open Block

/-- The code of a rule of a grammar with so many rules. -/
structure Block.IsRule (rules : Nat) (body : Block) : Prop where
  contained : Contained body
  onward : Onward body
  call_lt : ∀ rule, .openCall rule ∈ body → rule < rules
  kind_ne : ∀ back index, .openCapture .argument back index ∉ body

/-- The blocks of the same rules in another order. What is at place `n` of the one is at `place n` of
the other. Constants may have other numbers. -/
structure Rearranged (program program' : Program) (place : Nat → Nat) (bodies bodies' : List Block) :
    Prop where
  length_eq : (ruleBlocks bodies').length = (ruleBlocks bodies).length
  onward : ∀ body ∈ bodies', Onward body
  body : ∀ (rule : Nat) (body : Block), bodies[rule]? = some body →
    body.IsRule bodies.length ∧ ∃ σ,
      bodies'[place rule]? = some (body.map (Instr.rename σ place)) ∧
      ∀ instr ∈ body,
        program'.constant? (σ instr.constantIndex) = program.constant? instr.constantIndex ∧
        (σ instr.constantIndex = 0 ↔ instr.constantIndex = 0)

/-- The addresses of the same instructions in both orders. -/
inductive Faces (place : Nat → Nat) (bodies bodies' : List Block) : Nat → Nat → Prop where
  | entry : Faces place bodies bodies' 0 0
  | exit : Faces place bodies bodies' 1 1
  | rule {rule k : Nat} {body : Block} (hbody : bodies[rule]? = some body) (hk : k ≤ body.length) :
      Faces place bodies bodies' (ruleAddress bodies rule + k)
        (ruleAddress bodies' (place rule) + k)
  | stop : Faces place bodies bodies' (2 + (ruleBlocks bodies).length)
      (2 + (ruleBlocks bodies').length)

section

variable {m m' : Setting} {place : Nat → Nat} {bodies bodies' : List Block} {code code' : Block}
  {n n' rule startRule : Nat} {instr : Instr}

theorem Faces.callee (hrule : rule < bodies.length) : Faces place bodies bodies'
    (ruleAddress bodies rule) (ruleAddress bodies' (place rule)) :=
  .rule (k := 0) (List.getElem?_eq_getElem hrule) (Nat.zero_le _)

theorem Faces.toNat_callee (n n' : Nat) (hrule : rule < bodies.length) :
    Faces place bodies bodies' ((n : Int) + (ruleAddress bodies rule - n)).toNat
      ((n' : Int) + (ruleAddress bodies' (place rule) - n')).toNat := by
  rw [show (n : Int) + (ruleAddress bodies rule - n) = ruleAddress bodies rule by omega,
    show (n' : Int) + (ruleAddress bodies' (place rule) - n') = ruleAddress bodies' (place rule) by
      omega]
  exact .callee hrule

theorem onMoves_linkedCall {pos : Nat} {captures captures' : Array Entry} (returns : Bool)
    (hrule : rule < bodies.length)
    (hnext : Faces place bodies bodies' (n + 1) (n' + 1)) :
    (alike m.program m'.program (Faces place bodies bodies')).OnMoves n n'
      (m.move (fun _ _ _ => none) pos captures
        (linkedCall returns (ruleAddress bodies rule - n)))
      (m'.move (fun _ _ _ => none) pos captures'
        (linkedCall returns (ruleAddress bodies' (place rule) - n'))) := by
  cases returns with
  | true => exact .jump (Faces.toNat_callee n n' hrule)
  | false => exact .call hnext (Faces.toNat_callee n n' hrule)

theorem onMoves_linkedInstr {σ : Nat → Nat} {address address' k pos : Nat}
    {captures captures' : Array Entry} {body : Block} (hinput : m.SameInput m')
    (hcaptures : EntriesAlike m.program m'.program captures captures') (returns : Bool)
    (hrule : body.IsRule bodies.length) (hinstr : body[k]? = some instr)
    (hconstants : instr ∈ body →
      m'.program.constant? (σ instr.constantIndex) = m.program.constant? instr.constantIndex ∧
      (σ instr.constantIndex = 0 ↔ instr.constantIndex = 0))
    (hfaces : ∀ j ≤ body.length, Faces place bodies bodies' (address + j) (address' + j)) :
    (alike m.program m'.program (Faces place bodies bodies')).OnMoves (address + k) (address' + k)
      (m.move (fun _ _ _ => none) pos captures (linkedInstr returns
        (fun callee => ruleAddress bodies callee - (address + k : Nat)) instr))
      (m'.move (fun _ _ _ => none) pos captures' (linkedInstr returns
        (fun callee => ruleAddress bodies' callee - (address' + k : Nat))
        (instr.rename σ place))) := by
  have hmem := List.mem_of_getElem? hinstr
  have hlt := (List.getElem?_eq_some_iff.1 hinstr).1
  obtain ⟨hconstant, hzero⟩ := hconstants hmem
  by_cases hcall : ∃ callee, instr = .openCall callee
  · obtain ⟨callee, rfl⟩ := hcall
    exact onMoves_linkedCall returns (hrule.call_lt callee hmem) (hfaces (k + 1) hlt)
  · have hne : ∀ callee, instr ≠ .openCall callee := fun callee he => hcall ⟨callee, he⟩
    rw [linkedInstr_of_ne _ _ hne, linkedInstr_of_ne _ _ (Instr.rename_ne_openCall σ place hne)]
    refine Likeness.onMoves_rename hinput hcaptures (hfaces (k + 1) hlt) hne
      (fun back index he => hrule.kind_ne back index (he ▸ hmem)) (fun off hoff => ?_) hconstant hzero
    obtain ⟨hlo, hhi⟩ := hrule.contained k instr off hinstr hoff
    rw [Int.natCast_zero, Int.zero_add] at hlo hhi
    obtain ⟨j, hj⟩ := Int.eq_ofNat_of_zero_le hlo
    have htarget := hfaces j (by omega)
    show Faces place bodies bodies' ((address + k : Nat) + off).toNat
      ((address' + k : Nat) + off).toNat
    rwa [show ((address + k : Nat) : Int) + off = (address + j : Nat) by omega,
      show ((address' + k : Nat) : Int) + off = (address' + j : Nat) by omega]

theorem Faces.eq_length (hfaces : Faces place bodies bodies' n n')
    (hcode : LinkedCode startRule bodies code)
    (hcode' : LinkedCode (place startRule) bodies' code') (hn : n = code.length) :
    n' = code'.length := by
  cases hfaces with
  | entry | exit =>
    have := hcode.length_eq
    omega
  | rule hbody hk =>
    have := hcode.lt_length hbody hk
    omega
  | stop => exact hcode'.length_eq.symm

/-- The instructions at addresses of the same rule make moves that are alike. -/
theorem Rearranged.onMoves_rule {k : Nat} {body : Block}
    (h : Rearranged m.program m'.program place bodies bodies') (hinput : m.SameInput m')
    (hcode : LinkedCode startRule bodies code)
    (hcode' : LinkedCode (place startRule) bodies' code')
    (hbody : bodies[rule]? = some body) (hk : k ≤ body.length)
    (hinstr : code[ruleAddress bodies rule + k]? = some instr) :
    ∃ instr', code'[ruleAddress bodies' (place rule) + k]? = some instr' ∧
      ∀ pos captures captures', EntriesAlike m.program m'.program captures captures' →
        (alike m.program m'.program (Faces place bodies bodies')).OnMoves
          (ruleAddress bodies rule + k) (ruleAddress bodies' (place rule) + k)
          (m.move (fun _ _ _ => none) pos captures instr)
          (m'.move (fun _ _ _ => none) pos captures' instr') := by
  obtain ⟨hrule, σ, hbody', hconstants⟩ := h.body rule body hbody
  have hlength : code'.length = code.length := by
    rw [hcode'.length_eq, hcode.length_eq, h.length_eq]
  rcases Nat.lt_or_eq_of_le hk with hk | rfl
  · obtain ⟨raw, hraw⟩ : ∃ raw, body[k]? = some raw := ⟨_, List.getElem?_eq_getElem hk⟩
    have hraw' : (body.map (Instr.rename σ place))[k]? = some (raw.rename σ place) := by
      rw [List.getElem?_map, hraw]
      rfl
    have hinstr' := hcode'.getElem?_of_lt hbody' hraw'
    have hreturns : (body.map (Instr.rename σ place) ++ [Instr.ret]).toArray =
        (body ++ [Instr.ret]).toArray.map (Instr.rename σ place) := by
      rw [List.map_toArray, List.map_append]
      rfl
    rw [hreturns, returnsAt_rename, hlength] at hinstr'
    rw [hcode.getElem?_of_lt hbody hraw] at hinstr
    cases hinstr
    exact ⟨_, hinstr', fun pos captures captures' hcaptures =>
      onMoves_linkedInstr hinput hcaptures _ hrule hraw (hconstants raw) fun j hj => .rule hbody hj⟩
  · rw [hcode.getElem?_ret hbody] at hinstr
    cases hinstr
    have hinstr' := hcode'.getElem?_ret hbody'
    rw [List.length_map] at hinstr'
    exact ⟨_, hinstr', fun _ _ _ _ => .ret⟩

/-- **The linked codes of both orders are in step.** -/
theorem Rearranged.inStep (h : Rearranged m.program m'.program place bodies bodies')
    (hinput : m.SameInput m') (hstart : startRule < bodies.length)
    (hcode : link startRule bodies = .ok code)
    (hcode' : link (place startRule) bodies' = .ok code') :
    InStep m m' (Faces place bodies bodies') code code' := by
  have honward : ∀ body ∈ bodies, Onward body := fun body hbody => by
    obtain ⟨k, hk⟩ := List.getElem?_of_mem hbody
    exact (h.body k body hk).1.onward
  have hlinked := linkedCode_of_link hcode honward
  have hlinked' := linkedCode_of_link hcode' h.onward
  refine ⟨fun hfaces hn => hfaces.eq_length hlinked hlinked' hn, fun hfaces hinstr => ?_⟩
  cases hfaces with
  | entry =>
    rw [hlinked.entry] at hinstr
    cases hinstr
    refine ⟨_, hlinked'.entry, fun pos captures captures' _ => .call .exit ?_⟩
    exact Faces.toNat_callee 0 0 hstart
  | exit =>
    rw [hlinked.exit] at hinstr
    cases hinstr
    refine ⟨_, hlinked'.exit, fun pos captures captures' _ => .jump ?_⟩
    show Faces place bodies bodies' _ _
    rw [show ((1 : Nat) : Int) + (1 + (ruleBlocks bodies).length : Nat) =
        (2 + (ruleBlocks bodies).length : Nat) by omega,
      show ((1 : Nat) : Int) + (1 + (ruleBlocks bodies').length : Nat) =
        (2 + (ruleBlocks bodies').length : Nat) by omega]
    exact .stop
  | rule hbody hk => exact h.onMoves_rule hinput hlinked hlinked' hbody hk hinstr
  | stop =>
    rw [← hlinked.length_eq, List.getElem?_eq_none (Nat.le_refl _)] at hinstr
    cases hinstr

end

end PegMachine
