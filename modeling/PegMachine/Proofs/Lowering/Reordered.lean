import Mathlib.Algebra.GroupWithZero.Nat
import PegMachine.Proofs.Blocks.Rearranged
import PegMachine.Proofs.Lowering.Renumbered
import PegMachine.Proofs.Nesting.Lowered

/-!
# Rules lowered in another order

* `Pattern.isRule_lower`: what the code of a rule is like.
* `RuleTable.placeIn`: the place of a rule in the other order.
* `Pattern.exists_lowerRules`: rules that can be lowered can be lowered in the other order.
* `Pattern.rearranged_lowerRules`: **the code of the rules in another order is their code
  rearranged.**
-/

namespace PegMachine

open Block

variable {program program' : Program} {start key : RuleKey} {rules rules' : Rules}
  {table table' : RuleTable} {scope : Option Scope} {s s' t t' : Array Constant}
  {code : Block} {codes codes' : List Block} {p : Pattern}

namespace Pattern

/-! ## The code of a rule -/

theorem compositional_onward : Compositional Onward where
  nil := onward_nil
  fail := onward_single rfl
  emptyCapture _ _ := onward_single rfl
  emptyCaptureConst _ _ := onward_single rfl
  matcher _ := onward_single rfl
  openCall := onward_openCall
  ofBytes _ := onward_of_checks (all_isCheck_ofBytes _)
  ofSet := onward_ofSet
  append := onward_append
  enclose _ _ _ hbody := onward_enclose _ _ hbody
  any := onward_any
  sequence := onward_sequence
  choice := onward_choice
  difference := onward_difference
  lookahead := onward_lookahead
  repetition hlower hcode hbody := onward_repetition hcode hbody (contained_lower hlower)
  link _ hcodes hlink _ :=
    onward_of_not_mem (contained_link hlink (contained_lowerRules hcodes)) fun _ =>
      not_mem_link hlink

/-- **Chains of jumps in the code of a pattern lead to no open call before them.** -/
theorem onward_lower (h : lower scope p s = .ok (code, s')) : Onward code :=
  compositional_onward.lower h

theorem isRule_lower (h : lower (some ⟨table, key⟩) p s = .ok (code, s')) :
    code.IsRule table.keys.length where
  contained := contained_lower h
  onward := onward_lower h
  call_lt := fun rule hmem => by
    have hnested : Nested ⟨#[], s'⟩ (Scope.ruleCount (some ⟨table, key⟩)) code :=
      nested_lower h (.refl s')
    obtain ⟨place, starts, hplacing⟩ := hnested
    obtain ⟨k, hk⟩ := List.getElem?_of_mem hmem
    exact (hplacing.fits k _ hk).2.2
  kind_ne := fun back index hmem => by
    have hnested : Nested ⟨#[], s'⟩ (Scope.ruleCount (some ⟨table, key⟩)) code :=
      nested_lower h (.refl s')
    obtain ⟨place, starts, hplacing⟩ := hnested
    obtain ⟨k, hk⟩ := List.getElem?_of_mem hmem
    cases (hplacing.fits k _ hk).2.1 with
    | wraps _ hname hwraps =>
      cases hname
      cases hwraps
    | matchTime hkind => cases hkind

end Pattern

/-! ## Places -/

namespace RuleTable

/-- The place of a rule in another order of the rules. -/
def placeIn (table table' : RuleTable) (place : Nat) : Nat :=
  match table.keys[place]? with
  | some key => table'.keys.idxOf key
  | none => place

theorem index?_placeIn {place : Nat} (h : table.keys[place]? = some key)
    (hmem : key ∈ table'.keys) : table'.index? key = some (table.placeIn table' place) := by
  rw [placeIn, h]
  exact idxOf?_eq_idxOf hmem

/-- The rules of both orders are the same. -/
structure Reorders (start : RuleKey) (rules rules' : Rules) (table table' : RuleTable) : Prop where
  perm : rules.Perm rules'
  accepts : Accepts start rules table
  accepts' : Accepts start rules' table'

namespace Reorders

variable (h : Reorders start rules rules' table table')

include h

theorem symm : Reorders start rules' rules table' table :=
  ⟨h.perm.symm, h.accepts', h.accepts⟩

theorem keys_perm : table.keys.Perm table'.keys := by
  rw [h.accepts.keys_eq, h.accepts'.keys_eq]
  exact h.perm.map Prod.fst

theorem key_getElem? {place : Nat} {rule : RuleKey × Pattern} (hrule : rules[place]? = some rule) :
    table.keys[place]? = some rule.1 := by
  rw [h.accepts.keys_eq, List.getElem?_map, hrule]
  rfl

theorem start_placeIn : table.placeIn table' table.startIndex = table'.startIndex := by
  obtain ⟨body, hrule, -⟩ := h.accepts.index_lookup h.accepts.index_start
  have hplace := index?_placeIn (h.key_getElem? hrule) h.accepts'.start_mem
  rw [h.accepts'.index_start] at hplace
  exact (Option.some.inj hplace).symm

theorem getElem?_placeIn {place : Nat} {rule : RuleKey × Pattern}
    (hrule : rules[place]? = some rule) : rules'[table.placeIn table' place]? = some rule := by
  obtain ⟨key, body⟩ := rule
  have hkey := h.key_getElem? hrule
  have hnodup : (rules.map Prod.fst).Nodup := h.accepts.keys_eq ▸ h.accepts.nodup
  have hplace := index?_placeIn hkey (h.keys_perm.mem_iff.1 (List.mem_of_getElem? hkey))
  obtain ⟨body', hrule', hbody'⟩ := h.accepts'.index_lookup hplace
  rw [lookup_of_perm h.perm hnodup, lookup_of_mem hnodup (List.mem_of_getElem? hrule)] at hbody'
  cases hbody'
  exact hrule'

theorem renames (key : RuleKey) :
    Scope.Renames (table.placeIn table') ⟨table, key⟩ ⟨table', key⟩ where
  nullable := mem_nullable_of_perm h.perm h.accepts h.accepts'
  index := fun key place hkey => by
    obtain ⟨body, hrule, -⟩ := h.accepts.index_lookup hkey
    have hkey := h.key_getElem? hrule
    exact index?_placeIn hkey (h.keys_perm.mem_iff.1 (List.mem_of_getElem? hkey))

end Reorders

end RuleTable

/-! ## Rules -/

namespace Pattern

open RuleTable

theorem exists_renumbers (s t n : Nat) : ∃ σ, Renumbers σ s t n :=
  ⟨fun index => if index = 0 then 0 else index + t - s, if_pos rfl, fun k _ => by
    rw [if_neg (Nat.succ_ne_zero _)]
    omega⟩

theorem exists_lowerRules (h : Reorders start rules rules' table table')
    (hcodes : lowerRules table rules s = .ok (codes, s')) (t : Array Constant) :
    ∃ codes' t', lowerRules table' rules' t = .ok (codes', t') := by
  have hrules : ∀ rule ∈ rules', ∀ t, ∃ code t',
      lower (some ⟨table', rule.1⟩) rule.2 t = .ok (code, t') := by
    intro rule hrule t
    obtain ⟨k, hk⟩ := List.getElem?_of_mem (h.perm.mem_iff.2 hrule)
    obtain ⟨code, mid, mid', -, hcode, -⟩ := lowerRules_getElem? hcodes hk
    obtain ⟨added, -, hother⟩ := lower_rename (h.renames rule.1) rule.2 _ _ _ hcode
    obtain ⟨σ, hσ⟩ := exists_renumbers mid.size t.size added.size
    exact ⟨_, _, hother t σ hσ⟩
  clear h
  induction rules' generalizing t with
  | nil => exact ⟨_, _, lowerRules_nil.2 ⟨rfl, rfl⟩⟩
  | cons rule rest ih =>
    rw [List.forall_mem_cons] at hrules
    obtain ⟨code, mid, hcode⟩ := hrules.1 t
    obtain ⟨more, t', hmore⟩ := ih mid hrules.2
    exact ⟨_, _, lowerRules_cons.2 ⟨code, mid, more, hcode, hmore, rfl⟩⟩

/-! ## Lengths -/

/-- The length of the code of a pattern, wherever it stands. -/
def codeLength (scope : Scope) (p : Pattern) : Nat :=
  match lower (some scope) p #[] with
  | .ok found => found.1.length
  | .error _ => 0

theorem length_eq_codeLength {ρ : Nat → Nat} {scope scope' : Scope}
    (hscope : scope.Renames ρ scope') (h : lower (some scope) p s = .ok (code, s')) :
    code.length = codeLength scope' p := by
  obtain ⟨added, -, hother⟩ := lower_rename hscope p _ _ _ h
  obtain ⟨σ, hσ⟩ := exists_renumbers s.size 0 added.size
  rw [codeLength, hother #[] σ hσ]
  exact (List.length_map _).symm

theorem length_ruleBlocks_lowerRules (length : RuleKey × Pattern → Nat)
    (hlength : ∀ rule ∈ rules, ∀ t code t',
      lower (some ⟨table, rule.1⟩) rule.2 t = .ok (code, t') → code.length = length rule)
    (hcodes : lowerRules table rules s = .ok (codes, s')) :
    (ruleBlocks codes).length = (rules.map fun rule => length rule + 1).sum := by
  induction rules generalizing s codes with
  | nil =>
    obtain ⟨rfl, -⟩ := lowerRules_nil.1 hcodes
    rfl
  | cons rule rest ih =>
    rw [List.forall_mem_cons] at hlength
    obtain ⟨code, mid, more, hcode, hmore, rfl⟩ := lowerRules_cons.1 hcodes
    have hrest := ih hlength.2 hmore
    rw [ruleBlocks] at hrest ⊢
    rw [List.flatMap_cons, List.length_append, hrest, List.length_append, hlength.1 _ _ _ hcode,
      List.map_cons, List.sum_cons]
    rfl

theorem length_ruleBlocks_reordered (h : Reorders start rules rules' table table')
    (hcodes : lowerRules table rules s = .ok (codes, s'))
    (hcodes' : lowerRules table' rules' t = .ok (codes', t')) :
    (ruleBlocks codes').length = (ruleBlocks codes).length := by
  let length : RuleKey × Pattern → Nat := fun rule => codeLength ⟨table, rule.1⟩ rule.2
  have hlength := length_ruleBlocks_lowerRules length
    (fun rule _ _ _ _ hcode => length_eq_codeLength (.refl ⟨table, rule.1⟩) hcode) hcodes
  have hlength' := length_ruleBlocks_lowerRules length
    (fun rule _ _ _ _ hcode => length_eq_codeLength (h.symm.renames rule.1) hcode) hcodes'
  rw [hlength, hlength']
  exact (h.perm.map _).sum_nat.symm

/-! ## Constants -/

/-- The constants added for a pattern are the same wherever they were added. -/
theorem constant?_of_added {added mid : Array Constant} {k : Nat}
    (hgrow : ConstantsGrow (mid ++ added) program.constants) (hk : k < added.size) :
    program.constant? (mid.size + k + 1) = some added[k] := by
  obtain ⟨rest, hrest⟩ := hgrow
  show program.constants[mid.size + k]? = _
  rw [← Array.getElem?_toList, ← hrest, Array.toList_append, List.append_assoc,
    List.getElem?_append_right (by simp), Array.length_toList, Nat.add_sub_cancel_left,
    List.getElem?_append_left (by simpa using hk), Array.getElem?_toList,
    Array.getElem?_eq_getElem hk]

theorem constant?_renumbered {added mid mid' : Array Constant} {σ : Nat → Nat} {index : Nat}
    (hσ : Renumbers σ mid.size mid'.size added.size)
    (hgrow : ConstantsGrow (mid ++ added) program.constants)
    (hgrow' : ConstantsGrow (mid' ++ added) program'.constants)
    (hindex : index = 0 ∨ mid.size < index ∧ index ≤ (mid ++ added).size) :
    program'.constant? (σ index) = program.constant? index ∧ (σ index = 0 ↔ index = 0) := by
  rcases hindex with rfl | ⟨hlo, hhi⟩
  · rw [hσ.zero]
    exact ⟨rfl, Iff.rfl⟩
  · rw [Array.size_append] at hhi
    obtain ⟨k, rfl⟩ : ∃ k, index = mid.size + k + 1 := ⟨index - mid.size - 1, by omega⟩
    have hk : k < added.size := by omega
    rw [hσ.added k hk, constant?_of_added hgrow hk, constant?_of_added hgrow' hk]
    exact ⟨rfl, by omega⟩

/-- **The code of the rules in another order is their code rearranged.** -/
theorem rearranged_lowerRules (h : Reorders start rules rules' table table')
    (hcodes : lowerRules table rules s = .ok (codes, program.constants))
    (hcodes' : lowerRules table' rules' t = .ok (codes', program'.constants)) :
    Rearranged program program' (table.placeIn table') codes codes' where
  length_eq := length_ruleBlocks_reordered h hcodes hcodes'
  onward := fun body hbody => by
    obtain ⟨rule, -, mid, mid', hlower, -⟩ := lowerRules_mem hcodes' hbody
    exact onward_lower hlower
  body := fun place body hbody => by
    have hlt : place < rules.length := by
      rw [← length_lowerRules hcodes]
      exact (List.getElem?_eq_some_iff.1 hbody).1
    have hrule : rules[place]? = some rules[place] := List.getElem?_eq_getElem hlt
    generalize rules[place] = rule at hrule
    obtain ⟨code, mid, mid', hcode, hlower, hgrow⟩ := lowerRules_getElem? hcodes hrule
    obtain ⟨code', t, t', hcode', hlower', hgrow'⟩ :=
      lowerRules_getElem? hcodes' (h.getElem?_placeIn hrule)
    rw [hbody] at hcode
    cases hcode
    obtain ⟨added, rfl, hother⟩ := lower_rename (h.renames rule.1) rule.2 _ _ _ hlower
    obtain ⟨σ, hσ⟩ := exists_renumbers mid.size t.size added.size
    rw [hother t σ hσ] at hlower'
    cases hlower'
    refine ⟨?_, σ, hcode', fun instr hinstr => ?_⟩
    · have hrules : table.keys.length = codes.length := by
        rw [h.accepts.keys_eq, List.length_map, length_lowerRules hcodes]
      exact hrules ▸ isRule_lower hlower
    · exact constant?_renumbered hσ hgrow hgrow' (constantIndex_of_lower hlower hinstr)

end Pattern

end PegMachine
