import PegMachine.Proofs.Blocks.Onward

/-!
# Pieces of code

* `Instr.isGlue`: the instructions that blocks are put together with.
* `MadeOf`: code that is put together from pieces.
* `MadeOf.copied`: **every other instruction of such code lies in a copy of a piece.**
* `madeOf_choice`, `madeOf_repetition` and so on: the code of a pattern is made of that of its parts.
-/

namespace PegMachine

/-- Whether an instruction is of a kind that blocks are put together with: a test or a check, or one
that pushes, moves or drops a choice, jumps or fails. -/
def Instr.isGlue : Instr → Bool
  | .any .. | .char .. | .set .. | .span _ | .choice .. | .jump _ | .commit _ | .partialCommit _
  | .backCommit _ | .failTwice | .fail => true
  | _ => false

theorem Instr.isGlue_of_isCheck {instr : Instr} (h : instr.isCheck = true) :
    instr.isGlue = true := by
  cases instr <;> first | rfl | cases h

theorem Instr.isGlue_withTest (instr : Instr) (off : Int) :
    (instr.withTest off).isGlue = instr.isGlue := by
  cases instr <;> rfl

theorem Instr.withTest_of_isGlue {instr : Instr} (h : instr.isGlue = false) (off : Int) :
    instr.withTest off = instr := by
  cases instr <;> first | rfl | cases h

namespace Block

/-! ## Code made of pieces -/

/-- Code that is put together from pieces. It starts with a jump only if a piece does. -/
inductive MadeOf (pieces : List Block) : Block → Prop where
  | nil : MadeOf pieces []
  | piece {piece : Block} (h : piece ∈ pieces) : MadeOf pieces piece
  | glue {instr : Instr} (h : instr.isGlue = true) (hlink : instr.isLink = false) :
      MadeOf pieces [instr]
  | append {a b : Block} (ha : MadeOf pieces a) (hb : MadeOf pieces b) : MadeOf pieces (a ++ b)
  | jump {a : Block} (off : Int) (ha : MadeOf pieces a) (hne : a ≠ []) :
      MadeOf pieces (a ++ [.jump off])
  | tested {a : Block} (off : Int) (ha : MadeOf pieces a) : MadeOf pieces (withHeadTest off a)
  | hoisted {a : Block} (off : Int) (back : Nat) (ha : MadeOf pieces a) :
      MadeOf pieces (hoistCheck (.choice off back :: a))

/-- `part` stands in `code` at `n`, but for what its head became if that is glue. -/
def CopiedAt (code : Block) (n : Nat) (part : Block) : Prop :=
  ∀ (k : Nat) (instr : Instr), part[k]? = some instr → (k = 0 → instr.isGlue = false) →
    code[n + k]? = some instr

section

variable {pieces pieces' : List Block} {code a b body part : Block} {instr : Instr} {n k : Nat}
  {off : Int} {back : Nat}

theorem CopiedAt.left (h : CopiedAt a n part) : CopiedAt (a ++ b) n part := by
  intro k instr hk hhead
  have hat := h k instr hk hhead
  rwa [List.getElem?_append_left (List.getElem?_eq_some_iff.1 hat).1]

theorem CopiedAt.right (h : CopiedAt b n part) : CopiedAt (a ++ b) (a.length + n) part := by
  intro k instr hk hhead
  rw [Nat.add_assoc, List.getElem?_append_right (Nat.le_add_right _ _), Nat.add_sub_cancel_left]
  exact h k instr hk hhead

/-- A test at the head of code leaves everything but glue at the head as it was. -/
theorem withHeadTest_getElem? (hk : code[k]? = some instr) (hhead : k = 0 → instr.isGlue = false) :
    (withHeadTest off code)[k]? = some instr := by
  cases code with
  | nil => cases hk
  | cons head rest =>
    cases k with
    | zero =>
      cases hk
      exact congrArg some (Instr.withTest_of_isGlue (hhead rfl) off)
    | succ k => exact hk

theorem getElem?_of_withHeadTest (hk : (withHeadTest off code)[k]? = some instr)
    (hinstr : instr.isGlue = false) : code[k]? = some instr := by
  cases code with
  | nil => cases hk
  | cons head rest =>
    cases k with
    | zero =>
      cases hk
      rw [Instr.isGlue_withTest] at hinstr
      exact congrArg some (Instr.withTest_of_isGlue hinstr off).symm
    | succ k => exact hk

/-- Behind a choice, even a moved one, everything but glue at the head is as it was. -/
theorem hoistCheck_getElem? (hk : code[k]? = some instr) (hhead : k = 0 → instr.isGlue = false) :
    (hoistCheck (.choice off back :: code))[1 + k]? = some instr := by
  rw [Nat.add_comm]
  rcases hoistCheck_cases off back code with hsame | ⟨check, rest, rfl, hcheck, -, -, hhoist⟩
  · rw [hsame]
    exact hk
  · rw [hhoist]
    cases k with
    | zero =>
      cases hk
      have hglue := hhead rfl
      rw [Instr.isGlue_of_isCheck hcheck] at hglue
      cases hglue
    | succ k => exact hk

theorem getElem?_of_hoistCheck (hk : (hoistCheck (.choice off back :: code))[k]? = some instr)
    (hinstr : instr.isGlue = false) : ∃ j, k = 1 + j ∧ code[j]? = some instr := by
  rcases hoistCheck_cases off back code with hsame | ⟨check, rest, rfl, hcheck, -, -, hhoist⟩
  · rw [hsame] at hk
    cases k with
    | zero =>
      cases hk
      cases hinstr
    | succ j => exact ⟨j, Nat.add_comm _ _, hk⟩
  · rw [hhoist] at hk
    match k, hk with
    | 0, hk =>
      cases hk
      rw [Instr.isGlue_withTest, Instr.isGlue_of_isCheck hcheck] at hinstr
      cases hinstr
    | 1, hk =>
      cases hk
      cases hinstr
    | j + 2, hk => exact ⟨j + 1, by omega, hk⟩

namespace MadeOf

/-- **Every instruction but glue lies in a copy of a piece.** -/
theorem copied (h : MadeOf pieces code) (hk : code[k]? = some instr)
    (hinstr : instr.isGlue = false) :
    ∃ piece ∈ pieces, ∃ n j, k = n + j ∧ piece[j]? = some instr ∧ CopiedAt code n piece := by
  induction h generalizing k with
  | nil => cases hk
  | @piece piece hpiece =>
    exact ⟨piece, hpiece, 0, k, (Nat.zero_add k).symm, hk, fun j i hj _ => by rwa [Nat.zero_add]⟩
  | glue hglue =>
    obtain rfl := List.mem_singleton.1 (List.mem_of_getElem? hk)
    rw [hglue] at hinstr
    cases hinstr
  | @append a b _ _ iha ihb =>
    rcases Nat.lt_or_ge k a.length with hlt | hge
    · rw [List.getElem?_append_left hlt] at hk
      obtain ⟨piece, hpiece, n, j, hat, hj, hcopied⟩ := iha hk
      exact ⟨piece, hpiece, n, j, hat, hj, hcopied.left⟩
    · rw [List.getElem?_append_right hge] at hk
      obtain ⟨piece, hpiece, n, j, hat, hj, hcopied⟩ := ihb hk
      exact ⟨piece, hpiece, a.length + n, j, by omega, hj, hcopied.right⟩
  | @jump a off _ _ iha =>
    rcases Nat.lt_or_ge k a.length with hlt | hge
    · rw [List.getElem?_append_left hlt] at hk
      obtain ⟨piece, hpiece, n, j, hat, hj, hcopied⟩ := iha hk
      exact ⟨piece, hpiece, n, j, hat, hj, hcopied.left⟩
    · rw [List.getElem?_append_right hge] at hk
      obtain rfl := List.mem_singleton.1 (List.mem_of_getElem? hk)
      cases hinstr
  | tested off _ ih =>
    obtain ⟨piece, hpiece, n, j, hat, hj, hcopied⟩ := ih (getElem?_of_withHeadTest hk hinstr)
    refine ⟨piece, hpiece, n, j, hat, hj, fun i other hi hhead => ?_⟩
    exact withHeadTest_getElem? (hcopied i other hi hhead) fun hzero => hhead (by omega)
  | hoisted off back _ ih =>
    obtain ⟨l, rfl, hl⟩ := getElem?_of_hoistCheck hk hinstr
    obtain ⟨piece, hpiece, n, j, rfl, hj, hcopied⟩ := ih hl
    refine ⟨piece, hpiece, 1 + n, j, by omega, hj, fun i other hi hhead => ?_⟩
    rw [Nat.add_assoc]
    exact hoistCheck_getElem? (hcopied i other hi hhead) fun hzero => hhead (by omega)

theorem forall_mem {P : Instr → Prop} (h : MadeOf pieces code)
    (hglue : ∀ instr : Instr, instr.isGlue = true → P instr)
    (hpieces : ∀ piece ∈ pieces, ∀ instr ∈ piece, P instr) : ∀ instr ∈ code, P instr := by
  intro instr hmem
  cases hinstr : instr.isGlue with
  | true => exact hglue instr hinstr
  | false =>
    obtain ⟨k, hk⟩ := List.getElem?_of_mem hmem
    obtain ⟨piece, hpiece, n, j, -, hj, -⟩ := h.copied hk hinstr
    exact hpieces piece hpiece instr (List.mem_of_getElem? hj)

theorem head_ne_jump (h : MadeOf pieces code)
    (hpieces : ∀ piece ∈ pieces, ∀ off, piece.head? ≠ some (.jump off)) (off : Int) :
    code.head? ≠ some (.jump off) := by
  induction h with
  | nil => exact nofun
  | piece hpiece => exact hpieces _ hpiece off
  | glue _ hlink =>
    intro hhead
    rw [Option.some.inj hhead] at hlink
    cases hlink
  | @append a b _ _ iha ihb =>
    cases a with
    | nil => exact ihb
    | cons => exact iha
  | @jump a _ _ hne iha =>
    cases a with
    | nil => exact absurd rfl hne
    | cons => exact iha
  | @tested a _ _ ih =>
    cases a with
    | nil => exact ih
    | cons head rest =>
      intro hhead
      cases head with
      | jump => exact ih hhead
      | _ => cases hhead
  | @hoisted a off' back _ ih =>
    rcases hoistCheck_cases off' back a with hsame | ⟨check, rest, rfl, hcheck, -, -, hhoist⟩
    · rw [hsame]
      nofun
    · rw [hhoist]
      intro hhead
      cases check <;> first | cases hcheck | cases hhead

theorem bind (h : MadeOf pieces code) (hpieces : ∀ piece ∈ pieces, MadeOf pieces' piece) :
    MadeOf pieces' code := by
  induction h with
  | nil => exact .nil
  | piece hpiece => exact hpieces _ hpiece
  | glue hglue hlink => exact .glue hglue hlink
  | append _ _ iha ihb => exact iha.append ihb
  | jump off _ hne iha => exact iha.jump off hne
  | tested off _ iha => exact iha.tested off
  | hoisted off back _ iha => exact iha.hoisted off back

theorem cons_glue (hcode : MadeOf pieces code) (h : instr.isGlue = true)
    (hlink : instr.isLink = false) : MadeOf pieces (instr :: code) :=
  .append (.glue h hlink) hcode

theorem flatten {blocks : List Block} (h : ∀ block ∈ blocks, MadeOf pieces block) :
    MadeOf pieces blocks.flatten := by
  induction blocks with
  | nil => exact .nil
  | cons block rest ih =>
    rw [List.forall_mem_cons] at h
    exact .append h.1 (ih h.2)

theorem of_isGlue (h : ∀ instr ∈ code, instr.isGlue = true ∧ instr.isLink = false) :
    MadeOf pieces code := by
  induction code with
  | nil => exact .nil
  | cons instr rest ih =>
    rw [List.forall_mem_cons] at h
    exact (ih h.2).cons_glue h.1.1 h.1.2

theorem of_checks (h : code.all Instr.isCheck = true) : MadeOf pieces code := by
  refine of_isGlue fun instr hinstr => ?_
  have hcheck := List.all_eq_true.1 h instr hinstr
  exact ⟨Instr.isGlue_of_isCheck hcheck, Instr.isLink_of_isCheck hcheck⟩

end MadeOf

/-! ## Patterns and their parts -/

theorem madeOf_skip (count : Nat) : MadeOf pieces (skip count) :=
  .of_checks (all_isCheck_of_isSkip (all_isSkip_skip count))

theorem madeOf_ofSet (bytes : ByteSet) : MadeOf pieces (ofSet bytes) := by
  rw [ofSet]
  split
  · exact .glue rfl rfl
  · split <;> exact .glue rfl rfl

theorem ne_nil_of_decides (h : areExclusive a b = true ∨ failsAtHead a = true) : a ≠ [] := by
  rintro rfl
  rcases h with h | h <;> cases h

theorem madeOf_choice (hcode : choice a b = .ok code) : MadeOf [a, b] code := by
  have ha : MadeOf [a, b] a := .piece (by simp)
  have hb : MadeOf [a, b] b := .piece (by simp)
  cases choice_form hcode with
  | second => exact hb
  | first => exact ha
  | union => exact madeOf_ofSet _
  | tested h =>
    rw [List.append_cons]
    refine .append (.jump _ (ha.tested _) ?_) hb
    rw [← List.length_pos_iff, length_withHeadTest, List.length_pos_iff]
    exact ne_nil_of_decides h
  | chosen => exact .hoisted _ _ (ha.append (hb.cons_glue rfl rfl))

theorem madeOf_difference (hcode : difference a b = .ok code) : MadeOf [a, b] code := by
  have ha : MadeOf [a, b] a := .piece (by simp)
  have hb : MadeOf [a, b] b := .piece (by simp)
  cases difference_form hcode with
  | first => exact ha
  | none => exact .glue rfl rfl
  | diff => exact madeOf_ofSet _
  | tested => exact (hb.tested _).append (ha.cons_glue rfl rfl)
  | chosen => exact .hoisted _ _ (hb.append (ha.cons_glue rfl rfl))

theorem madeOf_lookahead (hcode : lookahead a = .ok code) : MadeOf [a] code := by
  have ha : MadeOf [a] a := .piece (by simp)
  rcases lookahead_cases hcode with ⟨-, rfl⟩ | rfl
  · exact ha
  · exact (ha.append (.of_isGlue (by simp [Instr.isGlue, Instr.isLink]))).cons_glue rfl rfl

theorem madeOf_any {count : Int} (hcode : any count = .ok code) : MadeOf pieces code := by
  rcases any_cases hcode with ⟨-, rfl⟩ | ⟨-, rfl | ⟨-, hdiff⟩⟩
  · exact madeOf_skip _
  · exact .of_isGlue (by simp [Instr.isGlue, Instr.isLink])
  · cases difference_form hdiff with
    | first => exact .nil
    | none => exact .glue rfl rfl
    | diff => exact madeOf_ofSet _
    | tested => exact .append (.tested _ (madeOf_skip _)) (.glue rfl rfl)
    | chosen => exact .hoisted _ _ ((madeOf_skip _).append (.glue rfl rfl))

theorem madeOf_sequence (hcode : sequence a b = .ok code) : MadeOf [a, b] code := by
  have ha : MadeOf [a, b] a := .piece (by simp)
  have hb : MadeOf [a, b] b := .piece (by simp)
  cases sequence_form hcode with
  | first => exact ha
  | second => exact hb
  | skips => exact madeOf_skip _
  | append => exact ha.append hb

theorem madeOf_loop (body : Block) : MadeOf [body] (loop body) := by
  have hbody : MadeOf [body] body := .piece (by simp)
  generalize hcode : loop body = code
  cases loop_form hcode with
  | span => exact .glue rfl rfl
  | tested h =>
    refine .jump _ (hbody.tested _) ?_
    rw [← List.length_pos_iff, length_withHeadTest, List.length_pos_iff]
    exact ne_nil_of_decides (b := []) (.inr h)
  | chosen => exact (hbody.append (.glue rfl rfl)).cons_glue rfl rfl

theorem madeOf_behindCopy (count : Nat) (body : Block) :
    MadeOf [body] (behindCopy body count) := by
  induction count with
  | zero => exact .glue rfl rfl
  | succ count ih => exact .append (MadeOf.cons_glue (.piece (by simp)) rfl rfl) ih

theorem madeOf_optional (count : Nat) (body : Block) : MadeOf [body] (optional count body) := by
  have hbody : MadeOf [body] body := .piece (by simp)
  generalize hcode : optional count body = code
  cases optional_form hcode with
  | tested =>
    refine .flatten fun block hblock => ?_
    obtain ⟨later, -, rfl⟩ := List.mem_map.1 hblock
    exact hbody.tested _
  | chosen => exact .hoisted _ _ (hbody.append (madeOf_behindCopy _ body))

theorem madeOf_repetition {count : Int} (hcode : repetition body count = .ok code) :
    MadeOf [body] code := by
  rw [repetition_eq hcode]
  split
  · refine .append (.flatten fun block hblock => ?_) (madeOf_loop body)
    exact .piece (by rw [List.eq_of_mem_replicate hblock]; simp)
  · exact madeOf_optional _ body

end

end Block

end PegMachine
