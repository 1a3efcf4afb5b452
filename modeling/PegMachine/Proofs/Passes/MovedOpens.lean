import PegMachine.Program.Assembly
import PegMachine.Proofs.Blocks.Checks

/-!
# The code with the starts of captures moved

* `movedFrom`: what the pass makes of the rest of the code, `movedFrom_eq` the pass in terms of it.
* `Aligned`: the rest of the moved code stands for the code from an address on, up to the start of
  a capture on its way.
* `aligned_target`: **no start of a capture is on its way where a jump lands.**
-/

namespace PegMachine

open Block

/-! ## Targets of jumps -/

/-- Marks the address that an instruction jumps to. -/
def markTarget (targets : Array Bool) (entry : Instr × Nat) : Array Bool :=
  match entry.1.offset? with
  | some offset =>
    let target := (entry.2 : Int) + offset
    if target < 0 then targets else targets.setIfInBounds target.toNat true
  | none => targets

theorem jumpTargets_eq (code : Block) : jumpTargets code =
    code.zipIdx.foldl markTarget (Array.replicate (code.length + 1) false) := rfl

theorem size_markTarget (targets : Array Bool) (entry : Instr × Nat) :
    (markTarget targets entry).size = targets.size := by
  unfold markTarget
  split
  · dsimp only
    split
    · rfl
    · exact Array.size_setIfInBounds
  · rfl

theorem markTarget_mono {targets : Array Bool} {n : Nat} (entry : Instr × Nat)
    (h : targets[n]? = some true) : (markTarget targets entry)[n]? = some true := by
  unfold markTarget
  split
  · dsimp only
    split
    · exact h
    · rw [Array.getElem?_setIfInBounds, h]
      split
      · next heq =>
        rw [if_pos (by rw [heq]; exact (Array.getElem?_eq_some_iff.1 h).1)]
      · rfl
  · exact h

theorem foldl_markTarget {entries : List (Instr × Nat)} {targets : Array Bool} {n : Nat}
    (hn : n < targets.size)
    (h : targets[n]? = some true ∨ ∃ entry ∈ entries, ∃ off, entry.1.offset? = some off ∧
      (entry.2 : Int) + off = n) :
    (entries.foldl markTarget targets)[n]? = some true := by
  induction entries generalizing targets with
  | nil =>
    rcases h with h | ⟨entry, hmem, -⟩
    · exact h
    · cases hmem
  | cons first rest ih =>
    refine ih (by rwa [size_markTarget]) ?_
    rcases h with h | ⟨entry, hmem, off, hoff, htarget⟩
    · exact .inl (markTarget_mono first h)
    · rcases List.mem_cons.1 hmem with rfl | hmem
      · left
        simp only [markTarget, hoff, htarget]
        rw [if_neg (by omega), Array.getElem?_setIfInBounds, if_pos (by omega)]
        simp [hn]
      · exact .inr ⟨entry, hmem, off, hoff, htarget⟩

theorem getD_jumpTargets {code : Block} {instr : Instr} {k n : Nat} {off : Int}
    (hinstr : code[k]? = some instr) (hoff : instr.offset? = some off) (hn : (k : Int) + off = n)
    (hle : n ≤ code.length) : (jumpTargets code).getD n false = true := by
  have hmark : (jumpTargets code)[n]? = some true := by
    rw [jumpTargets_eq]
    refine foldl_markTarget (by rw [Array.size_replicate]; omega) (.inr ⟨(instr, k), ?_, off, hoff, hn⟩)
    rw [List.mk_mem_zipIdx_iff_getElem?]
    exact hinstr
  rw [Array.getD_eq_getD_getElem?, hmark]
  rfl

/-! ## The moved code -/

/-- The start of a capture as code. -/
def PendingOpen.code : Option PendingOpen → Block
  | some p => [.openCapture p.kind p.back p.index]
  | none => []

/-- The start of a capture that an instruction records and the pass may move. -/
def Instr.start? : Instr → Option PendingOpen
  | .openCapture kind 0 index => some ⟨kind, 0, index⟩
  | _ => none

theorem Instr.start?_eq_some {instr : Instr} {p : PendingOpen} (h : instr.start? = some p) :
    instr = .openCapture p.kind 0 p.index ∧ p.back = 0 := by
  unfold Instr.start? at h
  split at h
  · cases h
    exact ⟨rfl, rfl⟩
  · cases h

/-- What the pass makes of the rest of the code. -/
def movedFrom (targets : Array Bool) (address : Nat) (pending : Option PendingOpen) : Block → Block
  | [] => PendingOpen.code pending
  | instr :: rest =>
    match PendingOpen.pass? targets address instr pending with
    | some p => instr :: movedFrom targets (address + 1) (some p) rest
    | none => PendingOpen.code pending ++
      match instr.start? with
      | some p => movedFrom targets (address + 1) (some p) rest
      | none => instr :: movedFrom targets (address + 1) none rest

theorem toList_write (done : Array Instr) (pending : Option PendingOpen) :
    (PendingOpen.write done pending).toList = done.toList ++ PendingOpen.code pending := by
  cases pending <;> simp [PendingOpen.write, PendingOpen.code]

theorem movedFrom_eq (targets : Array Bool) (address : Nat) (pending : Option PendingOpen)
    (done : Array Instr) (code : Block) :
    (moveOpensFrom targets address pending done code).toList =
      done.toList ++ movedFrom targets address pending code := by
  induction code generalizing address pending done with
  | nil => exact toList_write done pending
  | cons instr rest ih =>
    cases hpass : PendingOpen.pass? targets address instr pending with
    | some p =>
      simp only [moveOpensFrom, movedFrom, hpass]
      rw [ih, Array.toList_push, List.append_assoc, List.singleton_append]
    | none =>
      cases hstart : instr.start? with
      | some p =>
        obtain ⟨kind, back, index⟩ := p
        obtain ⟨rfl, rfl⟩ := Instr.start?_eq_some hstart
        simp only [moveOpensFrom, movedFrom, hpass, Instr.start?]
        rw [ih, toList_write, List.append_assoc]
      | none =>
        have hne : ∀ kind index, instr ≠ .openCapture kind 0 index := by
          rintro kind index rfl
          cases hstart
        simp only [moveOpensFrom, movedFrom, hpass, hstart]
        rw [ih, Array.toList_push, toList_write, List.append_assoc, List.append_assoc,
          List.singleton_append]

theorem moveOpens_eq (code : Block) :
    moveOpens code = movedFrom (jumpTargets code) 0 none code :=
  movedFrom_eq (jumpTargets code) 0 none #[] code

theorem PendingOpen.back_le_of_pass? {targets : Array Bool} {address : Nat} {instr : Instr}
    {pending : Option PendingOpen} {p : PendingOpen}
    (h : PendingOpen.pass? targets address instr pending = some p) :
    p.back ≤ maxCaptureBack ∧ ∃ q, pending = some q ∧ p.kind = q.kind ∧ p.index = q.index := by
  unfold PendingOpen.pass? at h
  split at h
  · next q =>
    split at h
    · next hcond =>
      cases h
      simp only [Bool.and_eq_true, decide_eq_true_eq] at hcond
      exact ⟨hcond.2, q, rfl, rfl, rfl⟩
    · cases h
  · cases h

/-- What holds of all instructions, and of the start of a capture wherever it is moved to, holds of
the moved code. -/
theorem forall_mem_movedFrom {P : Instr → Prop} {targets : Array Bool} {address : Nat}
    {pending : Option PendingOpen} {code : Block}
    (hmoved : ∀ kind back index, P (.openCapture kind 0 index) → back ≤ maxCaptureBack →
      P (.openCapture kind back index))
    (hpending : ∀ p, pending = some p →
      p.back ≤ maxCaptureBack ∧ P (.openCapture p.kind 0 p.index))
    (hcode : ∀ instr ∈ code, P instr) :
    ∀ instr ∈ movedFrom targets address pending code, P instr := by
  have hwritten : ∀ {pending : Option PendingOpen}, (∀ p, pending = some p →
      p.back ≤ maxCaptureBack ∧ P (.openCapture p.kind 0 p.index)) →
      ∀ instr ∈ PendingOpen.code pending, P instr := by
    intro pending hpending
    cases pending with
    | none => exact nofun
    | some p =>
      obtain ⟨hback, hstart⟩ := hpending p rfl
      exact List.forall_mem_singleton.2 (hmoved _ _ _ hstart hback)
  induction code generalizing address pending with
  | nil => exact hwritten hpending
  | cons instr rest ih =>
    rw [List.forall_mem_cons] at hcode
    rw [movedFrom]
    split
    · next p hpass =>
      obtain ⟨hback, q, hq, hkind, hindex⟩ := PendingOpen.back_le_of_pass? hpass
      refine List.forall_mem_cons.2 ⟨hcode.1, ih (fun p' hp' => ?_) hcode.2⟩
      cases hp'
      rw [hkind, hindex]
      exact ⟨hback, (hpending q hq).2⟩
    · refine List.forall_mem_append.2 ⟨hwritten hpending, ?_⟩
      split
      · next p hstart =>
        refine ih (fun p' hp' => ?_) hcode.2
        cases hp'
        obtain ⟨rfl, hzero⟩ := Instr.start?_eq_some hstart
        exact ⟨hzero ▸ Nat.zero_le _, hcode.1⟩
      · exact List.forall_mem_cons.2 ⟨hcode.1, ih nofun hcode.2⟩

theorem forall_mem_moveOpens {P : Instr → Prop} {code : Block}
    (hmoved : ∀ kind back index, P (.openCapture kind 0 index) → back ≤ maxCaptureBack →
      P (.openCapture kind back index))
    (hcode : ∀ instr ∈ code, P instr) : ∀ instr ∈ moveOpens code, P instr := by
  rw [moveOpens_eq]
  exact forall_mem_movedFrom hmoved nofun hcode

theorem moveOpens_eq_self {code : Block} (hcode : ∀ instr ∈ code, instr.start? = none) :
    moveOpens code = code := by
  suffices key : ∀ (targets : Array Bool) (address : Nat),
      movedFrom targets address none code = code by
    rw [moveOpens_eq]
    exact key _ _
  induction code with
  | nil => exact fun _ _ => rfl
  | cons instr rest ih =>
    rw [List.forall_mem_cons] at hcode
    intro targets address
    simp only [movedFrom, PendingOpen.pass?, PendingOpen.code, hcode.1, List.nil_append]
    rw [ih hcode.2]

/-! ## Addresses -/

/-- The rest of the moved code stands for the code from an address on, up to the start of a capture
on its way. -/
def Aligned (code moved : Block) (targets : Array Bool) (address : Nat)
    (pending : Option PendingOpen) : Prop :=
  ∃ front, moved = front ++ movedFrom targets address pending (code.drop address) ∧
    front.length + (PendingOpen.code pending).length = address

section

variable {code moved : Block} {targets : Array Bool} {n : Nat} {instr : Instr}
  {pending : Option PendingOpen} {p p' : PendingOpen}

theorem PendingOpen.pass?_eq_some (h : PendingOpen.pass? targets n instr (some p) = some p') :
    instr.isCheck = true ∧ p' = { p with back := p.back + instr.step } := by
  rw [PendingOpen.pass?] at h
  split at h
  · next hcond =>
    simp only [Bool.and_eq_true] at hcond
    exact ⟨hcond.1.1, (Option.some.inj h).symm⟩
  · cases h

theorem PendingOpen.stops (hinstr : code[n]? = some instr)
    (hpass : PendingOpen.pass? targets n instr (some p) = none) :
    ∀ instr', code[n]? = some instr' → PendingOpen.pass? targets n instr' (some p) = none := by
  intro instr' hinstr'
  rw [hinstr] at hinstr'
  cases hinstr'
  exact hpass

theorem Aligned.pass (h : Aligned code moved targets (n + 1) (some p))
    (hinstr : code[n + 1]? = some instr)
    (hpass : PendingOpen.pass? targets (n + 1) instr (some p) = some p') :
    moved[n]? = some instr ∧ Aligned code moved targets (n + 2) (some p') := by
  obtain ⟨front, rfl, hlength⟩ := h
  obtain ⟨hlt, rfl⟩ := List.getElem?_eq_some_iff.1 hinstr
  have hfront : front.length = n := Nat.succ.inj hlength
  rw [List.drop_eq_getElem_cons hlt, movedFrom, hpass]
  refine ⟨by simp [← hfront], front ++ [code[n + 1]], by simp, ?_⟩
  simp [PendingOpen.code, hfront]

theorem Aligned.write (h : Aligned code moved targets (n + 1) (some p))
    (hstop : ∀ instr, code[n + 1]? = some instr →
      PendingOpen.pass? targets (n + 1) instr (some p) = none) :
    moved[n]? = some (.openCapture p.kind p.back p.index) ∧
      Aligned code moved targets (n + 1) none := by
  obtain ⟨front, rfl, hlength⟩ := h
  have hfront : front.length = n := Nat.succ.inj hlength
  have hrest : movedFrom targets (n + 1) (some p) (code.drop (n + 1)) =
      .openCapture p.kind p.back p.index :: movedFrom targets (n + 1) none (code.drop (n + 1)) := by
    cases hdrop : code.drop (n + 1) with
    | nil => rfl
    | cons instr rest =>
      have hinstr : code[n + 1]? = some instr := by
        rw [← List.head?_drop, hdrop]
        rfl
      rw [movedFrom, hstop instr hinstr, movedFrom]
      rfl
  rw [hrest]
  refine ⟨by simp [← hfront], front ++ [.openCapture p.kind p.back p.index], by simp, ?_⟩
  simp [PendingOpen.code, hfront]

theorem Aligned.start (h : Aligned code moved targets n none) (hinstr : code[n]? = some instr)
    (hstart : instr.start? = some p) : Aligned code moved targets (n + 1) (some p) := by
  obtain ⟨front, rfl, hlength⟩ := h
  obtain ⟨hlt, rfl⟩ := List.getElem?_eq_some_iff.1 hinstr
  refine ⟨front, ?_, congrArg (· + 1) hlength⟩
  rw [List.drop_eq_getElem_cons hlt, movedFrom, hstart]
  rfl

theorem Aligned.keep (h : Aligned code moved targets n none) (hinstr : code[n]? = some instr)
    (hstart : instr.start? = none) :
    moved[n]? = some instr ∧ Aligned code moved targets (n + 1) none := by
  obtain ⟨front, rfl, hlength⟩ := h
  obtain ⟨hlt, rfl⟩ := List.getElem?_eq_some_iff.1 hinstr
  have hfront : front.length = n := hlength
  have hrest : movedFrom targets n none (code.drop n) =
      code[n] :: movedFrom targets (n + 1) none (code.drop (n + 1)) := by
    rw [List.drop_eq_getElem_cons hlt, movedFrom, hstart]
    rfl
  rw [hrest]
  refine ⟨by simp [← hfront], front ++ [code[n]], by simp, ?_⟩
  simp [PendingOpen.code, hfront]

theorem aligned_zero (code : Block) (targets : Array Bool) :
    Aligned code (movedFrom targets 0 none code) targets 0 none :=
  ⟨[], rfl, rfl⟩

theorem Aligned.length_eq (h : Aligned code moved targets code.length none) :
    moved.length = code.length := by
  obtain ⟨front, rfl, hlength⟩ := h
  rw [List.drop_length, movedFrom, PendingOpen.code, List.append_nil]
  exact hlength

theorem Aligned.written_or_passed (haligned : Aligned code moved targets n pending)
    (h : Aligned code moved targets 0 none) (hinstr : code[n]? = some instr) :
    Aligned code moved targets n none ∨ ∃ p, Aligned code moved targets (n + 1) (some p) := by
  cases pending with
  | none => exact .inl haligned
  | some p =>
    cases n with
    | zero => exact .inl h
    | succ n =>
      cases hpass : PendingOpen.pass? targets (n + 1) instr (some p) with
      | some p' => exact .inr ⟨p', (haligned.pass hinstr hpass).2⟩
      | none => exact .inl (haligned.write (PendingOpen.stops hinstr hpass)).2

theorem aligned_exists (h : Aligned code moved targets 0 none) (hn : n ≤ code.length) :
    ∃ pending, Aligned code moved targets n pending := by
  induction n with
  | zero => exact ⟨none, h⟩
  | succ n ih =>
    obtain ⟨pending, haligned⟩ := ih (by omega)
    have hinstr : code[n]? = some code[n] := List.getElem?_eq_getElem (by omega)
    rcases haligned.written_or_passed h hinstr with hnone | ⟨p, hpassed⟩
    · cases hstart : code[n].start? with
      | some p => exact ⟨_, hnone.start hinstr hstart⟩
      | none => exact ⟨_, (hnone.keep hinstr hstart).2⟩
    · exact ⟨_, hpassed⟩

/-- No start of a capture is on its way where a jump lands. -/
theorem aligned_target (h : Aligned code moved targets 0 none) (hn : n ≤ code.length)
    (htarget : targets.getD n false = true) : Aligned code moved targets n none := by
  obtain ⟨pending, haligned⟩ := aligned_exists h hn
  cases pending with
  | none => exact haligned
  | some p =>
    cases n with
    | zero => exact h
    | succ n =>
      refine (haligned.write fun instr _ => ?_).2
      rw [PendingOpen.pass?, htarget]
      simp

/-- No start of a capture is on its way at the end. -/
theorem length_movedFrom (h : Aligned code moved targets 0 none) : moved.length = code.length := by
  obtain ⟨pending, haligned⟩ := aligned_exists h (Nat.le_refl _)
  cases pending with
  | none => exact haligned.length_eq
  | some p =>
    cases hn : code.length with
    | zero =>
      rw [← hn]
      exact Aligned.length_eq (by rwa [hn])
    | succ n =>
      rw [hn] at haligned
      have hend := (haligned.write fun instr hinstr => by simp [← hn] at hinstr).2
      rw [← hn] at hend ⊢
      exact hend.length_eq

/-! ## Instructions of the moved code -/

/-- While the start of a capture is on its way, what comes next is a check or the start. -/
theorem Aligned.behind (h : Aligned code moved targets (n + 1) (some p)) :
    ∃ instr, moved[n]? = some instr ∧
      (instr.isCheck = true ∨ ∃ kind back index, instr = .openCapture kind back index) := by
  by_cases hpass : ∃ instr p', code[n + 1]? = some instr ∧
      PendingOpen.pass? targets (n + 1) instr (some p) = some p'
  · obtain ⟨instr, p', hinstr, hpass⟩ := hpass
    exact ⟨instr, (h.pass hinstr hpass).1, .inl (PendingOpen.pass?_eq_some hpass).1⟩
  · refine ⟨_, (h.write fun instr hinstr => ?_).1, .inr ⟨_, _, _, rfl⟩⟩
    cases hnone : PendingOpen.pass? targets (n + 1) instr (some p) with
    | none => rfl
    | some p' => exact absurd ⟨instr, p', hinstr, hnone⟩ hpass

/-- **Only checks and starts of captures have moved.** -/
theorem moved_getElem? (h : Aligned code moved targets 0 none) (hinstr : moved[n]? = some instr) :
    code[n]? = some instr ∨ instr.isCheck = true ∨
      ∃ kind back index, instr = .openCapture kind back index := by
  have behind : ∀ p, Aligned code moved targets (n + 1) (some p) →
      instr.isCheck = true ∨ ∃ kind back index, instr = .openCapture kind back index := by
    intro p hpending
    obtain ⟨instr', hinstr', hkind⟩ := hpending.behind
    rw [hinstr] at hinstr'
    cases hinstr'
    exact hkind
  have hlt : n < code.length := by
    rw [← length_movedFrom h]
    exact (List.getElem?_eq_some_iff.1 hinstr).1
  have hcode : code[n]? = some code[n] := List.getElem?_eq_getElem hlt
  obtain ⟨pending, haligned⟩ := aligned_exists h (Nat.le_of_lt hlt)
  rcases haligned.written_or_passed h hcode with hnone | ⟨p, hpassed⟩
  · cases hstart : code[n].start? with
    | some p => exact .inr (behind p (hnone.start hcode hstart))
    | none =>
      rw [(hnone.keep hcode hstart).1] at hinstr
      cases hinstr
      exact .inl hcode
  · exact .inr (behind p hpassed)

theorem getElem?_moved (h : Aligned code moved targets 0 none) (hinstr : code[n]? = some instr)
    (hcheck : instr.isCheck = false) (hstart : instr.start? = none) : moved[n]? = some instr := by
  obtain ⟨pending, haligned⟩ := aligned_exists h
    (Nat.le_of_lt (List.getElem?_eq_some_iff.1 hinstr).1)
  have hnone : Aligned code moved targets n none := by
    cases pending with
    | none => exact haligned
    | some p =>
      cases n with
      | zero => exact h
      | succ n =>
        refine (haligned.write (PendingOpen.stops hinstr ?_)).2
        rw [PendingOpen.pass?, hcheck]
        rfl
  exact (hnone.keep hinstr hstart).1

end

theorem aligned_moveOpens (code : Block) :
    Aligned code (moveOpens code) (jumpTargets code) 0 none := by
  rw [moveOpens_eq]
  exact aligned_zero code _

theorem length_moveOpens (code : Block) : (moveOpens code).length = code.length :=
  length_movedFrom (aligned_moveOpens code)

theorem contained_moveOpens {code : Block} (hcont : Contained code) :
    Contained (moveOpens code) := by
  intro k instr off hinstr hoff
  rw [length_moveOpens]
  rcases moved_getElem? (aligned_moveOpens code) hinstr with hcode | hcheck | ⟨_, _, _, rfl⟩
  · exact hcont k instr off hcode hoff
  · rw [Instr.offset?_of_isCheck hcheck] at hoff
    cases hoff
  · cases hoff

end PegMachine
