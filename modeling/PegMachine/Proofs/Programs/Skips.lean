import PegMachine.Proofs.Programs.Outcomes

/-!
# Sequences of skips

* `Pattern.Skips`: sequences, nested in any way, of patterns that skip bytes or none.
* `Block.sequence_any`: skips one after another have the code of one skip over as many bytes, and are
  too big where that is.
* `Pattern.Skips.lower_eq`: sequences of skips are lowered as one skip.
* `Pattern.Skips.derives_iff`: they match where so many bytes are left, and end behind them.
* `Pattern.Skips.compile_eq_any`: **sequences of skips over the same number of bytes compile to the
  same program, or are all too big.**
-/

namespace PegMachine

/-- A pattern is put together from skips, successes and empty literals by sequences. It skips `n`
bytes in all. -/
inductive Pattern.Skips : Pattern → Nat → Prop where
  | any (n : Nat) : Skips (.any n) n
  | succeed : Skips .succeed 0
  | empty : Skips (.literal #[]) 0
  | seq {a b : Pattern} {m n : Nat} (ha : Skips a m) (hb : Skips b n) : Skips (.seq a b) (m + n)

namespace Block

variable {n : Nat} {instr : Instr}

/-! ## Code that skips -/

theorem length_skip (n : Nat) : (skip n).length = (n + maxSkip - 1) / maxSkip := by
  have hdiv := Nat.div_add_mod n maxSkip
  have hlt : n % maxSkip < maxSkip := Nat.mod_lt n (by decide)
  rw [skip, List.length_append, List.length_replicate]
  unfold maxSkip at *
  split
  · rw [List.length_nil]
    omega
  · rw [List.length_singleton]
    omega

theorem mem_skip (h : instr ∈ skip n) : ∃ k, instr = .any k 0 ∧ 0 < k ∧ k ≤ maxSkip := by
  rw [skip, List.mem_append] at h
  rcases h with h | h
  · exact ⟨maxSkip, (List.mem_replicate.1 h).2, by decide, Nat.le_refl _⟩
  · split at h
    · cases h
    · next hrest =>
      exact ⟨_, List.mem_singleton.1 h, Nat.pos_of_ne_zero hrest,
        Nat.le_of_lt (Nat.mod_lt n (by decide))⟩

theorem skip_eq_nil_iff : skip n = [] ↔ n = 0 := by
  refine ⟨fun h => ?_, by rintro rfl; rfl⟩
  rw [← width_skip n, h, width_nil]

theorem isFail_skip (n : Nat) : (skip n).isFail = false := by
  rw [Bool.eq_false_iff]
  intro h
  have hskip := all_isSkip_skip n
  rw [isFail_iff.1 h] at hskip
  cases hskip

theorem anyLength?_skip (n : Nat) : anyLength? (skip n) = some n := by
  rw [anyLength?, if_pos (all_isSkip_skip n), width_skip]

theorem any_natCast (n : Nat) :
    any n = if (skip n).length ≤ maxOffset then .ok (skip n) else .error .patternTooBig := by
  rw [any, length_skip, Int.natAbs_natCast, if_pos (Int.natCast_nonneg n)]
  exact checkedOffset_bind_ok _ _

theorem any_eq_error (h : maxOffset < (skip n).length) : any n = .error .patternTooBig :=
  (any_natCast n).trans (if_neg (Nat.not_le.2 h))

/-! ## One skip after another -/

/-- Of two skips, both are short enough where the longer one is. -/
theorem length_skip_le {m : Nat} (h : m ≤ n) : (skip m).length ≤ (skip n).length := by
  rw [length_skip, length_skip]
  exact Nat.div_le_div_right (by omega)

/-- The code of a sequence of two skips that are not too big on their own. It is that of one skip
also where one of them has no code. -/
theorem sequence_skip {m : Nat} (hm : (skip m).length ≤ maxOffset)
    (hn : (skip n).length ≤ maxOffset) : sequence (skip m) (skip n) = any (m + n : Nat) := by
  simp only [sequence, isFail_skip, Bool.false_or, List.isEmpty_iff, skip_eq_nil_iff,
    anyLength?_skip]
  split
  · next hzero => rw [hzero, Nat.add_zero, any_natCast, if_pos hm]
  · split
    · next hzero => rw [hzero, Nat.zero_add, any_natCast, if_pos hn]
    · rfl

/-- **Two skips one after another have the code of one skip over as many bytes.** Where one of them
is too big on its own, so is that one. -/
theorem sequence_any (m n : Nat) :
    (do
      let a ← any m
      let b ← any n
      sequence a b) = any (m + n : Nat) := by
  rw [any_natCast m, any_natCast n]
  split
  · next hm =>
    split
    · next hn => exact sequence_skip hm hn
    · next hn =>
      have hsum := length_skip_le (Nat.le_add_left n m)
      rw [any_eq_error (by omega : maxOffset < (skip (m + n)).length)]
      rfl
  · next hm =>
    have hsum := length_skip_le (Nat.le_add_right m n)
    rw [any_eq_error (by omega : maxOffset < (skip (m + n)).length)]
    rfl

end Block

theorem Setting.outcomeOf_matched_empty (m : Setting) (pos : Nat) :
    m.outcomeOf (.matched pos #[]) = .matched ⟨pos, []⟩ := by
  have hresolve : (m.resolver #[]).resolve = .ok [] := by
    have hnone : ¬ 0 < (m.resolver #[]).entries.size := Nat.not_lt_zero 0
    rw [Resolver.resolve, Resolver.resolveFrom, if_neg hnone]
    rfl
  rw [outcomeOf, hresolve]

namespace Pattern

variable {p : Pattern} {n : Nat}

/-! ## Lowering -/

theorem Skips.lower_eq (h : p.Skips n) (scope : Option Scope) :
    p.lower scope = (Pattern.any n).lower scope := by
  induction h with
  | any => rfl
  | succeed | empty => rfl
  | @seq a b m n _ _ iha ihb =>
    calc
      (do
        let codeA ← a.lower scope
        let codeB ← b.lower scope
        Block.sequence codeA codeB : Lowering Block)
      _ = (do
            let codeA ← (Block.any m : Lowering Block)
            let codeB ← (Block.any n : Lowering Block)
            Block.sequence codeA codeB) := by rw [iha, ihb]; rfl
      _ = ((do
            let codeA ← Block.any m
            let codeB ← Block.any n
            Block.sequence codeA codeB : Except Fault Block) : Lowering Block) := by
        simp only [liftM_bind]
      _ = (Pattern.any (m + n : Nat)).lower scope := by rw [Block.sequence_any]; rfl

/-! ## Programs -/

theorem compile_any (n : Nat) : (Pattern.any n).compile =
    if (Block.skip n).length + 2 ≤ maxOffset then
      .ok ⟨(Block.skip n ++ [Instr.done, Instr.giveUp]).toArray, #[]⟩
    else .error .patternTooBig := by
  have hskip : ∀ instr ∈ Block.skip n, instr.start? = none ∧ instr.offset? = none := by
    intro instr hmem
    obtain ⟨k, rfl, -⟩ := Block.mem_skip hmem
    exact ⟨rfl, rfl⟩
  have hprogram : Program.ofBlock (Block.skip n) #[] = _ :=
    Program.ofBlock_straight (fun instr h => (hskip instr h).1) (fun instr h => (hskip instr h).2)
  rw [← hprogram]
  change ((Block.any n : Lowering Block) #[] >>= fun found => Program.ofBlock found.1 found.2) = _
  rw [Block.any_natCast]
  split
  · rfl
  · rw [hprogram, if_neg (by omega)]
    rfl

theorem ends_any {m : Setting} {start : Nat} (hp : (Pattern.any n).compile = .ok m.program)
    (hstart : start ≤ m.subject.size) : m.Ends start
      (if start + n ≤ m.subject.size then .matched ⟨start + n, []⟩ else .unmatched) := by
  obtain ⟨block, code, hcompiled⟩ := compiled_exists hp
  have hblock : block = Block.skip n := by
    have hlower := (lower_any.1 hcompiled.lowered).1
    rw [Block.any_natCast] at hlower
    split at hlower
    · exact (Except.ok.inj hlower).symm
    · cases hlower
  subst hblock
  have hends := Setting.ends_of_allow (n := 0) hcompiled
    (hcompiled.run_of_block (Block.runs_skip n hstart)) (fun _ _ => .inl rfl)
  split
  · next h =>
    rw [if_pos h, Answer.ofPos, Setting.outcomeOf_matched_empty] at hends
    exact hends
  · next h =>
    rw [if_neg h] at hends
    exact hends

/-! ## Matches -/

section

variable {subject : Bytes} {rules : Rules} {pos : Nat} {r : Parse}

theorem derives_any_iff : Derives subject rules (.any n) pos r ↔
    r = if pos + n ≤ subject.size then some (pos + n, []) else none := by
  have hn : 0 ≤ (n : Int) := Int.natCast_nonneg n
  have hderives : Derives subject rules (.any n) pos
      (if pos + n ≤ subject.size then some (pos + n, []) else none) := by
    split
    · next h => exact .any hn h
    · next h => exact .anyFail hn (Nat.not_le.1 h)
  exact ⟨fun h => h.unique hderives, fun h => h ▸ hderives⟩

theorem Skips.derives (h : p.Skips n) (hpos : pos ≤ subject.size) :
    Derives subject rules p pos (if pos + n ≤ subject.size then some (pos + n, []) else none) := by
  induction h generalizing pos with
  | any n => exact derives_any_iff.2 rfl
  | succeed =>
    rw [Nat.add_zero, if_pos hpos]
    exact .succeed
  | empty =>
    rw [Nat.add_zero, if_pos hpos]
    exact .literal (by simp)
  | @seq a b m n _ _ iha ihb =>
    have hfirst := iha hpos
    by_cases hm : pos + m ≤ subject.size
    · rw [if_pos hm] at hfirst
      have hsecond := ihb hm
      rw [Nat.add_assoc] at hsecond
      split at hsecond
      · next hle =>
        rw [if_pos hle]
        exact .seq hfirst hsecond
      · next hle =>
        rw [if_neg hle]
        exact .seq hfirst hsecond
    · rw [if_neg hm] at hfirst
      rw [if_neg (by omega)]
      exact .seqFail hfirst

theorem Skips.derives_iff (h : p.Skips n) (hpos : pos ≤ subject.size) :
    Derives subject rules p pos r ↔ Derives subject rules (.any n) pos r := by
  rw [derives_any_iff]
  exact ⟨fun hr => hr.unique (h.derives hpos), fun hr => hr ▸ h.derives hpos⟩

end

/-- **Sequences of skips over the same number of bytes are the same program, or too big.** However
the sequences are nested, the program is that of one skip: instructions that skip at most as many
bytes as one can, unless there are too many of them. It matches where so many bytes are left and ends
behind them. -/
theorem Skips.compile_eq_any (h : p.Skips n) :
    p.compile = (Pattern.any n).compile ∧
      (p.compile =
        if (Block.skip n).length + 2 ≤ maxOffset then
          .ok ⟨(Block.skip n ++ [Instr.done, Instr.giveUp]).toArray, #[]⟩
        else .error .patternTooBig) ∧
      (∀ instr ∈ Block.skip n, ∃ k, instr = .any k 0 ∧ 0 < k ∧ k ≤ Block.maxSkip) ∧
      (∀ (subject : Bytes) (rules : Rules) (pos : Nat) (r : Parse), pos ≤ subject.size →
        (Derives subject rules p pos r ↔ Derives subject rules (.any n) pos r)) ∧
      ∀ (m : Setting) (start : Nat), p.compile = .ok m.program → start ≤ m.subject.size →
        m.Ends start
          (if start + n ≤ m.subject.size then .matched ⟨start + n, []⟩ else .unmatched) := by
  have hcompile : p.compile = (Pattern.any n).compile := by
    rw [compile, h.lower_eq none]
    rfl
  refine ⟨hcompile, hcompile.trans (compile_any n), fun instr => Block.mem_skip,
    fun subject rules pos r hpos => h.derives_iff hpos, fun m start hp hstart => ?_⟩
  exact ends_any (hcompile.symm.trans hp) hstart

/-- Skips of 200 and of 100 bytes with parts that skip none between them. -/
def nestedSkips : Pattern :=
  .seq (.seq (.any 200) .succeed) (.seq (.literal #[]) (.any 100))

/-- The program that skips 300 bytes, on a subject of as many. -/
def skipping : Setting :=
  ⟨⟨#[.any 255 0, .any 45 0, .done, .giveUp], #[]⟩, {}, Array.replicate 300 0, []⟩

theorem nestedSkips_compile : nestedSkips.compile = (Pattern.any 300).compile ∧
    nestedSkips.compile = .ok skipping.program ∧
    Derives skipping.subject [] nestedSkips 0 (some (300, [])) ∧
    skipping.Ends 0 (.matched ⟨300, []⟩) := by
  have hskips : nestedSkips.Skips 300 := .seq (.seq (.any 200) .succeed) (.seq .empty (.any 100))
  have hsize : 0 + 300 ≤ skipping.subject.size := by simp [skipping]
  obtain ⟨hcompile, hprogram, -, hderives, hends⟩ := hskips.compile_eq_any
  rw [if_pos (by decide)] at hprogram
  refine ⟨hcompile, hprogram, (hderives _ _ _ _ (Nat.zero_le _)).2 ?_, ?_⟩
  · exact .any (by decide) hsize
  · have hmatched := hends skipping 0 hprogram (Nat.zero_le _)
    rwa [if_pos hsize] at hmatched

end Pattern

end PegMachine
