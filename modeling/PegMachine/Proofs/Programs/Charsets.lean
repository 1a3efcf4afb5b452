import PegMachine.Proofs.Programs.Compiled

/-!
# Expressions for sets of bytes

* `Charset`: sets, ranges, literals of one byte, and their unions and differences.
* `Charset.Accepts`: the bytes that an expression stands for, apart from how it is compiled.
* `Charset.Collapses`: nothing is taken away from the empty set.
* `Charset.codedBy_of_lower`: an expression has the code of its set if it collapses, and longer code
  if it does not.
* `Charset.canonical`: **the expressions that collapse are those with the one code of their set, and
  they are taken as equal just when they accept the same bytes.**
-/

namespace PegMachine

open Block

namespace ByteSet

variable {s t : ByteSet} {b c : UInt8}

theorem nodup_allBytes : allBytes.Nodup := by
  refine List.Nodup.map_on (fun i hi j hj h => ?_) List.nodup_range
  rw [List.mem_range] at hi hj
  rw [← UInt8.toNat_ofNat_of_lt' hi, ← UInt8.toNat_ofNat_of_lt' hj]
  exact congrArg UInt8.toNat h

theorem single?_eq_some_iff : s.single? = some b ↔ ∀ c, s.contains c = true ↔ c = b := by
  have hlist : s.single? = some b ↔ s.toList = [b] := by
    unfold single?
    split
    · next b' h => simp [h]
    · next h => exact ⟨nofun, fun hb => absurd hb (h b)⟩
  have hnodup : s.toList.Nodup := nodup_allBytes.filter _
  rw [hlist, ← List.perm_singleton, List.perm_ext_iff_of_nodup hnodup (List.nodup_singleton b)]
  simp

theorem isEmpty_eq_false_iff : s.isEmpty = false ↔ ∃ b, s.contains b = true := by
  rw [← Bool.not_eq_true, isEmpty_iff, ← not_iff_not, not_not, not_exists]
  refine ⟨fun h b => by simp [h], fun h => ?_⟩
  ext b
  rw [contains_empty, Bool.eq_false_iff]
  exact h b

theorem empty_union (s : ByteSet) : empty.union s = s := by
  ext b
  simp

theorem union_empty (s : ByteSet) : s.union empty = s := by
  ext b
  simp

theorem diff_empty (s : ByteSet) : s.diff empty = s := by
  ext b
  simp

end ByteSet

namespace Block

variable {s t : ByteSet} {b c : UInt8}

/-! ## The code of a set -/

theorem ofSet_of_none (h : ∀ b, s.contains b = false) : ofSet s = [.fail] := by
  have hempty : s.isEmpty = true := by
    rw [← Bool.not_eq_false, ByteSet.isEmpty_eq_false_iff]
    rintro ⟨b, hb⟩
    rw [h b] at hb
    cases hb
  rw [ofSet, if_pos hempty]

theorem ofSet_of_single (h : ∀ c, s.contains c = true ↔ c = b) : ofSet s = [.char b 0] := by
  have hsome : ¬ s.isEmpty = true := by
    rw [Bool.not_eq_true, ByteSet.isEmpty_eq_false_iff]
    exact ⟨b, (h b).2 rfl⟩
  rw [ofSet, if_neg hsome, ByteSet.single?_eq_some_iff.2 h]

theorem ofSet_of_several (hb : s.contains b = true) (hc : s.contains c = true) (hne : b ≠ c) :
    ofSet s = [.set s 0] := by
  have hsome : ¬ s.isEmpty = true := by
    rw [Bool.not_eq_true, ByteSet.isEmpty_eq_false_iff]
    exact ⟨b, hb⟩
  rw [ofSet, if_neg hsome]
  split
  · next d hd =>
    rw [ByteSet.single?_eq_some_iff] at hd
    exact absurd (((hd b).1 hb).trans ((hd c).1 hc).symm) hne
  · rfl

theorem isFail_ofSet : isFail (ofSet s) = s.isEmpty := by
  rw [ofSet]
  split
  · next h => rw [h]; rfl
  · next h =>
    rw [Bool.not_eq_true] at h
    rw [h]
    split <;> rfl

theorem charset?_ofSet (h : s.isEmpty = false) : charset? (ofSet s) = some s := by
  rcases ofSet_cases s with ⟨hfail, -⟩ | hset
  · rw [← isFail_ofSet, hfail] at h
    cases h
  · exact hset

theorem length_ofSet : (ofSet s).length = 1 := by
  rw [ofSet]
  split
  · rfl
  · split <;> rfl

theorem ofSet_inj (h : ofSet s = ofSet t) : s = t := by
  have hempty : s.isEmpty = t.isEmpty := by rw [← isFail_ofSet, h, isFail_ofSet]
  cases hs : s.isEmpty with
  | true =>
    have ht : t.isEmpty = true := hempty.symm.trans hs
    rw [ByteSet.isEmpty_iff.1 hs, ByteSet.isEmpty_iff.1 ht]
  | false =>
    have hset := charset?_ofSet hs
    rw [h, charset?_ofSet (hempty ▸ hs)] at hset
    exact (Option.some.inj hset).symm

theorem ofSet_ne_nil : ofSet s ≠ [] := by
  intro h
  have hlength : (ofSet s).length = 1 := length_ofSet
  rw [h] at hlength
  cases hlength

theorem ofBytes_singleton (b : UInt8) : ofBytes [b] = ofSet (ByteSet.ofList [b]) :=
  (ofSet_of_single fun c => by simp).symm

theorem choice_ofSet (s t : ByteSet) : choice (ofSet s) (ofSet t) = .ok (ofSet (s.union t)) := by
  rw [choice, isFail_ofSet, isFail_ofSet, List.isEmpty_eq_false_iff.2 ofSet_ne_nil, Bool.or_false]
  split
  · next hs => rw [ByteSet.isEmpty_iff.1 hs, ByteSet.empty_union]
  · next hs =>
    split
    · next ht => rw [ByteSet.isEmpty_iff.1 ht, ByteSet.union_empty]
    · next ht =>
      rw [charset?_ofSet (Bool.not_eq_true _ ▸ hs), charset?_ofSet (Bool.not_eq_true _ ▸ ht)]

/-- A set may be taken away from any other set but the empty one. -/
theorem difference_ofSet (h : s.isEmpty = true → t.isEmpty = true) :
    difference (ofSet s) (ofSet t) = .ok (ofSet (s.diff t)) := by
  rw [difference, isFail_ofSet, List.isEmpty_eq_false_iff.2 ofSet_ne_nil]
  split
  · next ht => rw [ByteSet.isEmpty_iff.1 ht, ByteSet.diff_empty]
  · next ht =>
    have hs : s.isEmpty = false := by
      rw [Bool.eq_false_iff]
      exact fun hs => ht (h hs)
    rw [charset?_ofSet hs, charset?_ofSet (Bool.not_eq_true _ ▸ ht)]
    rfl

/-! ## Longer code -/

variable {a b code : Block}

theorem length_of_charset? (h : charset? code = some s) : code.length = 1 := by
  obtain ⟨check, rfl, -⟩ := charset?_eq_some h
  rfl

theorem two_le_length_choice (h : choice a b = .ok code) (ha : a ≠ []) (hb : b ≠ [])
    (hlong : 2 ≤ a.length ∨ 2 ≤ b.length) : 2 ≤ code.length := by
  have hposA := List.length_pos_iff.2 ha
  have hposB := List.length_pos_iff.2 hb
  cases choice_form h with
  | second ha => simp_all
  | first hab =>
    rcases hab with rfl | rfl
    · simpa using hlong
    · exact absurd rfl ha
  | union hs ht =>
    rw [length_of_charset? hs, length_of_charset? ht] at hlong
    omega
  | tested => simp [length_withHeadTest]; omega
  | chosen => simp [length_hoistCheck]; omega

/-- Taking away from the empty set or among longer code gives longer code. -/
theorem two_le_length_difference (h : difference a b = .ok code) (ha : a ≠ []) (hb : b ≠ [])
    (hlong : 2 ≤ a.length ∨ 2 ≤ b.length ∨ a = [.fail] ∧ b ≠ [.fail]) : 2 ≤ code.length := by
  have hposA := List.length_pos_iff.2 ha
  have hposB := List.length_pos_iff.2 hb
  cases difference_form h with
  | first hb => simpa [hb] using hlong
  | none hb' => exact absurd hb' hb
  | diff hs ht =>
    rw [length_of_charset? hs, length_of_charset? ht] at hlong
    rcases hlong with hlong | hlong | ⟨rfl, -⟩
    · omega
    · omega
    · cases hs
  | tested => simp [length_withHeadTest]; omega
  | chosen => simp [length_hoistCheck]; omega

end Block

/-! ## Expressions -/

/-- An expression for a set of bytes. -/
inductive Charset where
  | oneOf (bytes : Bytes)
  /-- The ranges from the first to the last byte of each pair. -/
  | ranges (pairs : List (UInt8 × UInt8))
  | byte (b : UInt8)
  | union (a b : Charset)
  | diff (a b : Charset)

namespace Charset

/-- The bytes that an expression stands for. -/
def Accepts : Charset → UInt8 → Prop
  | .oneOf bytes, c => c ∈ bytes
  | .ranges pairs, c => ∃ pair ∈ pairs, pair.1 ≤ c ∧ c ≤ pair.2
  | .byte b, c => c = b
  | .union a b, c => a.Accepts c ∨ b.Accepts c
  | .diff a b, c => a.Accepts c ∧ ¬ b.Accepts c

/-- Pairs as the text that ranges are given by. -/
def pairBytes (pairs : List (UInt8 × UInt8)) : List UInt8 :=
  pairs.flatMap fun pair => [pair.1, pair.2]

theorem pairBytes_cons (pair : UInt8 × UInt8) (rest : List (UInt8 × UInt8)) :
    pairBytes (pair :: rest) = pair.1 :: pair.2 :: pairBytes rest := rfl

/-- The pattern that an expression is built as. -/
def pattern : Charset → Pattern
  | .oneOf bytes => Pattern.oneOf bytes
  | .ranges pairs => .set (Pattern.pairsUnion (pairBytes pairs))
  | .byte b => .literal #[b]
  | .union a b => .choice a.pattern b.pattern
  | .diff a b => .diff a.pattern b.pattern

/-- The set that an expression stands for. -/
def bytes : Charset → ByteSet
  | .oneOf bytes => ByteSet.ofList bytes.toList
  | .ranges pairs => Pattern.pairsUnion (pairBytes pairs)
  | .byte b => ByteSet.ofList [b]
  | .union a b => a.bytes.union b.bytes
  | .diff a b => a.bytes.diff b.bytes

/-- Nothing is taken away from the empty set. -/
def Collapses : Charset → Prop
  | .union a b => a.Collapses ∧ b.Collapses
  | .diff a b => a.Collapses ∧ b.Collapses ∧ ((∀ c, ¬ a.Accepts c) → ∀ c, ¬ b.Accepts c)
  | _ => True

variable {e : Charset} {c : UInt8}

theorem range?_pairBytes (pairs : List (UInt8 × UInt8)) :
    Pattern.range? (pairBytes pairs).toArray = .ok (ranges pairs).pattern := by
  have heven : (pairBytes pairs).length % 2 = 0 := by
    induction pairs with
    | nil => rfl
    | cons pair rest ih =>
      rw [pairBytes_cons, List.length_cons, List.length_cons]
      omega
  rw [Pattern.range?, List.size_toArray, if_pos heven]
  rfl

theorem contains_pairsUnion (pairs : List (UInt8 × UInt8)) :
    (Pattern.pairsUnion (pairBytes pairs)).contains c = true ↔
      ∃ pair ∈ pairs, pair.1 ≤ c ∧ c ≤ pair.2 := by
  induction pairs with
  | nil => simp [pairBytes, Pattern.pairsUnion]
  | cons pair rest ih =>
    simp [pairBytes_cons, Pattern.pairsUnion, ih]

theorem contains_bytes (e : Charset) (c : UInt8) : e.bytes.contains c = true ↔ e.Accepts c := by
  induction e with
  | oneOf bytes => simp [Charset.bytes, Accepts]
  | ranges pairs => exact contains_pairsUnion pairs
  | byte b => simp [Charset.bytes, Accepts]
  | union a b iha ihb => simp [Charset.bytes, Accepts, iha, ihb]
  | diff a b iha ihb => simp [Charset.bytes, Accepts, iha, ← ihb]

theorem isEmpty_bytes : e.bytes.isEmpty = true ↔ ∀ c, ¬ e.Accepts c := by
  rw [← Bool.not_eq_false, ByteSet.isEmpty_eq_false_iff, not_exists]
  simp only [contains_bytes]

/-! ## Code -/

/-- An expression that collapses has the code of its set, and any other one has longer code. -/
structure CodedBy (e : Charset) (code : Block) : Prop where
  short : e.Collapses → code = ofSet e.bytes
  long : ¬ e.Collapses → 2 ≤ code.length

variable {scope : Option Scope} {s s' : Array Constant} {code : Block}

theorem CodedBy.ne_nil (h : e.CodedBy code) : code ≠ [] := by
  by_cases hcollapses : e.Collapses
  · rw [h.short hcollapses]
    exact ofSet_ne_nil
  · exact List.ne_nil_of_length_pos (Nat.zero_lt_of_lt (h.long hcollapses))

theorem CodedBy.union {a b : Charset} {codeA codeB : Block} (ha : a.CodedBy codeA)
    (hb : b.CodedBy codeB) (h : choice codeA codeB = .ok code) : (a.union b).CodedBy code where
  short hcollapses := by
    rw [ha.short hcollapses.1, hb.short hcollapses.2, choice_ofSet] at h
    exact (Except.ok.inj h).symm
  long hnot := by
    refine two_le_length_choice h ha.ne_nil hb.ne_nil ?_
    rcases not_and_or.1 hnot with hnot | hnot
    · exact .inl (ha.long hnot)
    · exact .inr (hb.long hnot)

theorem CodedBy.diff {a b : Charset} {codeA codeB : Block} (ha : a.CodedBy codeA)
    (hb : b.CodedBy codeB) (h : difference codeA codeB = .ok code) : (a.diff b).CodedBy code where
  short := by
    rintro ⟨hcollA, hcollB, hempty⟩
    rw [← isEmpty_bytes, ← isEmpty_bytes] at hempty
    rw [ha.short hcollA, hb.short hcollB, difference_ofSet hempty] at h
    exact (Except.ok.inj h).symm
  long hnot := by
    refine two_le_length_difference h ha.ne_nil hb.ne_nil ?_
    by_cases hcollA : a.Collapses
    · by_cases hcollB : b.Collapses
      · have hempty : ¬ (a.bytes.isEmpty = true → b.bytes.isEmpty = true) := fun hempty =>
          hnot ⟨hcollA, hcollB, by rwa [isEmpty_bytes, isEmpty_bytes] at hempty⟩
        rw [Classical.not_imp, ← isFail_ofSet, ← isFail_ofSet, isFail_iff, isFail_iff] at hempty
        rw [ha.short hcollA, hb.short hcollB]
        exact .inr (.inr hempty)
      · exact .inr (.inl (hb.long hcollB))
    · exact .inl (ha.long hcollA)

/-- **An expression has the code of its set if it collapses, and longer code if not.** -/
theorem codedBy_of_lower (h : e.pattern.lower scope s = .ok (code, s')) :
    s' = s ∧ e.CodedBy code := by
  induction e generalizing s s' code with
  | oneOf | ranges =>
    obtain ⟨rfl, rfl⟩ := Pattern.lower_set.1 h
    exact ⟨rfl, fun _ => rfl, fun hnot => absurd trivial hnot⟩
  | byte b =>
    obtain ⟨rfl, rfl⟩ := Pattern.lower_literal.1 h
    exact ⟨rfl, fun _ => ofBytes_singleton b, fun hnot => absurd trivial hnot⟩
  | union a b iha ihb =>
    obtain ⟨codeA, mid, codeB, ha, hb, hcode⟩ := Pattern.lower_choice.1 h
    obtain ⟨rfl, hcodedA⟩ := iha ha
    obtain ⟨rfl, hcodedB⟩ := ihb hb
    exact ⟨rfl, hcodedA.union hcodedB hcode⟩
  | diff a b iha ihb =>
    obtain ⟨codeA, mid, codeB, ha, hb, hcode⟩ := Pattern.lower_diff.1 h
    obtain ⟨rfl, hcodedA⟩ := iha ha
    obtain ⟨rfl, hcodedB⟩ := ihb hb
    exact ⟨rfl, hcodedA.diff hcodedB hcode⟩

theorem lower_of_collapses (h : e.Collapses) (scope : Option Scope) (s : Array Constant) :
    e.pattern.lower scope s = .ok (ofSet e.bytes, s) := by
  induction e with
  | oneOf | ranges => rfl
  | byte b => exact Pattern.lower_literal.2 ⟨(ofBytes_singleton b).symm, rfl⟩
  | union a b iha ihb =>
    exact Pattern.lower_choice.2 ⟨_, _, _, iha h.1, ihb h.2, choice_ofSet _ _⟩
  | diff a b iha ihb =>
    obtain ⟨hcollA, hcollB, hempty⟩ := h
    rw [← isEmpty_bytes, ← isEmpty_bytes] at hempty
    exact Pattern.lower_diff.2 ⟨_, _, _, iha hcollA, ihb hcollB, difference_ofSet hempty⟩

/-! ## Programs -/

/-- The program of a set: its code and the instructions that end a match. -/
def program (bytes : ByteSet) : Program :=
  ⟨(ofSet bytes ++ [Instr.done, Instr.giveUp]).toArray, #[]⟩

theorem size_program (bytes : ByteSet) : (program bytes).size = 3 := by
  show (program bytes).code.size = 3
  rw [program, List.size_toArray, List.length_append, length_ofSet]
  rfl

theorem compile_of_collapses (h : e.Collapses) : e.pattern.compile = .ok (program e.bytes) := by
  have hstraight : ∀ instr ∈ ofSet e.bytes, instr.start? = none ∧ instr.offset? = none := by
    rw [ofSet]
    split
    · simp [Instr.start?, Instr.offset?]
    · split <;> simp [Instr.start?, Instr.offset?]
  refine Pattern.compile_ok.2 ⟨_, _, lower_of_collapses h none #[], ?_⟩
  rw [Program.ofBlock_straight (fun instr hmem => (hstraight instr hmem).1)
    (fun instr hmem => (hstraight instr hmem).2), length_ofSet, if_pos (by decide)]
  rfl

theorem collapses_of_size {program : Program} (h : e.pattern.compile = .ok program)
    (hsize : program.size = 3) : e.Collapses := by
  obtain ⟨block, code, hcompiled⟩ := Pattern.compiled_exists h
  by_contra hnot
  have hlong := (codedBy_of_lower hcompiled.lowered).2.long hnot
  have hlength : code.length = block.length := by
    rw [← length_moveOpens block, ← hcompiled.threaded.1, List.size_toArray]
  have := hcompiled.size_eq
  omega

/-- **The expressions that collapse are those with the program of their set.** -/
theorem compile_iff : e.pattern.compile = .ok (program e.bytes) ↔ e.Collapses :=
  ⟨fun h => collapses_of_size h (size_program _), compile_of_collapses⟩

theorem program_code_inj {bytes bytes' : ByteSet}
    (h : (program bytes).code = (program bytes').code) : bytes = bytes' :=
  ofSet_inj (List.append_cancel_right (List.toArray_inj h))

theorem bytes_eq_iff {f : Charset} : e.bytes = f.bytes ↔ ∀ c, e.Accepts c ↔ f.Accepts c := by
  simp only [← contains_bytes]
  refine ⟨fun h c => by rw [h], fun h => ?_⟩
  ext c
  exact Bool.eq_iff_iff.2 (h c)

theorem sameCode_iff {f : Charset} (he : e.Collapses) :
    e.pattern.sameCode f.pattern = true ↔ f.Collapses ∧ ∀ c, e.Accepts c ↔ f.Accepts c := by
  rw [Pattern.sameCode, compile_of_collapses he, ← bytes_eq_iff]
  constructor
  · intro h
    cases hf : f.pattern.compile with
    | error fault => simp [hf] at h
    | ok program' =>
      have hcode : (program e.bytes).code = program'.code := by simpa [hf] using h
      have hcollapses : f.Collapses := by
        refine collapses_of_size hf ?_
        rw [← size_program e.bytes]
        exact congrArg Array.size hcode.symm
      rw [compile_of_collapses hcollapses] at hf
      cases hf
      exact ⟨hcollapses, program_code_inj hcode⟩
  · rintro ⟨hf, hbytes⟩
    rw [compile_of_collapses hf, hbytes]
    simp

/-! ## Matches -/

section

variable {subject : Bytes} {rules : Rules} {pos : Nat}

theorem derives (e : Charset) :
    (∀ b, subject[pos]? = some b → e.Accepts b →
      Derives subject rules e.pattern pos (some (pos + 1, []))) ∧
    ((∀ b, subject[pos]? = some b → ¬ e.Accepts b) → Derives subject rules e.pattern pos none) := by
  induction e with
  | oneOf bytes =>
    have hset := contains_bytes (oneOf bytes)
    exact ⟨fun b hb h => .set hb ((hset b).2 h),
      fun hnone => .setFail fun b hb => Bool.eq_false_iff.2 fun h => hnone b hb ((hset b).1 h)⟩
  | ranges pairs =>
    have hset := contains_bytes (ranges pairs)
    exact ⟨fun b hb h => .set hb ((hset b).2 h),
      fun hnone => .setFail fun b hb => Bool.eq_false_iff.2 fun h => hnone b hb ((hset b).1 h)⟩
  | byte b =>
    have hfirst : [b] <+: subject.toList.drop pos ↔ subject[pos]? = some b := by
      rw [← Array.getElem?_toList, ← List.head?_drop]
      cases subject.toList.drop pos <;> simp [List.cons_prefix_cons, eq_comm]
    refine ⟨fun c hc h => ?_, fun hnone => .literalFail fun h => hnone b (hfirst.1 h) rfl⟩
    obtain rfl : c = b := h
    exact .literal (hfirst.2 hc)
  | union a b iha ihb =>
    refine ⟨fun c hc h => ?_, fun hnone => ?_⟩
    · by_cases ha : a.Accepts c
      · exact .choiceFirst (iha.1 c hc ha)
      · refine .choiceSecond (iha.2 fun c' hc' => ?_) (ihb.1 c hc (h.resolve_left ha))
        rw [hc] at hc'
        cases hc'
        exact ha
    · exact .choiceSecond (iha.2 fun c hc h => hnone c hc (.inl h))
        (ihb.2 fun c hc h => hnone c hc (.inr h))
  | diff a b iha ihb =>
    refine ⟨fun c hc h => .diff (ihb.2 fun c' hc' => ?_) (iha.1 c hc h.1), fun hnone => ?_⟩
    · rw [hc] at hc'
      cases hc'
      exact h.2
    · by_cases hb : ∃ c, subject[pos]? = some c ∧ b.Accepts c
      · obtain ⟨c, hc, hb⟩ := hb
        exact .diffFail (ihb.1 c hc hb)
      · have hnoneB : ∀ c, subject[pos]? = some c → ¬ b.Accepts c := fun c hc h => hb ⟨c, hc, h⟩
        exact .diff (ihb.2 hnoneB) (iha.2 fun c hc h => hnone c hc ⟨h, hnoneB c hc⟩)

theorem derives_iff {r : Parse} : Derives subject rules e.pattern pos r ↔
    (∃ b, subject[pos]? = some b ∧ e.Accepts b ∧ r = some (pos + 1, [])) ∨
      (∀ b, subject[pos]? = some b → ¬ e.Accepts b) ∧ r = none := by
  refine ⟨fun h => ?_, ?_⟩
  · by_cases hb : ∃ b, subject[pos]? = some b ∧ e.Accepts b
    · obtain ⟨b, hb, haccepts⟩ := hb
      exact .inl ⟨b, hb, haccepts, h.unique (e.derives.1 b hb haccepts)⟩
    · have hnone : ∀ b, subject[pos]? = some b → ¬ e.Accepts b := fun b h h' => hb ⟨b, h, h'⟩
      exact .inr ⟨hnone, h.unique (e.derives.2 hnone)⟩
  · rintro (⟨b, hb, haccepts, rfl⟩ | ⟨hnone, rfl⟩)
    · exact e.derives.1 b hb haccepts
    · exact e.derives.2 hnone

end

/-! ## The canonical form -/

/-- **Expressions that collapse have one canonical program.** It fails for the empty set, checks for
the byte of a set with one, and for a set of bytes otherwise. They are taken as equal just when they
accept the same bytes, and never as equal to an expression that takes something away from the empty
set. -/
theorem canonical (e : Charset) :
    (e.pattern.compile = .ok (program e.bytes) ↔ e.Collapses) ∧
      ((∀ c, ¬ e.Accepts c) → program e.bytes = ⟨#[.fail, .done, .giveUp], #[]⟩) ∧
      (∀ b, (∀ c, e.Accepts c ↔ c = b) → program e.bytes = ⟨#[.char b 0, .done, .giveUp], #[]⟩) ∧
      (∀ b c, e.Accepts b → e.Accepts c → b ≠ c →
        program e.bytes = ⟨#[.set e.bytes 0, .done, .giveUp], #[]⟩) ∧
      (∀ f : Charset, e.Collapses → (e.pattern.sameCode f.pattern = true ↔
        f.Collapses ∧ ∀ c, e.Accepts c ↔ f.Accepts c)) ∧
      ∀ (subject : Bytes) (rules : Rules) (pos : Nat) (r : Parse),
        Derives subject rules e.pattern pos r ↔
          (∃ b, subject[pos]? = some b ∧ e.Accepts b ∧ r = some (pos + 1, [])) ∨
            (∀ b, subject[pos]? = some b → ¬ e.Accepts b) ∧ r = none := by
  refine ⟨compile_iff, fun hnone => ?_, fun b hsingle => ?_, fun b c hb hc hne => ?_,
    fun f he => sameCode_iff he, fun subject rules pos r => derives_iff⟩
  · have hcode : ofSet e.bytes = [.fail] :=
      ofSet_of_none fun c => Bool.eq_false_iff.2 fun h => hnone c ((contains_bytes e c).1 h)
    rw [program, hcode]
    rfl
  · rw [program, ofSet_of_single fun c => (contains_bytes e c).trans (hsingle c)]
    rfl
  · rw [program, ofSet_of_several ((contains_bytes e b).2 hb) ((contains_bytes e c).2 hc) hne]
    rfl

/-- A range without its first and its last byte. -/
def between : Charset := .diff (.ranges [(97, 99)]) (.oneOf #[97, 99])

theorem between_canonical :
    between.pattern.compile = .ok ⟨#[.char 98 0, .done, .giveUp], #[]⟩ ∧
      between.pattern.sameCode (byte 98).pattern = true := by
  have haccepts : ∀ c, between.Accepts c ↔ c = 98 := by
    have hsingle : between.bytes.single? = some 98 := by decide +kernel
    exact fun c => (contains_bytes between c).symm.trans (ByteSet.single?_eq_some_iff.1 hsingle c)
  have hcollapses : between.Collapses :=
    ⟨trivial, trivial, fun h => absurd ⟨(97, 99), by decide, by decide, by decide⟩ (h 98)⟩
  obtain ⟨hcompile, -, hsingle, -, hsame, -⟩ := canonical between
  refine ⟨?_, (hsame (byte 98) hcollapses).2 ⟨trivial, haccepts⟩⟩
  rw [← hsingle 98 haccepts]
  exact hcompile.2 hcollapses

/-- The empty set without one byte, which stands for the empty set. -/
def emptyLess : Charset := .diff (.oneOf #[]) (.byte 97)

/-- Not all expressions for the same bytes have the same program. -/
theorem emptyLess_not_sameCode :
    (∀ c, emptyLess.Accepts c ↔ (oneOf #[]).Accepts c) ∧
      emptyLess.pattern.compile =
        .ok ⟨#[.char 97 2, .fail, .fail, .done, .giveUp], #[]⟩ ∧
      (oneOf #[]).pattern.compile = .ok ⟨#[.fail, .done, .giveUp], #[]⟩ ∧
      emptyLess.pattern.sameCode (oneOf #[]).pattern = false ∧
      (oneOf #[]).pattern.sameCode emptyLess.pattern = false := by
  have hless : emptyLess.pattern.compile =
      .ok ⟨#[.char 97 2, .fail, .fail, .done, .giveUp], #[]⟩ := rfl
  have hnone : (oneOf #[]).pattern.compile = .ok ⟨#[.fail, .done, .giveUp], #[]⟩ := rfl
  refine ⟨fun c => by simp [emptyLess, Accepts], hless, hnone, ?_, ?_⟩
  · rw [Pattern.sameCode, hless, hnone]
    decide
  · rw [Pattern.sameCode, hless, hnone]
    decide

end Charset

end PegMachine
