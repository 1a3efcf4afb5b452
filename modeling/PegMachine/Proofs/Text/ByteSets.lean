import Mathlib.Logic.ExistsUnique
import Mathlib.Tactic.SplitIfs
import PegMachine.ByteSet

/-!
# Written forms of byte sets

A byte set is written as its maximal runs of consecutive members, and what is written tells the set.

* `Text.readByte?`: an escaped byte is read back without looking at what stands behind it.
* `ByteSet.IsRun`: a maximal run of consecutive members.
* `ByteSet.mem_runs_iff`, `ByteSet.mem_iff_exists_run`, `ByteSet.pairwise_runsFrom`: the runs that
  are found are the maximal ones, each member is in one, and they ascend.
* `ByteSet.renderRuns_inj`: runs that are written in the same way are the same.
* **`ByteSet.render_determines`**: the written form lists the maximal runs, and no other set has it.
-/

namespace PegMachine

/-! ## Reading escaped bytes -/

namespace Text

/-- The value of a lower case hexadecimal digit. -/
def digitValue (c : Char) : Nat :=
  if c.toNat < 58 then c.toNat - 48 else c.toNat - 87

/-- The byte that a text starts with, in escaped form, and the text behind it. -/
def readByte? : List Char → Option (UInt8 × List Char)
  | [] => none
  | '\\' :: 't' :: rest => some (9, rest)
  | '\\' :: 'r' :: rest => some (13, rest)
  | '\\' :: 'n' :: rest => some (10, rest)
  | '\\' :: 'x' :: high :: low :: rest =>
    some ((digitValue high * 16 + digitValue low).toUInt8, rest)
  | '\\' :: c :: rest => some (c.toNat.toUInt8, rest)
  | c :: rest => some (c.toNat.toUInt8, rest)

variable {b c : UInt8} {x y : List Char}

theorem digitValue_digitChar {n : Nat} (h : n < 16) : digitValue (Nat.digitChar n) = n := by
  have key : ∀ n < 16, digitValue (Nat.digitChar n) = n := by decide
  exact key n h

theorem readByte?_hexByte (b : UInt8) (x : List Char) :
    readByte? ('\\' :: 'x' :: hexByte b ++ x) = some (b, x) := by
  have hb : b.toNat < 256 := b.toNat_lt
  rw [hexByte]
  simp only [List.cons_append, List.nil_append, readByte?]
  rw [digitValue_digitChar (by omega), digitValue_digitChar (by omega), Nat.div_add_mod']
  simp

theorem readByte?_plain {c : Char} (h : c ≠ '\\') (x : List Char) :
    readByte? (c :: x) = some (c.toNat.toUInt8, x) := by
  unfold readByte?
  split <;> simp_all

theorem readByte?_ofNat (hne : b ≠ 92) (x : List Char) :
    readByte? (Char.ofNat b.toNat :: x) = some (b, x) := by
  have hvalid : b.toNat.isValidChar := .inl (Nat.lt_trans b.toNat_lt (by decide))
  have hcode : (Char.ofNat b.toNat).toNat = b.toNat := by
    rw [Char.ofNat, dif_pos hvalid]
    rfl
  have hplain : Char.ofNat b.toNat ≠ '\\' := by
    intro h
    have h92 := congrArg Char.toNat h
    rw [hcode] at h92
    exact hne (UInt8.toNat_inj.1 h92)
  rw [readByte?_plain hplain, hcode]
  simp

theorem readByte?_escapeByte (b : UInt8) (x : List Char) :
    readByte? (escapeByte b ++ x) = some (b, x) := by
  unfold escapeByte
  split_ifs with htab hreturn hline happos hquote hback hprint
  · rw [htab]; rfl
  · rw [hreturn]; rfl
  · rw [hline]; rfl
  · rw [happos]; rfl
  · rw [hquote]; rfl
  · rw [hback]; rfl
  · exact readByte?_ofNat hback x
  · exact readByte?_hexByte b x

/-- Where one escaped byte ends and the next text starts is not in doubt. -/
theorem escapeByte_append_inj (h : escapeByte b ++ x = escapeByte c ++ y) : b = c ∧ x = y := by
  have hread := congrArg readByte? h
  rw [readByte?_escapeByte, readByte?_escapeByte] at hread
  simpa using hread

theorem escapeByte_ne_nil (b : UInt8) : escapeByte b ≠ [] := by
  intro h
  have hread := readByte?_escapeByte b []
  rw [h] at hread
  cases hread

end Text

namespace ByteSet

variable {s t : ByteSet} {run run' : UInt8 × UInt8} {runs runs' : List (UInt8 × UInt8)}
  {b : UInt8} {i : Nat} {x y : List Char}

/-! ## Maximal runs -/

theorem toNat_toUInt8 (h : i ≤ 255) : i.toUInt8.toNat = i :=
  UInt8.toNat_ofNat_of_lt' (Nat.lt_succ_of_le h)

theorem toUInt8_toNat (b : UInt8) : b.toNat.toUInt8 = b := by
  simp

/-- The bytes from the first to the second are members, and the bytes next to them are not. -/
structure IsRun (s : ByteSet) (run : UInt8 × UInt8) : Prop where
  le : run.1 ≤ run.2
  mem : ∀ b, run.1 ≤ b → b ≤ run.2 → b ∈ s
  before : ∀ b, b.toNat + 1 = run.1.toNat → b ∉ s
  behind : ∀ b, b.toNat = run.2.toNat + 1 → b ∉ s

/-- A byte lies in a run. -/
def InRun (run : UInt8 × UInt8) (b : UInt8) : Prop := run.1 ≤ b ∧ b ≤ run.2

/-- A maximal run does not reach beyond another one that it has a member in common with. -/
theorem IsRun.within (h : s.IsRun run) (h' : s.IsRun run') (hb : InRun run b)
    (hb' : InRun run' b) : run'.1 ≤ run.1 ∧ run.2 ≤ run'.2 := by
  obtain ⟨hlo, hhi⟩ := hb
  obtain ⟨hlo', hhi'⟩ := hb'
  rw [UInt8.le_iff_toNat_le] at hlo hhi hlo' hhi'
  constructor
  · refine UInt8.le_iff_toNat_le.2 (Nat.le_of_not_lt fun hlt => ?_)
    -- the byte before the other run is a member
    have hbyte := run'.1.toNat_lt
    obtain ⟨c, hc⟩ : ∃ c : UInt8, c.toNat + 1 = run'.1.toNat :=
      ⟨(run'.1.toNat - 1).toUInt8, by rw [toNat_toUInt8 (by omega)]; omega⟩
    refine h'.before c hc (h.mem c ?_ ?_) <;> rw [UInt8.le_iff_toNat_le] <;> omega
  · refine UInt8.le_iff_toNat_le.2 (Nat.le_of_not_lt fun hlt => ?_)
    -- so is the byte behind it
    have hbyte := run.2.toNat_lt
    obtain ⟨c, hc⟩ : ∃ c : UInt8, c.toNat = run'.2.toNat + 1 :=
      ⟨(run'.2.toNat + 1).toUInt8, by rw [toNat_toUInt8 (by omega)]⟩
    refine h'.behind c hc (h.mem c ?_ ?_) <;> rw [UInt8.le_iff_toNat_le] <;> omega

theorem IsRun.eq_of_common (h : s.IsRun run) (h' : s.IsRun run') (hb : InRun run b)
    (hb' : InRun run' b) : run = run' := by
  obtain ⟨hlo, hhi⟩ := h.within h' hb hb'
  obtain ⟨hlo', hhi'⟩ := h'.within h hb' hb
  exact Prod.ext (UInt8.le_antisymm hlo' hlo) (UInt8.le_antisymm hhi hhi')

/-! ## The runs that are found -/

theorem runStop_le (hi : i ≤ 255) : s.runStop i ≤ 255 := by
  fun_induction runStop s i with
  | case1 i h ih => exact ih (by omega)
  | case2 => exact hi

theorem contains_of_le_runStop (hi : s.contains i.toUInt8 = true) {k : Nat} (hik : i ≤ k)
    (hk : k ≤ s.runStop i) : s.contains k.toUInt8 = true := by
  fun_induction runStop s i with
  | case1 i h ih =>
    rcases Nat.eq_or_lt_of_le hik with rfl | hlt
    · exact hi
    · have hnext : i.toUInt8 + 1 = (i + 1).toUInt8 := by simp
      exact ih (hnext ▸ h.2) hlt hk
  | case2 i h =>
    obtain rfl : i = k := Nat.le_antisymm hik hk
    exact hi

theorem not_contains_runStop (s : ByteSet) (i : Nat) (h : s.runStop i < 255) :
    s.contains (s.runStop i + 1).toUInt8 = false := by
  fun_induction runStop s i with
  | case1 i _ ih => exact ih h
  | case2 i hend =>
    have hnext : (i + 1).toUInt8 = i.toUInt8 + 1 := by simp
    rw [hnext]
    simpa [h] using hend

/-- If byte `i` is a member, the byte before it is not. -/
def Starts (s : ByteSet) (i : Nat) : Prop :=
  i ≤ 255 → s.contains i.toUInt8 = true → ∀ b, b.toNat + 1 = i → b ∉ s

theorem isRun_runStop (hi : i ≤ 255) (hmem : s.contains i.toUInt8 = true) (hstarts : s.Starts i) :
    s.IsRun (i.toUInt8, (s.runStop i).toUInt8) := by
  have hstop : s.runStop i ≤ 255 := runStop_le hi
  have hle := s.le_runStop i
  refine ⟨?_, fun b hlo hhi => ?_, fun b hb => ?_, fun b hb => ?_⟩
  · rw [UInt8.le_iff_toNat_le, toNat_toUInt8 hi, toNat_toUInt8 hstop]
    exact hle
  · rw [UInt8.le_iff_toNat_le, toNat_toUInt8 (by assumption)] at hlo hhi
    rw [mem_iff, ← toUInt8_toNat b]
    exact contains_of_le_runStop hmem hlo hhi
  · rw [toNat_toUInt8 hi] at hb
    exact hstarts hi hmem b hb
  · rw [toNat_toUInt8 hstop] at hb
    have hlt := b.toNat_lt
    rw [mem_iff, ← toUInt8_toNat b, hb, s.not_contains_runStop i (by omega)]
    exact Bool.false_ne_true

theorem starts_runStop (s : ByteSet) (i : Nat) : s.Starts (s.runStop i + 1) := by
  intro hi hmem
  rw [s.not_contains_runStop i (by omega)] at hmem
  cases hmem

theorem le_of_mem_runsFrom (h : run ∈ s.runsFrom i) : i ≤ run.1.toNat := by
  fun_induction runsFrom s i with
  | case1 i hi hmem ih =>
    have hle := s.le_runStop i
    rcases List.mem_cons.1 h with rfl | h
    · exact Nat.le_of_eq (toNat_toUInt8 hi).symm
    · exact Nat.le_trans (Nat.le_succ_of_le hle) (ih h)
  | case2 i hi hmem ih => exact Nat.le_of_succ_le (ih h)
  | case3 i hi => cases h

theorem isRun_of_mem_runsFrom (hstarts : s.Starts i) (h : run ∈ s.runsFrom i) : s.IsRun run := by
  fun_induction runsFrom s i with
  | case1 i hi hmem ih =>
    rcases List.mem_cons.1 h with rfl | h
    · exact isRun_runStop hi hmem hstarts
    · exact ih (s.starts_runStop i) h
  | case2 i hi hmem ih =>
    refine ih (fun _ _ b hb => ?_) h
    have hlt := b.toNat_lt
    obtain rfl : b.toNat = i := Nat.succ.inj hb
    rwa [toUInt8_toNat, ← mem_iff] at hmem
  | case3 i hi => cases h

theorem exists_mem_runsFrom (hle : i ≤ b.toNat) (hb : b ∈ s) :
    ∃ run ∈ s.runsFrom i, InRun run b := by
  have hlt := b.toNat_lt
  fun_induction runsFrom s i with
  | case1 i hi hmem ih =>
    rcases Nat.lt_or_ge (s.runStop i) b.toNat with hbehind | hwithin
    · obtain ⟨run, hrun, hin⟩ := ih hbehind
      exact ⟨run, List.mem_cons_of_mem _ hrun, hin⟩
    · refine ⟨_, List.mem_cons_self, ?_, ?_⟩ <;> rw [UInt8.le_iff_toNat_le, toNat_toUInt8]
      · exact hle
      · exact hi
      · exact hwithin
      · exact runStop_le hi
  | case2 i hi hmem ih =>
    refine ih (Nat.lt_of_le_of_ne hle ?_)
    rintro rfl
    rw [toUInt8_toNat] at hmem
    exact hmem hb
  | case3 i hi => omega

theorem pairwise_runsFrom (s : ByteSet) (i : Nat) :
    (s.runsFrom i).Pairwise fun run run' => run.2 < run'.1 := by
  fun_induction runsFrom s i with
  | case1 i hi hmem ih =>
    refine List.pairwise_cons.2 ⟨fun run hrun => ?_, ih⟩
    rw [UInt8.lt_iff_toNat_lt, toNat_toUInt8 (runStop_le hi)]
    exact le_of_mem_runsFrom hrun
  | case2 i hi hmem ih => exact ih
  | case3 i hi => exact .nil

/-- **The runs that are found are the maximal ones.** -/
theorem mem_runs_iff : run ∈ s.runs ↔ s.IsRun run := by
  have hfound : ∀ {run}, run ∈ s.runs → s.IsRun run :=
    isRun_of_mem_runsFrom fun _ _ b hb => absurd hb (Nat.succ_ne_zero _)
  refine ⟨hfound, fun h => ?_⟩
  have hfirst : InRun run run.1 := ⟨UInt8.le_refl _, h.le⟩
  obtain ⟨run', hrun', hin⟩ := exists_mem_runsFrom (Nat.zero_le _) (h.mem run.1 hfirst.1 hfirst.2)
  rwa [h.eq_of_common (hfound hrun') hfirst hin]

theorem mem_iff_exists_run : b ∈ s ↔ ∃ run ∈ s.runs, InRun run b :=
  ⟨exists_mem_runsFrom (Nat.zero_le _), fun ⟨_, hrun, hin⟩ =>
    (mem_runs_iff.1 hrun).mem b hin.1 hin.2⟩

theorem runs_inj (h : s.runs = t.runs) : s = t := by
  ext b
  rw [Bool.eq_iff_iff, ← mem_iff, ← mem_iff, mem_iff_exists_run, mem_iff_exists_run, h]

/-! ## Written runs -/

/-- Where a written run ends is not in doubt, unless a hyphen stands behind it. -/
theorem renderRun_append_inj (hx : x.head? ≠ some '-') (hy : y.head? ≠ some '-')
    (h : renderRun run ++ x = renderRun run' ++ y) : run = run' ∧ x = y := by
  obtain ⟨lo, hi⟩ := run
  obtain ⟨lo', hi'⟩ := run'
  rw [renderRun, renderRun] at h
  split_ifs at h with hone hone' hone'
  · obtain ⟨rfl, rfl⟩ := Text.escapeByte_append_inj h
    exact ⟨by rw [← hone, ← hone'], rfl⟩
  · rw [List.append_assoc, List.cons_append] at h
    obtain ⟨-, rfl⟩ := Text.escapeByte_append_inj h
    exact absurd rfl hx
  · rw [List.append_assoc, List.cons_append] at h
    obtain ⟨-, rfl⟩ := Text.escapeByte_append_inj h
    exact absurd rfl hy
  · rw [List.append_assoc, List.append_assoc, List.cons_append, List.cons_append] at h
    obtain ⟨rfl, hrest⟩ := Text.escapeByte_append_inj h
    obtain ⟨rfl, rfl⟩ := Text.escapeByte_append_inj (List.cons.inj hrest).2
    exact ⟨rfl, rfl⟩

/-- What stands behind the first of the runs, up to the bracket that ends them. -/
def renderRest : List (UInt8 × UInt8) → List Char
  | [] => [']']
  | runs => ',' :: ' ' :: renderRuns runs ++ [']']

theorem renderRuns_cons (run : UInt8 × UInt8) (runs : List (UInt8 × UInt8)) :
    renderRuns (run :: runs) ++ [']'] = renderRun run ++ renderRest runs := by
  cases runs with
  | nil => rfl
  | cons next rest => simp [renderRuns, renderRest]

theorem head?_renderRest (runs : List (UInt8 × UInt8)) : (renderRest runs).head? ≠ some '-' := by
  cases runs <;> simp [renderRest]

theorem renderRun_ne_nil (run : UInt8 × UInt8) : renderRun run ≠ [] := by
  obtain ⟨lo, hi⟩ := run
  rw [renderRun]
  split_ifs
  · exact Text.escapeByte_ne_nil lo
  · simp

theorem renderRuns_cons_ne (run : UInt8 × UInt8) (runs : List (UInt8 × UInt8)) :
    renderRuns (run :: runs) ++ [']'] ≠ [']'] := by
  intro h
  rw [renderRuns_cons] at h
  have hlength := congrArg List.length h
  have hrun := List.length_pos_iff.2 (renderRun_ne_nil run)
  have hrest : 0 < (renderRest runs).length := by cases runs <;> simp [renderRest]
  rw [List.length_append, List.length_singleton] at hlength
  omega

/-- **Runs that are written in the same way are the same.** -/
theorem renderRuns_inj (h : renderRuns runs ++ [']'] = renderRuns runs' ++ [']']) :
    runs = runs' := by
  induction runs generalizing runs' with
  | nil =>
    cases runs' with
    | nil => rfl
    | cons run' rest' => exact absurd h.symm (renderRuns_cons_ne run' rest')
  | cons run rest ih =>
    cases runs' with
    | nil => exact absurd h (renderRuns_cons_ne run rest)
    | cons run' rest' =>
      rw [renderRuns_cons, renderRuns_cons] at h
      obtain ⟨rfl, hrest⟩ :=
        renderRun_append_inj (head?_renderRest rest) (head?_renderRest rest') h
      have hmore : renderRuns rest ++ [']'] = renderRuns rest' ++ [']'] := by
        cases rest <;> cases rest' <;> simp_all [renderRest, renderRuns]
      rw [ih hmore]

theorem renderRuns_eq (runs : List (UInt8 × UInt8)) :
    renderRuns runs = [',', ' '].intercalate (runs.map renderRun) := by
  induction runs with
  | nil => rfl
  | cons run rest ih =>
    cases rest with
    | nil => simp [renderRuns]
    | cons next rest =>
      rw [List.map_cons, List.map_cons, List.intercalate_cons_cons, ← List.map_cons, ← ih,
        renderRuns]
      · simp
      · simp

/-- **The written form of a byte set lists its maximal runs, and no other set has it.** The runs
stand in ascending order, separated by a comma and a blank, and each member is in exactly one of
them. -/
theorem render_determines (s : ByteSet) :
    (∃ runs : List (UInt8 × UInt8),
      s.render =
        "[" ++ ", ".intercalate (runs.map fun run => String.ofList (renderRun run)) ++ "]" ∧
      (∀ run, run ∈ runs ↔ s.IsRun run) ∧
      runs.Pairwise (fun run next => run.2 < next.1) ∧
      ∀ b, b ∈ s ↔ ∃! run, run ∈ runs ∧ InRun run b) ∧
    ∀ t : ByteSet, t.render = s.render ↔ t = s := by
  refine ⟨⟨s.runs, ?_, fun run => mem_runs_iff, s.pairwise_runsFrom 0, fun b => ⟨fun hb => ?_, ?_⟩⟩,
    fun t => ⟨fun h => runs_inj (renderRuns_inj ?_), fun h => h ▸ rfl⟩⟩
  · rw [← String.toList_inj, render, renderRuns_eq]
    simp [String.toList_intercalate, Function.comp_def]
  · obtain ⟨run, hrun, hin⟩ := mem_iff_exists_run.1 hb
    exact ⟨run, ⟨hrun, hin⟩, fun run' h =>
      (mem_runs_iff.1 h.1).eq_of_common (mem_runs_iff.1 hrun) h.2 hin⟩
  · rintro ⟨run, h, -⟩
    exact mem_iff_exists_run.2 ⟨run, h⟩
  · have htext := congrArg String.toList h
    simpa [render] using htext

end ByteSet

end PegMachine
