import PegMachine.Block

/-!
# Blocks inside larger code

* `StandsAt`: a block stands in larger code at an address.
* `JumpsWithin`, `Contained`: where the jumps of a block land. Those of a contained block land in
  the block or right behind it.
* `landsOn_eq_false_iff`: no jump of a block lands on an address.
-/

namespace PegMachine

theorem checkedOffset_bind {α : Type} {n : Nat} {f : Int → Except Fault α} {x : α} :
    (checkedOffset n >>= f) = .ok x ↔ n ≤ maxOffset ∧ f n = .ok x := by
  rw [checkedOffset]
  split
  · next h => exact ⟨fun hf => ⟨h, hf⟩, fun hf => hf.2⟩
  · next h => exact ⟨nofun, fun hf => absurd hf.1 h⟩

theorem checkedOffset_bind_ok {α : Type} (n : Nat) (x : α) :
    (checkedOffset n >>= fun _ => .ok x) =
      if n ≤ maxOffset then .ok x else .error .patternTooBig := by
  rw [checkedOffset]
  split <;> rfl

namespace Block

/-! ## Parts of larger code -/

/-- `part` stands in `code` at address `n`. -/
def StandsAt (code : Block) (n : Nat) (part : Block) : Prop :=
  ∃ before behind, code = before ++ part ++ behind ∧ before.length = n

section

variable {code part a b : Block} {n k : Nat} {instr : Instr}

theorem StandsAt.getElem? (h : StandsAt code n part) (hk : k < part.length) :
    code[n + k]? = part[k]? := by
  obtain ⟨before, behind, rfl, rfl⟩ := h
  rw [List.append_assoc, List.getElem?_append_right (by omega), Nat.add_sub_cancel_left,
    List.getElem?_append_left hk]

theorem StandsAt.getElem?_eq_some (h : StandsAt code n part) (hk : part[k]? = some instr) :
    code[n + k]? = some instr := by
  rw [h.getElem? (List.getElem?_eq_some_iff.1 hk).1, hk]

theorem StandsAt.head {rest : Block} (h : StandsAt code n (instr :: rest)) :
    code[n]? = some instr := by
  simpa using h.getElem?_eq_some (k := 0) rfl

theorem StandsAt.left (h : StandsAt code n (a ++ b)) : StandsAt code n a := by
  obtain ⟨before, behind, rfl, rfl⟩ := h
  exact ⟨before, b ++ behind, by simp, rfl⟩

theorem StandsAt.right (h : StandsAt code n (a ++ b)) : StandsAt code (n + a.length) b := by
  obtain ⟨before, behind, rfl, rfl⟩ := h
  exact ⟨before ++ a, behind, by simp, by simp⟩

theorem StandsAt.tail (h : StandsAt code n (instr :: b)) : StandsAt code (n + 1) b :=
  StandsAt.right (a := [instr]) h

end

/-! ## Where jumps land -/

/-- The jumps of a block that stands at `start` land between `lo` and `hi`. -/
def JumpsWithin (lo hi : Int) (start : Nat) (code : Block) : Prop :=
  ∀ (k : Nat) (instr : Instr) (off : Int), code[k]? = some instr → instr.offset? = some off →
    lo ≤ start + k + off ∧ start + k + off ≤ hi

/-- The jumps of a block land in the block or right behind it. -/
def Contained (code : Block) : Prop := JumpsWithin 0 code.length 0 code

section

variable {lo hi : Int} {start : Nat} {code a b : Block} {instr : Instr}

theorem jumpsWithin_nil : JumpsWithin lo hi start [] := by
  simp [JumpsWithin]

theorem jumpsWithin_cons : JumpsWithin lo hi start (instr :: code) ↔
    (∀ off, instr.offset? = some off → lo ≤ start + off ∧ start + off ≤ hi) ∧
      JumpsWithin lo hi (start + 1) code := by
  constructor
  · intro h
    refine ⟨fun off hoff => by simpa using h 0 instr off rfl hoff, fun k i off hk hoff => ?_⟩
    have := h (k + 1) i off hk hoff
    push_cast at this ⊢
    omega
  · rintro ⟨hhead, htail⟩ k i off hk hoff
    cases k with
    | zero =>
      cases hk
      simpa using hhead off hoff
    | succ k =>
      have := htail k i off hk hoff
      push_cast at this ⊢
      omega

theorem jumpsWithin_append : JumpsWithin lo hi start (a ++ b) ↔
    JumpsWithin lo hi start a ∧ JumpsWithin lo hi (start + a.length) b := by
  induction a generalizing start with
  | nil => simp [jumpsWithin_nil]
  | cons instr a ih =>
    rw [List.cons_append, jumpsWithin_cons, jumpsWithin_cons, ih, and_assoc]
    rw [show start + 1 + a.length = start + (instr :: a).length by simp; omega]

theorem JumpsWithin.mono {lo' hi' : Int} (h : JumpsWithin lo hi start code) (hlo : lo' ≤ lo)
    (hhi : hi ≤ hi') : JumpsWithin lo' hi' start code := by
  intro k instr off hk hoff
  have := h k instr off hk hoff
  omega

/-- A block that is moved takes the ends of its jumps along. -/
theorem JumpsWithin.shift (h : JumpsWithin lo hi start code) (start' : Nat) :
    JumpsWithin (lo + start' - start) (hi + start' - start) start' code := by
  intro k instr off hk hoff
  have := h k instr off hk hoff
  omega

theorem Contained.within (h : Contained code) (hlo : lo ≤ start) (hhi : start + code.length ≤ hi) :
    JumpsWithin lo hi start code :=
  (JumpsWithin.shift h start).mono (by push_cast; omega) (by push_cast; omega)

theorem contained_nil : Contained [] := jumpsWithin_nil

theorem contained_append (ha : Contained a) (hb : Contained b) : Contained (a ++ b) := by
  refine jumpsWithin_append.2 ⟨ha.within (by simp) ?_, hb.within (by simp) ?_⟩ <;>
    push_cast [List.length_append] <;> omega

theorem contained_of_offset?_eq_none (h : ∀ instr ∈ code, instr.offset? = none) :
    Contained code := by
  intro k instr off hk hoff
  rw [h instr (List.mem_of_getElem? hk)] at hoff
  cases hoff

theorem contained_flatten {blocks : List Block} (h : ∀ b ∈ blocks, Contained b) :
    Contained blocks.flatten := by
  induction blocks with
  | nil => exact contained_nil
  | cons b blocks ih =>
    rw [List.flatten_cons]
    exact contained_append (h b (by simp)) (ih fun b' hb' => h b' (by simp [hb']))

theorem landsOn_eq_false_iff {target : Int} : landsOn target start code = false ↔
    ∀ (k : Nat) (instr : Instr) (off : Int), code[k]? = some instr → instr.offset? = some off →
      (start : Int) + k + off ≠ target := by
  induction code generalizing start with
  | nil => simp [landsOn]
  | cons head rest ih =>
    rw [landsOn, Bool.or_eq_false_iff, ih]
    constructor
    · rintro ⟨hhead, hrest⟩ k instr off hk hoff
      cases k with
      | zero =>
        cases hk
        simpa [hoff] using hhead
      | succ k =>
        have := hrest k instr off hk hoff
        push_cast at this ⊢
        omega
    · intro h
      refine ⟨?_, fun k instr off hk hoff => ?_⟩
      · cases hoff : head.offset? with
        | none => rfl
        | some off => simpa [hoff] using h 0 head off rfl hoff
      · have := h (k + 1) instr off hk hoff
        push_cast at this ⊢
        omega

end

end Block

end PegMachine
