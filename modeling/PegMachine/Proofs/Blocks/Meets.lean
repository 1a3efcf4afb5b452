import PegMachine.Proofs.Blocks.Onward

/-!
# What runs come by

* `Meets`: from a configuration on, the code comes by one of a kind before fewer than so many frames
  are pending.
* `Aim.avoids`: the aim not to. `Aim.takenBack_avoids`: **it is taken back along configurations that
  are not of the kind.**
* `Aim.returnsTo_avoids`: a rule that was just called has come to that aim when it returns.
-/

namespace PegMachine

/-- The code comes by a configuration with a property while at least `n` frames are pending. -/
inductive Meets (m : Setting) (answers : Answers) (code : Block) (n : Nat) (P : Config → Prop) :
    Config → Prop where
  | here {c : Config} (hn : n ≤ c.frames.length) (h : P c) : Meets m answers code n P c
  | next {c c' : Config} {instr : Instr} (hn : n ≤ c.frames.length)
      (hinstr : code[c.address]? = some instr)
      (hstep : c.perform (m.move answers c.pos c.captures instr) = .next c')
      (h : Meets m answers code n P c') : Meets m answers code n P c

/-- The aim to come by no configuration with a property while at least `n` frames are pending. -/
def Aim.avoids (m : Setting) (answers : Answers) (code : Block) (n : Nat) (P : Config → Prop) :
    Aim where
  holds c := ¬ Meets m answers code n P c
  failed := True
  crashed _ := True

section

variable {m : Setting} {answers : Answers} {outline code : Block} {o : Origin} {n : Nat}
  {P : Config → Prop} {c : Config} {instr : Instr} {frames : List Pending}
  {captures : Array Entry} {address owner : Nat}

theorem Meets.le_length (h : Meets m answers code n P c) : n ≤ c.frames.length := by
  cases h <;> assumption

theorem Meets.tail (h : Meets m answers code n P c) (hnot : ¬ P c)
    (hinstr : code[c.address]? = some instr) :
    ∃ c', c.perform (m.move answers c.pos c.captures instr) = .next c' ∧
      Meets m answers code n P c' := by
  cases h with
  | here _ h => exact absurd h hnot
  | next _ hinstr' hstep h =>
    rw [hinstr] at hinstr'
    cases hinstr'
    exact ⟨_, hstep, h⟩

theorem Aim.takenBack_avoids :
    (Aim.avoids m answers code n P).TakenBack m answers outline code o fun c => ¬ P c := by
  refine ⟨fun {c instr} hc hinstr _ _ h hmeets => ?_⟩
  obtain ⟨c', hstep, hrest⟩ := hmeets.tail hc hinstr
  rw [hstep] at h
  exact h hrest

theorem Meets.tail_ret (h : Meets m answers code n P c) (hnot : ¬ P c)
    (hinstr : code[c.address]? = some .ret) :
    ∃ target owner rest, c.frames = ⟨.ret target, owner⟩ :: rest ∧
      Meets m answers code n P { c with address := target, frames := rest } := by
  obtain ⟨c', hstep, hrest⟩ := h.tail hnot hinstr
  rw [Setting.move, Config.perform] at hstep
  split at hstep
  · next target owner rest hframes =>
    cases hstep
    exact ⟨target, owner, rest, hframes, hrest⟩
  · cases hstep

theorem Aim.passesReturns_avoids (hP : ∀ c, P c → code[c.address]? ≠ some .ret) :
    (Aim.avoids m answers code n P).PassesReturns m code o := by
  intro address pos frames captures hret hnot k hk _ hmeets
  obtain ⟨target, owner, rest, hframes, hrest⟩ := hmeets.tail_ret (fun h => hP _ h hk) hk
  have hn := hmeets.le_length
  dsimp only at hframes
  subst hframes
  refine hnot ?_
  clear hnot
  induction hret with
  | ret hinstr => exact .next hn hinstr rfl hrest
  | jump hinstr hto _ ih =>
    refine .next hn hinstr ?_ ih
    simp [Setting.move, Config.perform, Config.target, hto]

/-- A rule that was just called has come to the aim when it returns, and when it fails. -/
theorem Aim.returnsTo_avoids (hP : ∀ c, P c → code[c.address]? ≠ some .ret) (r : Answer) :
    (Aim.avoids m answers code (frames.length + 1) P).ReturnsTo m code o
      (⟨.ret address, owner⟩ :: frames) captures r := by
  cases r with
  | matched pos captures' =>
    intro k hk _ hmeets
    obtain ⟨target, owner', rest, hframes, hrest⟩ := hmeets.tail_ret (fun h => hP _ h hk) hk
    cases hframes
    exact Nat.not_succ_le_self _ hrest.le_length
  | failed =>
    rw [Aim.ReturnsTo, Aim.Backtracks, latestChoice?]
    cases hlatest : latestChoice? frames with
    | none => trivial
    | some found =>
      intro hmeets
      have hlength := (latestChoice?_suffix hlatest).length_le
      have := hmeets.le_length
      dsimp only at this
      omega
  | crashed => trivial

theorem Aim.avoids_of_leads {start stop pos : Nat} (hleads : Leads code start stop)
    (hP : ∀ c off, P c → code[c.address]? ≠ some (.jump off))
    (h : (Aim.avoids m answers code n P).holds ⟨stop, pos, frames, captures⟩) :
    (Aim.avoids m answers code n P).holds ⟨start, pos, frames, captures⟩ := by
  induction hleads with
  | refl => exact h
  | jump hinstr hn _ ih =>
    intro hmeets
    obtain ⟨c', hstep, hrest⟩ := hmeets.tail (fun hc => hP _ _ hc hinstr) hinstr
    cases hstep
    refine ih h ?_
    rwa [Config.target, hn] at hrest

end

end PegMachine
