import PegMachine.Program.Assembly
import PegMachine.Proofs.Blocks.Layout

/-!
# The code with its jumps threaded

* `JumpsTo`: that many jumps of any code lead from one address to another. `followJumps_jumpsTo`:
  the pass goes along no more of them than it is allowed to, in a circle as well.
* `allRedirected_threadJumps`: **the pass only lets jumps go further the way that jumps of the code
  lead**, although it follows jumps that it has already changed.
* `Leads`, `ThreadedAs`, `threadedAs_threadJumps`: the same of a block, whose jumps do not leave it.
-/

namespace PegMachine

open Block

/-- That many unconditional jumps lead from one address to another. -/
inductive JumpsTo (code : Array Instr) : (count : Nat) → (address stop : Int) → Prop where
  | stay (address : Int) : JumpsTo code 0 address address
  | jump {count : Nat} {address next stop : Int} (h : jumpAt? code address = some next)
      (hrest : JumpsTo code count next stop) : JumpsTo code (count + 1) address stop

/-- An instruction whose jump goes further, the way that jumps of the code lead. -/
inductive Redirected (code : Array Instr) (address : Nat) : Instr → Instr → Prop where
  | same {instr : Instr} (h : instr.offset? = none) : Redirected code address instr instr
  | jump {instr : Instr} {off off' : Int} {count : Nat} (h : instr.offset? = some off)
      (hjumps : JumpsTo code count (address + off) (address + off')) :
      Redirected code address instr (instr.withOffset off')

/-- The instructions are those of the code, with jumps that go further the way that its jumps
lead. -/
def AllRedirected (code done : Array Instr) : Prop :=
  done.size = code.size ∧ ∀ (k : Nat) (instr : Instr), code[k]? = some instr →
    ∃ instr', done[k]? = some instr' ∧ Redirected code k instr instr'

/-- A chain of unconditional jumps leads from one address to another. -/
inductive Leads (code : Block) : Nat → Nat → Prop where
  | refl (n : Nat) : Leads code n n
  | jump {n mid stop : Nat} {off : Int} (h : code[n]? = some (.jump off)) (hmid : (n : Int) + off = mid)
      (hrest : Leads code mid stop) : Leads code n stop

/-- An instruction whose jump goes further along a chain. -/
inductive ThreadedAs (code : Block) (address : Nat) : Instr → Instr → Prop where
  | same {instr : Instr} (h : instr.offset? = none) : ThreadedAs code address instr instr
  | jump {instr : Instr} {off off' : Int} {n n' : Nat} (h : instr.offset? = some off)
      (hn : (address : Int) + off = n) (hn' : (address : Int) + off' = n')
      (hleads : Leads code n n') : ThreadedAs code address instr (instr.withOffset off')

/-! ## Offsets -/

section

variable {instr : Instr} {off : Int}

theorem withOffset_self (h : instr.offset? = some off) : instr.withOffset off = instr := by
  cases instr with
  | any _ d | char _ d | set _ d =>
    rw [Instr.offset?] at h
    split at h
    · cases h
    · next hne =>
      cases h
      rw [Instr.withOffset, if_neg hne]
  | choice | jump | call | commit | partialCommit | backCommit =>
    cases h
    rfl
  | _ => rfl

theorem withOffset_of_none (h : instr.offset? = none) (off : Int) : instr.withOffset off = instr := by
  cases instr with
  | any _ d | char _ d | set _ d =>
    rw [Instr.offset?] at h
    split at h
    · next hzero =>
      rw [Instr.withOffset, if_pos hzero, hzero]
    · cases h
  | choice | jump | call | commit | partialCommit | backCommit => cases h
  | _ => rfl

theorem withOffset_withOffset (h : instr.offset? = some off) {off' off'' : Int}
    (h' : (instr.withOffset off').offset? = some off'') (d : Int) :
    off'' = off' ∧ (instr.withOffset off').withOffset d = instr.withOffset d := by
  cases instr with
  | any _ e | char _ e | set _ e =>
    rw [Instr.offset?] at h
    split at h
    · cases h
    · next hne =>
      rw [Instr.withOffset, if_neg hne, Instr.offset?] at h'
      split at h'
      · cases h'
      · next hne' =>
        cases h'
        rw [Instr.withOffset, if_neg hne, Instr.withOffset, if_neg hne', Instr.withOffset,
          if_neg hne]
        exact ⟨rfl, rfl⟩
  | choice | jump | call | commit | partialCommit | backCommit =>
    cases h'
    exact ⟨rfl, rfl⟩
  | _ => cases h

end

/-! ## The pass -/

theorem jumpAt?_eq_some {code : Array Instr} {address next : Int} :
    jumpAt? code address = some next ↔ ∃ (n : Nat) (off : Int),
      address = n ∧ code[n]? = some (.jump off) ∧ off ≠ 0 ∧ next = address + off := by
  rw [jumpAt?]
  constructor
  · intro h
    split at h
    · cases h
    · next hneg =>
      split at h
      · next off hjump =>
        split at h
        · cases h
        · next hoff =>
          cases h
          exact ⟨address.toNat, off, by omega, hjump, hoff, rfl⟩
      · cases h
  · rintro ⟨n, off, rfl, hjump, hoff, rfl⟩
    rw [if_neg (by omega), Int.toNat_natCast, hjump]
    exact if_neg hoff

/-- The pass goes along no more jumps than it is allowed to, and stops earlier only where none leads
on. -/
theorem followJumps_jumpsTo (code : Array Instr) (n : Nat) (address : Int) :
    ∃ count ≤ n, JumpsTo code count address (followJumps code n address) ∧
      (count < n → jumpAt? code (followJumps code n address) = none) := by
  induction n generalizing address with
  | zero => exact ⟨0, Nat.le_refl 0, .stay address, nofun⟩
  | succ n ih =>
    rw [followJumps]
    cases hnext : jumpAt? code address with
    | none => exact ⟨0, Nat.zero_le _, .stay address, fun _ => hnext⟩
    | some next =>
      obtain ⟨count, hle, hjumps, hend⟩ := ih next
      exact ⟨count + 1, Nat.succ_le_succ hle, .jump hnext hjumps,
        fun hlt => hend (Nat.lt_of_succ_lt_succ hlt)⟩

section

variable {code done : Array Instr} {instr instr' : Instr} {address next stop off : Int}
  {count count' k : Nat}

theorem JumpsTo.trans {mid : Int} (h : JumpsTo code count address mid)
    (h' : JumpsTo code count' mid stop) : JumpsTo code (count + count') address stop := by
  induction h with
  | stay => rwa [Nat.zero_add]
  | jump hnext _ ih =>
    rw [Nat.succ_add]
    exact .jump hnext (ih h')

theorem exists_source {R : Nat → Instr → Instr → Prop} (hsize : done.size = code.size)
    (hall : ∀ (k : Nat) (instr : Instr), code[k]? = some instr →
      ∃ instr', done[k]? = some instr' ∧ R k instr instr') (hk : done[k]? = some instr') :
    ∃ instr, code[k]? = some instr ∧ R k instr instr' := by
  have hlt : k < code.size := by
    rw [← hsize]
    exact (Array.getElem?_eq_some_iff.1 hk).1
  have hinstr : code[k]? = some code[k] := Array.getElem?_eq_getElem hlt
  obtain ⟨instr'', hdone, hrelated⟩ := hall k _ hinstr
  rw [hk] at hdone
  cases hdone
  exact ⟨_, hinstr, hrelated⟩

theorem Redirected.of_offset? (h : Redirected code k instr instr') (hoff : instr'.offset? = some off) :
    ∃ (off' : Int) (count : Nat), instr.offset? = some off' ∧
      JumpsTo code count (k + off') (k + off) ∧ instr' = instr.withOffset off := by
  cases h with
  | same hnone =>
    rw [hnone] at hoff
    cases hoff
  | jump hoff' hjumps =>
    obtain ⟨rfl, -⟩ := withOffset_withOffset hoff' hoff 0
    exact ⟨_, _, hoff', hjumps, rfl⟩

/-- Only an unconditional jump becomes one. -/
theorem Redirected.of_jump (h : Redirected code k instr (.jump off)) :
    ∃ (off' : Int) (count : Nat), instr = .jump off' ∧ JumpsTo code count (k + off') (k + off) := by
  obtain ⟨off', count, hoff, hjumps, heq⟩ := h.of_offset? rfl
  cases instr with
  | jump =>
    cases hoff
    exact ⟨_, count, rfl, hjumps⟩
  | _ => cases heq

theorem AllRedirected.getElem? (h : AllRedirected code done) (hk : done[k]? = some instr') :
    ∃ instr, code[k]? = some instr ∧ Redirected code k instr instr' :=
  exists_source h.1 h.2 hk

theorem allRedirected_self (code : Array Instr) : AllRedirected code code := by
  refine ⟨rfl, fun k instr hinstr => ⟨instr, hinstr, ?_⟩⟩
  cases hoff : instr.offset? with
  | none => exact .same hoff
  | some off =>
    have hredirected : Redirected code k instr (instr.withOffset off) := .jump hoff (.stay _)
    rwa [withOffset_self hoff] at hredirected

theorem AllRedirected.jumpsTo_of_jumpAt? (h : AllRedirected code done)
    (hnext : jumpAt? done address = some next) : ∃ count, JumpsTo code count address next := by
  obtain ⟨n, off, rfl, hjump, -, rfl⟩ := jumpAt?_eq_some.1 hnext
  obtain ⟨instr, hinstr, hredirected⟩ := h.getElem? hjump
  obtain ⟨off', count, rfl, hjumps⟩ := hredirected.of_jump
  by_cases hzero : off' = 0
  · rw [hzero, Int.add_zero] at hjumps
    exact ⟨count, hjumps⟩
  · exact ⟨count + 1, .jump (jumpAt?_eq_some.2 ⟨n, off', rfl, hinstr, hzero, rfl⟩) hjumps⟩

theorem AllRedirected.jumpsTo (h : AllRedirected code done)
    (hjumps : JumpsTo done count address stop) : ∃ count, JumpsTo code count address stop := by
  induction hjumps with
  | stay address => exact ⟨0, .stay address⟩
  | jump hnext _ ih =>
    obtain ⟨first, hfirst⟩ := h.jumpsTo_of_jumpAt? hnext
    obtain ⟨rest, hrest⟩ := ih
    exact ⟨first + rest, hfirst.trans hrest⟩

theorem AllRedirected.threadJump (h : AllRedirected code done) (n : Nat) :
    AllRedirected code (PegMachine.threadJump done n) := by
  rw [PegMachine.threadJump]
  split
  · exact h
  · next instr hinstr =>
    split
    · exact h
    · next off hoff =>
      obtain ⟨source, hsource, hredirected⟩ := h.getElem? hinstr
      obtain ⟨d, count, hd, hjumps, rfl⟩ := hredirected.of_offset? hoff
      obtain ⟨_, -, hfollowed, -⟩ := followJumps_jumpsTo done done.size (n + off)
      dsimp only
      generalize followJumps done done.size (n + off) = target at hfollowed ⊢
      obtain ⟨rest, hrest⟩ := h.jumpsTo hfollowed
      have hall : JumpsTo code (count + rest) (n + d) (n + (target - n)) := by
        rw [Int.add_comm n (target - n), Int.sub_add_cancel]
        exact hjumps.trans hrest
      rw [(withOffset_withOffset hd hoff _).2]
      refine ⟨by rw [Array.size_setIfInBounds]; exact h.1, fun k instr' hinstr' => ?_⟩
      by_cases hk : n = k
      · subst hk
        rw [hsource] at hinstr'
        cases hinstr'
        refine ⟨source.withOffset (target - n), ?_, .jump hd hall⟩
        rw [Array.getElem?_setIfInBounds_self, if_pos (Array.getElem?_eq_some_iff.1 hinstr).1]
      · rw [Array.getElem?_setIfInBounds_ne hk]
        exact h.2 k instr' hinstr'

end

/-- **The pass only lets jumps go further the way that jumps of the code lead**, whatever the
code. -/
theorem allRedirected_threadJumps (code : Array Instr) :
    AllRedirected code (threadJumps code) := by
  have hall : ∀ (addresses : List Nat) (done : Array Instr), AllRedirected code done →
      AllRedirected code (addresses.foldl threadJump done) := by
    intro addresses
    induction addresses with
    | nil => exact fun done h => h
    | cons address rest ih => exact fun done h => ih _ (h.threadJump address)
  exact hall _ _ (allRedirected_self code)

/-- A test becomes a check where a jump leads back to it. -/
example : threadJumps #[.any 1 1, .jump (-1)] = #[.any 1 0, .jump (-1)] := by decide

/-! ## Chains in a block -/

section

variable {code code' : Block} {done : Array Instr} {instr instr' : Instr} {k n stop : Nat}
  {off : Int}

theorem Leads.mono (h : Leads code n stop)
    (hjumps : ∀ (k : Nat) (off : Int), code[k]? = some (.jump off) →
      code'[k]? = some (.jump off)) : Leads code' n stop := by
  induction h with
  | refl n => exact .refl n
  | jump hjump hmid _ ih => exact .jump (hjumps _ _ hjump) hmid ih

theorem Leads.eq_of_length_le (h : Leads code n stop) (hn : code.length ≤ n) : stop = n := by
  cases h with
  | refl => rfl
  | jump hjump => exact absurd (List.getElem?_eq_some_iff.1 hjump).1 (by omega)

theorem Leads.le_length (h : Leads code n stop) (hcont : Contained code) (hn : n ≤ code.length) :
    stop ≤ code.length := by
  induction h with
  | refl => exact hn
  | jump hjump hmid _ ih =>
    obtain ⟨-, hhi⟩ := hcont _ _ _ hjump rfl
    exact ih (by omega)

theorem ThreadedAs.mono (h : ThreadedAs code k instr instr')
    (hjumps : ∀ (k : Nat) (off : Int), code[k]? = some (.jump off) →
      code'[k]? = some (.jump off)) : ThreadedAs code' k instr instr' := by
  cases h with
  | same h => exact .same h
  | jump h hn hn' hleads => exact .jump h hn hn' (hleads.mono hjumps)

/-- The instructions are those of the code, with jumps that go further along its chains. -/
def AllThreaded (code : Block) (done : Array Instr) : Prop :=
  done.size = code.length ∧ ∀ (k : Nat) (instr : Instr), code[k]? = some instr →
    ∃ instr', done[k]? = some instr' ∧ ThreadedAs code k instr instr'

theorem AllThreaded.getElem? (h : AllThreaded code done) (hk : done[k]? = some instr') :
    ∃ instr, code[k]? = some instr ∧ ThreadedAs code k instr instr' := by
  have hall : ∀ (k : Nat) (instr : Instr), code.toArray[k]? = some instr →
      ∃ instr', done[k]? = some instr' ∧ ThreadedAs code k instr instr' := by
    simpa only [List.getElem?_toArray] using h.2
  have hsource := exists_source h.1 hall hk
  rwa [List.getElem?_toArray] at hsource

theorem AllThreaded.contained (h : AllThreaded code done) (hcont : Contained code) :
    Contained done.toList := by
  intro k instr off hk hoff
  rw [Array.getElem?_toList] at hk
  obtain ⟨source, hsource, hthreaded⟩ := h.getElem? hk
  cases hthreaded with
  | same hnone =>
    rw [hnone] at hoff
    cases hoff
  | jump hsourceOff hn hn' hleads =>
    obtain ⟨rfl, -⟩ := withOffset_withOffset hsourceOff hoff 0
    obtain ⟨-, hhi⟩ := hcont k source _ hsource hsourceOff
    have hle := hleads.le_length hcont (by omega)
    rw [Array.length_toList, h.1]
    omega

theorem AllThreaded.eq_of_straight (h : AllThreaded code done)
    (hcode : ∀ instr ∈ code, instr.offset? = none) : done = code.toArray := by
  refine Array.ext' (List.ext_getElem? fun k => ?_)
  rcases Nat.lt_or_ge k code.length with hlt | hge
  · obtain ⟨instr, hinstr, hthreaded⟩ := h.2 k code[k] (List.getElem?_eq_getElem hlt)
    cases hthreaded with
    | same => rw [Array.getElem?_toList, hinstr, List.getElem?_eq_getElem hlt]
    | jump hoff =>
      rw [hcode _ (List.getElem_mem hlt)] at hoff
      cases hoff
  · rw [List.getElem?_eq_none hge, Array.getElem?_toList, Array.getElem?_eq_none (h.1 ▸ hge)]

theorem JumpsTo.leads {count : Nat} {stop : Int} (h : JumpsTo code.toArray count n stop)
    (hcont : Contained code) : ∃ n' : Nat, stop = n' ∧ Leads code n n' := by
  generalize haddress : (n : Int) = address at h
  induction h generalizing n with
  | stay => exact ⟨n, haddress.symm, .refl n⟩
  | jump hnext _ ih =>
    obtain ⟨k, off, hk, hjump, -, hoff⟩ := jumpAt?_eq_some.1 hnext
    obtain rfl : n = k := by omega
    rw [List.getElem?_toArray] at hjump
    obtain ⟨hlo, -⟩ := hcont n _ off hjump rfl
    obtain ⟨mid, hmid⟩ := Int.eq_ofNat_of_zero_le (show 0 ≤ (n : Int) + off by omega)
    obtain ⟨n', hstop, hleads⟩ := ih (n := mid) (by omega)
    exact ⟨n', hstop, .jump hjump hmid hleads⟩

theorem AllRedirected.allThreaded (h : AllRedirected code.toArray done) (hcont : Contained code) :
    AllThreaded code done := by
  refine ⟨h.1, fun k instr hinstr => ?_⟩
  obtain ⟨instr', hinstr', hredirected⟩ := h.2 k instr (by rwa [List.getElem?_toArray])
  refine ⟨instr', hinstr', ?_⟩
  cases hredirected with
  | same hnone => exact .same hnone
  | @jump off _ _ hoff hjumps =>
    obtain ⟨hlo, -⟩ := hcont k instr off hinstr hoff
    obtain ⟨n, hn⟩ := Int.eq_ofNat_of_zero_le (show 0 ≤ (k : Int) + off by omega)
    rw [hn] at hjumps
    obtain ⟨n', hn', hleads⟩ := hjumps.leads hcont
    exact .jump hoff hn hn' hleads

theorem allThreaded_toArray (hcont : Contained code) : AllThreaded code code.toArray :=
  (allRedirected_self _).allThreaded hcont

theorem threadedAs_threadJumps (hcont : Contained code) :
    AllThreaded code (threadJumps code.toArray) :=
  (allRedirected_threadJumps _).allThreaded hcont

/-- The instruction that ends a match stays the last one, and nothing before it changes for it. -/
theorem AllThreaded.split_done (h : AllThreaded (code ++ [.done]) done) :
    ∃ front : Block, done.toList = front ++ [.done] ∧ AllThreaded code front.toArray := by
  obtain ⟨hsize, hall⟩ := h
  have hjumps : ∀ (k : Nat) (off : Int), (code ++ [.done])[k]? = some (.jump off) →
      code[k]? = some (.jump off) := by
    intro k off hjump
    rcases Nat.lt_or_ge k code.length with hlt | hge
    · rwa [List.getElem?_append_left hlt] at hjump
    · rw [List.getElem?_append_right hge] at hjump
      cases hk : k - code.length <;> simp [hk] at hjump
  have hlength : done.toList.length = code.length + 1 := by
    rw [Array.length_toList, hsize, List.length_append]
    rfl
  have hdone : done.toList[code.length]? = some .done := by
    obtain ⟨instr, hinstr, hthreaded⟩ := hall code.length .done (by simp)
    rw [Array.getElem?_toList]
    cases hthreaded with
    | same => exact hinstr
    | jump hoff => cases hoff
  have hlast : done.toList.drop code.length = [.done] := by
    rw [List.drop_eq_getElem_cons (by omega), List.drop_eq_nil_of_le (by omega),
      (List.getElem_eq_iff _).2 hdone]
  refine ⟨done.toList.take code.length, ?_, ?_, fun k instr hinstr => ?_⟩
  · rw [← hlast, List.take_append_drop]
  · simp [hsize]
  · have hlt := (List.getElem?_eq_some_iff.1 hinstr).1
    obtain ⟨instr', hinstr', hthreaded⟩ := hall k instr (by
      rw [List.getElem?_append_left hlt]
      exact hinstr)
    refine ⟨instr', ?_, hthreaded.mono hjumps⟩
    rw [List.getElem?_toArray, List.getElem?_take_of_lt hlt, Array.getElem?_toList]
    exact hinstr'

end

end PegMachine
