import PegMachine.Proofs.Blocks.Checks
import PegMachine.Proofs.Nesting.Places
import PegMachine.Proofs.Passes.MovedOpens
import PegMachine.Proofs.Passes.ThreadedJumps

/-!
# Nested code after the passes

* `pendingAt`: the start of a capture that is on its way past the checks at an address.
* `Block.Placing.moveOpens`: **code stays nested when the starts of captures are moved.**
* `Block.Placing.threaded`: **the places stay the same when jumps are threaded.**
-/

namespace PegMachine

open Block

variable {program : Program} {rules : Nat} {place : Nat → Place} {code moved : Block}
  {targets : Array Bool} {instr : Instr} {p q : Place} {pending : PendingOpen} {n origin : Nat}

/-! ## Starts of captures on their way -/

/-- The start of a capture that is on its way at an address, and the address where it set out. -/
def pendingAt (targets : Array Bool) (code : Block) : Nat → Option (PendingOpen × Nat)
  | 0 => none
  | n + 1 =>
    match code[n]? with
    | none => none
    | some instr =>
      match pendingAt targets code n with
      | none => instr.start?.map (·, n)
      | some (pending, origin) =>
        match PendingOpen.pass? targets n instr (some pending) with
        | some pending => some (pending, origin)
        | none => instr.start?.map (·, n)

/-- No start of a capture is moved past the instruction at an address. -/
def NonePasses (targets : Array Bool) (code : Block) (n : Nat) : Prop :=
  ∀ pending origin instr, pendingAt targets code n = some (pending, origin) → code[n]? = some instr →
    PendingOpen.pass? targets n instr (some pending) = none

theorem pendingAt_of_nonePasses (h : NonePasses targets code n) (hinstr : code[n]? = some instr) :
    pendingAt targets code (n + 1) = instr.start?.map (·, n) := by
  rw [pendingAt, hinstr]
  dsimp only
  cases hpending : pendingAt targets code n with
  | none => rfl
  | some found =>
    obtain ⟨pending, origin⟩ := found
    dsimp only
    rw [h pending origin instr hpending hinstr]

theorem pendingAt_of_pass {pending' : PendingOpen}
    (h : pendingAt targets code n = some (pending, origin)) (hinstr : code[n]? = some instr)
    (hpass : PendingOpen.pass? targets n instr (some pending) = some pending') :
    pendingAt targets code (n + 1) = some (pending', origin) := by
  rw [pendingAt, hinstr, h]
  dsimp only
  rw [hpass]

/-- At an instruction, the start of a capture on its way moves past it or no start does. -/
theorem pendingAt_cases (targets : Array Bool) (code : Block) (n : Nat) : NonePasses targets code n ∨
    ∃ pending origin instr pending', pendingAt targets code n = some (pending, origin) ∧
      code[n]? = some instr ∧
      PendingOpen.pass? targets n instr (some pending) = some pending' := by
  cases hpending : pendingAt targets code n with
  | none => exact .inl fun pending origin instr h => by simp [hpending] at h
  | some found =>
    obtain ⟨pending, origin⟩ := found
    cases hinstr : code[n]? with
    | none => exact .inl fun _ _ instr _ h => by simp [hinstr] at h
    | some instr =>
      cases hpass : PendingOpen.pass? targets n instr (some pending) with
      | none =>
        refine .inl fun _ _ _ h h' => ?_
        rw [hpending] at h
        rw [hinstr] at h'
        cases h
        cases h'
        exact hpass
      | some pending' => exact .inr ⟨pending, origin, instr, pending', rfl, rfl, hpass⟩

theorem aligned_of_nonePasses (h : Aligned code moved targets 0 none)
    (hn : Aligned code moved targets n ((pendingAt targets code n).map Prod.fst))
    (hnone : NonePasses targets code n) : Aligned code moved targets n none := by
  cases hpending : pendingAt targets code n with
  | none => rwa [hpending] at hn
  | some found =>
    obtain ⟨pending, origin⟩ := found
    rw [hpending] at hn
    cases n with
    | zero => exact h
    | succ n => exact (hn.write fun instr hinstr => hnone pending origin instr hpending hinstr).2

theorem aligned_pendingAt (h : Aligned code moved targets 0 none) (hn : n ≤ code.length) :
    Aligned code moved targets n ((pendingAt targets code n).map Prod.fst) := by
  induction n with
  | zero => exact h
  | succ n ih =>
    have haligned := ih (by omega)
    have hinstr : code[n]? = some code[n] := List.getElem?_eq_getElem (by omega)
    rcases pendingAt_cases targets code n with hnone |
      ⟨pending, origin, instr, pending', hpending, hinstr', hpass⟩
    · have hwritten := aligned_of_nonePasses h haligned hnone
      rw [pendingAt_of_nonePasses hnone hinstr]
      cases hstart : code[n].start? with
      | none => exact (hwritten.keep hinstr hstart).2
      | some pending => exact hwritten.start hinstr hstart
    · rw [pendingAt_of_pass hpending hinstr' hpass]
      rw [hpending] at haligned
      cases n with
      | zero => cases hpending
      | succ n => exact (haligned.pass hinstr' hpass).2

/-- The places of the moved code. While the start of a capture is on its way, what is open is the
same as where it set out. -/
def movedPlace (targets : Array Bool) (code : Block) (place : Nat → Place) (k : Nat) : Place :=
  match pendingAt targets code (k + 1) with
  | none => place k
  | some (pending, origin) => { place origin with lag := pending.back }

theorem movedPlace_below (h : NonePasses targets code n) :
    (movedPlace targets code place n).Below (place n) := by
  cases hinstr : code[n]? with
  | none =>
    rw [movedPlace, pendingAt, hinstr]
    exact .rfl
  | some instr =>
    rw [movedPlace, pendingAt_of_nonePasses h hinstr]
    cases hstart : instr.start? with
    | none => exact .rfl
    | some pending =>
      obtain ⟨-, hback⟩ := Instr.start?_eq_some hstart
      exact ⟨⟨⟨rfl, rfl⟩, rfl⟩, by simp [hback]⟩

/-- A start of a capture on its way fits between the place where it set out and the present one. -/
theorem fits_pendingAt (hfits : FitsFrom program rules place 0 code)
    (h : pendingAt targets code n = some (pending, origin)) :
    (Instr.openCapture pending.kind pending.back pending.index).Fits program rules
      (Place.cons { place origin with lag := pending.back } fun _ => place n) 0 := by
  induction n generalizing pending origin with
  | zero => cases h
  | succ n ih =>
    have hinstr : ∃ instr, code[n]? = some instr := by
      cases hinstr : code[n]? with
      | none => simp [pendingAt, hinstr] at h
      | some instr => exact ⟨instr, rfl⟩
    obtain ⟨instr, hinstr⟩ := hinstr
    have hat := hfits n instr hinstr
    rw [Nat.zero_add] at hat
    rcases pendingAt_cases targets code n with hnone |
      ⟨pending', origin', instr', pending'', hpending, hinstr', hpass⟩
    · rw [pendingAt_of_nonePasses hnone hinstr] at h
      obtain ⟨found, hstart, heq⟩ := Option.map_eq_some_iff.1 h
      cases heq
      obtain ⟨rfl, hback⟩ := Instr.start?_eq_some hstart
      obtain ⟨-, hstarts, hnest, hlag, hcount, hunclosed⟩ := hat
      exact ⟨Nat.le_refl _, hstarts, hnest, hback ▸ hlag, hcount, hunclosed⟩
    · rw [pendingAt_of_pass hpending hinstr' hpass] at h
      cases h
      rw [hinstr] at hinstr'
      cases hinstr'
      obtain ⟨hcheck, rfl⟩ := PendingOpen.pass?_eq_some hpass
      obtain ⟨hback, hstarts, hnest, hlag, hcount, hunclosed⟩ := ih hpending
      have hkeeps : (place n).Keeps (place (n + 1)) ∧
          (place (n + 1)).lag ≤ (place n).lag + instr.step := by
        rcases Instr.isCheck_iff.1 hcheck with ⟨k, rfl⟩ | ⟨b, rfl⟩ | ⟨s, rfl⟩ <;>
          exact ⟨hat.1, hat.2.1⟩
      exact ⟨Nat.le_refl _, hstarts, hkeeps.1.nest.trans hnest,
        Nat.le_trans hkeeps.2 (Nat.add_le_add_right hlag _), hkeeps.1.starts.trans hcount,
        hkeeps.1.unclosed.trans hunclosed⟩

theorem nonePasses_target {k : Nat} {off : Int} (hcont : Contained code)
    (hinstr : code[k]? = some instr) (hoff : instr.offset? = some off) :
    NonePasses (jumpTargets code) code ((k : Int) + off).toNat := by
  intro pending origin instr' _ _
  obtain ⟨hlo, hhi⟩ := hcont k instr off hinstr hoff
  have hmark := getD_jumpTargets (n := ((k : Int) + off).toNat) hinstr hoff (by omega) (by omega)
  rw [PendingOpen.pass?, hmark]
  simp

namespace Block

/-! ## Moved starts of captures -/

theorem movedPlace_below_within (h : NonePasses targets code n) :
    (movedPlace targets code place n).Below ((place n).within (.past 0)) := by
  rw [Place.within_past_zero]
  exact movedPlace_below h

theorem fits_kept (hfits : FitsFrom program rules place 0 code) (hcont : Contained code)
    (hlt : n < code.length) (hpending : pendingAt (jumpTargets code) code (n + 1) = none)
    (hmoved : (PegMachine.moveOpens code)[n]? = some instr) :
    instr.Fits program rules (movedPlace (jumpTargets code) code place) n := by
  have haligned := aligned_moveOpens code
  have hinstr : code[n]? = some code[n] := List.getElem?_eq_getElem hlt
  have hnone : NonePasses (jumpTargets code) code n := by
    rcases pendingAt_cases (jumpTargets code) code n with hnone |
      ⟨_, _, _, _, hpending', hinstr', hpass⟩
    · exact hnone
    · rw [pendingAt_of_pass hpending' hinstr' hpass] at hpending
      cases hpending
  have hstart : code[n].start? = none := by
    rw [pendingAt_of_nonePasses hnone hinstr] at hpending
    exact Option.map_eq_none_iff.1 hpending
  have hkept := ((aligned_of_nonePasses haligned
    (aligned_pendingAt haligned (Nat.le_of_lt hlt)) hnone).keep hinstr hstart).1
  rw [hmoved] at hkept
  cases hkept
  have hat := hfits n _ hinstr
  rw [Nat.zero_add] at hat
  refine hat.transfer (.past 0) ?_ (movedPlace_below_within ?_) fun off hoff =>
    movedPlace_below_within (nonePasses_target hcont hinstr hoff)
  · rw [Place.within_past_zero, movedPlace, hpending]
  · intro pending origin instr' hpending'
    rw [hpending] at hpending'
    cases hpending'

theorem fits_written (hfits : FitsFrom program rules place 0 code) (hlt : n < code.length)
    (hpending : pendingAt (jumpTargets code) code (n + 1) = some (pending, origin))
    (hnone : NonePasses (jumpTargets code) code (n + 1))
    (hmoved : (PegMachine.moveOpens code)[n]? = some instr) :
    instr.Fits program rules (movedPlace (jumpTargets code) code place) n := by
  have hahead := aligned_pendingAt (aligned_moveOpens code) (Nat.succ_le_of_lt hlt)
  rw [hpending] at hahead
  obtain ⟨hwritten, -⟩ := hahead.write fun instr' hinstr' =>
    hnone pending origin instr' hpending hinstr'
  rw [hmoved] at hwritten
  cases hwritten
  refine (fits_pendingAt hfits hpending).transfer (.past 0) ?_ (movedPlace_below_within hnone)
    fun off hoff => ?_
  · rw [Place.within_past_zero, movedPlace, hpending]
    rfl
  · cases hoff

/-- The start of a capture changes places with a check that it moves past. -/
theorem fits_passed {check : Instr} {pending' : PendingOpen} (hlt : n < code.length)
    (hpending : pendingAt (jumpTargets code) code (n + 1) = some (pending, origin))
    (hcheck : code[n + 1]? = some check)
    (hpass : PendingOpen.pass? (jumpTargets code) (n + 1) check (some pending) = some pending')
    (hmoved : (PegMachine.moveOpens code)[n]? = some instr) :
    instr.Fits program rules (movedPlace (jumpTargets code) code place) n := by
  have hahead := aligned_pendingAt (aligned_moveOpens code) (Nat.succ_le_of_lt hlt)
  rw [hpending] at hahead
  obtain ⟨hpassed, -⟩ := hahead.pass hcheck hpass
  rw [hmoved] at hpassed
  cases hpassed
  have hplace : movedPlace (jumpTargets code) code place n =
      { place origin with lag := pending.back } := by
    rw [movedPlace, hpending]
  have hplace' : movedPlace (jumpTargets code) code place (n + 1) =
      { place origin with lag := pending'.back } := by
    rw [movedPlace, pendingAt_of_pass hpending hcheck hpass]
  obtain ⟨hischeck, rfl⟩ := PendingOpen.pass?_eq_some hpass
  have hkeeps : Place.Keeps { place origin with lag := pending.back }
      { place origin with lag := pending.back + instr.step } := ⟨⟨rfl, rfl⟩, rfl⟩
  rcases Instr.isCheck_iff.1 hischeck with ⟨k, rfl⟩ | ⟨b, rfl⟩ | ⟨s, rfl⟩ <;>
  · rw [Instr.Fits, hplace, hplace']
    exact ⟨hkeeps, Nat.le_refl _, fun hne => absurd rfl hne⟩

/-- **Code stays nested when the starts of captures are moved.** -/
theorem Placing.moveOpens (h : Placing program rules code place p q) (hp : p.lag = 0)
    (hcont : Contained code) :
    Placing program rules (PegMachine.moveOpens code)
      (movedPlace (jumpTargets code) code place) p q := by
  refine ⟨?_, ?_, fun n instr hmoved => ?_⟩
  · have hzero : NonePasses (jumpTargets code) code 0 := by
      intro pending origin instr hpending
      cases hpending
    have hbelow : (movedPlace (jumpTargets code) code place 0).Below (place 0) :=
      movedPlace_below hzero
    rw [h.entry] at hbelow
    exact Place.ext hbelow.nest ((Nat.le_zero.1 (hp ▸ hbelow.lag)).trans hp.symm) hbelow.starts
      hbelow.unclosed
  · rw [length_moveOpens, movedPlace, pendingAt, List.getElem?_eq_none (Nat.le_refl _)]
    exact h.exit
  rw [Nat.zero_add]
  have hlt : n < code.length := by
    rw [← length_moveOpens]
    exact (List.getElem?_eq_some_iff.1 hmoved).1
  cases hpending : pendingAt (jumpTargets code) code (n + 1) with
  | none => exact fits_kept h.fits hcont hlt hpending hmoved
  | some found =>
    obtain ⟨pending, origin⟩ := found
    rcases pendingAt_cases (jumpTargets code) code (n + 1) with hnone |
      ⟨pending', origin', check, pending'', hpending', hcheck, hpass⟩
    · exact fits_written h.fits hlt hpending hnone hmoved
    · rw [hpending] at hpending'
      cases hpending'
      exact fits_passed hlt hpending hcheck hpass hmoved

/-! ## Threaded jumps -/

theorem landsIn_of_leads {nest : Nest} {k stop : Nat} (hfits : FitsFrom program rules place 0 code)
    (hleads : Leads code k stop) (h : Place.LandsIn place k nest) :
    Place.LandsIn place stop nest := by
  induction hleads with
  | refl => exact h
  | jump hjump hmid _ ih =>
    have hat := (hfits _ _ hjump).2
    rw [Nat.zero_add, hmid] at hat
    refine ih ⟨hat.nest.trans ?_, hat.lag⟩
    simpa using h.nest

/-- **The places stay the same when jumps are threaded.** -/
theorem Placing.threaded {done : Array Instr} (h : Placing program rules code place p q)
    (hthreaded : AllThreaded code done) : Placing program rules done.toList place p q := by
  refine ⟨h.entry, ?_, fun k instr' hk => ?_⟩
  · rw [Array.length_toList, hthreaded.1]
    exact h.exit
  · rw [Array.getElem?_toList] at hk
    obtain ⟨instr, hinstr, hthread⟩ := hthreaded.getElem? hk
    have hfits := h.fits k instr hinstr
    rw [Nat.zero_add] at hfits ⊢
    cases hthread with
    | same => exact hfits
    | @jump off off' n n' hoff hn hn' hleads =>
      -- the instruction stays where it is, only its jump lands elsewhere
      have hland : ∀ {nest}, Place.LandsIn place (k + off) nest →
          Place.LandsIn place (k + off') nest := by
        intro nest hland
        rw [hn] at hland
        rw [hn']
        exact landsIn_of_leads h.fits hleads hland
      cases instr with
      | any m d | char b d | set s d =>
        rw [Instr.offset?] at hoff
        split at hoff
        · cases hoff
        · next hne =>
          cases hoff
          rw [Instr.withOffset, if_neg hne]
          exact ⟨hfits.1, hfits.2.1, fun _ => hland (hfits.2.2 hne)⟩
      | choice d back =>
        cases hoff
        exact ⟨hfits.1, hfits.2.1, hfits.2.2.1, hfits.2.2.2.1, hland hfits.2.2.2.2⟩
      | jump d =>
        cases hoff
        exact ⟨hfits.1, hland hfits.2⟩
      | call d =>
        cases hoff
        exact ⟨hfits.1, hfits.2.1, hland hfits.2.2⟩
      | commit d | backCommit d =>
        cases hoff
        obtain ⟨hbeside, outer, hnest, htarget⟩ := hfits
        exact ⟨hbeside, outer, hnest, hland htarget⟩
      | partialCommit d =>
        cases hoff
        exact ⟨hfits.1, hfits.2.1, hland hfits.2.2⟩
      | _ => cases hoff

end Block

end PegMachine
