import PegMachine.Compile
import PegMachine.Proofs.Blocks.Steps

/-!
# Linked grammars

* `startsFrom`, `Block.ruleAddress`: the addresses of rules that are laid out one after another.
* `ReturnsAt`: code that only returns.
* `LinkedAs`: what becomes of an instruction when open calls are linked.
* `RuleAt`: the block of a rule stands in linked code.
* `Aim.AnswersAt`, `AnswersAt`: the code at an address comes to an aim, or answers, as a rule does that
  returns.
* `RuleAt.answersAt`: the code of a rule comes to an aim where the rules that it calls do.
* **`Block.runs_link`**: the code of a grammar answers as its start rule does.
-/

namespace PegMachine

open Block

/-! ## Layout -/

/-- The addresses of blocks put one after another, each with a return behind it. -/
def startsFrom (start : Nat) : List Block → List Nat
  | [] => []
  | body :: rest => start :: startsFrom (start + body.length + 1) rest

/-- The address of the code of a rule. -/
def Block.ruleAddress (bodies : List Block) (rule : Nat) : Nat :=
  (startsFrom 2 bodies).toArray.getD rule 0

/-- The blocks of the rules, each with a return behind it. -/
def ruleBlocks (bodies : List Block) : Block :=
  bodies.flatMap fun body => body ++ [.ret]

section

variable {bodies : List Block} {body : Block} {start k : Nat}

theorem foldl_layOut (bodies : List Block) (done : Array Nat) (start : Nat) :
    bodies.foldl (fun (addresses, next) body => (addresses.push next, next + body.length + 1))
        (done, start) =
      (done ++ (startsFrom start bodies).toArray, start + (ruleBlocks bodies).length) := by
  induction bodies generalizing done start with
  | nil => simp [startsFrom, ruleBlocks]
  | cons body rest ih =>
    rw [List.foldl_cons, ih]
    simp [startsFrom, ruleBlocks]
    omega

theorem layOut_eq (start : Nat) (bodies : List Block) :
    layOut start bodies =
      ((startsFrom start bodies).toArray, start + (ruleBlocks bodies).length) := by
  rw [layOut, foldl_layOut]
  simp

theorem standsAt_startsFrom (start : Nat) (hbody : bodies[k]? = some body) :
    ∃ address, (startsFrom start bodies)[k]? = some address ∧
      ∀ front : Block, front.length = start →
        StandsAt (front ++ ruleBlocks bodies) address (body ++ [.ret]) := by
  induction bodies generalizing start k with
  | nil => simp at hbody
  | cons first rest ih =>
    cases k with
    | zero =>
      cases hbody
      exact ⟨start, rfl, fun front hfront => ⟨front, ruleBlocks rest, by simp [ruleBlocks], hfront⟩⟩
    | succ k =>
      obtain ⟨address, haddress, hstands⟩ := ih (start + first.length + 1) hbody
      refine ⟨address, haddress, fun front hfront => ?_⟩
      have := hstands (front ++ first ++ [.ret]) (by simp [hfront]; omega)
      simpa [ruleBlocks] using this

theorem contained_ruleBlocks (hcont : ∀ body ∈ bodies, Contained body) :
    Contained (ruleBlocks bodies) := by
  refine contained_flatten fun block hblock => ?_
  obtain ⟨body, hbody, rfl⟩ := List.mem_map.1 hblock
  exact contained_append (hcont body hbody) (contained_of_offset?_eq_none (by simp [Instr.offset?]))

theorem startsFrom_le {address : Nat} (h : address ∈ startsFrom start bodies) :
    address ≤ start + (ruleBlocks bodies).length := by
  induction bodies generalizing start with
  | nil => cases h
  | cons first rest ih =>
    rw [startsFrom, List.mem_cons] at h
    rcases h with rfl | h
    · omega
    · have := ih h
      simp [ruleBlocks] at this ⊢
      omega

theorem Block.ruleAddress_le (bodies : List Block) (rule : Nat) :
    ruleAddress bodies rule ≤ 2 + (ruleBlocks bodies).length := by
  rw [ruleAddress, Array.getD_eq_getD_getElem?, List.getElem?_toArray]
  cases haddress : (startsFrom 2 bodies)[rule]? with
  | none => exact Nat.zero_le _
  | some address => exact startsFrom_le (List.mem_of_getElem? haddress)

end

/-! ## Linking -/

/-- Code that jumps to a return. -/
inductive ReturnsAt (code : Block) : Nat → Prop where
  | ret {address : Nat} (h : code[address]? = some .ret) : ReturnsAt code address
  | jump {address n : Nat} {off : Int} (h : code[address]? = some (.jump off))
      (hn : (address : Int) + off = n) (hret : ReturnsAt code n) : ReturnsAt code address

/-- What became of an instruction when the calls were linked. -/
inductive LinkedAs (addresses : Array Nat) (code : Block) (address : Nat) : Instr → Prop where
  | same {instr : Instr} (h : ∀ rule, instr ≠ .openCall rule)
      (hcode : code[address]? = some instr) : LinkedAs addresses code address instr
  | call {rule : Nat} (hcode : code[address]? = some (.call (addresses.getD rule 0 - address))) :
      LinkedAs addresses code address (.openCall rule)
  /-- A call in front of a return. -/
  | tail {rule : Nat} (hcode : code[address]? = some (.jump (addresses.getD rule 0 - address)))
      (hret : ReturnsAt code (address + 1)) : LinkedAs addresses code address (.openCall rule)

section

variable {addresses : Array Nat} {code : Array Instr} {raw : Block} {instr : Instr}
  {address n : Nat}

theorem returnsAt_of_returnsAt (fuel : Nat) {target : Int}
    (h : PegMachine.returnsAt code fuel target = true) :
    ∃ address : Nat, target = address ∧ ReturnsAt code.toList address := by
  induction fuel generalizing target with
  | zero => cases h
  | succ fuel ih =>
    rw [PegMachine.returnsAt] at h
    split at h
    · cases h
    · next hneg =>
      obtain ⟨address, rfl⟩ := Int.eq_ofNat_of_zero_le (Int.not_lt.1 hneg)
      rw [Int.toNat_natCast] at h
      split at h
      · next off hinstr =>
        obtain ⟨next, hnext, hret⟩ := ih h
        exact ⟨address, rfl, .jump (by simpa using hinstr) hnext hret⟩
      · next hinstr => exact ⟨address, rfl, .ret (by simpa using hinstr)⟩
      · cases h

theorem linkCall_getElem? (h : n ≠ address) : (linkCall addresses code address)[n]? = code[n]? := by
  rw [linkCall]
  split
  · rw [Array.getElem?_setIfInBounds_ne (Ne.symm h)]
  · rfl

theorem size_linkCall : (linkCall addresses code address).size = code.size := by
  rw [linkCall]
  split <;> simp

theorem ReturnsAt.linkCall (h : ReturnsAt code.toList n) :
    ReturnsAt (PegMachine.linkCall addresses code address).toList n := by
  have keep : ∀ {k : Nat} {instr : Instr}, code.toList[k]? = some instr →
      (∀ rule, instr ≠ .openCall rule) →
      (PegMachine.linkCall addresses code address).toList[k]? = some instr := by
    intro k instr hk hne
    rw [Array.getElem?_toList] at hk ⊢
    by_cases heq : k = address
    · subst heq
      rw [PegMachine.linkCall]
      split
      · next rule hcall =>
        rw [hk] at hcall
        cases hcall
        exact absurd rfl (hne rule)
      · exact hk
    · rwa [linkCall_getElem? heq]
  induction h with
  | ret h => exact .ret (keep h (by simp))
  | jump h hn _ ih => exact .jump (keep h (by simp)) hn ih

theorem linkedAs_linkCall (h : code[address]? = some instr) :
    LinkedAs addresses (linkCall addresses code address).toList address instr := by
  by_cases hcall : ∃ rule, instr = .openCall rule
  · obtain ⟨rule, rfl⟩ := hcall
    have hlt := (Array.getElem?_eq_some_iff.1 h).1
    by_cases hret : returnsAt code code.size (address + 1) = true
    · have hlink : linkCall addresses code address =
          code.setIfInBounds address (.jump (addresses.getD rule 0 - address)) := by
        rw [linkCall, h]
        simp [hret]
      refine .tail ?_ ?_
      · simp [hlink, hlt]
      · obtain ⟨next, hnext, hreturns⟩ := returnsAt_of_returnsAt _ hret
        have : next = address + 1 := by omega
        exact this ▸ hreturns.linkCall
    · have hlink : linkCall addresses code address =
          code.setIfInBounds address (.call (addresses.getD rule 0 - address)) := by
        rw [linkCall, h]
        simp [hret]
      refine .call ?_
      simp [hlink, hlt]
  · have hne : ∀ rule, instr ≠ .openCall rule := fun rule he => hcall ⟨rule, he⟩
    refine .same hne ?_
    rw [linkCall, h]
    cases instr with
    | openCall rule => exact absurd rfl (hne rule)
    | _ => simpa using h

theorem LinkedAs.linkCall (h : LinkedAs addresses code.toList n instr) (hne : n ≠ address) :
    LinkedAs addresses (PegMachine.linkCall addresses code address).toList n instr := by
  have keep : (PegMachine.linkCall addresses code address).toList[n]? = code.toList[n]? := by
    simpa using linkCall_getElem? hne
  cases h with
  | same h hcode => exact .same h (keep.trans hcode)
  | call hcode => exact .call (keep.trans hcode)
  | tail hcode hret => exact .tail (keep.trans hcode) hret.linkCall

/-- The instructions at the first `n` addresses have been linked, the others not yet. -/
theorem linkedAs_foldl (addresses : Array Nat) (raw : Block) (n : Nat) :
    let code := (List.range n).foldl (PegMachine.linkCall addresses) raw.toArray
    code.size = raw.length ∧ ∀ (k : Nat) (instr : Instr), raw[k]? = some instr →
      (k < n → LinkedAs addresses code.toList k instr) ∧ (n ≤ k → code[k]? = some instr) := by
  induction n with
  | zero => simp
  | succ n ih =>
    obtain ⟨hsize, hlinked⟩ := ih
    rw [List.range_succ, List.foldl_append]
    refine ⟨size_linkCall.trans hsize, fun k instr hk => ⟨fun hlt => ?_, fun hle => ?_⟩⟩
    · obtain ⟨hbefore, hbehind⟩ := hlinked k instr hk
      by_cases heq : k = n
      · subst heq
        exact linkedAs_linkCall (hbehind (Nat.le_refl _))
      · exact (hbefore (by omega)).linkCall heq
    · exact (linkCall_getElem? (by omega)).trans ((hlinked k instr hk).2 (by omega))

end

/-- The code at an address makes a call of the code at another one: by a call, or by a jump in front
of a return. -/
inductive LinksTo (code : Block) (address target : Nat) : Prop where
  | call {off : Int} (hcode : code[address]? = some (.call off))
      (hn : (address : Int) + off = target) : LinksTo code address target
  | tail {off : Int} (hcode : code[address]? = some (.jump off))
      (hn : (address : Int) + off = target) (hret : ReturnsAt code (address + 1)) :
      LinksTo code address target

/-- The block of a rule stands in linked code, with a return behind it. Calls of rules lead to where
the rules start. -/
structure RuleAt (code : Block) (starts : Nat → Nat) (address : Nat) (body : Block) : Prop where
  keeps : ∀ (k : Nat) (instr : Instr), body[k]? = some instr →
    (∀ rule, instr ≠ .openCall rule) → code[address + k]? = some instr
  links : ∀ k rule, body[k]? = some (.openCall rule) → LinksTo code (address + k) (starts rule)
  returns : code[address + body.length]? = some .ret

section

variable {addresses : Array Nat} {code raw body : Block} {starts : Nat → Nat} {address rule : Nat}

theorem LinkedAs.linksTo (h : LinkedAs addresses code address (.openCall rule)) :
    LinksTo code address (addresses.getD rule 0) := by
  cases h with
  | same h => exact absurd rfl (h rule)
  | call hcode => exact .call hcode (by omega)
  | tail hcode hret => exact .tail hcode (by omega) hret

theorem ruleAt_of_linkedAs (hat : StandsAt raw address (body ++ [.ret]))
    (hlinked : ∀ (k : Nat) (instr : Instr), raw[k]? = some instr →
      LinkedAs addresses code k instr) : RuleAt code (addresses.getD · 0) address body where
  keeps k instr hk hne := by
    cases hlinked _ _ (hat.left.getElem?_eq_some hk) with
    | same _ hcode => exact hcode
    | call | tail => exact absurd rfl (hne _)
  links k rule hk := (hlinked _ _ (hat.left.getElem?_eq_some hk)).linksTo
  returns := by
    cases hlinked _ _ hat.right.head with
    | same _ hcode => exact hcode

theorem RuleAt.carries (h : RuleAt code starts address body) (hcont : Contained body) :
    Carries code address 0 body := by
  refine ⟨fun k instr _ => h.keeps k instr, fun k off back _ hlt hcode => ?_, by simp,
    fun k instr off hk hoff => by simpa using (hcont k instr off hk hoff).1⟩
  have hk : body[k]? = some body[k] := List.getElem?_eq_getElem hlt
  by_cases hcall : ∃ rule, body[k] = .openCall rule
  · obtain ⟨rule, hrule⟩ := hcall
    rw [hrule] at hk
    cases h.links k rule hk with
    | call hcode' | tail hcode' =>
      rw [hcode'] at hcode
      cases hcode
  · rw [hk, ← h.keeps k _ hk fun rule hrule => hcall ⟨rule, hrule⟩, hcode]

end

/-! ## Rules that return -/

namespace Aim

variable (aim : Aim) (m : Setting) (code : Block) (o : Origin)

/-- Any return comes to the aim. -/
def Returns (frames : List Pending) (pos : Nat) (captures : Array Entry) : Prop :=
  ∀ k, code[k]? = some .ret → Sound m o ⟨k, pos, frames, captures⟩ →
    aim.holds ⟨k, pos, frames, captures⟩

/-- After the answer of a rule the code comes to the aim: it returns when there was a match, and
goes back to the latest choice after a failure. -/
def ReturnsTo (frames : List Pending) (captures : Array Entry) : Answer → Prop
  | .matched pos captures' => aim.Returns m code o frames pos captures'
  | .failed => aim.Backtracks frames captures
  | .crashed fault => aim.crashed fault

/-- The code at an address comes to the aim if it does after the answer `r`, in room for `k` frames
more. -/
def AnswersAt (address pos : Nat) (captures : Array Entry) (r : Answer) (k : Nat) : Prop :=
  ∀ frames : List Pending, o.pos ≤ pos → Extends o.captures captures →
    LevelsBelow frames captures.size → frames.length + k ≤ o.room →
    aim.ReturnsTo m code o frames captures r → aim.holds ⟨address, pos, frames, captures⟩

/-- Where code only returns, any return comes to the aim. -/
def PassesReturns : Prop :=
  ∀ {address pos : Nat} {frames : List Pending} {captures : Array Entry}, ReturnsAt code address →
    aim.holds ⟨address, pos, frames, captures⟩ → aim.Returns m code o frames pos captures

end Aim

/-- The code at an address answers with `r` in room for `k` frames more, then returns. -/
def AnswersAt (m : Setting) (answers : Answers) (code : Block) (address pos : Nat)
    (captures : Array Entry) (r : Answer) (k : Nat) : Prop :=
  ∀ (o : Origin) (R : Answer),
    (Aim.ends m answers code code o R).AnswersAt m code o address pos captures r k

section

variable {m : Setting} {answers answers' : Answers} {code body : Block} {o : Origin}
  {starts : Nat → Nat} {address pos room : Nat} {captures : Array Entry} {frames : List Pending}
  {r R : Answer} {aim : Aim} {good : Config → Prop}

/-- A run at code that returns goes on where the frame on top leads to. -/
theorem ReturnsAt.run (hret : ReturnsAt code address)
    (h : Run m answers code code o ⟨address, pos, frames, captures⟩ R) :
    ∃ target owner rest, frames = ⟨.ret target, owner⟩ :: rest ∧
      Run m answers code code o ⟨target, pos, rest, captures⟩ R := by
  induction hret with
  | ret hinstr =>
    obtain ⟨target, owner, rest, rfl⟩ := h.ready hinstr
    exact ⟨target, owner, rest, rfl, h.tail hinstr rfl⟩
  | jump hinstr hn _ ih =>
    refine ih (h.tail hinstr ?_)
    simp [Setting.move, Config.perform, Config.target, hn]

theorem Aim.passesReturns_ends :
    (Aim.ends m answers code code o R).PassesReturns m code o := by
  intro address pos frames captures hret h k hk hs
  obtain ⟨target, owner, rest, rfl, hrun⟩ := hret.run h
  exact .step_ret hk hs hrun

/-- A linked call comes to the aim as the code of the rule does. -/
theorem LinksTo.callsThrough {rule target : Nat} (hlinks : LinksTo code address target)
    (hback : aim.TakenBack m answers code code o good) (hreturns : aim.PassesReturns m code o)
    (hgood : ∀ c r k, c.address = address → Sound m o c →
      answers' rule c.pos c.captures = some (r, k) → good c)
    (hret : ∀ c, code[c.address]? = some .ret → good c)
    (hanswers : ∀ pos captures r k, answers' rule pos captures = some (r, k) →
      aim.AnswersAt m code o target pos captures r k) :
    aim.CallsThrough m o answers' rule address := by
  rintro ⟨_, pos, frames, captures⟩ r k rfl hs hanswer hroom hcont
  have hrule := hanswers pos captures r k hanswer
  have hc := hgood _ r k rfl hs hanswer
  cases hlinks with
  | @call off hcode hn =>
    refine hback.step hc hcode hs trivial ?_
    have htarget : (Int.toNat (_ + off)) = target := (congrArg Int.toNat hn).trans (Int.toNat_natCast _)
    rw [Setting.move, Config.perform, Config.target, htarget]
    refine hrule _ hs.pos_ge hs.keeps (levelsBelow_cons_ret.2 hs.levels)
      (by dsimp only at hroom ⊢; rw [List.length_cons]; omega) ?_
    cases r with
    | matched pos' captures' =>
      exact fun k hk hs' => hback.step (hret _ hk) hk hs' ⟨_, _, _, rfl⟩ hcont
    | failed | crashed => exact hcont
  | @tail off hcode hn hreturn =>
    refine hback.step hc hcode hs trivial ?_
    have htarget : (Int.toNat (_ + off)) = target := (congrArg Int.toNat hn).trans (Int.toNat_natCast _)
    rw [Setting.move, Config.perform, Config.target, htarget]
    refine hrule frames hs.pos_ge hs.keeps hs.levels (by dsimp only at hroom; omega) ?_
    cases r with
    | matched pos' captures' => exact hreturns hreturn hcont
    | failed | crashed => exact hcont

theorem RuleAt.answersAt (hat : RuleAt code starts address body)
    (hback : aim.TakenBack m answers code code o good) (hcont : Contained body)
    (h : Block.Runs m answers' room body pos captures r)
    (hgood : ∀ c instr frames, body[c.address]? = some instr → (∀ rule, instr ≠ .openCall rule) →
      Sound m ⟨pos, captures, room⟩ c → good (c.embed address frames))
    (hcalls : ∀ k rule, body[k]? = some (.openCall rule) →
      aim.CallsThrough m o answers' rule (address + k)) :
    aim.AnswersAt m code o address pos captures r room := by
  intro frames ho hx hlevels hroom hreturns
  refine hback.carried (o := ⟨pos, captures, room⟩) (hat.carries hcont) ho hx hlevels
    (by dsimp only; omega) (fun c instr _ => hgood c instr frames)
    (fun k rule _ => hcalls k rule) h (Nat.zero_le _) nofun ?_
  cases r with
  | matched pos' captures' =>
    obtain ⟨hge, hle, hext⟩ := Run.matched_sound h
    exact hreturns _ hat.returns ⟨Nat.le_trans ho hge, hle, hx.trans hext,
      hlevels.mono hext.size_le, Nat.le_trans (Nat.le_add_right _ _) hroom⟩
  | failed | crashed => exact hreturns

theorem Block.Runs.answersAt (h : Runs m answers' room body pos captures r)
    (hat : RuleAt code starts address body) (hcont : Contained body)
    (hanswers : ∀ rule pos captures r k, answers' rule pos captures = some (r, k) →
      AnswersAt m answers code (starts rule) pos captures r k) :
    AnswersAt m answers code address pos captures r room := by
  intro o R
  have hback : (Aim.ends m answers code code o R).TakenBack m answers code code o fun _ => True :=
    Aim.takenBack_ends
  refine hat.answersAt hback hcont h (fun _ _ _ _ _ _ => trivial) fun k rule hk => ?_
  exact (hat.links k rule hk).callsThrough hback Aim.passesReturns_ends
    (fun _ _ _ _ _ _ => trivial) (fun _ _ => trivial) fun pos captures r k hanswer =>
      hanswers rule pos captures r k hanswer o R

/-! ## Grammars -/

/-- The code of a grammar before its calls are linked. -/
def unlinked (toStart toEnd : Int) (bodies : List Block) : Block :=
  .call toStart :: .jump toEnd :: ruleBlocks bodies

theorem link_ok {startRule : Nat} {bodies : List Block} : link startRule bodies = .ok code ↔
    (startsFrom 2 bodies).toArray.getD startRule 0 ≤ maxOffset ∧
      1 + (ruleBlocks bodies).length ≤ maxOffset ∧
      code = ((List.range (2 + (ruleBlocks bodies).length)).foldl
        (linkCall (startsFrom 2 bodies).toArray)
        (unlinked ((startsFrom 2 bodies).toArray.getD startRule 0 : Nat)
          (1 + (ruleBlocks bodies).length : Nat) bodies).toArray).toList := by
  rw [link, layOut_eq]
  dsimp only
  rw [checkedOffset_bind, checkedOffset_bind,
    show 2 + (ruleBlocks bodies).length - 1 = 1 + (ruleBlocks bodies).length by omega]
  refine and_congr_right fun _ => and_congr_right fun _ => ?_
  have hlength : (unlinked ((startsFrom 2 bodies).toArray.getD startRule 0 : Nat)
      (1 + (ruleBlocks bodies).length : Nat) bodies).length = 2 + (ruleBlocks bodies).length := by
    simp only [unlinked, List.length_cons]
    omega
  rw [← hlength]
  exact ⟨fun h => (Except.ok.inj h).symm, fun h => congrArg _ h.symm⟩

theorem link_eq {startRule : Nat} {bodies : List Block} (h : link startRule bodies = .ok code) :
    ∃ toStart toEnd : Nat, toStart = (startsFrom 2 bodies).toArray.getD startRule 0 ∧
      toEnd = 1 + (ruleBlocks bodies).length ∧
      code.length = (unlinked toStart toEnd bodies).length ∧
      ∀ (k : Nat) (instr : Instr), (unlinked toStart toEnd bodies)[k]? = some instr →
        LinkedAs (startsFrom 2 bodies).toArray code k instr := by
  obtain ⟨-, -, rfl⟩ := link_ok.1 h
  obtain ⟨hsize, hlinked⟩ := linkedAs_foldl (startsFrom 2 bodies).toArray
    (unlinked ((startsFrom 2 bodies).toArray.getD startRule 0 : Nat)
      (1 + (ruleBlocks bodies).length : Nat) bodies) (2 + (ruleBlocks bodies).length)
  refine ⟨_, _, rfl, rfl, Array.length_toList.trans hsize, fun k instr hk => ?_⟩
  have hlt := (List.getElem?_eq_some_iff.1 hk).1
  simp only [unlinked, List.length_cons] at hlt
  exact (hlinked k instr hk).1 (by omega)

theorem head_link {startRule : Nat} {bodies : List Block} (h : link startRule bodies = .ok code) :
    code[0]? = some (.call (ruleAddress bodies startRule)) := by
  obtain ⟨toStart, toEnd, rfl, -, -, hlinked⟩ := link_eq h
  cases hlinked 0 _ rfl with
  | same _ hcode => exact hcode

theorem standsAt_unlinked {bodies : List Block} {toStart toEnd : Int} {rule : Nat}
    (h : bodies[rule]? = some body) :
    StandsAt (unlinked toStart toEnd bodies) ((startsFrom 2 bodies).toArray.getD rule 0)
      (body ++ [.ret]) := by
  obtain ⟨address, haddress, hstands⟩ := standsAt_startsFrom 2 h
  have : (startsFrom 2 bodies).toArray.getD rule 0 = address := by
    simp [Array.getD_eq_getD_getElem?, haddress]
  rw [this]
  exact hstands [.call toStart, .jump toEnd] rfl

theorem ruleAt_link {startRule rule : Nat} {bodies : List Block}
    (hcode : link startRule bodies = .ok code) (h : bodies[rule]? = some body) :
    RuleAt code (ruleAddress bodies) (ruleAddress bodies rule) body := by
  obtain ⟨toStart, toEnd, -, -, -, hlinked⟩ := link_eq hcode
  exact ruleAt_of_linkedAs (standsAt_unlinked h) hlinked

/-- **The code of a grammar answers as its start rule does.** -/
theorem Block.runs_link {startRule : Nat} {bodies : List Block}
    (hcode : link startRule bodies = .ok code) (hpos : pos ≤ m.subject.size)
    (h : AnswersAt m answers code (ruleAddress bodies startRule) pos captures r room)
    (hmatched : ∀ pos' captures', r = .matched pos' captures' →
      pos ≤ pos' ∧ pos' ≤ m.subject.size ∧ Extends captures captures') :
    Block.Runs m answers (room + 1) code pos captures r := by
  obtain ⟨toStart, toEnd, rfl, rfl, hlength, hlinked⟩ := link_eq hcode
  have hcall := head_link hcode
  have hjump : code[1]? = some (.jump (1 + (ruleBlocks bodies).length : Nat)) := by
    cases hlinked 1 _ rfl with
    | same _ hcode => exact hcode
  have hs : Sound m ⟨pos, captures, room + 1⟩ ⟨0, pos, [], captures⟩ :=
    ⟨Nat.le_refl _, hpos, .refl _, levelsBelow_nil _, Nat.zero_le _⟩
  refine .step_call hcall hs (Int.zero_add _) ?_
  refine h _ _ _ (Nat.le_refl _) (.refl _) (levelsBelow_cons_ret.2 (levelsBelow_nil _))
    (by simp [Nat.add_comm]) ?_
  cases r with
  | matched pos' captures' =>
    obtain ⟨hge, hle, hext⟩ := hmatched pos' captures' rfl
    refine fun k hk hs => .step_ret hk hs ?_
    refine .step_jump (n := code.length) hjump ⟨hge, hle, hext, levelsBelow_nil _, Nat.zero_le _⟩ ?_
      (.exit rfl rfl ⟨hge, hle, hext, levelsBelow_nil _, Nat.zero_le _⟩)
    rw [hlength, unlinked]
    simp
    omega
  | failed | crashed => rfl

/-- An instruction of the code of a grammar is that of a rule, or a call, a jump or a return. None is
an open call. -/
theorem Block.mem_link {startRule : Nat} {bodies : List Block} {instr : Instr}
    (hcode : link startRule bodies = .ok code) (hmem : instr ∈ code) :
    (∃ off, instr = .call off) ∨ (∃ off, instr = .jump off) ∨ instr = .ret ∨
      (∃ body ∈ bodies, instr ∈ body) ∧ ∀ rule, instr ≠ .openCall rule := by
  obtain ⟨toStart, toEnd, -, -, hlength, hlinked⟩ := link_eq hcode
  obtain ⟨k, hk⟩ := List.getElem?_of_mem hmem
  have hlt := (List.getElem?_eq_some_iff.1 hk).1
  rw [hlength] at hlt
  have hraw : (unlinked toStart toEnd bodies)[k]? = some (unlinked toStart toEnd bodies)[k] :=
    List.getElem?_eq_getElem hlt
  have hlinkedAs := hlinked k _ hraw
  generalize (unlinked toStart toEnd bodies)[k] = raw at hraw hlinkedAs
  cases hlinkedAs with
  | same hne hcode' =>
    rw [hk] at hcode'
    cases hcode'
    rcases List.mem_cons.1 (List.mem_of_getElem? hraw) with rfl | hmem
    · exact .inl ⟨_, rfl⟩
    · rcases List.mem_cons.1 hmem with rfl | hmem
      · exact .inr (.inl ⟨_, rfl⟩)
      · obtain ⟨body, hbody, hmem⟩ := List.mem_flatMap.1 hmem
        rcases List.mem_append.1 hmem with hmem | hmem
        · exact .inr (.inr (.inr ⟨⟨body, hbody, hmem⟩, hne⟩))
        · exact .inr (.inr (.inl (List.mem_singleton.1 hmem)))
  | call hcode' =>
    rw [hk] at hcode'
    cases hcode'
    exact .inl ⟨_, rfl⟩
  | tail hcode' =>
    rw [hk] at hcode'
    cases hcode'
    exact .inr (.inl ⟨_, rfl⟩)

theorem Block.not_mem_link {startRule rule : Nat} {bodies : List Block}
    (hcode : link startRule bodies = .ok code) : .openCall rule ∉ code := by
  intro hmem
  rcases Block.mem_link hcode hmem with ⟨_, h⟩ | ⟨_, h⟩ | h | ⟨-, h⟩
  · cases h
  · cases h
  · cases h
  · exact h rule rfl

theorem Block.contained_unlinked {toStart : Nat} {bodies : List Block}
    (hcont : ∀ body ∈ bodies, Contained body) (hstart : toStart ≤ 2 + (ruleBlocks bodies).length) :
    Contained (unlinked toStart (1 + (ruleBlocks bodies).length : Nat) bodies) := by
  refine jumpsWithin_cons.2 ⟨fun off hoff => ?_, jumpsWithin_cons.2 ⟨fun off hoff => ?_,
    (contained_ruleBlocks hcont).within (by simp) (by simp [unlinked]; omega)⟩⟩
  · cases hoff
    simp [unlinked]
    omega
  · cases hoff
    simp [unlinked]
    omega

theorem Block.contained_link {startRule : Nat} {bodies : List Block}
    (hcode : link startRule bodies = .ok code) (hcont : ∀ body ∈ bodies, Contained body) :
    Contained code := by
  obtain ⟨toStart, toEnd, rfl, rfl, hlength, hlinked⟩ := link_eq hcode
  have haddress : ∀ rule, (startsFrom 2 bodies).toArray.getD rule 0 ≤ code.length := by
    intro rule
    have hle := ruleAddress_le bodies rule
    rw [ruleAddress] at hle
    rw [hlength, unlinked]
    simp only [List.length_cons]
    omega
  have hraw := contained_unlinked hcont (ruleAddress_le bodies startRule)
  rw [ruleAddress] at hraw
  intro k instr off hk hoff
  have hlt := (List.getElem?_eq_some_iff.1 hk).1
  rw [hlength] at hlt
  have hlinkedAs := hlinked k _ (List.getElem?_eq_getElem hlt)
  generalize hraw' : (unlinked ((startsFrom 2 bodies).toArray.getD startRule 0 : Nat)
    (1 + (ruleBlocks bodies).length : Nat) bodies)[k] = rawInstr at hlinkedAs
  cases hlinkedAs with
  | same _ hcode' =>
    rw [hk] at hcode'
    cases hcode'
    rw [hlength]
    exact hraw k instr off (by rw [List.getElem?_eq_getElem hlt, hraw']) hoff
  | @call rule hcode' =>
    rw [hk] at hcode'
    cases hcode'
    cases hoff
    have := haddress rule
    constructor <;> push_cast <;> omega
  | @tail rule hcode' =>
    rw [hk] at hcode'
    cases hcode'
    cases hoff
    have := haddress rule
    constructor <;> push_cast <;> omega

end

end PegMachine
